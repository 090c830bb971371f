import AnnotatedSource.Proofs.TokenSeq.Contents
import Mathlib.Order.Bounds.Basic

/-!
Searches as scans.  In a sequence in order, which may hold tokens without width, every search
answers what looking at one token after another would: the last index before a span, the first one
behind it, the tokens inside it, and the tokens between two spans, whichever of the two comes first.
-/

set_option autoImplicit false
set_option relaxedAutoImplicit false

namespace AnnotatedSource.TokenSeq

/-- The indices of the tokens that stop at or before the start of a span. -/
def indicesBefore (sequence : TokenSeq) (target : Span) : Set Nat :=
  {index | ∃ token, sequence.get? index = some token ∧ token.span.Precedes target}

/-- The indices of the tokens that start at or after the stop of a span. -/
def indicesAfter (sequence : TokenSeq) (target : Span) : Set Nat :=
  {index | ∃ token, sequence.get? index = some token ∧ target.Precedes token.span}

def tokensInside (sequence : TokenSeq) (target : Span) : List Token :=
  sequence.tokens.toList.filter fun token => target.Encloses token.span

/-- The searches around a span answer as a scan of all tokens does. -/
structure ScansAround (sequence : TokenSeq) (target : Span) : Prop where
  indexBefore_iff : ∀ index, sequence.indexBefore? target = some index ↔
    IsGreatest (sequence.indicesBefore target) index
  indexBefore_none : sequence.indexBefore? target = none ↔ sequence.indicesBefore target = ∅
  indexAfter_iff : ∀ index, sequence.indexAfter? target = some index ↔
    IsLeast (sequence.indicesAfter target) index
  indexAfter_none : sequence.indexAfter? target = none ↔ sequence.indicesAfter target = ∅
  before_eq : sequence.before? target =
    (sequence.tokens.toList.filter fun token => token.span.Precedes target).getLast?
  after_eq : sequence.after? target =
    (sequence.tokens.toList.filter fun token => target.Precedes token.span).head?
  enclosed_eq : sequence.enclosed target = sequence.tokensInside target
  first_eq : sequence.first? target = (sequence.tokensInside target).head?
  last_eq : sequence.last? target = (sequence.tokensInside target).getLast?
  bounds_le : (sequence.enclosedBounds target).1 ≤ (sequence.enclosedBounds target).2
  bounds_le_size : (sequence.enclosedBounds target).2 ≤ sequence.size
  extract_eq : (sequence.tokens.extract (sequence.enclosedBounds target).1
    (sequence.enclosedBounds target).2).toList = sequence.tokensInside target

variable {sequence : TokenSeq}

theorem InOrder.indicesBefore_eq (inOrder : sequence.InOrder) (target : Span) :
    sequence.indicesBefore target = Set.Iio (sequence.endingBy target.start) := by
  ext index
  constructor
  · rintro ⟨token, found, before⟩
    exact (inOrder.lt_endingBy_iff found).2 before
  · intro counted
    obtain ⟨token, found⟩ := exists_get?_eq_some (Nat.lt_of_lt_of_le counted (endingBy_le_size _))
    exact ⟨token, found, (inOrder.lt_endingBy_iff found).1 counted⟩

theorem InOrder.indicesAfter_eq (inOrder : sequence.InOrder) (target : Span) :
    sequence.indicesAfter target =
      Set.Ico (sequence.startingBefore target.stop) sequence.size := by
  ext index
  constructor
  · rintro ⟨token, found, after⟩
    have starts : index < sequence.startingBefore target.stop ↔ _ :=
      inOrder.lt_startingBefore_iff found
    exact ⟨by omega, lt_size_of_get? found⟩
  · rintro ⟨behind, inside⟩
    obtain ⟨token, found⟩ := exists_get?_eq_some inside
    have starts : index < sequence.startingBefore target.stop ↔ _ :=
      inOrder.lt_startingBefore_iff found
    exact ⟨token, found, by omega⟩

theorem InOrder.indexBefore?_eq_some_iff (inOrder : sequence.InOrder) (target : Span)
    (index : Nat) :
    sequence.indexBefore? target = some index ↔
      IsGreatest (sequence.indicesBefore target) index := by
  rw [indexBefore?_eq_ppred, Nat.ppred_eq_some, inOrder.indicesBefore_eq target]
  constructor
  · intro count
    refine ⟨?_, ?_⟩
    · rw [Set.mem_Iio]
      omega
    · intro other counted
      rw [Set.mem_Iio] at counted
      omega
  · rintro ⟨counted, greatest⟩
    rw [Set.mem_Iio] at counted
    have last : sequence.endingBy target.start - 1 ≤ index := by
      apply greatest
      rw [Set.mem_Iio]
      omega
    omega

theorem InOrder.indexBefore?_eq_none_iff (inOrder : sequence.InOrder) (target : Span) :
    sequence.indexBefore? target = none ↔ sequence.indicesBefore target = ∅ := by
  rw [indexBefore?_eq_ppred, Nat.ppred_eq_none, inOrder.indicesBefore_eq target,
    Set.eq_empty_iff_forall_notMem]
  constructor
  · intro count index counted
    rw [Set.mem_Iio] at counted
    omega
  · intro empty
    have first := empty 0
    rw [Set.mem_Iio] at first
    omega

theorem InOrder.indexAfter?_eq_some_iff (inOrder : sequence.InOrder) (target : Span)
    (index : Nat) :
    sequence.indexAfter? target = some index ↔
      IsLeast (sequence.indicesAfter target) index := by
  rw [inOrder.indicesAfter_eq target, indexAfter?]
  by_cases more : sequence.startingBefore target.stop < sequence.size
  · have least : IsLeast (Set.Ico (sequence.startingBefore target.stop) sequence.size)
        (sequence.startingBefore target.stop) := isLeast_Ico more
    rw [if_pos more, Option.some.injEq]
    constructor
    · rintro rfl
      exact least
    · exact least.unique
  · rw [if_neg more]
    constructor
    · intro found
      contradiction
    · rintro ⟨⟨behind, inside⟩, -⟩
      omega

theorem InOrder.indexAfter?_eq_none_iff (inOrder : sequence.InOrder) (target : Span) :
    sequence.indexAfter? target = none ↔ sequence.indicesAfter target = ∅ := by
  rw [inOrder.indicesAfter_eq target, Set.Ico_eq_empty_iff, indexAfter?]
  simp

theorem InOrder.scansAround (inOrder : sequence.InOrder) (target : Span) :
    sequence.ScansAround target where
  indexBefore_iff := inOrder.indexBefore?_eq_some_iff target
  indexBefore_none := inOrder.indexBefore?_eq_none_iff target
  indexAfter_iff := inOrder.indexAfter?_eq_some_iff target
  indexAfter_none := inOrder.indexAfter?_eq_none_iff target
  before_eq := by rw [← getLast?_upTo, inOrder.upTo_eq_filter]
  after_eq := by rw [← head?_onFrom, inOrder.onFrom_eq_filter]
  enclosed_eq := inOrder.enclosed_eq_filter target
  first_eq := congrArg List.head? (inOrder.enclosed_eq_filter target)
  last_eq := congrArg List.getLast? (inOrder.enclosed_eq_filter target)
  bounds_le := Nat.le_max_right _ _
  bounds_le_size := Nat.max_le.2 ⟨endingBy_le_size _, startingBefore_le_size _⟩
  extract_eq := inOrder.enclosed_eq_filter target

/-- Every search of a sequence in order is a scan of it. -/
theorem InOrder.searches_eq_scans (inOrder : sequence.InOrder) :
    (∀ target, sequence.ScansAround target) ∧
    ∀ left right, sequence.between left right =
      sequence.tokens.toList.filter fun token =>
        left.Precedes token.span ∧ token.span.Precedes right :=
  ⟨inOrder.scansAround, inOrder.between_eq_filter⟩

/-- Tokens that touch, the second of them without width. -/
def touchingTokens : TokenSeq :=
  ⟨#[⟨.punctuator, ">", .ofWidth 0 1, .zero⟩, ⟨.jsxText, "", .ofWidth 1 0, .zero⟩,
    ⟨.identifier, "tag", .ofWidth 1 3, .zero⟩, ⟨.punctuator, ";", .ofWidth 5 1, .zero⟩]⟩

theorem InOrder.searches_eq_scans_touching : touchingTokens.InOrder ∧
    touchingTokens.before? (.ofWidth 1 2) = touchingTokens.get? 1 ∧
    touchingTokens.enclosed (.ofWidth 1 2) = (touchingTokens.get? 1).toList ∧
    touchingTokens.after? (.ofWidth 1 2) = touchingTokens.get? 3 ∧
    touchingTokens.between (.ofWidth 5 1) (.ofWidth 0 1) = [] := by
  have inOrder : touchingTokens.InOrder := by decide
  obtain ⟨around, between⟩ := InOrder.searches_eq_scans inOrder
  have target := around (.ofWidth 1 2)
  refine ⟨inOrder, ?_, ?_, ?_, ?_⟩
  · rw [target.before_eq]
    decide
  · rw [target.enclosed_eq]
    decide
  · rw [target.after_eq]
    decide
  · rw [between]
    decide

end AnnotatedSource.TokenSeq
