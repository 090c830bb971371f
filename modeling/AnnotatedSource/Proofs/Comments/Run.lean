import AnnotatedSource.Comments
import AnnotatedSource.Proofs.TokenSeq.Separated
import Mathlib.Data.List.Sort

/-!
Runs of comments.  A run is what a cursor keeps that steps from token to token until it meets one
that it does not keep.  In a stream in order in which no comment is empty every run comes to an end,
and it keeps a stretch of direct neighbours: the comments that no code token separates from where
the run began.
-/

set_option autoImplicit false
set_option relaxedAutoImplicit false

namespace AnnotatedSource.TokenSeq

/-- The finished runs of a cursor.  Each constructor is one test of the loop, and nothing but the
stream bounds the number of steps. -/
inductive Visits (stream : TokenSeq) (keeps : Token → Bool) (next : Token → Option Nat) :
    Option Nat → List Nat → Prop
  | exhausted : stream.Visits keeps next none []
  | stopped {place : Nat} {token : Token} : stream.get? place = some token →
      keeps token = false → stream.Visits keeps next (some place) []
  | kept {place : Nat} {token : Token} {rest : List Nat} : stream.get? place = some token →
      keeps token = true → stream.Visits keeps next (next token) rest →
      stream.Visits keeps next (some place) (place :: rest)

/-- A run towards the front keeps comments that do not start before the outer span. -/
def keepsBefore (outer : Option Span) (token : Token) : Bool :=
  token.isComment && outer.all fun span => span.start ≤ token.span.start

/-- A run towards the end keeps comments that do not stop behind the outer span. -/
def keepsAfter (outer : Option Span) (token : Token) : Bool :=
  token.isComment && outer.all fun span => token.span.stop ≤ span.stop

/-- No token that is kept is empty. -/
def KeepsWide (stream : TokenSeq) (keeps : Token → Bool) : Prop :=
  ∀ token ∈ stream.tokens.toList, keeps token = true → token.span.start < token.span.stop

/-- The run from the last token before a span towards the front. -/
def RunsBefore (stream : TokenSeq) (outer : Option Span) (target : Span) : List Nat → Prop :=
  stream.Visits (keepsBefore outer) (fun token => stream.indexBefore? token.span)
    (stream.indexBefore? target)

/-- The run from the first token after a span towards the end. -/
def RunsAfter (stream : TokenSeq) (outer : Option Span) (target : Span) : List Nat → Prop :=
  stream.Visits (keepsAfter outer) (fun token => stream.indexAfter? token.span)
    (stream.indexAfter? target)

/-- The places of the comments before a span, found by stepping towards the front. -/
def placesBefore (stream : TokenSeq) (outer : Option Span) (target : Span) : List Nat :=
  (stream.indexBefore? target).elim [] (stream.runBefore outer)

def placesAfter (stream : TokenSeq) (outer : Option Span) (target : Span) : List Nat :=
  (stream.indexAfter? target).elim [] (stream.runAfter outer)

theorem Visits.unique {stream : TokenSeq} {keeps : Token → Bool} {next : Token → Option Nat}
    {cursor : Option Nat} {first second : List Nat} (hfirst : stream.Visits keeps next cursor first)
    (hsecond : stream.Visits keeps next cursor second) : first = second := by
  induction hfirst generalizing second with
  | exhausted =>
    cases hsecond with
    | exhausted => rfl
  | stopped found stops =>
    cases hsecond with
    | stopped _ _ => rfl
    | kept found' keeps' _ =>
      obtain rfl := Option.some.inj (found.symm.trans found')
      rw [stops] at keeps'
      contradiction
  | kept found keeps _ ih =>
    cases hsecond with
    | stopped found' stops =>
      obtain rfl := Option.some.inj (found.symm.trans found')
      rw [stops] at keeps
      contradiction
    | kept found' _ tail =>
      obtain rfl := Option.some.inj (found.symm.trans found')
      rw [ih tail]

variable {stream : TokenSeq}

theorem Separated.keepsWide (separated : stream.Separated) (keeps : Token → Bool) :
    stream.KeepsWide keeps :=
  fun token member _ => separated.nonempty token member

theorem KeepsWide.nonempty_of_get? {keeps : Token → Bool} (wide : stream.KeepsWide keeps)
    {index : Nat} {token : Token} (found : stream.get? index = some token)
    (kept : keeps token = true) : token.span.start < token.span.stop :=
  wide token (mem_tokens_iff.2 ⟨index, found⟩) kept

private theorem runBefore_of_not_keeps {outer : Option Span} {index : Nat} {token : Token}
    (found : stream.get? index = some token) (stops : keepsBefore outer token = false) :
    stream.runBefore outer index = [] := by
  rw [runBefore]
  simp only [found]
  exact if_neg (Bool.eq_false_iff.1 stops)

private theorem runAfter_of_not_keeps {outer : Option Span} {index : Nat} {token : Token}
    (found : stream.get? index = some token) (stops : keepsAfter outer token = false) :
    stream.runAfter outer index = [] := by
  rw [runAfter]
  split
  · rfl
  · next token' found' =>
    obtain rfl := Option.some.inj (found.symm.trans found')
    exact if_neg (Bool.eq_false_iff.1 stops)

private theorem runBefore_of_keeps (inOrder : stream.InOrder) {outer : Option Span}
    (wide : stream.KeepsWide (keepsBefore outer)) {index : Nat} {token : Token}
    (found : stream.get? index = some token) (keeps : keepsBefore outer token = true) :
    stream.runBefore outer index = index :: index.ppred.elim [] (stream.runBefore outer) := by
  rw [runBefore]
  simp only [found, inOrder.indexBefore?_eq found (wide.nonempty_of_get? found keeps)]
  refine (if_pos keeps).trans ?_
  cases index with
  | zero => rfl
  | succ before => simp only [Nat.ppred_succ, Nat.lt_succ_self, if_true, Option.elim_some]

private theorem runAfter_of_keeps (inOrder : stream.InOrder) {outer : Option Span}
    (wide : stream.KeepsWide (keepsAfter outer)) {index : Nat} {token : Token}
    (found : stream.get? index = some token) (keeps : keepsAfter outer token = true) :
    stream.runAfter outer index =
      index :: (if index + 1 < stream.size then stream.runAfter outer (index + 1) else []) := by
  rw [runAfter]
  split
  · next missing => rw [found] at missing; contradiction
  · next token' found' =>
    obtain rfl := Option.some.inj (found.symm.trans found')
    refine (if_pos keeps).trans ?_
    rw [inOrder.indexAfter?_eq found (wide.nonempty_of_get? found keeps)]
    by_cases more : index + 1 < stream.size
    · simp only [more, if_true, Nat.lt_succ_self]
    · simp only [more, if_false]

/-- Whether a token that is kept stands at a place. -/
def keptAt (stream : TokenSeq) (keeps : Token → Bool) (place : Nat) : Bool :=
  (stream.get? place).any keeps

theorem keptAt_of_get? {keeps : Token → Bool} {place : Nat} {token : Token}
    (found : stream.get? place = some token) : stream.keptAt keeps place = keeps token := by
  rw [keptAt, found, Option.any_some]

theorem InOrder.visits_before (inOrder : stream.InOrder) {keeps : Token → Bool}
    (wide : stream.KeepsWide keeps) (count : Nat) (bound : count ≤ stream.size) :
    stream.Visits keeps (fun token => stream.indexBefore? token.span) count.ppred
      ((List.range count).reverse.takeWhile (stream.keptAt keeps)) := by
  induction count with
  | zero => exact .exhausted
  | succ index ih =>
    obtain ⟨token, found⟩ := exists_get?_eq_some bound
    rw [List.range_succ, List.reverse_append, List.reverse_singleton, List.singleton_append,
      List.takeWhile_cons, keptAt_of_get? found]
    cases keeps' : keeps token with
    | false => exact .stopped found keeps'
    | true =>
      refine .kept found keeps' ?_
      rw [inOrder.indexBefore?_eq found (wide.nonempty_of_get? found keeps')]
      exact ih (Nat.le_of_succ_le bound)

theorem InOrder.visits_after (inOrder : stream.InOrder) {keeps : Token → Bool}
    (wide : stream.KeepsWide keeps) (count first : Nat) (bound : first + count = stream.size) :
    stream.Visits keeps (fun token => stream.indexAfter? token.span)
      (if first < stream.size then some first else none)
      ((List.range' first count).takeWhile (stream.keptAt keeps)) := by
  induction count generalizing first with
  | zero =>
    rw [if_neg (by omega)]
    exact .exhausted
  | succ count ih =>
    have inside : first < stream.size := by omega
    obtain ⟨token, found⟩ := exists_get?_eq_some inside
    rw [if_pos inside, List.range'_succ, List.takeWhile_cons, keptAt_of_get? found]
    cases keeps' : keeps token with
    | false => exact .stopped found keeps'
    | true =>
      refine .kept found keeps' ?_
      rw [inOrder.indexAfter?_eq found (wide.nonempty_of_get? found keeps')]
      exact ih (first + 1) (by omega)

private theorem visits_runBefore (inOrder : stream.InOrder) {outer : Option Span}
    (wide : stream.KeepsWide (keepsBefore outer)) (count : Nat) (bound : count ≤ stream.size) :
    stream.Visits (keepsBefore outer) (fun token => stream.indexBefore? token.span) count.ppred
      (count.ppred.elim [] (stream.runBefore outer)) := by
  induction count with
  | zero => exact .exhausted
  | succ index ih =>
    obtain ⟨token, found⟩ := exists_get?_eq_some bound
    rw [Nat.ppred_succ, Option.elim_some]
    cases keeps : keepsBefore outer token with
    | false =>
      rw [runBefore_of_not_keeps found keeps]
      exact .stopped found keeps
    | true =>
      rw [runBefore_of_keeps inOrder wide found keeps]
      refine .kept found keeps ?_
      rw [inOrder.indexBefore?_eq found (wide.nonempty_of_get? found keeps)]
      exact ih (Nat.le_of_succ_le bound)

private theorem visits_runAfter (inOrder : stream.InOrder) {outer : Option Span}
    (wide : stream.KeepsWide (keepsAfter outer)) (left : Nat) {index : Nat}
    (inside : index < stream.size) (rest : stream.size - index = left) :
    stream.Visits (keepsAfter outer) (fun token => stream.indexAfter? token.span) (some index)
      (stream.runAfter outer index) := by
  induction left generalizing index with
  | zero => omega
  | succ left ih =>
    obtain ⟨token, found⟩ := exists_get?_eq_some inside
    cases keeps : keepsAfter outer token with
    | false =>
      rw [runAfter_of_not_keeps found keeps]
      exact .stopped found keeps
    | true =>
      rw [runAfter_of_keeps inOrder wide found keeps]
      refine .kept found keeps ?_
      rw [inOrder.indexAfter?_eq found (wide.nonempty_of_get? found keeps)]
      by_cases more : index + 1 < stream.size
      · rw [if_pos more, if_pos more]
        exact ih more (by omega)
      · rw [if_neg more, if_neg more]
        exact .exhausted

theorem InOrder.runsBefore (inOrder : stream.InOrder) {outer : Option Span}
    (wide : stream.KeepsWide (keepsBefore outer)) (target : Span) :
    stream.RunsBefore outer target (stream.placesBefore outer target) := by
  rw [RunsBefore, placesBefore, indexBefore?_eq_ppred]
  exact visits_runBefore inOrder wide _ (endingBy_le_size _)

theorem InOrder.runsAfter (inOrder : stream.InOrder) {outer : Option Span}
    (wide : stream.KeepsWide (keepsAfter outer)) (target : Span) :
    stream.RunsAfter outer target (stream.placesAfter outer target) := by
  unfold RunsAfter placesAfter
  cases cursor : stream.indexAfter? target with
  | none => exact .exhausted
  | some index =>
    refine visits_runAfter inOrder wide _ ?_ rfl
    rw [indexAfter?] at cursor
    split at cursor
    · next inside =>
      obtain rfl := Option.some.inj cursor
      exact inside
    · contradiction

theorem Separated.runsBefore (separated : stream.Separated) (outer : Option Span) (target : Span) :
    stream.RunsBefore outer target (stream.placesBefore outer target) :=
  separated.inOrder.runsBefore (separated.keepsWide _) target

theorem Separated.runsAfter (separated : stream.Separated) (outer : Option Span) (target : Span) :
    stream.RunsAfter outer target (stream.placesAfter outer target) :=
  separated.inOrder.runsAfter (separated.keepsWide _) target

theorem Separated.placesBefore_eq (separated : stream.Separated) (outer : Option Span)
    (target : Span) :
    stream.placesBefore outer target =
      (List.range (stream.endingBy target.start)).reverse.takeWhile
        (stream.keptAt (keepsBefore outer)) := by
  refine (separated.runsBefore outer target).unique ?_
  rw [indexBefore?_eq_ppred]
  exact separated.inOrder.visits_before (separated.keepsWide _) _ (endingBy_le_size _)

theorem Separated.placesAfter_eq (separated : stream.Separated) (outer : Option Span)
    (target : Span) :
    stream.placesAfter outer target =
      (List.range' (stream.startingBefore target.stop)
        (stream.size - stream.startingBefore target.stop)).takeWhile
          (stream.keptAt (keepsAfter outer)) := by
  have bound : stream.startingBefore target.stop ≤ stream.size := startingBefore_le_size _
  refine (separated.runsAfter outer target).unique ?_
  exact separated.inOrder.visits_after (separated.keepsWide _) _ _ (by omega)

end AnnotatedSource.TokenSeq
