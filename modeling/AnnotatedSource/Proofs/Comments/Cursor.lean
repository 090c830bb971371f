import AnnotatedSource.Proofs.Comments.Run

/-!
Cursors over a stream.  From a token that is not empty the searches lead to the tokens beside it,
however wide those are.  A cursor that goes on only from comments which are not empty therefore
looks at one place after another, passes over none, and comes to an end.
-/

set_option autoImplicit false
set_option relaxedAutoImplicit false

namespace AnnotatedSource.TokenSeq

/-- The places that a cursor looks at up to its end.  It goes on from a token that is kept; it ends
at a token that is not kept, or where there is no token left. -/
inductive LooksAt (stream : TokenSeq) (keeps : Token → Bool) (next : Token → Option Nat) :
    Option Nat → List Nat → Prop
  | exhausted : stream.LooksAt keeps next none []
  | stopped {place : Nat} {token : Token} : stream.get? place = some token →
      keeps token = false → stream.LooksAt keeps next (some place) [place]
  | kept {place : Nat} {token : Token} {seen : List Nat} : stream.get? place = some token →
      keeps token = true → stream.LooksAt keeps next (next token) seen →
      stream.LooksAt keeps next (some place) (place :: seen)

/-- A cursor comes to an end on every way it may take, from each place it goes on by one stride, and
the places given are those whose tokens it keeps. -/
structure Strides (stream : TokenSeq) (keeps : Token → Bool) (next : Token → Option Nat)
    (cursor : Option Nat) (stride : Nat → Nat → Prop) (places : List Nat) : Prop where
  ends : ∃ seen, stream.LooksAt keeps next cursor seen
  consecutive : ∀ seen, stream.LooksAt keeps next cursor seen → seen.IsChain stride
  kept : ∀ seen, stream.LooksAt keeps next cursor seen →
    places = seen.filter (stream.keptAt keeps)

variable {stream : TokenSeq} {keeps : Token → Bool} {next : Token → Option Nat}
  {cursor : Option Nat}

theorem LooksAt.head?_eq {seen : List Nat} (looks : stream.LooksAt keeps next cursor seen) :
    seen.head? = cursor := by
  cases looks with
  | exhausted => rfl
  | stopped found stops => rfl
  | kept found kept later => rfl

theorem LooksAt.visits {seen : List Nat} (looks : stream.LooksAt keeps next cursor seen) :
    stream.Visits keeps next cursor (seen.filter (stream.keptAt keeps)) := by
  induction looks with
  | exhausted => exact .exhausted
  | @stopped place token found stops =>
    rw [List.filter_singleton, keptAt_of_get? found, stops]
    exact .stopped found stops
  | @kept place token seen found kept later ih =>
    rw [List.filter_cons, keptAt_of_get? found, if_pos kept]
    exact .kept found kept ih

theorem Visits.exists_looksAt {places : List Nat}
    (visits : stream.Visits keeps next cursor places) :
    ∃ seen, stream.LooksAt keeps next cursor seen := by
  induction visits with
  | exhausted => exact ⟨[], .exhausted⟩
  | stopped found stops => exact ⟨_, .stopped found stops⟩
  | kept found kept later ih =>
    obtain ⟨seen, looks⟩ := ih
    exact ⟨_, .kept found kept looks⟩

theorem LooksAt.isChain {stride : Nat → Nat → Prop} {seen : List Nat}
    (turns : ∀ place token other, stream.get? place = some token → keeps token = true →
      next token = some other → stride place other)
    (looks : stream.LooksAt keeps next cursor seen) : seen.IsChain stride := by
  induction looks with
  | exhausted => exact List.isChain_nil
  | stopped found stops => exact List.isChain_singleton _
  | @kept place token seen found kept later ih =>
    refine List.isChain_cons.2 ⟨fun other first => ?_, ih⟩
    rw [later.head?_eq] at first
    exact turns place token other found kept first

theorem Visits.strides {stride : Nat → Nat → Prop} {places : List Nat}
    (visits : stream.Visits keeps next cursor places)
    (turns : ∀ place token other, stream.get? place = some token → keeps token = true →
      next token = some other → stride place other) :
    stream.Strides keeps next cursor stride places where
  ends := visits.exists_looksAt
  consecutive _ looks := looks.isChain turns
  kept _ looks := visits.unique looks.visits

/-- In a stream in order, whatever the width of its other tokens, the searches from a token that is
not empty answer the places right before and right behind it, or nothing at the two ends of the
stream.  So where no comment that may be kept is empty, the walk towards the front goes from each
place to the one before it, the walk towards the end goes from each place to the one behind it, both
come to an end, and the comments found are the places kept on the way. -/
theorem InOrder.cursors_stride_by_one (inOrder : stream.InOrder) :
    (∀ (index : Nat) (token : Token), stream.get? index = some token →
      token.span.start < token.span.stop →
      stream.indexBefore? token.span = (if index = 0 then none else some (index - 1)) ∧
      stream.indexAfter? token.span =
        (if index + 1 = stream.size then none else some (index + 1))) ∧
    ∀ (outer : Option Span) (target : Span),
      (stream.KeepsWide (keepsBefore outer) →
        stream.Strides (keepsBefore outer) (fun token => stream.indexBefore? token.span)
          (stream.indexBefore? target) (fun place other => other + 1 = place)
          (stream.placesBefore outer target)) ∧
      (stream.KeepsWide (keepsAfter outer) →
        stream.Strides (keepsAfter outer) (fun token => stream.indexAfter? token.span)
          (stream.indexAfter? target) (fun place other => place + 1 = other)
          (stream.placesAfter outer target)) := by
  refine ⟨fun index token found nonempty => ⟨?_, ?_⟩, fun outer target => ⟨fun wide => ?_,
    fun wide => ?_⟩⟩
  · rw [inOrder.indexBefore?_eq found nonempty]
    cases index <;> rfl
  · have inside := lt_size_of_get? found
    rw [inOrder.indexAfter?_eq found nonempty]
    by_cases last : index + 1 = stream.size
    · rw [if_pos last, if_neg (by omega)]
    · rw [if_neg last, if_pos (by omega)]
  · refine (inOrder.runsBefore wide target).strides fun place token other found kept goes => ?_
    rw [inOrder.indexBefore?_eq found (wide.nonempty_of_get? found kept)] at goes
    exact Nat.ppred_eq_some.1 goes
  · refine (inOrder.runsAfter wide target).strides fun place token other found kept goes => ?_
    rw [inOrder.indexAfter?_eq found (wide.nonempty_of_get? found kept)] at goes
    split at goes
    · exact Option.some.inj goes
    · contradiction

/-- Two comments between a token without width and a semicolon. -/
def besideEmpty : TokenSeq :=
  ⟨#[⟨.punctuator, ">", .ofWidth 0 2, .zero⟩, ⟨.jsxText, "", .ofWidth 2 0, .zero⟩,
    ⟨.block, "a", .ofWidth 2 5, .zero⟩, ⟨.block, "b", .ofWidth 7 5, .zero⟩,
    ⟨.punctuator, ";", .ofWidth 12 1, .zero⟩]⟩

theorem InOrder.cursors_stride_by_one_besideEmpty :
    besideEmpty.InOrder ∧ besideEmpty.KeepsWide (keepsBefore none) ∧
      besideEmpty.indexBefore? (.ofWidth 2 5) = some 1 ∧
      besideEmpty.indexAfter? (.ofWidth 2 5) = some 3 ∧
      besideEmpty.LooksAt (keepsBefore none) (fun token => besideEmpty.indexBefore? token.span)
        (besideEmpty.indexBefore? (.ofWidth 12 1)) [3, 2, 1] ∧
      besideEmpty.placesBefore none (.ofWidth 12 1) = [3, 2] := by
  have inOrder : besideEmpty.InOrder := by decide
  have wide : besideEmpty.KeepsWide (keepsBefore none) := by
    unfold KeepsWide
    decide
  obtain ⟨beside, walks⟩ := InOrder.cursors_stride_by_one inOrder
  have empty : besideEmpty.get? 1 = some ⟨.jsxText, "", .ofWidth 2 0, .zero⟩ := rfl
  have first : besideEmpty.get? 2 = some ⟨.block, "a", .ofWidth 2 5, .zero⟩ := rfl
  have second : besideEmpty.get? 3 = some ⟨.block, "b", .ofWidth 7 5, .zero⟩ := rfl
  have last : besideEmpty.get? 4 = some ⟨.punctuator, ";", .ofWidth 12 1, .zero⟩ := rfl
  obtain ⟨before, after⟩ := beside 2 _ first (by decide)
  have looks : besideEmpty.LooksAt (keepsBefore none)
      (fun token => besideEmpty.indexBefore? token.span)
      (besideEmpty.indexBefore? (.ofWidth 12 1)) [3, 2, 1] := by
    rw [(beside 4 _ last (by decide)).1]
    refine .kept second rfl ?_
    rw [(beside 3 _ second (by decide)).1]
    refine .kept first rfl ?_
    rw [before]
    exact .stopped empty rfl
  refine ⟨inOrder, wide, before, after, looks, ?_⟩
  rw [((walks none (.ofWidth 12 1)).1 wide).kept _ looks]
  decide

end AnnotatedSource.TokenSeq
