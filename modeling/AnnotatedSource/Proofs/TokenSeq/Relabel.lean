import AnnotatedSource.Proofs.TokenSeq.Merge

/-!
Relabelled sequences.  What a search finds depends on where tokens stand and on nothing else they
say; so a change that moves no token changes no search, and it may be made before lexemes are merged
or after.
-/

set_option autoImplicit false
set_option relaxedAutoImplicit false

namespace AnnotatedSource

private theorem boundaryWithin_map {α β : Type} (items : Array α) (f : α → β) (holds : β → Bool)
    (base width : Nat) (nonempty : 0 < width) (within : base + width ≤ items.size) :
    boundaryWithin (items.map f) holds base width nonempty (by simpa using within) =
      boundaryWithin items (fun item => holds (f item)) base width nonempty within := by
  fun_induction boundaryWithin items (fun item => holds (f item)) base width nonempty within with
  | case1 base nonempty within found => rw [boundaryWithin]; simp [found]
  | case2 base nonempty within missed => rw [boundaryWithin]; simp [missed]
  | case3 base width nonempty within single half found ih =>
    rw [boundaryWithin]
    simp only [single, Array.getElem_map]
    rw [if_pos found]
    exact ih
  | case4 base width nonempty within single half missed ih =>
    rw [boundaryWithin]
    simp only [single, Array.getElem_map]
    rw [if_neg missed]
    exact ih

theorem boundary_map {α β : Type} (items : Array α) (f : α → β) (holds : β → Bool) :
    boundary (items.map f) holds = boundary items fun item => holds (f item) := by
  unfold boundary
  simp only [Array.size_map]
  split
  · exact boundaryWithin_map items f holds _ _ _ _
  · rfl

/-- A change of tokens that moves none of them and keeps comments apart from code. -/
structure Token.Relabels (f : Token → Token) : Prop where
  span_eq : ∀ token, (f token).span = token.span
  isComment_eq : ∀ token, (f token).isComment = token.isComment

namespace TokenSeq

def map (f : Token → Token) (sequence : TokenSeq) : TokenSeq := ⟨sequence.tokens.map f⟩

variable {f : Token → Token} {sequence : TokenSeq}

theorem toList_map : (sequence.map f).tokens.toList = sequence.tokens.toList.map f :=
  Array.toList_map

theorem size_map : (sequence.map f).size = sequence.size := Array.size_map

theorem get?_map (index : Nat) : (sequence.map f).get? index = (sequence.get? index).map f :=
  Array.getElem?_map

theorem endingBy_map (relabels : Token.Relabels f) (offset : Nat) :
    (sequence.map f).endingBy offset = sequence.endingBy offset := by
  unfold endingBy map
  rw [boundary_map]
  simp only [relabels.span_eq]

theorem startingBefore_map (relabels : Token.Relabels f) (offset : Nat) :
    (sequence.map f).startingBefore offset = sequence.startingBefore offset := by
  unfold startingBefore map
  rw [boundary_map]
  simp only [relabels.span_eq]

theorem indexBefore?_map (relabels : Token.Relabels f) (target : Span) :
    (sequence.map f).indexBefore? target = sequence.indexBefore? target := by
  rw [indexBefore?, endingBy_map relabels, indexBefore?]

theorem indexAfter?_map (relabels : Token.Relabels f) (target : Span) :
    (sequence.map f).indexAfter? target = sequence.indexAfter? target := by
  rw [indexAfter?, startingBefore_map relabels, size_map, indexAfter?]

theorem enclosedBounds_map (relabels : Token.Relabels f) (target : Span) :
    (sequence.map f).enclosedBounds target = sequence.enclosedBounds target := by
  unfold enclosedBounds boundsWithin
  rw [startingBefore_map relabels, endingBy_map relabels]

theorem between_map (relabels : Token.Relabels f) (left right : Span) :
    (sequence.map f).between left right = (sequence.between left right).map f := by
  unfold between within boundsWithin
  simp only [startingBefore_map relabels, endingBy_map relabels]
  rw [map, ← Array.map_extract, Array.toList_map]

theorem merge_map (relabels : Token.Relabels f) (tokens comments : List Token) :
    merge (tokens.map f) (comments.map f) = (merge tokens comments).map f := by
  unfold merge map
  rw [← List.map_append, ← List.map_mergeSort, List.map_toArray]
  intro left _ right _
  rw [relabels.span_eq, relabels.span_eq]

theorem merge_eq_of_perm {tokens first second : List Token} (perm : first.Perm second)
    (apart : Span.AllApart ((tokens ++ first).map Token.span)) :
    merge tokens first = merge tokens second := by
  have reported : (tokens ++ second).Perm (tokens ++ first) := (perm.append_left tokens).symm
  have same : (merge tokens first).tokens.toList.Perm (merge tokens second).tokens.toList :=
    perm_merge.trans (reported.symm.trans perm_merge.symm)
  have left := separated_merge apart
  have right := separated_merge (apart.of_perm (reported.map Token.span))
  have lists : (merge tokens first).tokens.toList = (merge tokens second).tokens.toList :=
    eq_of_perm_of_pairwise_precedes left.nonempty left.inOrder.pairwise_precedes
      right.inOrder.pairwise_precedes same
  exact congrArg TokenSeq.mk (Array.toList_inj.1 lists)

end TokenSeq

end AnnotatedSource
