import AnnotatedSource.TokenSeq
import AnnotatedSource.Proofs.Boundary
import AnnotatedSource.Proofs.Span
import Mathlib.Data.List.Chain
import Mathlib.Data.Nat.PSub

/-!
Token sequences in the order of the text.  In such a sequence the searches by offset count what
their definitions name, and from a token that is not empty they lead to its direct neighbours.
-/

set_option autoImplicit false
set_option relaxedAutoImplicit false

namespace AnnotatedSource.TokenSeq

/-- Every token stops at or before the start of the next one. -/
def InOrder (sequence : TokenSeq) : Prop :=
  sequence.tokens.toList.IsChain fun left right => left.span.Precedes right.span

/-- The tokens are in order, and none of them is empty. -/
structure Separated (sequence : TokenSeq) : Prop where
  inOrder : sequence.InOrder
  nonempty : ∀ token ∈ sequence.tokens.toList, token.span.start < token.span.stop

instance (sequence : TokenSeq) : Decidable sequence.InOrder :=
  inferInstanceAs (Decidable (List.IsChain _ _))

instance (sequence : TokenSeq) : Decidable sequence.Separated :=
  decidable_of_iff
    (sequence.InOrder ∧ ∀ token ∈ sequence.tokens.toList, token.span.start < token.span.stop)
    ⟨fun ⟨inOrder, nonempty⟩ => ⟨inOrder, nonempty⟩,
      fun separated => ⟨separated.inOrder, separated.nonempty⟩⟩

variable {sequence : TokenSeq}

theorem get?_eq_some_iff {index : Nat} {token : Token} :
    sequence.get? index = some token ↔
      ∃ h : index < sequence.tokens.size, sequence.tokens[index] = token :=
  Array.getElem?_eq_some_iff

theorem exists_get?_eq_some {index : Nat} (h : index < sequence.size) :
    ∃ token, sequence.get? index = some token :=
  ⟨sequence.tokens[index], get?_eq_some_iff.2 ⟨h, rfl⟩⟩

theorem lt_size_of_get? {index : Nat} {token : Token} (found : sequence.get? index = some token) :
    index < sequence.size :=
  (get?_eq_some_iff.1 found).choose

theorem mem_tokens_iff {token : Token} :
    token ∈ sequence.tokens.toList ↔ ∃ index, sequence.get? index = some token := by
  rw [Array.mem_toList_iff, Array.mem_iff_getElem?]
  rfl

theorem Separated.nonempty_of_get? (separated : sequence.Separated) {index : Nat} {token : Token}
    (found : sequence.get? index = some token) : token.span.start < token.span.stop :=
  separated.nonempty token (mem_tokens_iff.2 ⟨index, found⟩)

theorem InOrder.pairwise_precedes (inOrder : sequence.InOrder) :
    sequence.tokens.toList.Pairwise fun left right => left.span.Precedes right.span := by
  have transitive : Trans (fun left right : Token => left.span.Precedes right.span)
      (fun left right : Token => left.span.Precedes right.span)
      (fun left right : Token => left.span.Precedes right.span) :=
    ⟨fun first second => Span.Precedes.trans first second⟩
  exact List.isChain_iff_pairwise.1 inOrder

theorem InOrder.precedes_of_lt (inOrder : sequence.InOrder) {i j : Nat} {left right : Token}
    (hleft : sequence.get? i = some left) (hright : sequence.get? j = some right) (h : i < j) :
    left.span.Precedes right.span := by
  obtain ⟨hi, rfl⟩ := get?_eq_some_iff.1 hleft
  obtain ⟨hj, rfl⟩ := get?_eq_some_iff.1 hright
  have found := List.pairwise_iff_getElem.1 inOrder.pairwise_precedes i j (by simpa using hi)
    (by simpa using hj) h
  simpa only [Array.getElem_toList] using found

private theorem InOrder.precedes_or_eq_of_le (inOrder : sequence.InOrder) {i j : Nat}
    {left right : Token} (hleft : sequence.get? i = some left)
    (hright : sequence.get? j = some right) (h : i ≤ j) :
    left.span.Precedes right.span ∨ left = right := by
  rcases Nat.lt_or_eq_of_le h with lt | rfl
  · exact .inl (inOrder.precedes_of_lt hleft hright lt)
  · exact .inr (Option.some.inj (hleft.symm.trans hright))

theorem Separated.precedes_iff_lt (separated : sequence.Separated) {i j : Nat} {left right : Token}
    (hleft : sequence.get? i = some left) (hright : sequence.get? j = some right) :
    left.span.Precedes right.span ↔ i < j := by
  refine ⟨fun precedes => ?_, separated.inOrder.precedes_of_lt hleft hright⟩
  by_contra notBefore
  have leftNonempty := separated.nonempty_of_get? hleft
  have rightNonempty := separated.nonempty_of_get? hright
  rcases separated.inOrder.precedes_or_eq_of_le hright hleft (Nat.le_of_not_lt notBefore) with
    follows | rfl
  · omega
  · omega

theorem InOrder.precedes_or_eq_or_precedes (inOrder : sequence.InOrder) {left right : Token}
    (hleft : left ∈ sequence.tokens.toList) (hright : right ∈ sequence.tokens.toList) :
    left.span.Precedes right.span ∨ left = right ∨ right.span.Precedes left.span := by
  obtain ⟨i, foundLeft⟩ := mem_tokens_iff.1 hleft
  obtain ⟨j, foundRight⟩ := mem_tokens_iff.1 hright
  rcases Nat.le_total i j with le | le
  · rcases inOrder.precedes_or_eq_of_le foundLeft foundRight le with before | same
    · exact .inl before
    · exact .inr (.inl same)
  · rcases inOrder.precedes_or_eq_of_le foundRight foundLeft le with before | same
    · exact .inr (.inr before)
    · exact .inr (.inl same.symm)

theorem InOrder.parts_stop (inOrder : sequence.InOrder) (offset : Nat) :
    Parts sequence.tokens fun token => token.span.stop ≤ offset := by
  intro i j hi hj le has
  have order := (sequence.tokens[j]).span.start_le_stop
  rw [decide_eq_true_iff] at has ⊢
  rcases inOrder.precedes_or_eq_of_le (get?_eq_some_iff.2 ⟨hi, rfl⟩)
    (get?_eq_some_iff.2 ⟨hj, rfl⟩) le with before | same
  · omega
  · rw [same]
    exact has

theorem InOrder.parts_start (inOrder : sequence.InOrder) (offset : Nat) :
    Parts sequence.tokens fun token => token.span.start < offset := by
  intro i j hi hj le has
  have order := (sequence.tokens[i]).span.start_le_stop
  rw [decide_eq_true_iff] at has ⊢
  rcases inOrder.precedes_or_eq_of_le (get?_eq_some_iff.2 ⟨hi, rfl⟩)
    (get?_eq_some_iff.2 ⟨hj, rfl⟩) le with before | same
  · omega
  · rw [same]
    exact has

theorem endingBy_le_size (offset : Nat) : sequence.endingBy offset ≤ sequence.size :=
  boundary_le_size _ _

theorem startingBefore_le_size (offset : Nat) : sequence.startingBefore offset ≤ sequence.size :=
  boundary_le_size _ _

theorem InOrder.lt_endingBy_iff (inOrder : sequence.InOrder) {index offset : Nat} {token : Token}
    (found : sequence.get? index = some token) :
    index < sequence.endingBy offset ↔ token.span.stop ≤ offset := by
  obtain ⟨h, rfl⟩ := get?_eq_some_iff.1 found
  rw [endingBy, lt_boundary_iff (inOrder.parts_stop offset) h, decide_eq_true_iff]

theorem InOrder.lt_startingBefore_iff (inOrder : sequence.InOrder) {index offset : Nat}
    {token : Token} (found : sequence.get? index = some token) :
    index < sequence.startingBefore offset ↔ token.span.start < offset := by
  obtain ⟨h, rfl⟩ := get?_eq_some_iff.1 found
  rw [startingBefore, lt_boundary_iff (inOrder.parts_start offset) h, decide_eq_true_iff]

theorem InOrder.endingBy_start (inOrder : sequence.InOrder) {index : Nat} {token : Token}
    (found : sequence.get? index = some token) (nonempty : token.span.start < token.span.stop) :
    sequence.endingBy token.span.start = index := by
  have itself : index < sequence.endingBy token.span.start ↔ token.span.stop ≤ token.span.start :=
    inOrder.lt_endingBy_iff found
  cases index with
  | zero => omega
  | succ before =>
    obtain ⟨left, hleft⟩ := exists_get?_eq_some (Nat.lt_of_succ_lt (lt_size_of_get? found))
    have neighbour : before < sequence.endingBy token.span.start ↔
        left.span.stop ≤ token.span.start := inOrder.lt_endingBy_iff hleft
    have order := inOrder.precedes_of_lt hleft found (Nat.lt_succ_self before)
    omega

theorem InOrder.startingBefore_stop (inOrder : sequence.InOrder) {index : Nat} {token : Token}
    (found : sequence.get? index = some token) (nonempty : token.span.start < token.span.stop) :
    sequence.startingBefore token.span.stop = index + 1 := by
  have itself : index < sequence.startingBefore token.span.stop ↔
      token.span.start < token.span.stop := inOrder.lt_startingBefore_iff found
  have bound : sequence.startingBefore token.span.stop ≤ sequence.size :=
    startingBefore_le_size _
  have inside := lt_size_of_get? found
  rcases Nat.lt_or_eq_of_le (Nat.succ_le_of_lt inside) with more | last
  · obtain ⟨right, hright⟩ := exists_get?_eq_some more
    have neighbour : index + 1 < sequence.startingBefore token.span.stop ↔
        right.span.start < token.span.stop := inOrder.lt_startingBefore_iff hright
    have order := inOrder.precedes_of_lt found hright (Nat.lt_succ_self index)
    omega
  · omega

theorem indexBefore?_eq_ppred (target : Span) :
    sequence.indexBefore? target = (sequence.endingBy target.start).ppred := by
  unfold indexBefore?
  cases sequence.endingBy target.start <;> rfl

theorem InOrder.indexBefore?_eq (inOrder : sequence.InOrder) {index : Nat} {token : Token}
    (found : sequence.get? index = some token) (nonempty : token.span.start < token.span.stop) :
    sequence.indexBefore? token.span = index.ppred := by
  rw [indexBefore?_eq_ppred, inOrder.endingBy_start found nonempty]

theorem InOrder.indexAfter?_eq (inOrder : sequence.InOrder) {index : Nat} {token : Token}
    (found : sequence.get? index = some token) (nonempty : token.span.start < token.span.stop) :
    sequence.indexAfter? token.span =
      if index + 1 < sequence.size then some (index + 1) else none := by
  rw [indexAfter?, inOrder.startingBefore_stop found nonempty]

end AnnotatedSource.TokenSeq
