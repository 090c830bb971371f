import AnnotatedSource.Proofs.TokenSeq.Separated

/-!
Contents of an interval.  In a sequence in order, each of the two searches by an offset cuts the
tokens in two.  The tokens that both together cut out are those that lie between the offsets, and
nothing of their order is lost.  The same holds of the tokens up to the neighbour before a span and
from the neighbour behind it on.
-/

set_option autoImplicit false
set_option relaxedAutoImplicit false

namespace AnnotatedSource.TokenSeq

/-- The first tokens, so many of them, have a property, and the tokens behind them do not. -/
structure CutsAt (sequence : TokenSeq) (property : Token → Prop) (count : Nat) : Prop where
  le_size : count ≤ sequence.size
  front : ∀ token ∈ sequence.tokens.toList.take count, property token
  back : ∀ token ∈ sequence.tokens.toList.drop count, ¬property token

private theorem filter_eq_take_drop {α : Type} {items : List α} {holds : α → Bool}
    {first last : Nat}
    (bounded : ∀ (i : Nat) (h : i < items.length), holds items[i] = true ↔ first ≤ i ∧ i < last) :
    items.filter holds = (items.drop first).take (last - first) := by
  induction items generalizing first last with
  | nil => simp
  | cons item rest ih =>
    have head := bounded 0 (Nat.zero_lt_succ _)
    have tail (i : Nat) (h : i < rest.length) :
        holds rest[i] = true ↔ first - 1 ≤ i ∧ i < last - 1 := by
      have known := bounded (i + 1) (Nat.succ_lt_succ h)
      rw [List.getElem_cons_succ] at known
      rw [known]
      omega
    rw [List.filter_cons, ih tail]
    rw [List.getElem_cons_zero] at head
    cases first with
    | zero =>
      cases last with
      | zero => simp_all
      | succ last => simp_all
    | succ first =>
      have missed : ¬holds item = true := by
        rw [head]
        omega
      rw [if_neg missed, List.drop_succ_cons]
      congr 1
      omega

variable {sequence : TokenSeq}

private theorem filter_tokens_eq_take_drop {holds : Token → Bool} (first last : Nat)
    (bounded : ∀ (i : Nat) (token : Token), sequence.get? i = some token →
      (holds token = true ↔ first ≤ i ∧ i < last)) :
    sequence.tokens.toList.filter holds =
      (sequence.tokens.toList.drop first).take (last - first) := by
  apply filter_eq_take_drop
  intro i h
  apply bounded
  rw [get?, ← Array.getElem?_toList, List.getElem?_eq_getElem h]

theorem cutsAt_of_lt_iff {property : Token → Prop} {count : Nat} (bound : count ≤ sequence.size)
    (counted : ∀ (index : Nat) (token : Token), sequence.get? index = some token →
      (index < count ↔ property token)) :
    sequence.CutsAt property count where
  le_size := bound
  front token member := by
    obtain ⟨index, below, rfl⟩ := List.mem_take_iff_getElem.1 member
    have inside : index < sequence.size := by
      rw [Nat.lt_min] at below
      omega
    rw [Array.getElem_toList]
    exact (counted index _ (get?_eq_some_iff.2 ⟨inside, rfl⟩)).1 (Nat.lt_min.1 below).1
  back token member := by
    obtain ⟨index, inside, rfl⟩ := List.mem_drop_iff_getElem.1 member
    rw [Array.length_toList, Nat.add_comm] at inside
    rw [Array.getElem_toList, ← counted _ _ (get?_eq_some_iff.2 ⟨inside, rfl⟩)]
    omega

theorem InOrder.cutsAt_endingBy (inOrder : sequence.InOrder) (offset : Nat) :
    sequence.CutsAt (fun token => token.span.stop ≤ offset) (sequence.endingBy offset) :=
  cutsAt_of_lt_iff (endingBy_le_size offset) fun _ _ found => inOrder.lt_endingBy_iff found

theorem InOrder.cutsAt_startingBefore (inOrder : sequence.InOrder) (offset : Nat) :
    sequence.CutsAt (fun token => token.span.start < offset) (sequence.startingBefore offset) :=
  cutsAt_of_lt_iff (startingBefore_le_size offset) fun _ _ found =>
    inOrder.lt_startingBefore_iff found

theorem InOrder.within_eq_filter (inOrder : sequence.InOrder) (start stop : Nat) :
    sequence.within start stop =
      sequence.tokens.toList.filter fun token =>
        start ≤ token.span.start ∧ token.span.stop ≤ stop := by
  have cut : sequence.within start stop =
      (sequence.tokens.extract (sequence.startingBefore start)
        (max (sequence.endingBy stop) (sequence.startingBefore start))).toList := rfl
  rw [cut, Array.toList_extract, List.extract_eq_take_drop, filter_tokens_eq_take_drop _ _]
  intro i token found
  have starts : i < sequence.startingBefore start ↔ _ := inOrder.lt_startingBefore_iff found
  have stops : i < sequence.endingBy stop ↔ _ := inOrder.lt_endingBy_iff found
  rw [decide_eq_true_iff]
  omega

theorem InOrder.enclosed_eq_filter (inOrder : sequence.InOrder) (target : Span) :
    sequence.enclosed target =
      sequence.tokens.toList.filter fun token => target.Encloses token.span :=
  inOrder.within_eq_filter target.start target.stop

theorem InOrder.between_eq_filter (inOrder : sequence.InOrder) (left right : Span) :
    sequence.between left right =
      sequence.tokens.toList.filter fun token =>
        left.Precedes token.span ∧ token.span.Precedes right :=
  inOrder.within_eq_filter left.stop right.start

theorem InOrder.mem_enclosed_iff (inOrder : sequence.InOrder) {target : Span} {token : Token} :
    token ∈ sequence.enclosed target ↔
      token ∈ sequence.tokens.toList ∧ target.Encloses token.span := by
  rw [inOrder.enclosed_eq_filter, List.mem_filter, decide_eq_true_iff]

theorem InOrder.mem_between_iff (inOrder : sequence.InOrder) {left right : Span} {token : Token} :
    token ∈ sequence.between left right ↔
      token ∈ sequence.tokens.toList ∧ left.Precedes token.span ∧ token.span.Precedes right := by
  rw [inOrder.between_eq_filter, List.mem_filter, decide_eq_true_iff]

/-- The tokens up to and with the one before a span. -/
def upTo (sequence : TokenSeq) (target : Span) : List Token :=
  match sequence.indexBefore? target with
  | none => []
  | some index => sequence.tokens.toList.take (index + 1)

def onFrom (sequence : TokenSeq) (target : Span) : List Token :=
  match sequence.indexAfter? target with
  | none => []
  | some index => sequence.tokens.toList.drop index

theorem upTo_eq_take (target : Span) :
    sequence.upTo target = sequence.tokens.toList.take (sequence.endingBy target.start) := by
  unfold upTo indexBefore?
  cases sequence.endingBy target.start <;> rfl

theorem onFrom_eq_drop (target : Span) :
    sequence.onFrom target = sequence.tokens.toList.drop (sequence.startingBefore target.stop) := by
  unfold onFrom indexAfter?
  by_cases more : sequence.startingBefore target.stop < sequence.size
  · simp [more]
  · have beyond : sequence.tokens.toList.length ≤ sequence.startingBefore target.stop :=
      Nat.le_of_not_lt more
    simp [more, List.drop_eq_nil_of_le beyond]

theorem getLast?_upTo (target : Span) :
    (sequence.upTo target).getLast? = sequence.before? target := by
  have bound : sequence.endingBy target.start ≤ sequence.size := endingBy_le_size _
  rw [upTo_eq_take, before?, indexBefore?]
  cases count : sequence.endingBy target.start with
  | zero => rfl
  | succ index =>
    have inside : index < sequence.tokens.toList.length := by
      rw [count] at bound
      exact bound
    rw [List.take_succ_eq_append_getElem inside, List.getLast?_concat]
    simp [get?]

theorem head?_onFrom (target : Span) :
    (sequence.onFrom target).head? = sequence.after? target := by
  rw [onFrom, after?]
  cases sequence.indexAfter? target with
  | none => rfl
  | some index =>
    change (sequence.tokens.toList.drop index).head? = sequence.get? index
    rw [List.head?_drop, get?, Array.getElem?_toList]

theorem InOrder.upTo_eq_filter (inOrder : sequence.InOrder) (target : Span) :
    sequence.upTo target =
      sequence.tokens.toList.filter fun token => token.span.Precedes target := by
  rw [upTo_eq_take, filter_tokens_eq_take_drop 0 (sequence.endingBy target.start),
    List.drop_zero, Nat.sub_zero]
  intro i token found
  have stops : i < sequence.endingBy target.start ↔ _ := inOrder.lt_endingBy_iff found
  rw [decide_eq_true_iff]
  omega

theorem InOrder.onFrom_eq_filter (inOrder : sequence.InOrder) (target : Span) :
    sequence.onFrom target =
      sequence.tokens.toList.filter fun token => target.Precedes token.span := by
  rw [onFrom_eq_drop,
    filter_tokens_eq_take_drop (sequence.startingBefore target.stop) sequence.size,
    List.take_of_length_le]
  · rw [List.length_drop]
    exact Nat.le_refl _
  · intro i token found
    have bound := lt_size_of_get? found
    have starts : i < sequence.startingBefore target.stop ↔ _ :=
      inOrder.lt_startingBefore_iff found
    rw [decide_eq_true_iff]
    omega

end AnnotatedSource.TokenSeq
