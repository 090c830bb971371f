import AnnotatedSource.Kind.Set
import AnnotatedSource.Proofs.Kind

/-!
Sets of kinds as finite sets.  The two words are read as one row of bits, in which each kind has the
bit of its own index.  A set that was built has no bit that is not the bit of a kind, so that its
words are determined by its members, in whatever order and however often these were put in.
-/

set_option autoImplicit false
set_option relaxedAutoImplicit false

namespace AnnotatedSource.KindSet

/-- Both words in one row, the bits of the low word in front. -/
def bits (set : KindSet) : BitVec 128 := set.high ++ set.low

/-- The sets that the operations make.  Other pairs of words may hold bits that belong to no kind and
that `contains` never looks at. -/
inductive Built : KindSet → Prop
  | empty : Built empty
  | ofList (kinds : List NodeKind) : Built (ofList kinds)
  | union {left right : KindSet} : Built left → Built right → Built (left.union right)

variable {left right set : KindSet} {kind : NodeKind}

theorem getLsbD_bits (set : KindSet) (place : Nat) :
    set.bits.getLsbD place =
      if place < 64 then set.low.getLsbD place else set.high.getLsbD (place - 64) :=
  BitVec.getLsbD_append

theorem bits_inj : left.bits = right.bits ↔ left = right := by
  refine ⟨fun same => ?_, congrArg bits⟩
  have low := congrArg (BitVec.extractLsb' 0 64) same
  have high := congrArg (BitVec.extractLsb' 64 64) same
  simp only [bits, BitVec.extractLsb'_append_eq_right] at low
  simp only [bits, BitVec.extractLsb'_append_eq_left] at high
  rcases left with ⟨_, _⟩
  rcases right with ⟨_, _⟩
  exact (mk.injEq ..).mpr ⟨low, high⟩

@[simp] theorem bits_empty : empty.bits = 0#128 := rfl

@[simp] theorem bits_union : (left.union right).bits = left.bits ||| right.bits :=
  BitVec.or_append.symm

theorem mask_eq_twoPow : mask kind = .twoPow 64 (kind.index % 64) :=
  (BitVec.twoPow_eq ..).symm

theorem mask_ne_zero : mask kind ≠ 0#64 := by
  intro zero
  have own : (mask kind).getLsbD (kind.index % 64) = true := by
    simp [mask_eq_twoPow, Nat.mod_lt]
  rw [zero, BitVec.getLsbD_zero] at own
  contradiction

theorem and_mask_ne_zero (word : BitVec 64) :
    (word &&& mask kind != 0) = word.getLsbD (kind.index % 64) := by
  rw [mask_eq_twoPow, BitVec.and_twoPow, ← mask_eq_twoPow]
  split
  · next present =>
    rw [present, bne_iff_ne]
    exact mask_ne_zero
  · next absent =>
    rw [eq_false_of_ne_true absent]
    rfl

@[simp] theorem bits_singleton : (singleton kind).bits = .twoPow 128 kind.index := by
  have inRow := kind.index_lt
  apply BitVec.eq_of_getLsbD_eq
  intro place _
  rw [BitVec.getLsbD_twoPow, getLsbD_bits, Bool.eq_iff_iff]
  by_cases inLow : kind.index / 64 = 0
  · simp only [singleton, inLow, if_true, mask_eq_twoPow, BitVec.getLsbD_twoPow]
    split <;> simp <;> omega
  · simp only [singleton, inLow, if_false, mask_eq_twoPow, BitVec.getLsbD_twoPow]
    split <;> simp <;> omega

theorem contains_eq_getLsbD : set.contains kind = set.bits.getLsbD kind.index := by
  have inRow := kind.index_lt
  simp only [contains, and_mask_ne_zero, getLsbD_bits]
  split
  · next inLow =>
    have below : kind.index < 64 := by omega
    rw [if_pos below, Nat.mod_eq_of_lt below]
  · next inHigh =>
    have above : ¬kind.index < 64 := by omega
    have place : kind.index % 64 = kind.index - 64 := by omega
    rw [if_neg above, place]

@[simp] theorem contains_union :
    (left.union right).contains kind = (left.contains kind || right.contains kind) := by
  simp [contains_eq_getLsbD]

theorem empty_union : empty.union set = set := by
  simp [← bits_inj]

theorem union_empty : set.union empty = set := by
  simp [← bits_inj]

theorem union_comm : left.union right = right.union left := by
  simp [← bits_inj, BitVec.or_comm]

theorem union_assoc {third : KindSet} :
    (left.union right).union third = left.union (right.union third) := by
  simp [← bits_inj, BitVec.or_assoc]

theorem foldl_union_singleton (start : KindSet) (kinds : List NodeKind) :
    kinds.foldl (fun set kind => set.union (singleton kind)) start = start.union (ofList kinds) := by
  induction kinds generalizing start with
  | nil => exact union_empty.symm
  | cons first rest ih =>
    rw [ofList, List.foldl_cons, List.foldl_cons, ih, ih, empty_union, union_assoc]

theorem ofList_cons (first : NodeKind) (rest : List NodeKind) :
    ofList (first :: rest) = (singleton first).union (ofList rest) := by
  rw [ofList, List.foldl_cons, foldl_union_singleton, empty_union]

theorem ofList_append (front back : List NodeKind) :
    ofList (front ++ back) = (ofList front).union (ofList back) :=
  List.foldl_append.trans (foldl_union_singleton (ofList front) back)

theorem getLsbD_bits_ofList {kinds : List NodeKind} {place : Nat} :
    (ofList kinds).bits.getLsbD place = true ↔ ∃ kind ∈ kinds, kind.index = place := by
  induction kinds with
  | nil => simp [ofList]
  | cons first rest ih =>
    rw [ofList_cons, bits_union, BitVec.getLsbD_or, Bool.or_eq_true, bits_singleton,
      BitVec.getLsbD_twoPow, ih]
    simp [first.index_lt]

theorem contains_ofList {kinds : List NodeKind} :
    (ofList kinds).contains kind = true ↔ kind ∈ kinds := by
  simp [contains_eq_getLsbD, getLsbD_bits_ofList, NodeKind.index_inj]

theorem Built.exists_list (built : set.Built) : ∃ kinds, KindSet.ofList kinds = set := by
  induction built with
  | empty => exact ⟨[], rfl⟩
  | ofList kinds => exact ⟨kinds, rfl⟩
  | union _ _ front back =>
    obtain ⟨front, rfl⟩ := front
    obtain ⟨back, rfl⟩ := back
    exact ⟨front ++ back, ofList_append front back⟩

theorem Built.exists_index (built : set.Built) {place : Nat}
    (h : set.bits.getLsbD place = true) : ∃ kind : NodeKind, kind.index = place := by
  obtain ⟨kinds, rfl⟩ := built.exists_list
  obtain ⟨kind, -, atPlace⟩ := getLsbD_bits_ofList.1 h
  exact ⟨kind, atPlace⟩

theorem Built.union_eq_left_iff (built : right.Built) :
    left.union right = left ↔
      ∀ kind, right.contains kind = true → left.contains kind = true := by
  constructor
  · intro same kind member
    rw [← same, contains_union, member, Bool.or_true]
  · intro included
    apply bits_inj.1
    apply BitVec.eq_of_getLsbD_eq
    intro place _
    rw [bits_union, BitVec.getLsbD_or]
    cases bit : right.bits.getLsbD place with
    | false => exact Bool.or_false _
    | true =>
      obtain ⟨kind, rfl⟩ := built.exists_index bit
      rw [← contains_eq_getLsbD] at bit ⊢
      rw [included kind bit, Bool.true_or]

theorem Built.ext (leftBuilt : left.Built) (rightBuilt : right.Built)
    (same : ∀ kind, left.contains kind = right.contains kind) : left = right :=
  calc
    left = left.union right :=
      (rightBuilt.union_eq_left_iff.2 fun kind member => (same kind).trans member).symm
    _ = right.union left := union_comm
    _ = right := leftBuilt.union_eq_left_iff.2 fun kind member => (same kind).symm.trans member

theorem mem_members_iff : kind ∈ set.members ↔ set.contains kind = true := by
  rw [members, List.mem_filter, and_iff_right kind.mem_all]

/-- The members of a set that was built make the same set again, and those of no other words do. -/
theorem built_iff : set.Built ↔ ofList set.members = set := by
  refine ⟨fun built => ?_, fun same => same ▸ .ofList set.members⟩
  apply (Built.ofList set.members).ext built
  intro kind
  rw [Bool.eq_iff_iff, contains_ofList, mem_members_iff]

instance : DecidablePred Built := fun _ => decidable_of_iff _ built_iff.symm

/-- The bit behind the last kind of the vocabulary is in no set that was built. -/
example : ¬Built ⟨0, 1 <<< 7⟩ := by decide +kernel

theorem ofList_eq_iff {front back : List NodeKind} :
    ofList front = ofList back ↔ ∀ kind, kind ∈ front ↔ kind ∈ back := by
  constructor
  · intro same kind
    rw [← contains_ofList, same, contains_ofList]
  · intro same
    apply (Built.ofList front).ext (.ofList back)
    intro kind
    rw [Bool.eq_iff_iff, contains_ofList, contains_ofList, same]

/-- Sets of kinds are finite sets.  A set built from a list has the kinds that occur in the list for
its members; two such sets are united by appending the lists, and are the same words exactly when
the same kinds occur in both; and a set that was built is included in another one exactly when the
union with it changes nothing. -/
theorem ofList_faithful (front back : List NodeKind) :
    (∀ kind, (ofList front).contains kind = true ↔ kind ∈ front) ∧
    (ofList front).union (ofList back) = ofList (front ++ back) ∧
    (ofList front = ofList back ↔ ∀ kind, kind ∈ front ↔ kind ∈ back) ∧
    ∀ outer inner : KindSet, inner.Built →
      (outer.union inner = outer ↔
        ∀ kind, inner.contains kind = true → outer.contains kind = true) :=
  ⟨fun _ => contains_ofList, (ofList_append front back).symm, ofList_eq_iff,
    fun _ _ built => built.union_eq_left_iff⟩

/-- The last kind of the low word, the first one of the high word and the two ends of the vocabulary,
some of them twice. -/
def acrossWords : List NodeKind :=
  [.importExpression, .program, .assignmentPattern, .awaitExpression, .program, .importExpression]

/-- The same kinds in another order, each of them once. -/
def acrossWordsOnce : List NodeKind :=
  [.awaitExpression, .importExpression, .assignmentPattern, .program]

theorem ofList_faithful_acrossWords :
    (ofList [.importExpression, .program]).Built ∧
      ofList acrossWords = ofList acrossWordsOnce ∧
      (ofList acrossWords).contains .yieldExpression = false ∧
      (ofList acrossWords).union (ofList [.importExpression, .program]) = ofList acrossWords := by
  have built : (ofList [.importExpression, .program]).Built := .ofList _
  have listedOnce : acrossWords ⊆ acrossWordsOnce := by decide
  have listed : acrossWordsOnce ⊆ acrossWords := by decide
  have part : [.importExpression, .program] ⊆ acrossWords := by decide
  obtain ⟨contains, -, same, includes⟩ := ofList_faithful acrossWords acrossWordsOnce
  refine ⟨built, same.2 fun kind => ⟨@listedOnce kind, @listed kind⟩, ?_,
    (includes _ _ built).2 fun kind member => ?_⟩
  · rw [Bool.eq_false_iff, Ne, contains]
    decide
  · exact (contains kind).2 (part (contains_ofList.1 member))

end AnnotatedSource.KindSet
