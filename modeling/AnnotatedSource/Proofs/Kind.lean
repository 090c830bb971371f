import AnnotatedSource.Kind

/-!
The names of kinds.  No two kinds have the same name, and a name is made of letters, so a text that
goes on with anything else shows where the name ends.
-/

set_option autoImplicit false
set_option relaxedAutoImplicit false

namespace AnnotatedSource.NodeKind

theorem getElem?_all_index (kind : NodeKind) : all[kind.index]? = some kind := by
  cases kind <;> rfl

theorem mem_all (kind : NodeKind) : kind ∈ all :=
  List.mem_of_getElem? kind.getElem?_all_index

theorem index_inj {left right : NodeKind} : left.index = right.index ↔ left = right := by
  refine ⟨fun same => ?_, congrArg index⟩
  have place := left.getElem?_all_index
  rw [same, right.getElem?_all_index] at place
  exact (Option.some.inj place).symm

theorem index_lt (kind : NodeKind) : kind.index < 128 := by
  obtain ⟨inVocabulary, -⟩ := List.getElem?_eq_some_iff.1 kind.getElem?_all_index
  exact Nat.lt_trans inVocabulary (by decide)

theorem ofName?_name (kind : NodeKind) : ofName? kind.name = some kind := by
  have each : ∀ kind ∈ all, ofName? kind.name = some kind := by decide +kernel
  exact each kind kind.mem_all

theorem ofName?_eq_some_iff {name : String} {kind : NodeKind} :
    ofName? name = some kind ↔ kind.name = name := by
  constructor
  · intro found
    have same := List.find?_some found
    exact eq_of_beq same
  · rintro rfl
    exact kind.ofName?_name

theorem name_inj {left right : NodeKind} : left.name = right.name ↔ left = right := by
  rw [← ofName?_eq_some_iff, ofName?_name, Option.some.injEq, eq_comm]

theorem name_ne_empty (kind : NodeKind) : kind.name ≠ "" := by
  cases kind <;> decide

theorem isAlpha_of_mem_name {kind : NodeKind} {c : Char} (h : c ∈ kind.name.toList) :
    c.isAlpha = true := by
  have each : ∀ kind ∈ all, kind.name.toList.all Char.isAlpha = true := by decide +kernel
  exact List.all_eq_true.1 (each kind kind.mem_all) c h

end AnnotatedSource.NodeKind
