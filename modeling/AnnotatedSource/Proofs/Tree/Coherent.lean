import AnnotatedSource.Proofs.Span
import AnnotatedSource.Proofs.Tree.Ancestry

/-!
Coherent trees: children lie inside their parents, siblings do not overlap, and a program is nothing
but a root.  Spans then follow the tree: a node encloses all below it, and of two nodes that are not
related one precedes the other.
-/

set_option autoImplicit false
set_option relaxedAutoImplicit false

namespace AnnotatedSource.Tree

/-- Every node encloses its children. -/
def Nested (tree : Tree) : Prop :=
  ∀ (id child : tree.Id), child ∈ tree.children id →
    (tree.node id).span.Encloses (tree.node child).span

/-- The children of every node have no offset in common. -/
def SiblingsApart (tree : Tree) : Prop :=
  ∀ (id left right : tree.Id), left ∈ tree.children id → right ∈ tree.children id → left ≠ right →
    (tree.node left).span.Apart (tree.node right).span

/-- No node but the root is a program. -/
def ProgramAtRoot (tree : Tree) : Prop :=
  ∀ id : tree.Id, (tree.node id).kind = .program → id = tree.root

/-- A tree that agrees with the text it stands for. -/
structure Coherent (tree : Tree) : Prop where
  nested : tree.Nested
  siblingsApart : tree.SiblingsApart
  programAtRoot : tree.ProgramAtRoot

instance (tree : Tree) : Decidable tree.Nested :=
  inferInstanceAs (Decidable (∀ id child, child ∈ tree.children id → _))
instance (tree : Tree) : Decidable tree.SiblingsApart :=
  inferInstanceAs (Decidable (∀ id left right : tree.Id, left ∈ tree.children id →
    right ∈ tree.children id → left ≠ right → _))
instance (tree : Tree) : Decidable tree.ProgramAtRoot :=
  inferInstanceAs (Decidable (∀ id : tree.Id, (tree.node id).kind = .program → id = tree.root))

variable {tree : Tree}

theorem encloses_of_mem_lineage (built : tree.Built) (nested : tree.Nested) {id above : tree.Id}
    (h : above ∈ tree.lineage id) : (tree.node above).span.Encloses (tree.node id).span := by
  induction id using parent_induction with
  | top id none =>
    rw [lineage, ancestors_eq_nil none, List.mem_singleton] at h
    rw [h]
    exact Span.Encloses.refl _
  | below id parent found ih =>
    have inner := nested parent id (built.mem_children_iff.2 found)
    rcases mem_lineage_iff.1 h with rfl | higher
    · exact Span.Encloses.refl _
    · rw [ancestors_of_parent? found] at higher
      exact (ih higher).trans inner

theorem precedes_or_precedes_of_siblings (built : tree.Built) (nested : tree.Nested)
    (apart : tree.SiblingsApart) {m n left right : tree.Id} (hleft : left ∈ tree.lineage m)
    (hright : right ∈ tree.lineage n) (siblings : tree.Siblings left right)
    (leftNonempty : (tree.node left).span.start < (tree.node left).span.stop)
    (rightNonempty : (tree.node right).span.start < (tree.node right).span.stop) :
    (tree.node m).span.Precedes (tree.node n).span ∨
      (tree.node n).span.Precedes (tree.node m).span := by
  obtain ⟨distinct, parent, leftParent, rightParent⟩ := siblings
  have disjoint := apart parent left right (built.mem_children_iff.2 leftParent)
    (built.mem_children_iff.2 rightParent) distinct
  have around := encloses_of_mem_lineage built nested hleft
  have around' := encloses_of_mem_lineage built nested hright
  rcases Span.precedes_or_precedes_of_apart leftNonempty rightNonempty disjoint with first | second
  · exact .inl (first.of_encloses around around')
  · exact .inr (second.of_encloses around' around)

theorem not_mem_ancestors_root {above : tree.Id} : above ∉ tree.ancestors tree.root := by
  rw [ancestors_eq_nil tree.parent?_root]
  exact List.not_mem_nil

theorem ne_root_of_parent? {id parent : tree.Id} (h : tree.parent? id = some parent) :
    id ≠ tree.root := by
  rintro rfl
  rw [tree.parent?_root] at h
  contradiction

theorem ne_root_of_mem_ancestors {id above : tree.Id} (h : above ∈ tree.ancestors id) :
    id ≠ tree.root := by
  rintro rfl
  exact not_mem_ancestors_root h

theorem ne_root_of_mem_lineage {id above : tree.Id} (h : above ∈ tree.lineage id)
    (notRoot : above ≠ tree.root) : id ≠ tree.root := by
  rcases mem_lineage_iff.1 h with rfl | higher
  · exact notRoot
  · exact ne_root_of_mem_ancestors higher

theorem children_ne_nil_of_mem_ancestors (built : tree.Built) {id above : tree.Id}
    (h : above ∈ tree.ancestors id) : tree.children above ≠ [] := by
  obtain ⟨child, -, isParent⟩ := exists_child_of_mem_ancestors h
  exact List.ne_nil_of_mem (built.mem_children_iff.2 isParent)

end AnnotatedSource.Tree
