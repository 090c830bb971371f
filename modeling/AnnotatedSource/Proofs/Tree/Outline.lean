import AnnotatedSource.Tree.Outline
import AnnotatedSource.Proofs.Kind
import AnnotatedSource.Proofs.Tree.Pruning
import Mathlib.Order.Bounds.Basic

/-!
What the outline of a tree tells.  Cut at its line ends it has a line for each node, in the order of
the indices.  What a line shows behind its spaces is the label, from which the kind and the span can
be read back; the spaces show the depth, and from all the depths together the parents can be read
back, for the parent of a node is the last node before it that stands less deep.
-/

set_option autoImplicit false
set_option relaxedAutoImplicit false

namespace AnnotatedSource

section Label

theorem toDigits_injective : Function.Injective (Nat.toDigits 10) :=
  Function.LeftInverse.injective (g := fun digits => Nat.ofDigitChars 10 digits 0)
    fun _ => Nat.ofDigitChars_ten_toDigits

theorem isDigit_of_mem_toDigits {n : Nat} {c : Char} (h : c ∈ Nat.toDigits 10 n) :
    c.isDigit = true :=
  Nat.isDigit_of_mem_toDigits (by decide) (by decide) h

theorem Span.mem_render {span : Span} {c : Char} (h : c ∈ span.render) :
    c.isDigit = true ∨ c = '.' := by
  simp only [render, List.mem_append, List.mem_cons, List.not_mem_nil, or_false] at h
  rcases h with (inStart | dot) | inStop
  · exact .inl (isDigit_of_mem_toDigits inStart)
  · exact .inr (or_self_iff.1 dot)
  · exact .inl (isDigit_of_mem_toDigits inStop)

theorem Span.splitOn_render (span : Span) :
    span.render.splitOn '.' = [Nat.toDigits 10 span.start, [], Nat.toDigits 10 span.stop] := by
  have undotted (n : Nat) : '.' ∉ Nat.toDigits 10 n := fun dot =>
    absurd (isDigit_of_mem_toDigits dot) (by decide)
  have joined : span.render = List.intercalate ['.']
      [Nat.toDigits 10 span.start, [], Nat.toDigits 10 span.stop] := by
    simp [render, List.intercalate]
  rw [joined, List.splitOn_intercalate]
  · simp [undotted]
  · exact List.cons_ne_nil _ _

theorem Span.render_inj {left right : Span} : left.render = right.render ↔ left = right := by
  constructor
  · intro same
    have ends := congrArg (List.splitOn '.') same
    simp only [splitOn_render, List.cons.injEq, toDigits_injective.eq_iff, and_true, true_and]
      at ends
    obtain ⟨start, stop⟩ := ends
    cases left
    cases right
    subst start stop
    rfl
  · rintro rfl
    rfl

theorem Node.mem_label {node : Node} {c : Char} (h : c ∈ node.label) :
    c.isAlpha = true ∨ c = '@' ∨ c.isDigit = true ∨ c = '.' := by
  simp only [label, List.mem_append, List.mem_singleton] at h
  rcases h with (inName | mark) | inSpan
  · exact .inl (NodeKind.isAlpha_of_mem_name inName)
  · exact .inr (.inl mark)
  · exact .inr (.inr (Span.mem_render inSpan))

theorem Node.space_notMem_label (node : Node) : ' ' ∉ node.label := fun h =>
  absurd (mem_label h) (by decide)

theorem Node.lineEnd_notMem_label (node : Node) : '\n' ∉ node.label := fun h =>
  absurd (mem_label h) (by decide)

theorem Node.splitOn_label (node : Node) :
    node.label.splitOn '@' = [node.kind.name.toList, node.span.render] := by
  have inName : '@' ∉ node.kind.name.toList := fun h =>
    absurd (NodeKind.isAlpha_of_mem_name h) (by decide)
  have inSpan : '@' ∉ node.span.render := fun h => absurd (Span.mem_render h) (by decide)
  have joined : node.label = List.intercalate ['@'] [node.kind.name.toList, node.span.render] := by
    simp [label, List.intercalate]
  rw [joined, List.splitOn_intercalate]
  · simp [inName, inSpan]
  · exact List.cons_ne_nil _ _

theorem Node.label_eq_iff {left right : Node} :
    left.label = right.label ↔ left.kind = right.kind ∧ left.span = right.span := by
  constructor
  · intro same
    have parts := congrArg (List.splitOn '@') same
    simpa only [splitOn_label, List.cons.injEq, String.toList_inj, NodeKind.name_inj,
      Span.render_inj, and_true] using parts
  · rintro ⟨kind, span⟩
    rw [label, label, kind, span]

/-- Two nodes that are the same but for their locations and holes. -/
structure Node.Agrees (left right : Node) : Prop where
  kind : left.kind = right.kind
  span : left.span = right.span
  parent : left.parent = right.parent
  children : left.children = right.children

instance (left right : Node) : Decidable (left.Agrees right) :=
  decidable_of_iff (left.kind = right.kind ∧ left.span = right.span ∧
      left.parent = right.parent ∧ left.children = right.children)
    ⟨fun ⟨kind, span, parent, children⟩ => ⟨kind, span, parent, children⟩,
      fun agree => ⟨agree.kind, agree.span, agree.parent, agree.children⟩⟩

end Label

namespace Tree

variable {tree : Tree}

section Ids

variable {α : Type} (f : tree.Id → α)

theorem length_map_ids : (tree.ids.map f).length = tree.size := by
  rw [List.length_map, ids, List.length_finRange]
  rfl

theorem getElem?_map_ids (id : tree.Id) : (tree.ids.map f)[id.val]? = some (f id) := by
  simp [ids]

end Ids

section Lines

/-- The line of a node: two spaces for each node above it, and its label. -/
def line (tree : Tree) (id : tree.Id) : List Char :=
  List.replicate (2 * tree.depth id) ' ' ++ (tree.node id).label

def lines (tree : Tree) : List (List Char) := tree.ids.map tree.line

theorem lineEnd_notMem_line (id : tree.Id) : '\n' ∉ tree.line id := by
  simp [line, (tree.node id).lineEnd_notMem_label]

theorem outlineFrom_eq (depth : Nat) (id : tree.Id) :
    tree.outlineFrom depth id =
      tree.outlineLine depth id ++ (tree.children id).flatMap (tree.outlineFrom (depth + 1)) := by
  rw [outlineFrom]
  simp only [List.flatMap_subtype, List.unattach_attach]

theorem Built.outlineFrom_depth (built : tree.Built) (id : tree.Id) :
    tree.outlineFrom (tree.depth id) id =
      (entered (tree.prunedTraversal (fun _ => false) id)).flatMap (tree.line · ++ ['\n']) := by
  induction id using child_induction with
  | above id ih =>
    have below : (tree.children id).flatMap (tree.outlineFrom (tree.depth id + 1)) =
        ((tree.children id).flatMap fun child =>
          entered (tree.prunedTraversal (fun _ => false) child)).flatMap
            (tree.line · ++ ['\n']) := by
      rw [List.flatMap_assoc]
      refine List.flatMap_congr fun child member => ?_
      rw [← ih child member, depth_of_parent? (built.mem_children_iff.1 member)]
    rw [outlineFrom_eq, below, entered_prunedTraversal, List.flatMap_cons]
    rfl

theorem Built.outline_eq_flatMap (built : tree.Built) :
    tree.outline = tree.lines.flatMap (· ++ ['\n']) := by
  rw [outline, ← tree.depth_root, built.outlineFrom_depth, ← built.events_walk_eq,
    built.entered_events, lines, List.flatMap_map]

theorem flatMap_lineEnd_eq_intercalate (lines : List (List Char)) :
    lines.flatMap (· ++ ['\n']) = List.intercalate ['\n'] (lines ++ [[]]) := by
  induction lines with
  | nil => rfl
  | cons line rest ih =>
    rw [List.flatMap_cons, ih]
    cases rest <;> simp [List.intercalate]

/-- Cut at its line ends the outline has the line of each node, and behind the last one nothing. -/
theorem Built.splitOn_outline (built : tree.Built) :
    tree.outline.splitOn '\n' = tree.lines ++ [[]] := by
  rw [built.outline_eq_flatMap, flatMap_lineEnd_eq_intercalate, List.splitOn_intercalate]
  · intro line member
    rcases List.mem_append.1 member with inLines | last
    · obtain ⟨id, -, rfl⟩ := List.mem_map.1 inLines
      exact lineEnd_notMem_line id
    · rw [List.mem_singleton.1 last]
      exact List.not_mem_nil
  · exact List.append_ne_nil_of_right_ne_nil _ (List.cons_ne_nil _ _)

end Lines

section Depths

def depths (tree : Tree) : List Nat := tree.ids.map tree.depth

/-- The indices before an index at which a smaller number stands. -/
def shallowerBefore (depths : List Nat) (index : Nat) : Set Nat :=
  {earlier | earlier < index ∧ ∃ depth ∈ depths[earlier]?, ∃ own ∈ depths[index]?, depth < own}

theorem mem_shallowerBefore_iff {earlier id : tree.Id} :
    earlier.val ∈ shallowerBefore tree.depths id.val ↔
      earlier < id ∧ tree.depth earlier < tree.depth id := by
  simp only [shallowerBefore, depths, Set.mem_ofPred_eq, getElem?_map_ids, Option.mem_some_iff,
    exists_eq_left', Fin.lt_def]

/-- The parent of a node is the last node before it that stands less deep. -/
theorem Built.isGreatest_shallowerBefore (built : tree.Built) {id parent : tree.Id}
    (found : tree.parent? id = some parent) :
    IsGreatest (shallowerBefore tree.depths id.val) parent.val := by
  refine ⟨mem_shallowerBefore_iff.2 ⟨parent_lt found, ?_⟩, fun earlier shallower => ?_⟩
  · exact depth_lt_of_mem_ancestors (mem_ancestors_of_parent? found)
  · have before : earlier < id.val := shallower.1
    obtain ⟨other, rfl⟩ : ∃ other : tree.Id, other.val = earlier :=
      ⟨⟨earlier, Nat.lt_trans before id.isLt⟩, rfl⟩
    -- A node behind the parent is below it like `id`, and so stands at least as deep as `id`.
    by_contra behind
    have later : parent < other := Nat.lt_of_not_le behind
    have isAbove : parent ∈ tree.lineage id := mem_lineage_of_parent? found List.mem_cons_self
    have onWay := built.mem_lineage_of_between isAbove (Fin.le_of_lt later) (Nat.le_of_lt before)
    rcases mem_lineage_iff.1 onWay with same | above
    · exact Fin.ne_of_lt later same
    have deeper := depth_lt_of_mem_ancestors above
    have less := (mem_shallowerBefore_iff.1 shallower).2
    rw [depth_of_parent? found] at less
    omega

theorem Built.parentAt_eq_some_iff_isGreatest (built : tree.Built) {index parent : Nat} :
    parentAt tree.nodes index = some parent ↔
      IsGreatest (shallowerBefore tree.depths index) parent := by
  constructor
  · intro stored
    obtain ⟨id, rfl⟩ : ∃ id : tree.Id, id.val = index :=
      ⟨⟨index, (parentAt_lt tree.linked stored).2⟩, rfl⟩
    rw [parentAt_nodes, Option.map_eq_some_iff] at stored
    obtain ⟨above, found, rfl⟩ := stored
    exact built.isGreatest_shallowerBefore found
  · intro greatest
    obtain ⟨-, depth, -, own, isOwn, less⟩ := greatest.1
    have bound : index < tree.nodes.size := by
      rw [← size, ← length_map_ids tree.depth]
      exact (List.getElem?_eq_some_iff.1 isOwn).choose
    obtain ⟨id, rfl⟩ : ∃ id : tree.Id, id.val = index := ⟨⟨index, bound⟩, rfl⟩
    rw [depths, getElem?_map_ids] at isOwn
    obtain rfl := Option.some.inj isOwn
    cases found : tree.parent? id with
    | none =>
      rw [built.eq_root_of_parent? found, depth_root] at less
      contradiction
    | some above =>
      rw [parentAt_nodes, found, greatest.unique (built.isGreatest_shallowerBefore found)]
      rfl

end Depths

section Agreement

def labels (tree : Tree) : List (List Char) := tree.ids.map fun id => (tree.node id).label

theorem lines_eq_zipWith (tree : Tree) :
    tree.lines = List.zipWith (fun depth label => List.replicate (2 * depth) ' ' ++ label)
      tree.depths tree.labels := by
  rw [depths, labels, List.zipWith_map, List.zipWith_self]
  rfl

theorem depths_eq_map (tree : Tree) :
    tree.depths = tree.lines.map fun line => line.count ' ' / 2 := by
  rw [lines, List.map_map]
  refine List.map_congr_left fun id _ => ?_
  have inLabel : (tree.node id).label.count ' ' = 0 :=
    List.count_eq_zero.2 (tree.node id).space_notMem_label
  rw [Function.comp_apply, line, List.count_append, List.count_replicate_self, inLabel]
  omega

theorem labels_eq_map (tree : Tree) :
    tree.labels = tree.lines.map fun line => line.filter (· != ' ') := by
  rw [lines, List.map_map]
  refine List.map_congr_left fun id _ => ?_
  have inLabel : ∀ c ∈ (tree.node id).label, (c != ' ') = true := by
    intro c among
    exact bne_iff_ne.2 (ne_of_mem_of_not_mem among (tree.node id).space_notMem_label)
  rw [Function.comp_apply, line, List.filter_append, List.filter_replicate,
    List.filter_eq_self.2 inLabel]
  rfl

variable {first second : Tree}

theorem lines_eq_iff :
    first.lines = second.lines ↔ first.depths = second.depths ∧ first.labels = second.labels := by
  constructor
  · intro same
    rw [depths_eq_map, depths_eq_map, labels_eq_map, labels_eq_map, same]
    exact ⟨rfl, rfl⟩
  · rintro ⟨depths, labels⟩
    rw [lines_eq_zipWith, lines_eq_zipWith, depths, labels]

theorem Built.outline_eq_iff_lines (builtFirst : first.Built) (builtSecond : second.Built) :
    first.outline = second.outline ↔ first.lines = second.lines := by
  constructor
  · intro same
    have cut := congrArg (List.splitOn '\n') same
    rw [builtFirst.splitOn_outline, builtSecond.splitOn_outline] at cut
    exact List.append_cancel_right cut
  · intro same
    rw [builtFirst.outline_eq_flatMap, builtSecond.outline_eq_flatMap, same]

theorem depth_eq_of_parentAt
    (parents : ∀ index, parentAt first.nodes index = parentAt second.nodes index)
    {id : first.Id} {other : second.Id} (same : id.val = other.val) :
    first.depth id = second.depth other := by
  have here (id : first.Id) (other : second.Id) (same : id.val = other.val) :
      (second.parent? other).map Fin.val = (first.parent? id).map Fin.val := by
    rw [← parentAt_nodes, ← parentAt_nodes, parents, same]
  induction id using parent_induction generalizing other with
  | top id none =>
    have alike := here id other same
    rw [none, Option.map_none, Option.map_eq_none_iff] at alike
    rw [depth, depth, ancestors_eq_nil none, ancestors_eq_nil alike]
    rfl
  | below id parent found ih =>
    have alike := here id other same
    rw [found, Option.map_some, Option.map_eq_some_iff] at alike
    obtain ⟨above, found', value⟩ := alike
    rw [depth_of_parent? found, depth_of_parent? found', ih value.symm]

theorem Built.depths_eq_iff (builtFirst : first.Built) (builtSecond : second.Built) :
    first.depths = second.depths ↔
      first.size = second.size ∧
        ∀ index, parentAt first.nodes index = parentAt second.nodes index := by
  constructor
  · intro same
    refine ⟨?_, fun index => Option.ext fun parent => ?_⟩
    · rw [← length_map_ids first.depth, ← length_map_ids second.depth]
      exact congrArg List.length same
    · rw [builtFirst.parentAt_eq_some_iff_isGreatest, builtSecond.parentAt_eq_some_iff_isGreatest,
        same]
  · rintro ⟨sizes, parents⟩
    refine List.ext_getElem ?_ fun index inFirst inSecond => ?_
    · rw [depths, depths, length_map_ids, length_map_ids, sizes]
    · simpa [depths, ids] using depth_eq_of_parentAt parents rfl

theorem Built.agrees_of_lines_eq (builtFirst : first.Built) (builtSecond : second.Built)
    (same : first.lines = second.lines) {id : first.Id} {other : second.Id}
    (value : id.val = other.val) : (first.node id).Agrees (second.node other) := by
  obtain ⟨depths, labels⟩ := lines_eq_iff.1 same
  obtain ⟨sizes, parents⟩ := (builtFirst.depths_eq_iff builtSecond).1 depths
  have label : (first.node id).label = (second.node other).label := by
    have entry := congrArg (·[id.val]?) labels
    rw [Tree.labels, Tree.labels, getElem?_map_ids, value, getElem?_map_ids] at entry
    exact Option.some.inj entry
  obtain ⟨kind, span⟩ := Node.label_eq_iff.1 label
  refine ⟨kind, span, ?_, ?_⟩
  · rw [← parentAt_val, ← parentAt_val, parents, value]
  · have size : first.nodes.size = second.nodes.size := sizes
    rw [← Array.toList_inj, builtFirst.arranged.children_eq (first.getElem?_nodes id),
      builtSecond.arranged.children_eq (second.getElem?_nodes other), value, childrenOf, childrenOf,
      size]
    simp only [parents]

theorem Built.lines_eq_of_agrees (builtFirst : first.Built) (builtSecond : second.Built)
    (sizes : first.size = second.size)
    (agrees : ∀ (id : first.Id) (other : second.Id), id.val = other.val →
      (first.node id).Agrees (second.node other)) : first.lines = second.lines := by
  have parents (index : Nat) : parentAt first.nodes index = parentAt second.nodes index := by
    rcases Nat.lt_or_ge index first.size with inFirst | outside
    · have inSecond : index < second.size := Nat.lt_of_lt_of_eq inFirst sizes
      have agree := agrees ⟨index, inFirst⟩ ⟨index, inSecond⟩ rfl
      have parent := agree.parent
      rwa [← parentAt_val, ← parentAt_val] at parent
    · have outside' : second.size ≤ index := by
        rw [← sizes]
        exact outside
      rw [parentAt, parentAt, Array.getElem?_eq_none outside, Array.getElem?_eq_none outside']
  refine lines_eq_iff.2 ⟨(builtFirst.depths_eq_iff builtSecond).2 ⟨sizes, parents⟩, ?_⟩
  refine List.ext_getElem ?_ fun index inFirst inSecond => ?_
  · rw [labels, labels, length_map_ids, length_map_ids, sizes]
  · rw [labels, length_map_ids] at inFirst inSecond
    have agree := agrees ⟨index, inFirst⟩ ⟨index, inSecond⟩ rfl
    simpa [labels, ids] using Node.label_eq_iff.2 ⟨agree.kind, agree.span⟩

end Agreement

/-- The outline of a built tree is faithful.  Cut at its line ends it gives as many lines as the
tree has nodes, and the line of a node is two spaces for each node above it and its label; and two
built trees have the same outline just when they have the same number of nodes and each index has
nodes of one kind, span, parent and children in both. -/
theorem outline_faithful :
    (∀ tree : Tree, tree.Built →
      ∃ lines : List (List Char), tree.outline.splitOn '\n' = lines ++ [[]] ∧
        lines.length = tree.size ∧
        ∀ id : tree.Id, lines[id.val]? =
          some (List.replicate (2 * (tree.ancestors id).length) ' ' ++ (tree.node id).label)) ∧
    ∀ first second : Tree, first.Built → second.Built →
      (first.outline = second.outline ↔
        first.size = second.size ∧
          ∀ (id : first.Id) (other : second.Id), id.val = other.val →
            (first.node id).Agrees (second.node other)) := by
  constructor
  · intro tree built
    exact ⟨tree.lines, built.splitOn_outline, length_map_ids _, getElem?_map_ids _⟩
  · intro first second builtFirst builtSecond
    rw [builtFirst.outline_eq_iff_lines builtSecond]
    constructor
    · intro same
      refine ⟨?_, fun id other value => builtFirst.agrees_of_lines_eq builtSecond same value⟩
      rw [← length_map_ids first.line, ← length_map_ids second.line]
      exact congrArg List.length same
    · rintro ⟨sizes, agrees⟩
      exact builtFirst.lines_eq_of_agrees builtSecond sizes agrees

def filled : Tree :=
  Shape.toTree <|
    .node .program (.ofWidth 0 9) .zero 0
      [.node .arrayExpression (.ofWidth 0 8) .zero 0 [.node .identifier (.ofWidth 3 1) .zero 0 []]]

/-- The array with holes beside its name, and with another location. -/
def pierced : Tree :=
  Shape.toTree <|
    .node .program (.ofWidth 0 9) .zero 0
      [.node .arrayExpression (.ofWidth 0 8) ⟨.ofCounts 1 0, .ofCounts 1 8⟩ 3
        [.node .identifier (.ofWidth 3 1) .zero 0 []]]

/-- The name behind the array. -/
def spilled : Tree :=
  Shape.toTree <|
    .node .program (.ofWidth 0 9) .zero 0
      [.node .arrayExpression (.ofWidth 0 8) .zero 0 [],
        .node .identifier (.ofWidth 3 1) .zero 0 []]

theorem outline_faithful_pierced :
    filled.Built ∧ pierced.Built ∧ spilled.Built ∧
      filled ≠ pierced ∧ filled.outline = pierced.outline ∧ filled.outline ≠ spilled.outline ∧
      (filled.outline.splitOn '\n')[2]? = some "    Identifier@3..4".toList := by
  have builtFilled : filled.Built := Shape.built_toTree _
  have builtPierced : pierced.Built := Shape.built_toTree _
  have builtSpilled : spilled.Built := Shape.built_toTree _
  refine ⟨builtFilled, builtPierced, builtSpilled, by decide, ?_, ?_, ?_⟩
  · exact (outline_faithful.2 filled pierced builtFilled builtPierced).2 ⟨rfl, by decide⟩
  · intro same
    obtain ⟨-, agrees⟩ := (outline_faithful.2 filled spilled builtFilled builtSpilled).1 same
    have parent := (agrees ⟨2, by decide⟩ ⟨2, by decide⟩ rfl).parent
    revert parent
    decide
  · obtain ⟨lines, cut, length, each⟩ := outline_faithful.1 filled builtFilled
    have last := each ⟨2, by decide⟩
    rw [cut, List.getElem?_append_left (length ▸ by decide)]
    refine last.trans (congrArg some ?_)
    decide +kernel

end Tree

end AnnotatedSource
