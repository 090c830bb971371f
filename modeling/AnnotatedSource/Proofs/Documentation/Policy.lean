import AnnotatedSource.Proofs.Kind.Set
import AnnotatedSource.Proofs.Tree.Ancestry
import AnnotatedSource.Source

/-!
What the documentation of a node is.  It is the last documentation comment among those that lead a
certain node, if it stands close enough above that node.  Which node that is depends on the kind of
the node, on its parent and, for a function expression, on all that is above it.
-/

set_option autoImplicit false
set_option relaxedAutoImplicit false

namespace AnnotatedSource

namespace NodeKind

theorem isExport_iff {kind : NodeKind} :
    kind.isExport = true ↔ kind ∈ [.exportDefaultDeclaration, .exportNamedDeclaration,
      .exportAllDeclaration, .exportSpecifier] :=
  KindSet.contains_ofList

theorem isCall_iff {kind : NodeKind} :
    kind.isCall = true ↔ kind ∈ [.callExpression, .newExpression] :=
  KindSet.contains_ofList

theorem endsClimb_iff {kind : NodeKind} :
    kind.endsClimb = true ↔ kind ∈ [.functionDeclaration, .functionExpression,
      .arrowFunctionExpression, .methodDefinition, .property] := by
  cases kind <;> decide

end NodeKind

def Token.Documents (token : Token) : Prop :=
  token.kind = .block ∧ ∃ rest, token.value.toList = '*' :: rest

theorem Token.isDocumentation_iff {token : Token} :
    token.isDocumentation = true ↔ token.Documents := by
  simp [isDocumentation, Documents, List.head?_eq_some_iff]

/-- The documentation comment of several behind which there is no other. -/
def LastDocumentation (comments : List Token) (comment : Token) : Prop :=
  comment.Documents ∧ ∃ before after, comments = before ++ comment :: after ∧
    ∀ later ∈ after, ¬later.Documents

theorem find?_reverse_eq_some_iff {comments : List Token} {comment : Token} :
    comments.reverse.find? Token.isDocumentation = some comment ↔
      LastDocumentation comments comment := by
  rw [List.find?_eq_some_iff_append, Token.isDocumentation_iff, LastDocumentation]
  refine and_congr_right fun _ => ?_
  constructor
  · rintro ⟨front, rest, split, none⟩
    refine ⟨rest.reverse, front.reverse, ?_, ?_⟩
    · simpa using congrArg List.reverse split
    · intro later member documents
      have absent := none later (List.mem_reverse.1 member)
      rw [Token.isDocumentation_iff.2 documents] at absent
      contradiction
  · rintro ⟨before, after, rfl, none⟩
    refine ⟨after.reverse, before.reverse, by simp, ?_⟩
    intro later member
    have absent := mt Token.isDocumentation_iff.1 (none later (List.mem_reverse.1 member))
    simpa using absent

theorem documentationAbove?_eq_some_iff {leading : List Token} {line : Nat} {comment : Token} :
    documentationAbove? leading line = some comment ↔
      LastDocumentation leading comment ∧ (line : Int) - comment.loc.stop.line ≤ 1 := by
  rw [documentationAbove?, Option.filter_eq_some_iff, find?_reverse_eq_some_iff, decide_eq_true_iff]
  refine and_congr_right fun _ => ?_
  omega

/-- The reader that has the leading comments of every node at hand. -/
abbrev reading {tree : Tree} (leading : tree.Id → List Token) (id : tree.Id) : Id (List Token) :=
  pure (leading id)

namespace Tree

variable {tree : Tree} {leading : tree.Id → List Token}

/-- A comment is the last documentation among the comments that lead a node, and ends on the line
of the node, on the line above it or further down. -/
def DocumentedAt (tree : Tree) (leading : tree.Id → List Token) (id : tree.Id)
    (comment : Token) : Prop :=
  LastDocumentation (leading id) comment ∧
    ((tree.node id).loc.start.line : Int) - comment.loc.stop.line ≤ 1

/-- No comment leads a node, and the node is neither a function nor a method nor a property. -/
def Passes (tree : Tree) (leading : tree.Id → List Token) (id : tree.Id) : Prop :=
  leading id = [] ∧ (tree.node id).kind ∉ [NodeKind.functionDeclaration, .functionExpression,
    .arrowFunctionExpression, .methodDefinition, .property]

/-- One node stands for another where the documentation of the other is looked for. -/
inductive StandsFor (tree : Tree) (leading : tree.Id → List Token) (id : tree.Id) :
    tree.Id → Prop where
  | wrapper {parent : tree.Id}
      (kind : (tree.node id).kind ∈ [NodeKind.functionDeclaration, .classDeclaration])
      (found : tree.parent? id = some parent)
      (exports : (tree.node parent).kind ∈ [NodeKind.exportDefaultDeclaration,
        .exportNamedDeclaration, .exportAllDeclaration, .exportSpecifier]) :
      StandsFor tree leading id parent
  | declaration
      (kind : (tree.node id).kind ∈ [NodeKind.functionDeclaration, .classDeclaration])
      (bare : ∀ parent, tree.parent? id = some parent →
        (tree.node parent).kind ∉ [NodeKind.exportDefaultDeclaration, .exportNamedDeclaration,
          .exportAllDeclaration, .exportSpecifier]) :
      StandsFor tree leading id id
  | classExpression {parent grandparent : tree.Id}
      (kind : (tree.node id).kind = .classExpression)
      (found : tree.parent? id = some parent)
      (above : tree.parent? parent = some grandparent) :
      StandsFor tree leading id grandparent
  | argument {parent : tree.Id}
      (kind : (tree.node id).kind ∈ [NodeKind.functionExpression, .arrowFunctionExpression])
      (found : tree.parent? id = some parent)
      (call : (tree.node parent).kind ∈ [NodeKind.callExpression, .newExpression]) :
      StandsFor tree leading id id
  | enclosing {parent target : tree.Id}
      (kind : (tree.node id).kind ∈ [NodeKind.functionExpression, .arrowFunctionExpression])
      (found : tree.parent? id = some parent)
      (noCall : (tree.node parent).kind ∉ [NodeKind.callExpression, .newExpression])
      (above : target ∈ tree.ancestors id)
      (noDeclaration : (tree.node target).kind ≠ .functionDeclaration)
      (passed : ∀ middle ∈ tree.ancestors id, target ∈ tree.ancestors middle →
        tree.Passes leading middle) :
      StandsFor tree leading id target

theorem documentationAt_eq_some_iff {id : tree.Id} {comment : Token} :
    Id.run (tree.documentationAt (reading leading) id) = some comment ↔
      tree.DocumentedAt leading id comment :=
  documentationAbove?_eq_some_iff

theorem DocumentedAt.mem_leading {id : tree.Id} {comment : Token}
    (documented : tree.DocumentedAt leading id comment) : comment ∈ leading id := by
  obtain ⟨⟨_, before, after, split, _⟩, _⟩ := documented
  rw [split]
  exact List.mem_append_right _ List.mem_cons_self

theorem DocumentedAt.leading_ne_nil {id : tree.Id} {comment : Token}
    (documented : tree.DocumentedAt leading id comment) : leading id ≠ [] :=
  List.ne_nil_of_mem documented.mem_leading

def stops (tree : Tree) (leading : tree.Id → List Token) (id : tree.Id) : Bool :=
  !(leading id).isEmpty || (tree.node id).kind.endsClimb

theorem stops_eq_false_iff {id : tree.Id} :
    tree.stops leading id = false ↔ tree.Passes leading id := by
  rw [stops, Passes, Bool.or_eq_false_iff, Bool.not_eq_false', List.isEmpty_iff,
    ← NodeKind.endsClimb_iff, Bool.not_eq_true]

theorem climb_eq_find? (ids : List tree.Id) :
    Id.run (tree.climb (reading leading) ids) = ids.find? (tree.stops leading) := by
  induction ids with
  | nil => rfl
  | cons id outer ih =>
    rw [List.find?_cons]
    change (if tree.stops leading id then some id
      else Id.run (tree.climb (reading leading) outer)) = _
    cases tree.stops leading id with
    | true => rfl
    | false => exact ih

theorem climb_ancestors_eq_some_iff {id target : tree.Id} :
    Id.run (tree.climb (reading leading) (tree.ancestors id)) = some target ↔
      ¬tree.Passes leading target ∧ target ∈ tree.ancestors id ∧
        ∀ middle ∈ tree.ancestors id, target ∈ tree.ancestors middle →
          tree.Passes leading middle := by
  rw [climb_eq_find?, List.find?_eq_some_iff_append, ← stops_eq_false_iff, Bool.not_eq_false]
  refine and_congr_right fun _ => ?_
  constructor
  · rintro ⟨front, rest, chain, passed⟩
    refine ⟨by simp [chain], ?_⟩
    intro middle member above
    have inFront := (mem_front_iff chain).2 ⟨member, above⟩
    exact stops_eq_false_iff.1 (by simpa using passed middle inFront)
  · rintro ⟨above, passed⟩
    obtain ⟨front, rest, chain⟩ := List.append_of_mem above
    refine ⟨front, rest, chain, ?_⟩
    intro middle inFront
    obtain ⟨member, higher⟩ := (mem_front_iff chain).1 inFront
    have passes := stops_eq_false_iff.2 (passed middle member higher)
    simp [passes]

theorem documentation_of_declaration {id : tree.Id} {comment : Token}
    (kind : (tree.node id).kind ∈ [NodeKind.functionDeclaration, .classDeclaration]) :
    Id.run (tree.documentation (reading leading) id) = some comment ↔
      tree.DocumentedAt leading
        (((tree.parent? id).filter fun parent => (tree.node parent).kind.isExport).getD id)
        comment := by
  rw [← documentationAt_eq_some_iff]
  rcases List.mem_cons.1 kind with kind | kind
  · rw [documentation, kind]
  · rw [documentation, List.mem_singleton.1 kind]

theorem documentation_of_classExpression {id : tree.Id} {comment : Token}
    (kind : (tree.node id).kind = .classExpression) :
    Id.run (tree.documentation (reading leading) id) = some comment ↔
      ∃ parent, tree.parent? id = some parent ∧
        ∃ grandparent, tree.parent? parent = some grandparent ∧
          tree.DocumentedAt leading grandparent comment := by
  rw [documentation, kind]
  cases found : tree.parent? id with
  | none => simp
  | some parent =>
    cases above : tree.parent? parent with
    | none => simp [above]
    | some grandparent => simp [above, documentationAt_eq_some_iff]

theorem documentation_of_function {id : tree.Id} {comment : Token}
    (kind : (tree.node id).kind ∈ [NodeKind.functionExpression, .arrowFunctionExpression]) :
    Id.run (tree.documentation (reading leading) id) = some comment ↔
      ∃ parent, tree.parent? id = some parent ∧
        if (tree.node parent).kind.isCall then tree.DocumentedAt leading id comment
        else ∃ target,
          Id.run (tree.climb (reading leading) (tree.ancestors id)) = some target ∧
          (tree.node target).kind ≠ .functionDeclaration ∧
          tree.DocumentedAt leading target comment := by
  have body : Id.run (tree.documentation (reading leading) id) =
      (tree.parent? id).bind fun parent =>
        if (tree.node parent).kind.isCall then
          Id.run (tree.documentationAt (reading leading) id)
        else
          (Id.run (tree.climb (reading leading) (tree.ancestors id))).bind fun target =>
            if (tree.node target).kind = .functionDeclaration then none
            else Id.run (tree.documentationAt (reading leading) target) := by
    have kinds : (tree.node id).kind = .functionExpression ∨
        (tree.node id).kind = .arrowFunctionExpression := by
      simpa using kind
    rw [documentation]
    generalize tree.climb (reading leading) (tree.ancestors id) = climbed
    rcases kinds with kind | kind
    all_goals
      rw [kind]
      cases tree.parent? id with
      | none => rfl
      | some parent =>
        refine (apply_ite Id.run _ _ _).trans (if_congr Iff.rfl rfl ?_)
        cases climbed <;> rfl
  rw [body]
  cases found : tree.parent? id with
  | none => simp
  | some parent =>
    simp only [Option.bind_some, Option.some.injEq, exists_eq_left']
    split
    · exact documentationAt_eq_some_iff
    · cases Id.run (tree.climb (reading leading) (tree.ancestors id)) with
      | none => simp
      | some target => simp [documentationAt_eq_some_iff]

theorem documentation_of_other {id : tree.Id}
    (kind : (tree.node id).kind ∉ [NodeKind.functionDeclaration, .classDeclaration,
      .classExpression, .functionExpression, .arrowFunctionExpression]) :
    Id.run (tree.documentation (reading leading) id) = none := by
  rw [documentation]
  split <;> simp_all

theorem standsFor_declaration {id : tree.Id}
    (kind : (tree.node id).kind ∈ [NodeKind.functionDeclaration, .classDeclaration]) :
    tree.StandsFor leading id
      (((tree.parent? id).filter fun parent => (tree.node parent).kind.isExport).getD id) := by
  cases wrapped : (tree.parent? id).filter fun parent => (tree.node parent).kind.isExport with
  | none =>
    refine .declaration kind ?_
    intro parent found exports
    exact Option.filter_eq_none_iff.1 wrapped parent found (NodeKind.isExport_iff.2 exports)
  | some parent =>
    obtain ⟨found, exports⟩ := Option.filter_eq_some_iff.1 wrapped
    exact .wrapper kind found (NodeKind.isExport_iff.1 exports)

theorem documentation_eq_some_of_standsFor {id target : tree.Id} {comment : Token}
    (standsFor : tree.StandsFor leading id target)
    (documented : tree.DocumentedAt leading target comment) :
    Id.run (tree.documentation (reading leading) id) = some comment := by
  cases standsFor with
  | wrapper kind found exports =>
    have wrapped : (tree.parent? id).filter (fun parent => (tree.node parent).kind.isExport) =
        some target :=
      Option.filter_eq_some_iff.2 ⟨found, NodeKind.isExport_iff.2 exports⟩
    rw [documentation_of_declaration kind, wrapped]
    exact documented
  | declaration kind bare =>
    have unwrapped : (tree.parent? id).filter (fun parent => (tree.node parent).kind.isExport) =
        none := by
      rw [Option.filter_eq_none_iff]
      intro parent found exports
      exact bare parent found (NodeKind.isExport_iff.1 exports)
    rw [documentation_of_declaration kind, unwrapped]
    exact documented
  | classExpression kind found above =>
    exact (documentation_of_classExpression kind).2 ⟨_, found, _, above, documented⟩
  | argument kind found call =>
    refine (documentation_of_function kind).2 ⟨_, found, ?_⟩
    rw [if_pos (NodeKind.isCall_iff.2 call)]
    exact documented
  | enclosing kind found noCall above noDeclaration passed =>
    refine (documentation_of_function kind).2 ⟨_, found, ?_⟩
    rw [if_neg (mt NodeKind.isCall_iff.1 noCall)]
    -- The comment itself leads the target, so the climb does not pass it.
    have stop : ¬tree.Passes leading target := fun passes => documented.leading_ne_nil passes.1
    exact ⟨target, climb_ancestors_eq_some_iff.2 ⟨stop, above, passed⟩, noDeclaration, documented⟩

theorem exists_standsFor_of_documentation_eq_some {id : tree.Id} {comment : Token}
    (found : Id.run (tree.documentation (reading leading) id) = some comment) :
    ∃ target, tree.StandsFor leading id target ∧ tree.DocumentedAt leading target comment := by
  by_cases declares : (tree.node id).kind ∈ [NodeKind.functionDeclaration, .classDeclaration]
  · exact ⟨_, standsFor_declaration declares, (documentation_of_declaration declares).1 found⟩
  by_cases denotesClass : (tree.node id).kind = .classExpression
  · obtain ⟨parent, isParent, grandparent, isAbove, documented⟩ :=
      (documentation_of_classExpression denotesClass).1 found
    exact ⟨grandparent, .classExpression denotesClass isParent isAbove, documented⟩
  by_cases denotes : (tree.node id).kind ∈ [NodeKind.functionExpression, .arrowFunctionExpression]
  · obtain ⟨parent, isParent, search⟩ := (documentation_of_function denotes).1 found
    split at search
    · next call => exact ⟨id, .argument denotes isParent (NodeKind.isCall_iff.1 call), search⟩
    · next noCall =>
      obtain ⟨target, climbed, noDeclaration, documented⟩ := search
      obtain ⟨_, above, passed⟩ := climb_ancestors_eq_some_iff.1 climbed
      have noCall := mt NodeKind.isCall_iff.2 noCall
      exact ⟨target, .enclosing denotes isParent noCall above noDeclaration passed, documented⟩
  · have nothing : Id.run (tree.documentation (reading leading) id) = none :=
      documentation_of_other (by simp_all)
    rw [nothing] at found
    contradiction

end Tree

/-- The documentation of a node is the comment that documents the node standing for it. -/
theorem Source.documentationOf_eq_some_iff (source : Source) (id : source.tree.Id)
    (comment : Token) :
    source.documentationOf id = some comment ↔
      ∃ target,
        source.tree.StandsFor (fun target => (source.commentsOf target).leading) id target ∧
        source.tree.DocumentedAt (fun target => (source.commentsOf target).leading) target
          comment :=
  ⟨Tree.exists_standsFor_of_documentation_eq_some, fun ⟨_, standsFor, documented⟩ =>
    Tree.documentation_eq_some_of_standsFor standsFor documented⟩

end AnnotatedSource
