import AnnotatedSource.Proofs.Estree.Fields
import AnnotatedSource.Proofs.Estree.Occurrences

/-!
Which programs can be loaded, and what the others fail with.  A program is read by checks, one
after another: of its tokens, its comments and its place, and then of each node from the top, its
type, its range and its location in front of the nodes it holds.  A program is loaded when all
checks pass, and the first that does not pass says what is wrong.
-/

set_option autoImplicit false
set_option relaxedAutoImplicit false

namespace AnnotatedSource.Estree

/-- What is checked of an object. -/
inductive Check where
  | tokens
  | comments
  | kind
  | range
  | location
deriving DecidableEq

namespace Check

def key : Check → String
  | .tokens => "tokens"
  | .comments => "comments"
  | .kind => "type"
  | .range => "range"
  | .location => "loc"

def Accepts (value : Json) : Check → Prop
  | .tokens | .comments => ∃ tokens, Token.listOfJson? value = some tokens
  | .kind => ∃ nodeKind : NodeKind, value = .string nodeKind.name
  | .range => ∃ start stop, value.ends? = some (start, stop) ∧ start ≤ stop
  | .location => ∃ loc, Location.ofJson? value = some loc

/-- The key of a check has a value, which is not null and is accepted. -/
def Passes (check : Check) (members : List (String × Json)) : Prop :=
  ∃ value, members.lookup check.key = some value ∧ value ≠ .null ∧ check.Accepts value

def cause (members : List (String × Json)) : Check → LoadError
  | .kind => .unknownKind ((type? members).getD "")
  | check =>
    match members.lookup check.key with
    | none | some .null => .missing check.key
    | some _ => .malformed

def ofProgram : List Check := [.tokens, .comments, .location, .range]

/-- What is checked of every node, in this order. -/
def ofNode : List Check := [.kind, .range, .location]

/-- The failure of what reads the value of a check. -/
def failure? (members : List (String × Json)) : Check → Option LoadError
  | .tokens => Estree.failure? (decode members "tokens" Token.listOfJson?)
  | .comments => Estree.failure? (decode members "comments" Token.listOfJson?)
  | .kind => Estree.failure? (Estree.kind members)
  | .range => Estree.failure? (span members)
  | .location => Estree.failure? (Estree.location members)

end Check

/-- The checks of a program in the order they are made. -/
def checks (program : List (String × Json)) : List (List (String × Json) × Check) :=
  Check.ofProgram.map (program, ·) ++
    (nodesFrom program).flatMap fun node => Check.ofNode.map (node, ·)

/-- A program with its tokens and comments, in which every node has a type, a range and a
location. -/
structure Loadable (program : List (String × Json)) : Prop where
  tokens : Check.tokens.Passes program
  comments : Check.comments.Passes program
  nodes : ∀ occurrence, Occurs program occurrence →
    ∀ check ∈ Check.ofNode, check.Passes occurrence.node

/-- The first check that does not pass has this cause. -/
def FirstFault (program : List (String × Json)) (cause : LoadError) : Prop :=
  ∃ before node check after, checks program = before ++ (node, check) :: after ∧
    (∀ earlier ∈ before, earlier.2.Passes earlier.1) ∧
    ¬check.Passes node ∧ check.cause node = cause

variable {members program : List (String × Json)} {cause : LoadError}

namespace Check

theorem cause_eq_of_decode {α : Type} {ofJson? : Json → Option α} {check : Check}
    (notKind : check ≠ .kind) (failed : decode members check.key ofJson? = .error cause) :
    check.cause members = cause := by
  have isCause : check.cause members = match members.lookup check.key with
      | none | some .null => .missing check.key
      | some _ => .malformed := by
    cases check with
    | kind => contradiction
    | _ => rfl
  rw [isCause]
  rcases decode_eq_error_iff.1 failed with absent | ⟨rfl, value, present, -⟩
  · obtain ⟨rfl, nothing | null⟩ := field_eq_error_iff.1 absent
    · rw [nothing]
    · rw [null]
  · obtain ⟨held, notNull⟩ := field_eq_ok_iff.1 present
    rw [held]
    cases value with
    | null => contradiction
    | _ => rfl

theorem exists_decode_iff {α : Type} {ofJson? : Json → Option α} {key : String} :
    (∃ result, decode members key ofJson? = .ok result) ↔
      ∃ value, members.lookup key = some value ∧ value ≠ .null ∧
        ∃ result, ofJson? value = some result := by
  simp only [decode_eq_ok_iff, field_eq_ok_iff]
  constructor
  · rintro ⟨result, value, ⟨held, notNull⟩, read⟩
    exact ⟨value, held, notNull, result, read⟩
  · rintro ⟨value, held, notNull, result, read⟩
    exact ⟨result, value, ⟨held, notNull⟩, read⟩

theorem exists_kind_iff :
    (∃ nodeKind, Estree.kind members = .ok nodeKind) ↔ Check.kind.Passes members := by
  simp only [kind_eq_ok_iff]
  constructor
  · rintro ⟨nodeKind, held⟩
    exact ⟨_, held, nofun, nodeKind, rfl⟩
  · rintro ⟨_, held, -, nodeKind, rfl⟩
    exact ⟨nodeKind, held⟩

theorem exists_span_iff :
    (∃ nodeSpan, span members = .ok nodeSpan) ↔ Check.range.Passes members := by
  simp only [span_eq_ok_iff]
  constructor
  · rintro ⟨nodeSpan, value, held, ends⟩
    refine ⟨value, held, ?_, _, _, ends, nodeSpan.start_le_stop⟩
    rintro rfl
    contradiction
  · rintro ⟨value, held, -, start, stop, ends, order⟩
    exact ⟨⟨start, stop, order, (lt_of_ends?_eq_some ends).2⟩, value, held, ends⟩

theorem failure?_eq_none_iff (check : Check) :
    check.failure? members = none ↔ check.Passes members := by
  cases check with
  | tokens => exact Estree.failure?_eq_none_iff.trans exists_decode_iff
  | comments => exact Estree.failure?_eq_none_iff.trans exists_decode_iff
  | kind => exact Estree.failure?_eq_none_iff.trans exists_kind_iff
  | range => exact Estree.failure?_eq_none_iff.trans exists_span_iff
  | location => exact Estree.failure?_eq_none_iff.trans exists_decode_iff

theorem cause_eq_of_failure? (ordered : ¬Inverted members) {check : Check}
    (failed : check.failure? members = some cause) : check.cause members = cause := by
  cases check with
  | tokens => exact cause_eq_of_decode (by decide) (failure?_eq_some_iff.1 failed)
  | comments => exact cause_eq_of_decode (by decide) (failure?_eq_some_iff.1 failed)
  | kind =>
    have unknown := failure?_eq_some_iff.1 failed
    simp only [Estree.kind] at unknown
    split at unknown
    · contradiction
    · exact Except.error.inj unknown
  | range =>
    rcases span_eq_error_iff.1 (failure?_eq_some_iff.1 failed) with undecoded | ⟨-, inverted⟩
    · exact cause_eq_of_decode (by decide) undecoded
    · contradiction
  | location => exact cause_eq_of_decode (by decide) (failure?_eq_some_iff.1 failed)

theorem failure?_eq_some_iff_cause (ordered : ¬Inverted members) {check : Check} :
    check.failure? members = some cause ↔
      ¬check.Passes members ∧ check.cause members = cause := by
  rw [← failure?_eq_none_iff]
  constructor
  · intro failed
    refine ⟨?_, cause_eq_of_failure? ordered failed⟩
    rw [failed]
    nofun
  · rintro ⟨fails, rfl⟩
    obtain ⟨found, failed⟩ := Option.ne_none_iff_exists'.1 fails
    rw [failed, cause_eq_of_failure? ordered failed]

end Check

private theorem findSome?_cons_eq_or {α β : Type} {f : α → Option β} {item : α} {rest : List α} :
    (item :: rest).findSome? f = (f item).or (rest.findSome? f) := by
  rw [List.findSome?_cons]
  cases f item <;> rfl

/-- Loading fails with the first check that fails. -/
theorem programFailure?_eq_findSome? (program : List (String × Json)) :
    programFailure? program =
      (checks program).findSome? fun (node, check) => check.failure? node := by
  have below : (nodesFrom program).findSome? ownFailure? =
      ((nodesFrom program).flatMap fun node => Check.ofNode.map (node, ·)).findSome?
        fun (node, check) => check.failure? node := by
    refine findSome?_flatMap fun node _ => ?_
    simp only [Check.ofNode, List.map_cons, findSome?_cons_eq_or, List.map_nil, List.findSome?_nil,
      Option.or_none]
    exact Option.or_assoc
  rw [programFailure?, below, checks, List.findSome?_append]
  simp only [Check.ofProgram, List.map_cons, findSome?_cons_eq_or, List.map_nil,
    List.findSome?_nil, Option.or_none, Option.or_assoc]
  rfl

theorem mem_checks_iff {node : List (String × Json)} {check : Check} :
    (node, check) ∈ checks program ↔
      (node = program ∧ check ∈ Check.ofProgram) ∨
        (node ∈ nodesFrom program ∧ check ∈ Check.ofNode) := by
  rw [checks, List.mem_append, List.mem_flatMap]
  simp only [List.mem_map, Prod.mk.injEq]
  constructor
  · rintro (⟨_, member, rfl, rfl⟩ | ⟨_, inside, _, member, rfl, rfl⟩)
    · exact .inl ⟨rfl, member⟩
    · exact .inr ⟨inside, member⟩
  · rintro (⟨rfl, member⟩ | ⟨inside, member⟩)
    · exact .inl ⟨check, member, rfl, rfl⟩
    · exact .inr ⟨node, inside, check, member, rfl, rfl⟩

theorem mem_nodesFrom_of_mem_checks {node : List (String × Json)} {check : Check}
    (made : (node, check) ∈ checks program) : node ∈ nodesFrom program := by
  rcases mem_checks_iff.1 made with ⟨rfl, -⟩ | ⟨inside, -⟩
  · exact self_mem_nodesFrom node
  · exact inside

theorem loadable_iff :
    Loadable program ↔ ∀ node check, (node, check) ∈ checks program → check.Passes node := by
  constructor
  · intro loadable node check made
    rcases mem_checks_iff.1 made with ⟨rfl, member⟩ | ⟨inside, member⟩
    · have top := loadable.nodes _ .top
      simp only [Check.ofProgram, List.mem_cons, List.not_mem_nil, or_false] at member
      rcases member with rfl | rfl | rfl | rfl
      · exact loadable.tokens
      · exact loadable.comments
      · exact top .location (by decide)
      · exact top .range (by decide)
    · obtain ⟨address, occurs⟩ := mem_nodesFrom_iff.1 inside
      exact loadable.nodes _ occurs check member
  · intro pass
    refine ⟨pass program .tokens ?_, pass program .comments ?_, ?_⟩
    · exact mem_checks_iff.2 (.inl ⟨rfl, by decide⟩)
    · exact mem_checks_iff.2 (.inl ⟨rfl, by decide⟩)
    · intro occurrence occurs check member
      exact pass occurrence.node check (mem_checks_iff.2 (.inr ⟨occurs.mem_nodesFrom, member⟩))

theorem exists_load_eq_ok_iff {raw : List Char} :
    (∃ source, load raw program = .ok source) ↔ Loadable program := by
  rw [← failure?_eq_none_iff, failure?_load, programFailure?_eq_findSome?,
    List.findSome?_eq_none_iff, loadable_iff]
  simp only [Check.failure?_eq_none_iff, Prod.forall]

theorem load_eq_error_iff_firstFault {raw : List Char}
    (ordered : ∀ node ∈ nodesFrom program, ¬Inverted node) :
    load raw program = .error cause ↔ FirstFault program cause := by
  have reported {before after : List (List (String × Json) × Check)} {node : List (String × Json)}
      {check : Check} (cut : checks program = before ++ (node, check) :: after) :
      check.failure? node = some cause ↔ ¬check.Passes node ∧ check.cause node = cause := by
    have made : (node, check) ∈ checks program := by
      rw [cut]
      exact List.mem_append_right _ List.mem_cons_self
    exact Check.failure?_eq_some_iff_cause (ordered node (mem_nodesFrom_of_mem_checks made))
  rw [load_eq_error_iff, programFailure?_eq_findSome?, List.findSome?_eq_some_iff]
  simp only [Check.failure?_eq_none_iff]
  constructor
  · rintro ⟨before, ⟨node, check⟩, after, cut, failed, passed⟩
    exact ⟨before, node, check, after, cut, passed, (reported cut).1 failed⟩
  · rintro ⟨before, node, check, after, cut, passed, fails⟩
    exact ⟨before, (node, check), after, cut, (reported cut).2 fails, passed⟩

/-- A program is loaded just when all is there that it needs: tokens and comments that are lists of
tokens, and in every node that occurs in it a type that is known, a range and a location.  Unless
the range of some node ends before it starts, loading fails with the cause of the first check that
does not pass.  The members of every node stand by the bytes of their keys, so this is the order in
which the nodes below it are checked.  The order of the tokens has no part in it. -/
theorem loadText_iff_checks (raw json : List Char) (program : List (String × Json))
    (holds : program? json = some program) :
    ((∃ source, loadText raw json = .ok source) ↔ Loadable program) ∧
    ((∀ occurrence, Occurs program occurrence → ¬Inverted occurrence.node) →
      ∀ cause, loadText raw json = .error cause ↔ FirstFault program cause) ∧
    ∀ occurrence, Occurs program occurrence →
      occurrence.node.Pairwise fun left right => Text.bytesOf left.1 < Text.bytesOf right.1 := by
  rw [loadText_of_program holds]
  refine ⟨exists_load_eq_ok_iff, fun ordered cause => ?_, fun occurrence occurs => ?_⟩
  · refine load_eq_error_iff_firstFault fun node among => ?_
    obtain ⟨address, occurs⟩ := mem_nodesFrom_iff.1 among
    exact ordered _ occurs
  · exact occurs.pairwise_keys holds

/-- A program with a node of an unknown type under one key, and under a later key, which is written
in front of it, a node without a range.  What else has an unknown type is no node of the program. -/
def faultyText : List Char :=
  ("\x7b\"type\":\"Program\",\"range\":[0,9],\"loc\":[[1,0],[1,9]]," ++
    "\"tokens\":[],\"comments\":[]," ++
    "\"body\":[null,[\x7b\"type\":\"\"\x7d],\x7b\"type\":\"Super\"\x7d]," ++
    "\"as\":\x7b\"type\":\"JSXText\"\x7d,\"parent\":\x7b\"type\":\"\"\x7d\x7d").toList

theorem loadText_iff_checks_faultyText :
    ∃ program, program? faultyText = some program ∧
      (∀ occurrence, Occurs program occurrence → ¬Inverted occurrence.node) ∧
      ¬Loadable program ∧ FirstFault program (.unknownKind "JSXText") := by
  have read : (program? faultyText).any (fun program =>
      ((nodesFrom program).all fun node => failure? (span node) ≠ some .invertedSpan) ∧
        failure? (load [] program) = some (.unknownKind "JSXText")) = true := by
    decide +kernel
  obtain ⟨program, holds, found⟩ := (Option.any_eq_true _ _).1 read
  obtain ⟨spans, fails⟩ := of_decide_eq_true found
  have ordered : ∀ occurrence, Occurs program occurrence → ¬Inverted occurrence.node := by
    intro occurrence occurs inverted
    have other := of_decide_eq_true (List.all_eq_true.1 spans _ occurs.mem_nodesFrom)
    exact other (failure?_eq_some_iff.2 (span_eq_invertedSpan_iff.2 inverted))
  have failed : loadText [] faultyText = .error (.unknownKind "JSXText") :=
    (loadText_of_program holds []).trans (failure?_eq_some_iff.1 fails)
  obtain ⟨loads, reports, -⟩ := loadText_iff_checks [] faultyText program holds
  refine ⟨program, holds, ordered, fun loadable => ?_, (reports ordered _).1 failed⟩
  obtain ⟨source, loaded⟩ := loads.2 loadable
  exact absurd (failed.symm.trans loaded) nofun

end AnnotatedSource.Estree
