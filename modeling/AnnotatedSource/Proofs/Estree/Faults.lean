import AnnotatedSource.Proofs.Estree.Members

/-!
What loading a program fails with.  The first fault counts: the tokens, the comments and the place
of the program come first, then the nodes from the top, each with its type, its range and its
location in front of the nodes below it.  Every fault is reported as missing data, as malformed data
or as an unknown type, but for a node whose range ends before it starts.
-/

set_option autoImplicit false
set_option relaxedAutoImplicit false

namespace AnnotatedSource.Estree

def failure? {α : Type} : Except LoadError α → Option LoadError
  | .ok _ => none
  | .error cause => some cause

section Failure

variable {α β : Type}

theorem failure?_eq_none_iff {result : Except LoadError α} :
    failure? result = none ↔ ∃ value, result = .ok value := by
  cases result <;> simp [failure?]

theorem failure?_eq_some_iff {result : Except LoadError α} {cause : LoadError} :
    failure? result = some cause ↔ result = .error cause := by
  cases result <;> simp [failure?]

theorem failure?_mapM {f : α → Except LoadError β} (items : List α) :
    failure? (items.mapM f) = items.findSome? fun item => failure? (f item) := by
  induction items with
  | nil => rfl
  | cons item rest ih =>
    rw [List.mapM_cons, List.findSome?_cons, ← ih]
    cases f item with
    | error cause => rfl
    | ok value => cases rest.mapM f <;> rfl

end Failure

theorem findSome?_flatMap {α β γ : Type} {f : α → List β} {p : β → Option γ}
    {q : α → Option γ} {items : List α}
    (same : ∀ item ∈ items, q item = (f item).findSome? p) :
    items.findSome? q = (items.flatMap f).findSome? p := by
  induction items with
  | nil => rfl
  | cons item rest ih =>
    rw [List.flatMap_cons, List.findSome?_append, List.findSome?_cons,
      same item List.mem_cons_self,
      ih fun other later => same other (List.mem_cons_of_mem _ later)]
    cases (f item).findSome? p <;> rfl

theorem node_eq_of_mem_nodesIn {value : Json} {node : List (String × Json)}
    (member : node ∈ nodesIn value) :
    value = .object node ∨ ∃ items, value = .array items ∧ .object node ∈ items := by
  unfold nodesIn at member
  split at member
  · next items =>
    obtain ⟨item, inItems, found⟩ := List.mem_filterMap.1 member
    rw [(node?_eq_some_iff.1 found).1] at inItems
    exact .inr ⟨items, rfl, inItems⟩
  · exact .inl (node?_eq_some_iff.1 (Option.mem_toList.1 member)).1

theorem sizeOf_lt_of_mem_childNodes {members child : List (String × Json)}
    (among : child ∈ childNodes members) : sizeOf child < sizeOf members := by
  obtain ⟨⟨key, value⟩, held, inValue⟩ := List.mem_flatMap.1 among
  have inMembers := List.sizeOf_lt_of_mem (List.mem_filter.1 held).1
  rw [Prod.mk.sizeOf_spec] at inMembers
  rcases node_eq_of_mem_nodesIn inValue with rfl | ⟨items, rfl, inItems⟩
  · rw [Json.object.sizeOf_spec] at inMembers
    omega
  · have inArray := List.sizeOf_lt_of_mem inItems
    rw [Json.object.sizeOf_spec] at inArray
    rw [Json.array.sizeOf_spec] at inMembers
    omega

/-- A node and all nodes below it, each in front of those that are below it in turn. -/
def nodesFrom (members : List (String × Json)) : List (List (String × Json)) :=
  members :: (childNodes members).attach.flatMap fun ⟨child, among⟩ =>
    have := sizeOf_lt_of_mem_childNodes among
    nodesFrom child
termination_by sizeOf members

theorem nodesFrom_eq (members : List (String × Json)) :
    nodesFrom members = members :: (childNodes members).flatMap nodesFrom := by
  rw [nodesFrom, List.flatMap_subtype fun child _ => rfl, List.unattach_attach]

/-- The first thing wrong with a node by itself: its type, its range or its location. -/
def ownFailure? (members : List (String × Json)) : Option LoadError :=
  ((failure? (kind members)).or (failure? (span members))).or (failure? (location members))

/-- Reading a node fails with the first thing wrong with it or with a node below it. -/
theorem failure?_nodeShape (members : List (String × Json)) :
    failure? (nodeShape members) = (nodesFrom members).findSome? ownFailure? := by
  induction members using nodesFrom.induct with
  | case1 members ih =>
    have below : failure? ((childNodes members).mapM nodeShape) =
        ((childNodes members).flatMap nodesFrom).findSome? ownFailure? :=
      (failure?_mapM _).trans (findSome?_flatMap ih)
    rw [nodesFrom_eq, List.findSome?_cons, ← below, nodeShape, shape, shapesInMembers_eq_mapM,
      ownFailure?]
    cases kind members with
    | error cause => rfl
    | ok nodeKind =>
      cases span members with
      | error cause => rfl
      | ok nodeSpan =>
        cases location members with
        | error cause => rfl
        | ok loc => cases (childNodes members).mapM nodeShape <;> rfl

def program? (json : List Char) : Option (List (String × Json)) :=
  match (Json.read? json).bind (Json.settle? Json.depthLimit) with
  | some (.object program) => some program
  | _ => none

/-- The first thing wrong with a program. -/
def programFailure? (program : List (String × Json)) : Option LoadError :=
  (failure? (decode program "tokens" Token.listOfJson?)).or <|
    (failure? (decode program "comments" Token.listOfJson?)).or <|
      (failure? (location program)).or <|
        (failure? (span program)).or <| (nodesFrom program).findSome? ownFailure?

theorem failure?_load (raw : List Char) (program : List (String × Json)) :
    failure? (load raw program) = programFailure? program := by
  rw [programFailure?, ← failure?_nodeShape, load, nodeShape]
  cases decode program "tokens" Token.listOfJson? with
  | error cause => rfl
  | ok tokens =>
    cases decode program "comments" Token.listOfJson? with
    | error cause => rfl
    | ok comments =>
      cases location program with
      | error cause => rfl
      | ok loc =>
        cases span program with
        | error cause => rfl
        | ok nodeSpan => cases shape (.object program) <;> rfl

theorem loadText_of_program {json : List Char} {program : List (String × Json)}
    (holds : program? json = some program) (raw : List Char) :
    loadText raw json = load raw program := by
  unfold program? at holds
  split at holds
  · next read =>
    obtain rfl := Option.some.inj holds
    rw [loadText, read]
  · contradiction

theorem loadText_of_no_program {json : List Char} (absent : program? json = none)
    (raw : List Char) : loadText raw json = .error .malformed := by
  unfold loadText
  split
  · next read =>
    rw [program?, read] at absent
    contradiction
  · rfl

def requiredKeys : List String := ["tokens", "comments", "loc", "range"]

/-- The causes that a failure is reported with. -/
inductive Reported : LoadError → Prop
  | missing {key : String} (required : key ∈ requiredKeys) : Reported (.missing key)
  | malformed : Reported .malformed
  | unknownKind {name : String} (unknown : NodeKind.ofName? name = none) :
      Reported (.unknownKind name)

theorem not_reported_invertedSpan : ¬Reported .invertedSpan := nofun

/-- An object with a range that ends before it starts. -/
def Inverted (members : List (String × Json)) : Prop :=
  ∃ start stop, decode members "range" Json.ends? = .ok (start, stop) ∧ stop < start

/-- Nothing is wrong with a node by itself. -/
def Sound (members : List (String × Json)) : Prop :=
  (∃ nodeKind, kind members = .ok nodeKind) ∧ (∃ nodeSpan, span members = .ok nodeSpan) ∧
    ∃ loc, location members = .ok loc

section Causes

variable {members : List (String × Json)} {cause : LoadError}

theorem eq_missing_of_field {key : String} (failed : field members key = .error cause) :
    cause = .missing key := by
  unfold field at failed
  split at failed
  · exact (Except.error.inj failed).symm
  · exact (Except.error.inj failed).symm
  · contradiction

section Decode

variable {α : Type} {ofJson? : Json → Option α} {key : String}

theorem decode_eq_ok_iff {result : α} :
    decode members key ofJson? = .ok result ↔
      ∃ value, field members key = .ok value ∧ ofJson? value = some result := by
  unfold decode
  cases held : field members key with
  | error absent => simp [bind, Except.bind]
  | ok value => cases read : ofJson? value <;> simp [bind, Except.bind, pure, Except.pure, read]

theorem decode_eq_error_iff :
    decode members key ofJson? = .error cause ↔
      field members key = .error cause ∨
        (cause = .malformed ∧ ∃ value, field members key = .ok value ∧ ofJson? value = none) := by
  unfold decode
  cases held : field members key with
  | error absent => simp [bind, Except.bind]
  | ok value =>
    cases read : ofJson? value <;> simp [bind, Except.bind, pure, Except.pure, read, eq_comm]

theorem reported_of_decode (required : key ∈ requiredKeys)
    (failed : decode members key ofJson? = .error cause) : Reported cause := by
  rcases decode_eq_error_iff.1 failed with absent | ⟨rfl, -⟩
  · rw [eq_missing_of_field absent]
    exact .missing required
  · exact .malformed

end Decode

theorem reported_of_location (failed : location members = .error cause) : Reported cause :=
  reported_of_decode (by decide) failed

theorem reported_of_kind (failed : kind members = .error cause) : Reported cause := by
  simp only [kind] at failed
  split at failed
  · contradiction
  · next unknown =>
    obtain rfl := Except.error.inj failed
    exact .unknownKind unknown

theorem lt_of_ends?_eq_some {json : Json} {start stop : Nat}
    (ends : json.ends? = some (start, stop)) : start < offsetBound ∧ stop < offsetBound := by
  have bounded {item : Json} {count : Nat} (counted : item.count? = some count) :
      count < offsetBound := by
    cases item with
    | number literal => exact of_decide_eq_true (Option.filter_eq_some_iff.1 counted).2
    | _ => contradiction
  unfold Json.ends? at ends
  split at ends
  · next first second =>
    obtain ⟨low, isLow, rest⟩ := Option.bind_eq_some_iff.1 ends
    obtain ⟨high, isHigh, same⟩ := Option.bind_eq_some_iff.1 rest
    obtain ⟨rfl, rfl⟩ := Prod.mk.inj (Option.some.inj same)
    exact ⟨bounded isLow, bounded isHigh⟩
  · contradiction

theorem ofEnds?_eq_none_iff {start stop : Nat} (bound : stop < offsetBound) :
    Span.ofEnds? start stop = none ↔ stop < start := by
  unfold Span.ofEnds?
  by_cases order : start ≤ stop
  · simp [order, bound]
  · simp [order, Nat.lt_of_not_le order]

theorem span_eq_error_iff :
    span members = .error cause ↔
      decode members "range" Json.ends? = .error cause ∨
        (cause = .invertedSpan ∧ Inverted members) := by
  unfold span Inverted
  cases decoded : decode members "range" Json.ends? with
  | error other => simp [bind, Except.bind]
  | ok ends =>
    obtain ⟨start, stop⟩ := ends
    obtain ⟨value, -, read⟩ := decode_eq_ok_iff.1 decoded
    have inverted : Span.ofEnds? start stop = none ↔ stop < start :=
      ofEnds?_eq_none_iff (lt_of_ends?_eq_some read).2
    cases made : Span.ofEnds? start stop with
    | none => simp [bind, Except.bind, made, ← inverted, eq_comm]
    | some nodeSpan => simp [bind, Except.bind, pure, Except.pure, made, ← inverted]

theorem span_eq_invertedSpan_iff : span members = .error .invertedSpan ↔ Inverted members := by
  rw [span_eq_error_iff]
  constructor
  · rintro (failed | ⟨-, inverted⟩)
    · exact absurd (reported_of_decode (by decide) failed) not_reported_invertedSpan
    · exact inverted
  · exact fun inverted => .inr ⟨rfl, inverted⟩

theorem reported_or_eq_of_span (failed : span members = .error cause) :
    Reported cause ∨ cause = .invertedSpan := by
  rcases span_eq_error_iff.1 failed with undecoded | ⟨same, -⟩
  · exact .inl (reported_of_decode (by decide) undecoded)
  · exact .inr same

theorem ownFailure?_eq_none_iff : ownFailure? members = none ↔ Sound members := by
  simp only [ownFailure?, Option.or_eq_none_iff, failure?_eq_none_iff, and_assoc, Sound]

theorem ownFailure?_eq_some_iff :
    ownFailure? members = some cause ↔
      kind members = .error cause ∨
      ((∃ nodeKind, kind members = .ok nodeKind) ∧ span members = .error cause) ∨
      ((∃ nodeKind, kind members = .ok nodeKind) ∧ (∃ nodeSpan, span members = .ok nodeSpan) ∧
        location members = .error cause) := by
  simp only [ownFailure?, Option.or_eq_some_iff, Option.or_eq_none_iff, failure?_eq_none_iff,
    failure?_eq_some_iff, or_assoc, and_assoc]

theorem ownFailure?_eq_invertedSpan_iff :
    ownFailure? members = some .invertedSpan ↔
      (∃ nodeKind, kind members = .ok nodeKind) ∧ Inverted members := by
  rw [ownFailure?_eq_some_iff, span_eq_invertedSpan_iff]
  constructor
  · rintro (failed | inverted | ⟨-, -, failed⟩)
    · exact absurd (reported_of_kind failed) not_reported_invertedSpan
    · exact inverted
    · exact absurd (reported_of_location failed) not_reported_invertedSpan
  · exact fun inverted => .inr (.inl inverted)

theorem reported_or_eq_of_ownFailure? (failed : ownFailure? members = some cause) :
    Reported cause ∨ cause = .invertedSpan := by
  rcases ownFailure?_eq_some_iff.1 failed with failed | ⟨-, failed⟩ | ⟨-, -, failed⟩
  · exact .inl (reported_of_kind failed)
  · exact reported_or_eq_of_span failed
  · exact .inl (reported_of_location failed)

end Causes

/-- The first thing wrong with a program is a range that ends before it starts: its own, or that of
the first node with which anything is wrong. -/
structure InvertedFirst (program : List (String × Json)) : Prop where
  tokens : ∃ tokens, decode program "tokens" Token.listOfJson? = .ok tokens
  comments : ∃ comments, decode program "comments" Token.listOfJson? = .ok comments
  location : ∃ loc, location program = .ok loc
  inverted : Inverted program ∨
    ∃ before node after, nodesFrom program = before ++ node :: after ∧
      (∀ other ∈ before, Sound other) ∧ (∃ nodeKind, kind node = .ok nodeKind) ∧ Inverted node

section Program

variable {program : List (String × Json)} {cause : LoadError}

theorem programFailure?_eq_some_iff :
    programFailure? program = some cause ↔
      decode program "tokens" Token.listOfJson? = .error cause ∨
      ((∃ tokens, decode program "tokens" Token.listOfJson? = .ok tokens) ∧
        (decode program "comments" Token.listOfJson? = .error cause ∨
        ((∃ comments, decode program "comments" Token.listOfJson? = .ok comments) ∧
          (location program = .error cause ∨
          ((∃ loc, location program = .ok loc) ∧
            (span program = .error cause ∨
            ((∃ nodeSpan, span program = .ok nodeSpan) ∧
              (nodesFrom program).findSome? ownFailure? = some cause))))))) := by
  simp only [programFailure?, Option.or_eq_some_iff, failure?_eq_none_iff, failure?_eq_some_iff]

theorem reported_or_eq_of_programFailure? (failed : programFailure? program = some cause) :
    Reported cause ∨ cause = .invertedSpan := by
  rcases programFailure?_eq_some_iff.1 failed with
    tokens | ⟨-, comments | ⟨-, place | ⟨-, range | ⟨-, below⟩⟩⟩⟩
  · exact .inl (reported_of_decode (by decide) tokens)
  · exact .inl (reported_of_decode (by decide) comments)
  · exact .inl (reported_of_location place)
  · exact reported_or_eq_of_span range
  · obtain ⟨node, -, own⟩ := List.exists_of_findSome?_eq_some below
    exact reported_or_eq_of_ownFailure? own

theorem programFailure?_eq_invertedSpan_iff :
    programFailure? program = some .invertedSpan ↔ InvertedFirst program := by
  rw [programFailure?_eq_some_iff, span_eq_invertedSpan_iff, List.findSome?_eq_some_iff]
  simp only [ownFailure?_eq_invertedSpan_iff, ownFailure?_eq_none_iff]
  constructor
  · rintro (tokens | ⟨tokens, comments | ⟨comments, place | ⟨place, inverted⟩⟩⟩)
    · exact absurd (reported_of_decode (by decide) tokens) not_reported_invertedSpan
    · exact absurd (reported_of_decode (by decide) comments) not_reported_invertedSpan
    · exact absurd (reported_of_location place) not_reported_invertedSpan
    · refine ⟨tokens, comments, place, ?_⟩
      rcases inverted with own | ⟨-, before, node, after, split, first, sound⟩
      · exact .inl own
      · exact .inr ⟨before, node, after, split, sound, first⟩
  · rintro ⟨tokens, comments, place, inverted⟩
    refine .inr ⟨tokens, .inr ⟨comments, .inr ⟨place, ?_⟩⟩⟩
    rcases inverted with own | ⟨before, node, after, split, sound, first⟩
    · exact .inl own
    -- The program is a node itself: the inverted one, or one of the sound nodes in front of it.
    · have top := nodesFrom_eq program
      rw [split] at top
      cases before with
      | nil =>
        obtain ⟨rfl, -⟩ := List.cons.inj top
        exact .inl first.2
      | cons other rest =>
        obtain ⟨rfl, -⟩ := List.cons.inj top
        have range := (sound other List.mem_cons_self).2.1
        exact .inr ⟨range, other :: rest, node, after, split, first, sound⟩

theorem exists_programFailure?_of_inverted {node : List (String × Json)}
    (among : node ∈ nodesFrom program) (inverted : Inverted node) :
    ∃ cause, programFailure? program = some cause := by
  by_contra sound
  have none := Option.eq_none_iff_forall_ne_some.2 (not_exists.1 sound)
  simp only [programFailure?, Option.or_eq_none_iff] at none
  obtain ⟨-, -, -, -, below⟩ := none
  have own := ownFailure?_eq_none_iff.1 (List.findSome?_eq_none_iff.1 below node among)
  obtain ⟨-, ⟨nodeSpan, read⟩, -⟩ := own
  rw [span_eq_invertedSpan_iff.2 inverted] at read
  contradiction

theorem exists_reported_of_unread {key : String} (listed : key ∈ ["tokens", "comments"])
    (unread : decode program key Token.listOfJson? = .error .malformed) :
    ∃ cause, programFailure? program = some cause ∧ Reported cause := by
  rcases List.mem_cons.1 listed with rfl | listed
  · exact ⟨.malformed, programFailure?_eq_some_iff.2 (.inl unread), .malformed⟩
  · obtain rfl := List.mem_singleton.1 listed
    cases tokens : decode program "tokens" Token.listOfJson? with
    | error cause =>
      exact ⟨cause, programFailure?_eq_some_iff.2 (.inl tokens),
        reported_of_decode (by decide) tokens⟩
    | ok list =>
      exact ⟨.malformed, programFailure?_eq_some_iff.2 (.inr ⟨⟨list, tokens⟩, .inl unread⟩),
        .malformed⟩

theorem load_eq_error_iff {raw : List Char} :
    load raw program = .error cause ↔ programFailure? program = some cause := by
  rw [← failure?_load raw, failure?_eq_some_iff]

end Program

/-- A load ends as it is meant to when it makes a source or fails with a cause that is reported. -/
def Reports (result : Except LoadError Source) : Prop :=
  (∃ source, result = .ok source) ∨ ∃ cause, result = .error cause ∧ Reported cause

def writtenTokens (program : List (String × Json)) (key : String) : List Json :=
  match program.lookup key with
  | some (.array items) => items
  | _ => []

/-- The ends that an item writes for the range of a token. -/
def tokenEnds? (item : Json) : Option (Nat × Nat) :=
  match item.fields? Token.keys with
  | some [_, _, range, _] => range.ends?
  | _ => none

/-- An item that writes a token with a range that ends before it starts. -/
def InvertedToken (item : Json) : Prop := ∃ ends ∈ tokenEnds? item, ends.2 < ends.1

instance (item : Json) : Decidable (InvertedToken item) :=
  inferInstanceAs (Decidable (∃ ends ∈ tokenEnds? item, _))

theorem not_reports_iff {result : Except LoadError Source}
    (expected : ∀ cause, result = .error cause → Reported cause ∨ cause = .invertedSpan) :
    ¬Reports result ↔ result = .error .invertedSpan := by
  constructor
  · intro unreported
    cases result with
    | ok source => exact absurd (.inl ⟨source, rfl⟩) unreported
    | error cause =>
      rcases expected cause rfl with reported | rfl
      · exact absurd (.inr ⟨cause, rfl, reported⟩) unreported
      · rfl
  · rintro rfl (⟨_, made⟩ | ⟨cause, failed, reported⟩)
    · contradiction
    · obtain rfl := Except.error.inj failed
      exact not_reported_invertedSpan reported

theorem ofJson?_eq_none_of_invertedToken {item : Json} (inverted : InvertedToken item) :
    Token.ofJson? item = none := by
  obtain ⟨⟨start, stop⟩, written, order⟩ := inverted
  rw [Option.mem_def, tokenEnds?] at written
  split at written
  · next kind value range loc fields =>
    have noSpan : Span.ofJson? range = none := by
      rw [Span.ofJson?, written]
      exact (ofEnds?_eq_none_iff (lt_of_ends?_eq_some written).2).2 order
    rw [Token.ofJson?, fields]
    cases value with
    | string text =>
      change (do return (⟨← TokenKind.ofJson? kind, text, ← Span.ofJson? range,
        ← Location.ofJson? loc⟩ : Token)) = none
      rw [noSpan]
      cases TokenKind.ofJson? kind <;> rfl
    | _ => rfl
  · contradiction

theorem listOfJson?_eq_none {items : List Json} {item : Json} (among : item ∈ items)
    (unread : Token.ofJson? item = none) : Token.listOfJson? (.array items) = none := by
  rw [Token.listOfJson?]
  induction items with
  | nil => contradiction
  | cons other rest ih =>
    rw [List.mapM_cons]
    rcases List.mem_cons.1 among with rfl | later
    · rw [unread]
      rfl
    · rw [ih later]
      cases Token.ofJson? other <;> rfl

theorem decode_eq_malformed_of_invertedToken {program : List (String × Json)} {key : String}
    {item : Json} (among : item ∈ writtenTokens program key) (inverted : InvertedToken item) :
    decode program key Token.listOfJson? = .error .malformed := by
  unfold writtenTokens at among
  split at among
  · next items held =>
    have present : field program key = .ok (.array items) := by rw [field, held]
    have unread := listOfJson?_eq_none among (ofJson?_eq_none_of_invertedToken inverted)
    exact decode_eq_error_iff.2 (.inr ⟨rfl, _, present, unread⟩)
  · exact absurd among List.not_mem_nil

/-- Whatever is loaded, the outcome is a source or a cause that is reported, unless the first thing
wrong with the program is a range that ends before it starts.  A node with such a range anywhere in
the program leaves no source, and a token with one is always reported. -/
theorem loadText_reports_iff (raw json : List Char) :
    (Reports (loadText raw json) ↔ ∀ program, program? json = some program →
      ¬InvertedFirst program) ∧
    ∀ program, program? json = some program →
      (∀ node ∈ nodesFrom program, Inverted node → ∃ cause, loadText raw json = .error cause) ∧
      ∀ key ∈ ["tokens", "comments"], ∀ item ∈ writtenTokens program key, InvertedToken item →
        ∃ cause, loadText raw json = .error cause ∧ Reported cause := by
  cases holds : program? json with
  | none =>
    have malformed := loadText_of_no_program holds raw
    exact ⟨⟨nofun, fun _ => .inr ⟨.malformed, malformed, .malformed⟩⟩, nofun⟩
  | some program =>
    simp only [Option.some.injEq, forall_eq', loadText_of_program holds raw, load_eq_error_iff]
    refine ⟨?_, ?_, ?_⟩
    · have expected (cause : LoadError) (failed : load raw program = .error cause) :
          Reported cause ∨ cause = .invertedSpan :=
        reported_or_eq_of_programFailure? (load_eq_error_iff.1 failed)
      rw [← programFailure?_eq_invertedSpan_iff, ← load_eq_error_iff, ← not_reports_iff expected,
        not_not]
    · intro node among inverted
      exact exists_programFailure?_of_inverted among inverted
    · intro key listed item among inverted
      exact exists_reported_of_unread listed (decode_eq_malformed_of_invertedToken among inverted)

def invertedText (tokens : String) : List Char :=
  ("\x7b\"type\":\"Program\",\"range\":[1,0]," ++
    "\"loc\":\x7b\"start\":\x7b\"line\":1,\"column\":0\x7d," ++
    "\"end\":\x7b\"line\":1,\"column\":0\x7d\x7d,\"tokens\":" ++ tokens ++
    ",\"comments\":[]\x7d").toList

/-- A program that ends before it starts, and so does its one token. -/
def invertedTwice : List Char :=
  invertedText "[[\"Identifier\",\"x\",[1,0],[[1,1],[1,0]]]]"

theorem loadText_reports_iff_invertedTwice :
    ∃ program, program? invertedTwice = some program ∧
      program ∈ nodesFrom program ∧ Inverted program ∧
      (∃ item ∈ writtenTokens program "tokens", InvertedToken item) ∧
      ∃ cause, loadText [] invertedTwice = .error cause ∧ Reported cause := by
  have read : (program? invertedTwice).any (fun program =>
      failure? (span program) = some .invertedSpan ∧
        ∃ item ∈ writtenTokens program "tokens", InvertedToken item) = true := by
    decide +kernel
  obtain ⟨program, holds, found⟩ := (Option.any_eq_true _ _).1 read
  obtain ⟨range, item, among, token⟩ := of_decide_eq_true found
  have top : program ∈ nodesFrom program := by
    rw [nodesFrom_eq]
    exact List.mem_cons_self
  have inverted : Inverted program := span_eq_invertedSpan_iff.1 (failure?_eq_some_iff.1 range)
  obtain ⟨-, outcome⟩ := loadText_reports_iff [] invertedTwice
  obtain ⟨-, tokensReported⟩ := outcome program holds
  exact ⟨program, holds, top, inverted, ⟨item, among, token⟩,
    tokensReported "tokens" List.mem_cons_self item among token⟩

def invertedProgram : List Char := invertedText "[]"

/-- The range of the program is wrong in the one way that is not reported. -/
theorem not_reports_loadText_invertedProgram :
    loadText [] invertedProgram = .error .invertedSpan ∧
      ¬Reports (loadText [] invertedProgram) := by
  have failed : loadText [] invertedProgram = .error .invertedSpan :=
    failure?_eq_some_iff.1 (by decide +kernel)
  refine ⟨failed, ?_⟩
  rw [failed, not_reports_iff]
  rintro cause same
  exact .inr (Except.error.inj same).symm

end AnnotatedSource.Estree
