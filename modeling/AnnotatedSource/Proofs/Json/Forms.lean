import AnnotatedSource.Json.Record
import AnnotatedSource.Proofs.Json.Fields
import AnnotatedSource.Proofs.Json.Settled
import AnnotatedSource.Proofs.Span

/-!
The forms of positions, locations and tokens.  Each of them is read from the records of its fields,
objects or arrays at every level, and from nothing else.  It makes no difference if a form is
settled first, so what is written is read back from its settled value too.
-/

set_option autoImplicit false
set_option relaxedAutoImplicit false

namespace AnnotatedSource

theorem Numeral.natural?_eq_some_iff {literal : Numeral} {n : Nat} :
    literal.natural? = some n ↔ literal = ofNat n := by
  obtain ⟨negative, whole, fraction, exponent⟩ := literal
  unfold natural? ofNat
  cases negative <;> cases fraction <;> cases exponent <;> simp

namespace Json

variable {json : Json}

theorem ofCount_inj {n m : Nat} : ofCount n = ofCount m ↔ n = m := by
  simp [ofCount, Numeral.ofNat]

theorem count?_eq_some_iff {n : Nat} :
    json.count? = some n ↔ json = .ofCount n ∧ n < offsetBound := by
  cases json with
  | number literal =>
    simp [count?, ofCount, Option.filter_eq_some_iff, Numeral.natural?_eq_some_iff]
  | _ => simp [count?, ofCount]

theorem count?_ofCount {n : Nat} (bound : n < offsetBound) : (ofCount n).count? = some n :=
  count?_eq_some_iff.2 ⟨rfl, bound⟩

theorem variant?_eq_some_iff {name : String} :
    json.variant? = some name ↔ json = .string name ∨ json = .object [(name, .null)] := by
  unfold variant?
  split
  · simp
  · simp
  · next notString notObject =>
    constructor
    · nofun
    · rintro (rfl | rfl)
      · exact absurd rfl (notString name)
      · exact absurd rfl (notObject name)

theorem ends?_eq_some_iff {start stop : Nat} :
    json.ends? = some (start, stop) ↔
      json = .array [.ofCount start, .ofCount stop] ∧ start < offsetBound ∧ stop < offsetBound := by
  unfold ends?
  split
  · next first second =>
    simp only [Option.bind_eq_bind, Option.bind_eq_some_iff, Option.pure_def, Option.some.injEq,
      Prod.mk.injEq, count?_eq_some_iff, array.injEq, List.cons.injEq, and_true]
    constructor
    · rintro ⟨_, ⟨rfl, low⟩, _, ⟨rfl, high⟩, rfl, rfl⟩
      exact ⟨⟨rfl, rfl⟩, low, high⟩
    · rintro ⟨⟨rfl, rfl⟩, low, high⟩
      exact ⟨_, ⟨rfl, low⟩, _, ⟨rfl, high⟩, rfl, rfl⟩
  · next other =>
    constructor
    · nofun
    · rintro ⟨rfl, -⟩
      exact absurd rfl (other _ _)

end Json

theorem Span.ofEnds?_ends (span : Span) : ofEnds? span.start span.stop = some span := by
  rw [ofEnds?, dif_pos span.start_le_stop, dif_pos span.stop_lt]

theorem Span.ofEnds?_eq_some_iff {start stop : Nat} {span : Span} :
    ofEnds? start stop = some span ↔ span.start = start ∧ span.stop = stop := by
  constructor
  · intro made
    unfold ofEnds? at made
    split at made
    · split at made
      · obtain rfl := Option.some.inj made
        exact ⟨rfl, rfl⟩
      · contradiction
    · contradiction
  · rintro ⟨rfl, rfl⟩
    exact span.ofEnds?_ends

theorem Position.ofCounts?_eq_some_iff {line column : Nat} {position : Position} :
    ofCounts? line column = some position ↔ position.line = line ∧ position.column = column := by
  constructor
  · intro made
    unfold ofCounts? at made
    split at made
    · split at made
      · obtain rfl := Option.some.inj made
        exact ⟨rfl, rfl⟩
      · contradiction
    · contradiction
  · rintro ⟨rfl, rfl⟩
    rw [ofCounts?, dif_pos position.line_lt, dif_pos position.column_lt]

theorem TokenKind.ofName?_name (kind : TokenKind) : ofName? kind.name = some kind := by
  cases kind <;> rfl

theorem TokenKind.ofName?_eq_some_iff {name : String} {kind : TokenKind} :
    ofName? name = some kind ↔ kind.name = name := by
  constructor
  · intro found
    have same := List.find?_some found
    exact eq_of_beq same
  · rintro rfl
    exact kind.ofName?_name

/-- A kind is written as its name, or as an object with its name for the only key and null for the
value. -/
def TokenKind.WrittenAs (kind : TokenKind) (json : Json) : Prop :=
  json = .string kind.name ∨ json = .object [(kind.name, .null)]

def Position.WrittenAs (position : Position) (json : Json) : Prop :=
  Json.RecordOf [("line", .ofCount position.line), ("column", .ofCount position.column)] json

def Location.WrittenAs (loc : Location) (json : Json) : Prop :=
  ∃ start stop, loc.start.WrittenAs start ∧ loc.stop.WrittenAs stop ∧
    Json.RecordOf [("start", start), ("end", stop)] json

/-- A token is written as a record of its kind, its text, the array of the ends of its span, and its
location. -/
def Token.WrittenAs (token : Token) (json : Json) : Prop :=
  ∃ kind loc, token.kind.WrittenAs kind ∧ token.loc.WrittenAs loc ∧
    Json.RecordOf [("type", kind), ("value", .string token.value), ("range", token.span.toJson),
      ("loc", loc)] json

variable {json : Json}

theorem TokenKind.ofJson?_eq_some_iff {kind : TokenKind} :
    ofJson? json = some kind ↔ kind.WrittenAs json := by
  simp only [ofJson?, Option.bind_eq_some_iff, Json.variant?_eq_some_iff, ofName?_eq_some_iff,
    WrittenAs]
  constructor
  · rintro ⟨name, written, rfl⟩
    exact written
  · intro written
    exact ⟨_, written, rfl⟩

theorem Span.ofJson?_eq_some_iff {span : Span} : ofJson? json = some span ↔ json = span.toJson := by
  have order := span.start_le_stop
  have bound := span.stop_lt
  simp only [ofJson?, Option.bind_eq_some_iff, Prod.exists, Json.ends?_eq_some_iff,
    ofEnds?_eq_some_iff]
  constructor
  · rintro ⟨start, stop, ⟨rfl, -⟩, rfl, rfl⟩
    rfl
  · rintro rfl
    exact ⟨_, _, ⟨rfl, by omega, by omega⟩, rfl, rfl⟩

theorem Position.keys_nodup : keys.Nodup := by decide

theorem Position.ofJson?_eq_some_iff {position : Position} :
    ofJson? json = some position ↔ position.WrittenAs json := by
  unfold WrittenAs
  rw [← Json.fields?_eq_some_iff keys_nodup rfl]
  unfold ofJson?
  constructor
  · intro read
    split at read
    · next line column fields =>
      simp only [Option.bind_eq_bind, Option.bind_eq_some_iff, Json.count?_eq_some_iff,
        ofCounts?_eq_some_iff] at read
      obtain ⟨_, ⟨rfl, -⟩, _, ⟨rfl, -⟩, rfl, rfl⟩ := read
      exact fields
    · contradiction
  · intro fields
    change json.fields? keys = some [.ofCount position.line, .ofCount position.column] at fields
    simp only [fields, Json.count?_ofCount position.line_lt, Json.count?_ofCount position.column_lt,
      Option.bind_eq_bind, Option.bind_some, ofCounts?_eq_some_iff, and_self]

theorem Location.keys_nodup : keys.Nodup := by decide

theorem Location.ofJson?_eq_some_iff {loc : Location} :
    ofJson? json = some loc ↔ loc.WrittenAs json := by
  unfold ofJson? WrittenAs
  constructor
  · intro read
    split at read
    · next start stop fields =>
      simp only [Option.bind_eq_bind, Option.bind_eq_some_iff, Option.pure_def,
        Option.some.injEq, Position.ofJson?_eq_some_iff] at read
      obtain ⟨first, writesFirst, last, writesLast, rfl⟩ := read
      have record : Json.RecordOf [("start", start), ("end", stop)] json :=
        (Json.fields?_eq_some_iff keys_nodup rfl).1 fields
      exact ⟨start, stop, writesFirst, writesLast, record⟩
    · contradiction
  · rintro ⟨start, stop, writesFirst, writesLast, record⟩
    have fields : json.fields? keys = some [start, stop] :=
      (Json.fields?_eq_some_iff keys_nodup rfl).2 record
    simp only [fields, Position.ofJson?_eq_some_iff.2 writesFirst,
      Position.ofJson?_eq_some_iff.2 writesLast, Option.bind_eq_bind, Option.bind_some,
      Option.pure_def]

theorem Token.keys_nodup : keys.Nodup := by decide

theorem Token.ofJson?_eq_some_iff {token : Token} :
    ofJson? json = some token ↔ token.WrittenAs json := by
  unfold ofJson? WrittenAs
  constructor
  · intro read
    split at read
    · next kind value span loc fields =>
      simp only [Option.bind_eq_bind, Option.bind_eq_some_iff, Option.pure_def,
        Option.some.injEq, TokenKind.ofJson?_eq_some_iff, Span.ofJson?_eq_some_iff,
        Location.ofJson?_eq_some_iff] at read
      obtain ⟨tokenKind, writesKind, tokenSpan, rfl, tokenLoc, writesLoc, rfl⟩ := read
      exact ⟨kind, loc, writesKind, writesLoc, (Json.fields?_eq_some_iff keys_nodup rfl).1 fields⟩
    · contradiction
  · rintro ⟨kind, loc, writesKind, writesLoc, record⟩
    have fields : json.fields? keys = some [kind, .string token.value, token.span.toJson, loc] :=
      (Json.fields?_eq_some_iff keys_nodup rfl).2 record
    simp only [fields, TokenKind.ofJson?_eq_some_iff.2 writesKind,
      Span.ofJson?_eq_some_iff.2 rfl, Location.ofJson?_eq_some_iff.2 writesLoc,
      Option.bind_eq_bind, Option.bind_some, Option.pure_def]

section Settling

variable {settled : Json} {room : Nat}

theorem TokenKind.WrittenAs.of_settle? {kind : TokenKind} (written : kind.WrittenAs json)
    (settles : Json.settle? room json = some settled) : kind.WrittenAs settled := by
  rcases written with rfl | rfl
  · obtain rfl := Option.some.inj settles
    exact .inl rfl
  · rw [Json.settle?] at settles
    split at settles
    · contradiction
    · obtain rfl := Option.some.inj settles
      exact .inr rfl

theorem Position.WrittenAs.of_settle? {position : Position} (written : position.WrittenAs json)
    (settles : Json.settle? room json = some settled) : position.WrittenAs settled := by
  have fields : json.fields? keys = some [.ofCount position.line, .ofCount position.column] :=
    (Json.fields?_eq_some_iff keys_nodup rfl).2 written
  obtain ⟨inner, values, fields', each⟩ := Json.fields?_of_settle? fields settles
  obtain _ | ⟨line, _ | ⟨column, _ | _⟩⟩ := each
  obtain rfl := Option.some.inj line
  obtain rfl := Option.some.inj column
  exact (Json.fields?_eq_some_iff keys_nodup rfl).1 fields'

theorem Location.WrittenAs.of_settle? {loc : Location} (written : loc.WrittenAs json)
    (settles : Json.settle? room json = some settled) : loc.WrittenAs settled := by
  obtain ⟨start, stop, writesFirst, writesLast, record⟩ := written
  have fields : json.fields? keys = some [start, stop] :=
    (Json.fields?_eq_some_iff keys_nodup rfl).2 record
  obtain ⟨inner, values, fields', each⟩ := Json.fields?_of_settle? fields settles
  obtain _ | ⟨settlesFirst, _ | ⟨settlesLast, _ | _⟩⟩ := each
  exact ⟨_, _, writesFirst.of_settle? settlesFirst, writesLast.of_settle? settlesLast,
    (Json.fields?_eq_some_iff keys_nodup rfl).1 fields'⟩

theorem Span.settle?_toJson (span : Span) (settles : Json.settle? room span.toJson = some settled) :
    settled = span.toJson := by
  rw [toJson, Json.settle?] at settles
  split at settles
  · contradiction
  · exact (Option.some.inj settles).symm

theorem Token.WrittenAs.of_settle? {token : Token} (written : token.WrittenAs json)
    (settles : Json.settle? room json = some settled) : token.WrittenAs settled := by
  obtain ⟨kind, loc, writesKind, writesLoc, record⟩ := written
  have fields : json.fields? keys = some [kind, .string token.value, token.span.toJson, loc] :=
    (Json.fields?_eq_some_iff keys_nodup rfl).2 record
  obtain ⟨inner, values, fields', each⟩ := Json.fields?_of_settle? fields settles
  -- Settling goes into the kind and the location; the text and the span have nothing to settle.
  obtain _ | ⟨settlesKind, _ | ⟨value, _ | ⟨span, _ | ⟨settlesLoc, _ | _⟩⟩⟩⟩ := each
  obtain rfl := Option.some.inj value
  obtain rfl := token.span.settle?_toJson span
  exact ⟨_, _, writesKind.of_settle? settlesKind, writesLoc.of_settle? settlesLoc,
    (Json.fields?_eq_some_iff keys_nodup rfl).1 fields'⟩

end Settling

theorem Position.writtenAs_toJson (position : Position) : position.WrittenAs position.toJson :=
  .members _

theorem Location.writtenAs_toJson (loc : Location) : loc.WrittenAs loc.toJson :=
  ⟨_, _, loc.start.writtenAs_toJson, loc.stop.writtenAs_toJson, .members _⟩

theorem Token.writtenAs_toJson (token : Token) : token.WrittenAs token.toJson :=
  ⟨_, _, .inl rfl, token.loc.writtenAs_toJson, .members _⟩

/-- Reading takes a value of JSON to what is written as it.  What is written can be settled, and a
form that is settled before it is read is read as the same. -/
structure ReadsBack {α : Type} (WrittenAs : α → Json → Prop) (toJson : α → Json)
    (ofJson? : Json → Option α) : Prop where
  ofJson?_eq_some_iff {value : α} {json : Json} : ofJson? json = some value ↔ WrittenAs value json
  ofJson?_toJson (value : α) : ofJson? (toJson value) = some value
  exists_settle? (value : α) : ∃ settled, Json.settle? Json.depthLimit (toJson value) = some settled
  ofJson?_of_settle? {value : α} {json settled : Json} {room : Nat}
    (read : ofJson? json = some value) (settles : Json.settle? room json = some settled) :
    ofJson? settled = some value

/-- It is enough that every form of a value remains one when it is settled, and that the form in
which the value is written is one of them, readable and not nested too deeply. -/
theorem ReadsBack.of_forms {α : Type} {WrittenAs : α → Json → Prop} {toJson : α → Json}
    {ofJson? : Json → Option α}
    (reads : ∀ {value json}, ofJson? json = some value ↔ WrittenAs value json)
    (remains : ∀ {value json settled room}, WrittenAs value json →
      Json.settle? room json = some settled → WrittenAs value settled)
    (written : ∀ value, WrittenAs value (toJson value))
    (readable : ∀ value, (toJson value).readable = true)
    (fits : ∀ value, (toJson value).depth ≤ Json.depthLimit) :
    ReadsBack WrittenAs toJson ofJson? where
  ofJson?_eq_some_iff := reads
  ofJson?_toJson value := reads.2 (written value)
  exists_settle? value := ⟨_, Json.settle?_eq_some _ (readable value) (fits value)⟩
  ofJson?_of_settle? read settles := reads.2 (remains (reads.1 read) settles)

theorem Position.readsBack : ReadsBack WrittenAs toJson ofJson? := by
  refine .of_forms ofJson?_eq_some_iff WrittenAs.of_settle? writtenAs_toJson (fun _ => rfl) ?_
  intro position
  change 1 ≤ Json.depthLimit
  decide

theorem Location.readsBack : ReadsBack WrittenAs toJson ofJson? := by
  refine .of_forms ofJson?_eq_some_iff WrittenAs.of_settle? writtenAs_toJson (fun _ => rfl) ?_
  intro loc
  change 2 ≤ Json.depthLimit
  decide

theorem Token.readsBack : ReadsBack WrittenAs toJson ofJson? := by
  refine .of_forms ofJson?_eq_some_iff WrittenAs.of_settle? writtenAs_toJson (fun _ => rfl) ?_
  intro token
  change 3 ≤ Json.depthLimit
  decide

section Settled

theorem Json.ends?_settled (span : Span) :
    span.toJson.settled.ends? = some (span.start, span.stop) := by
  have startBound := Nat.lt_of_le_of_lt span.start_le_stop span.stop_lt
  exact ends?_eq_some_iff.2 ⟨rfl, startBound, span.stop_lt⟩

theorem Location.ofJson?_settled (loc : Location) : ofJson? loc.toJson.settled = some loc :=
  readsBack.ofJson?_of_settle? (readsBack.ofJson?_toJson loc)
    (Json.settle?_eq_some loc.toJson rfl (Nat.le_refl _))

theorem Token.ofJson?_settled (token : Token) : ofJson? token.toJson.settled = some token :=
  readsBack.ofJson?_of_settle? (readsBack.ofJson?_toJson token)
    (Json.settle?_eq_some token.toJson rfl (Nat.le_refl _))

theorem Token.listOfJson?_settled (tokens : List Token) :
    listOfJson? (Json.array (tokens.map toJson)).settled = some tokens := by
  have items : (Json.array (tokens.map toJson)).settled =
      .array (tokens.map fun token => token.toJson.settled) := by
    rw [Json.settled, Json.settledItems_eq_map, List.map_map]
    rfl
  rw [items, listOfJson?, mapM_eq_some_iff, List.forall₂_map_left_iff, List.forall₂_same]
  exact fun token _ => ofJson?_settled token

theorem Token.readable_list (tokens : List Token) :
    (Json.array (tokens.map toJson)).readable = true := by
  rw [Json.readable, Json.itemsReadable_eq_all, List.all_map]
  exact List.all_eq_true.2 fun token _ => rfl

end Settled

theorem Token.ends_of_ofJson? {kind value loc : Json} {start stop : Nat} {token : Token}
    (record : Json.RecordOf [("type", kind), ("value", value),
      ("range", .array [.ofCount start, .ofCount stop]), ("loc", loc)] json)
    (read : ofJson? json = some token) : token.span.start = start ∧ token.span.stop = stop := by
  obtain ⟨_, _, -, -, written⟩ := ofJson?_eq_some_iff.1 read
  have here := (Json.fields?_eq_some_iff keys_nodup rfl).2 record
  have there := (Json.fields?_eq_some_iff keys_nodup rfl).2 written
  have same := Option.some.inj (here.symm.trans there)
  simp only [List.map_cons, List.map_nil, List.cons.injEq, Span.toJson, Json.array.injEq,
    Json.ofCount_inj, and_true] at same
  obtain ⟨-, -, ⟨start_eq, stop_eq⟩, -⟩ := same
  exact ⟨start_eq.symm, stop_eq.symm⟩

/-- Positions, locations and tokens are read back from what they are written as and from every other
form of it: the array of the fields, or an object with the fields in any order beside members with
other keys, at each level.  The span of a token is read from two ends in their order only. -/
theorem Token.forms_read_back :
    ReadsBack Position.WrittenAs Position.toJson Position.ofJson? ∧
    ReadsBack Location.WrittenAs Location.toJson Location.ofJson? ∧
    ReadsBack Token.WrittenAs Token.toJson Token.ofJson? ∧
    ∀ {json kind value loc : Json} {start stop : Nat} {token : Token},
      Json.RecordOf [("type", kind), ("value", value),
        ("range", .array [.ofCount start, .ofCount stop]), ("loc", loc)] json →
      ofJson? json = some token →
      token.span.start = start ∧ token.span.stop = stop ∧ start ≤ stop := by
  refine ⟨Position.readsBack, Location.readsBack, Token.readsBack, ?_⟩
  intro json kind value loc start stop token record read
  obtain ⟨rfl, rfl⟩ := ends_of_ofJson? record read
  exact ⟨rfl, rfl, token.span.start_le_stop⟩

def annotation : Token :=
  ⟨.block, "* @type ", .ofWidth 4 12, .ofCounts 1 4, .ofCounts 1 16⟩

/-- The location of the annotation, with an object for the first of its positions and an array for
the other. -/
def rearrangedLoc : Json :=
  .object [("source", .null), ("end", .array [.ofCount 1, .ofCount 16]),
    ("start", .object [("offset", .ofCount 4), ("column", .ofCount 4), ("line", .ofCount 1)])]

/-- The annotation with its members in the opposite order, and members nobody asks for at each
level. -/
def rearrangedAnnotation : Json :=
  .object [("parent", .bool true), ("parent", .null), ("loc", rearrangedLoc),
    ("range", .array [.ofCount 4, .ofCount 16]), ("value", .string "* @type "),
    ("type", .object [("Block", .null)])]

theorem Token.forms_read_back_rearranged :
    ofJson? rearrangedAnnotation = some annotation ∧
      (∃ settled, Json.settle? Json.depthLimit rearrangedAnnotation = some settled ∧
        ofJson? settled = some annotation) ∧
      annotation.span.start = 4 ∧ annotation.span.stop = 16 ∧ 4 ≤ 16 := by
  obtain ⟨-, -, tokens, ends⟩ := forms_read_back
  have start : annotation.loc.start.WrittenAs
      (.object [("offset", .ofCount 4), ("column", .ofCount 4), ("line", .ofCount 1)]) :=
    .object [("offset", .ofCount 4)] (by simp) (List.reverse_perm _).symm
  have stop : annotation.loc.stop.WrittenAs (.array [.ofCount 1, .ofCount 16]) := .array
  have loc : annotation.loc.WrittenAs rearrangedLoc :=
    ⟨_, _, start, stop, .object [("source", .null)] (by simp) (List.reverse_perm _).symm⟩
  have record : Json.RecordOf [("type", .object [("Block", .null)]), ("value", .string "* @type "),
      ("range", .array [.ofCount 4, .ofCount 16]), ("loc", rearrangedLoc)] rearrangedAnnotation :=
    .object [("parent", .null), ("parent", .bool true)] (by simp) (List.reverse_perm _).symm
  have read : ofJson? rearrangedAnnotation = some annotation :=
    tokens.ofJson?_eq_some_iff.2 ⟨_, _, .inr rfl, loc, record⟩
  have fits : rearrangedAnnotation.depth ≤ Json.depthLimit := by decide
  have settles := Json.settle?_eq_some rearrangedAnnotation rfl fits
  exact ⟨read, ⟨_, settles, tokens.ofJson?_of_settle? read settles⟩, ends record read⟩

end AnnotatedSource
