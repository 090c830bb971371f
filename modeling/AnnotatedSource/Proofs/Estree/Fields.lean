import AnnotatedSource.Proofs.Estree.Faults
import AnnotatedSource.Proofs.Json.Forms
import AnnotatedSource.Proofs.Kind

/-!
What can be read from the keys of an object.  A key can be read when it has a value, which is not
null and says what is asked of it; the type, the range and the location of a node are read so.
-/

set_option autoImplicit false
set_option relaxedAutoImplicit false

namespace AnnotatedSource

namespace Estree

variable {members : List (String × Json)} {key : String} {value : Json}

theorem field_eq_ok_iff :
    field members key = .ok value ↔ members.lookup key = some value ∧ value ≠ .null := by
  unfold field
  split
  · next absent => simp [absent]
  · next null =>
    rw [null]
    constructor
    · nofun
    · rintro ⟨same, present⟩
      exact absurd (Option.some.inj same).symm present
  · next found notNull held =>
    rw [held]
    constructor
    · intro same
      obtain rfl := Except.ok.inj same
      exact ⟨rfl, notNull⟩
    · rintro ⟨same, -⟩
      rw [Option.some.inj same]

theorem field_eq_error_iff {cause : LoadError} :
    field members key = .error cause ↔
      cause = .missing key ∧
        (members.lookup key = none ∨ members.lookup key = some .null) := by
  unfold field
  cases members.lookup key with
  | none => simp [eq_comm]
  | some value => cases value <;> simp [eq_comm]

theorem decode_eq_ok_iff_lookup {α : Type} {ofJson? : Json → Option α}
    (refuses : ofJson? .null = none) {result : α} :
    decode members key ofJson? = .ok result ↔
      ∃ value, members.lookup key = some value ∧ ofJson? value = some result := by
  simp only [decode_eq_ok_iff, field_eq_ok_iff]
  constructor
  · rintro ⟨value, ⟨held, -⟩, read⟩
    exact ⟨value, held, read⟩
  · rintro ⟨value, held, read⟩
    refine ⟨value, ⟨held, ?_⟩, read⟩
    rintro rfl
    rw [refuses] at read
    contradiction

theorem type?_eq_some_iff {name : String} :
    type? members = some name ↔ members.lookup "type" = some (.string name) := by
  unfold type?
  split
  · next held => simp [held]
  · next other =>
    constructor
    · nofun
    · intro held
      exact absurd held (other name)

theorem kind_eq_ok_iff {nodeKind : NodeKind} :
    kind members = .ok nodeKind ↔ members.lookup "type" = some (.string nodeKind.name) := by
  have read : kind members = .ok nodeKind ↔ nodeKind.name = (type? members).getD "" := by
    rw [← NodeKind.ofName?_eq_some_iff]
    simp only [kind]
    cases NodeKind.ofName? ((type? members).getD "") <;> simp
  rw [read, ← type?_eq_some_iff]
  cases type? members with
  | none => simp [nodeKind.name_ne_empty]
  | some name => simp [eq_comm]

theorem span_eq_ok_iff {nodeSpan : Span} :
    span members = .ok nodeSpan ↔
      ∃ value, members.lookup "range" = some value ∧
        value.ends? = some (nodeSpan.start, nodeSpan.stop) := by
  rw [← decode_eq_ok_iff_lookup rfl]
  unfold span
  cases decode members "range" Json.ends? with
  | error cause => simp [bind, Except.bind]
  | ok ends =>
    obtain ⟨start, stop⟩ := ends
    rw [Except.ok.injEq, Prod.mk.injEq, @eq_comm _ start, @eq_comm _ stop,
      ← Span.ofEnds?_eq_some_iff]
    cases made : Span.ofEnds? start stop with
    | none => simp [bind, Except.bind, made]
    | some found => simp [bind, Except.bind, pure, Except.pure, made]

theorem location_eq_ok_iff {loc : Location} :
    location members = .ok loc ↔
      ∃ value, members.lookup "loc" = some value ∧ Location.ofJson? value = some loc :=
  decode_eq_ok_iff_lookup rfl

end Estree

end AnnotatedSource
