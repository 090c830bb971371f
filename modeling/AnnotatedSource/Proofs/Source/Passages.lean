import AnnotatedSource.Proofs.Source.Cover
import AnnotatedSource.Proofs.Text.Gap
import Mathlib.Tactic.MkIffOfInductiveProp
import Mathlib.Tactic.Tauto

/-!
Gaps of any text.  Nothing has to be known of a text to say what taking comments out of it leaves:
there is one way to cut it at comments that stay on one line such that no comment starts at a
character outside of them, and the characters outside are what is left.
-/

set_option autoImplicit false
set_option relaxedAutoImplicit false

namespace AnnotatedSource

namespace Text

/-- A text starts with a block comment that stays on one line. -/
def OpensComment (text : List Char) : Prop := ∃ body, OneLineBody body ∧ commented body <+: text

theorem opensComment_commented {body : List Char} (h : OneLineBody body) (rest : List Char) :
    OpensComment (commented body ++ rest) := ⟨body, h, List.prefix_append _ _⟩

theorem not_opensComment_of_missed {text : List Char} (missed : afterComment? text = none) :
    ¬OpensComment ('/' :: '*' :: text) := by
  rintro ⟨body, oneLine, behind, split⟩
  rw [commented_append] at split
  rw [← (List.cons.inj (List.cons.inj split).2).2, afterComment?_append oneLine] at missed
  contradiction

theorem not_opensComment_of_unmarked {c : Char} {text : List Char}
    (unmarked : ∀ body, c = '/' → text = '*' :: body → False) : ¬OpensComment (c :: text) := by
  rintro ⟨body, -, behind, split⟩
  rw [commented_append] at split
  obtain ⟨slash, star⟩ := List.cons.inj split
  exact unmarked _ slash.symm star.symm

theorem commented_append_inj {body other text rest : List Char} (hbody : OneLineBody body)
    (hother : OneLineBody other) (same : commented body ++ text = commented other ++ rest) :
    body = other ∧ text = rest := by
  rw [commented_append, commented_append] at same
  have behind : body ++ '*' :: '/' :: text = other ++ '*' :: '/' :: rest :=
    (List.cons.inj (List.cons.inj same).2).2
  have found : afterComment? (body ++ '*' :: '/' :: text) = some text := afterComment?_append hbody
  rw [behind, afterComment?_append hother] at found
  obtain rfl := Option.some.inj found
  exact ⟨List.append_cancel_right behind, rfl⟩

/-- A run of characters and the body of the comment behind it. -/
structure Passage where
  kept : List Char
  body : List Char

def Passage.chars (passage : Passage) : List Char := passage.kept ++ commented passage.body

/-- A text cut at comments: runs of characters with a comment behind each, and one last run. -/
structure Passages where
  closed : List Passage
  last : List Char

namespace Passages

def toText (passages : Passages) : List Char :=
  passages.closed.flatMap Passage.chars ++ passages.last

/-- The characters outside of the comments. -/
def kept (passages : Passages) : List Char :=
  passages.closed.flatMap Passage.kept ++ passages.last

def bodies (passages : Passages) : List (List Char) := passages.closed.map Passage.body

/-- The places of the characters outside of the comments, the text starting at `place`. -/
def placesFrom (place : Nat) (last : List Char) : List Passage → List Nat
  | [] => List.range' place last.length
  | passage :: rest =>
    List.range' place passage.kept.length ++
      placesFrom (place + passage.chars.length) last rest

def places (passages : Passages) : List Nat := placesFrom 0 passages.last passages.closed

/-- A cut of a text at its leftmost comments: each comment stays on one line and stops at the first
end behind its start, and the text starts no such comment at a place outside of them. -/
@[mk_iff]
structure Leftmost (passages : Passages) (text : List Char) : Prop where
  toText_eq : passages.toText = text
  oneLine : ∀ body ∈ passages.bodies, OneLineBody body
  passedOver : ∀ place ∈ passages.places, ¬OpensComment (text.drop place)

def comment (passages : Passages) (body : List Char) : Passages :=
  { passages with closed := ⟨[], body⟩ :: passages.closed }

def extend (passages : Passages) (c : Char) : Passages :=
  match passages.closed with
  | [] => { passages with last := c :: passages.last }
  | passage :: rest =>
    { passages with closed := { passage with kept := c :: passage.kept } :: rest }

variable {passages : Passages} {text body : List Char} {c : Char}

theorem cases_front (passages : Passages) :
    passages = ⟨[], []⟩ ∨ (∃ c rest, passages = extend rest c) ∨
      ∃ body rest, passages = comment rest body := by
  match passages with
  | ⟨[], []⟩ => exact .inl rfl
  | ⟨[], c :: last⟩ => exact .inr (.inl ⟨c, ⟨[], last⟩, rfl⟩)
  | ⟨⟨c :: kept, body⟩ :: rest, last⟩ => exact .inr (.inl ⟨c, ⟨⟨kept, body⟩ :: rest, last⟩, rfl⟩)
  | ⟨⟨[], body⟩ :: rest, last⟩ => exact .inr (.inr ⟨body, ⟨rest, last⟩, rfl⟩)

theorem toText_comment : (passages.comment body).toText = commented body ++ passages.toText := by
  simp [comment, toText, Passage.chars]

theorem toText_extend : (passages.extend c).toText = c :: passages.toText := by
  unfold extend
  split <;> rename_i h <;> simp [toText, h, Passage.chars]

theorem kept_comment : (passages.comment body).kept = passages.kept := rfl

theorem kept_extend : (passages.extend c).kept = c :: passages.kept := by
  unfold extend
  split <;> rename_i h <;> simp [kept, h]

theorem bodies_comment : (passages.comment body).bodies = body :: passages.bodies := rfl

theorem bodies_extend : (passages.extend c).bodies = passages.bodies := by
  unfold extend
  split <;> rename_i h <;> simp [bodies, h]

theorem placesFrom_add (width place : Nat) (last : List Char) (closed : List Passage) :
    placesFrom (width + place) last closed = (placesFrom place last closed).map (width + ·) := by
  induction closed generalizing place with
  | nil => rw [placesFrom, placesFrom, List.map_add_range']
  | cons passage rest ih =>
    rw [placesFrom, placesFrom, List.map_append, List.map_add_range', Nat.add_assoc, ih]

theorem places_comment : (passages.comment body).places =
    passages.places.map ((commented body).length + ·) := by
  rw [places, places, ← placesFrom_add, Nat.add_zero]
  simp [comment, placesFrom, Passage.chars]

theorem places_extend : (passages.extend c).places = 0 :: passages.places.map (1 + ·) := by
  rw [places, places, ← placesFrom_add]
  obtain ⟨closed, last⟩ := passages
  cases closed with
  | nil => exact List.range'_succ
  | cons passage rest =>
    have width : (Passage.mk (c :: passage.kept) passage.body).chars.length =
        1 + passage.chars.length := by
      simp only [Passage.chars, List.cons_append, List.length_cons, Nat.add_comm]
    simp only [extend, placesFrom, width, List.length_cons, List.range'_succ, List.cons_append,
      Nat.zero_add, Nat.add_zero]

theorem leftmost_comment_iff :
    (passages.comment body).Leftmost (commented body ++ text) ↔
      OneLineBody body ∧ passages.Leftmost text := by
  have drop (place : Nat) : (commented body ++ text).drop ((commented body).length + place) =
      text.drop place := List.drop_length_add_append place
  rw [leftmost_iff, leftmost_iff, toText_comment, bodies_comment, places_comment,
    List.append_cancel_left_eq, List.forall_mem_cons, List.forall_mem_map]
  simp only [drop]
  tauto

theorem leftmost_extend_iff :
    (passages.extend c).Leftmost (c :: text) ↔
      ¬OpensComment (c :: text) ∧ passages.Leftmost text := by
  have drop (place : Nat) : (c :: text).drop (1 + place) = text.drop place := by
    rw [Nat.add_comm, List.drop_succ_cons]
  rw [leftmost_iff, leftmost_iff, toText_extend, bodies_extend, places_extend,
    List.cons_inj_right, List.forall_mem_cons, List.forall_mem_map, List.drop_zero]
  simp only [drop]
  tauto

theorem leftmost_nil_iff : passages.Leftmost [] ↔ passages = ⟨[], []⟩ := by
  constructor
  · intro leftmost
    have empty := leftmost.toText_eq
    rcases cases_front passages with rfl | ⟨c, rest, rfl⟩ | ⟨body, rest, rfl⟩
    · rfl
    · rw [toText_extend] at empty
      contradiction
    · rw [toText_comment] at empty
      contradiction
  · rintro rfl
    exact ⟨rfl, by simp [bodies], by simp [places, placesFrom]⟩

theorem leftmost_cons_iff (h : ¬OpensComment (c :: text)) :
    passages.Leftmost (c :: text) ↔ ∃ rest : Passages, passages = rest.extend c ∧
      rest.Leftmost text := by
  constructor
  · intro leftmost
    have whole := leftmost.toText_eq
    rcases cases_front passages with rfl | ⟨first, rest, rfl⟩ | ⟨body, rest, rfl⟩
    · contradiction
    · rw [toText_extend] at whole
      obtain rfl := (List.cons.inj whole).1
      exact ⟨rest, rfl, (leftmost_extend_iff.1 leftmost).2⟩
    · rw [toText_comment] at whole
      have oneLine : OneLineBody body := leftmost.oneLine body List.mem_cons_self
      rw [← whole] at h
      exact absurd (opensComment_commented oneLine rest.toText) h
  · rintro ⟨rest, rfl, leftmost⟩
    exact leftmost_extend_iff.2 ⟨h, leftmost⟩

theorem leftmost_append_iff (h : OneLineBody body) :
    passages.Leftmost (commented body ++ text) ↔ ∃ rest : Passages, passages = rest.comment body ∧
      rest.Leftmost text := by
  constructor
  · intro leftmost
    have whole := leftmost.toText_eq
    rcases cases_front passages with rfl | ⟨first, rest, rfl⟩ | ⟨other, rest, rfl⟩
    · contradiction
    · have first : 0 ∈ (rest.extend first).places := by
        rw [places_extend]
        exact List.mem_cons_self
      exact absurd (opensComment_commented h text) (leftmost.passedOver 0 first)
    · rw [toText_comment] at whole
      have oneLine : OneLineBody other := leftmost.oneLine other List.mem_cons_self
      obtain ⟨rfl, -⟩ := commented_append_inj oneLine h whole
      exact ⟨rest, rfl, (leftmost_comment_iff.1 leftmost).2⟩
  · rintro ⟨rest, rfl, leftmost⟩
    exact leftmost_comment_iff.2 ⟨h, leftmost⟩

theorem leftmost_cons_iff_eq (closed : ¬OpensComment (c :: text))
    (only : ∀ other : Passages, other.Leftmost text ↔ other = passages) (other : Passages) :
    other.Leftmost (c :: text) ↔ other = passages.extend c := by
  rw [leftmost_cons_iff closed]
  simp only [only, exists_eq_right]

theorem leftmost_append_iff_eq (h : OneLineBody body)
    (only : ∀ other : Passages, other.Leftmost text ↔ other = passages) (other : Passages) :
    other.Leftmost (commented body ++ text) ↔ other = passages.comment body := by
  rw [leftmost_append_iff h]
  simp only [only, exists_eq_right]

/-- A text has one cut at its leftmost comments, and what stands outside of them is what is left of
the text without its comments. -/
theorem exists_leftmost_iff (text : List Char) :
    ∃ passages : Passages, (∀ other : Passages, other.Leftmost text ↔ other = passages) ∧
      passages.kept = withoutComments text := by
  fun_induction withoutComments text with
  | case1 => exact ⟨⟨[], []⟩, fun _ => leftmost_nil_iff, rfl⟩
  | case2 rest behind found _ ih =>
    obtain ⟨body, oneLine, rfl⟩ := afterComment?_eq_some_iff.1 found
    obtain ⟨passages, only, kept⟩ := ih
    rw [← commented_append]
    refine ⟨passages.comment body, leftmost_append_iff_eq oneLine only, ?_⟩
    rw [kept_comment, kept]
  | case3 rest missed ih =>
    obtain ⟨passages, only, kept⟩ := ih
    refine ⟨passages.extend '/', leftmost_cons_iff_eq (not_opensComment_of_missed missed) only, ?_⟩
    rw [kept_extend, kept]
  | case4 c rest unmarked ih =>
    obtain ⟨passages, only, kept⟩ := ih
    refine ⟨passages.extend c, leftmost_cons_iff_eq (not_opensComment_of_unmarked unmarked) only, ?_⟩
    rw [kept_extend, kept]

end Passages

end Text

namespace Source

open Text (Passages byteLength)

/-- A gap has one cut at its leftmost comments.  Taking its comments out leaves the characters
outside of that cut's comments, and space separates two spans exactly when one of these characters
is white space. -/
def SpacedByCut (source : Source) (first second : Span) (gap : List Char) : Prop :=
  ∃ passages : Passages, (∀ other : Passages, other.Leftmost gap ↔ other = passages) ∧
    Text.withoutComments gap = passages.kept ∧
    (source.isSpaceBetween first second = true ↔ ∃ c ∈ passages.kept, Text.isBlank c = true)

variable {source : Source} {first second : Span}

theorem spacedByCut_slice :
    source.SpacedByCut first second (Text.slice source.text first.stop second.start) := by
  obtain ⟨passages, only, kept⟩ :=
    Passages.exists_leftmost_iff (Text.slice source.text first.stop second.start)
  refine ⟨passages, only, kept.symm, ?_⟩
  rw [isSpaceBetween, Text.isSpaced, ← kept, List.any_eq_true]

theorem spacedByCut_of_eq_append {front gap back : List Char}
    (split : source.text = front ++ gap ++ back) (hfirst : first.stop = byteLength front)
    (hsecond : second.start = byteLength (front ++ gap)) :
    source.SpacedByCut first second gap := by
  have sliced : Text.slice source.text first.stop second.start = gap := by
    rw [split, hfirst, hsecond, Text.byteLength_append, Text.slice_append]
  rw [← sliced]
  exact spacedByCut_slice

/-- Whatever text stands between two spans, it has one cut at its leftmost comments, and space
separates the spans exactly when a character outside of these comments is white space.  Spans that
cut characters have the whole characters between them. -/
theorem exists_leftmost_isSpaceBetween_iff (source : Source) (first second : Span) :
    (∀ front gap back : List Char, source.text = front ++ gap ++ back →
      first.stop = byteLength front → second.start = byteLength (front ++ gap) →
      source.SpacedByCut first second gap) ∧
    Text.StandsBetween source.text first.stop second.start
      (Text.slice source.text first.stop second.start) ∧
    source.SpacedByCut first second (Text.slice source.text first.stop second.start) := by
  refine ⟨?_, Text.standsBetween_slice _ _ _, spacedByCut_slice⟩
  intro front gap back split hfirst hsecond
  exact spacedByCut_of_eq_append split hfirst hsecond

/-- A gap with an opener inside its comment, and one that becomes a comment itself when the comment
in it is taken out. -/
def nestedOpeners : Source where
  text := "é/*/ */b//**/* */c".toList
  marked := false
  tree := Shape.toTree (.node .program (.ofWidth 0 19) .zero 0 [])
  tokens := ⟨#[]⟩
  comments := []
  stream := ⟨#[]⟩

theorem exists_leftmost_isSpaceBetween_iff_nestedOpeners :
    (∀ other : Passages, other.Leftmost ['/', '*', '/', ' ', '*', '/'] ↔
        other = ⟨[⟨[], ['/', ' ']⟩], []⟩) ∧
      nestedOpeners.isSpaceBetween (.ofWidth 0 2) (.ofWidth 8 1) = false ∧
      (∀ other : Passages, other.Leftmost ['/', '/', '*', '*', '/', '*', ' ', '*', '/'] ↔
        other = ⟨[⟨['/'], []⟩], ['*', ' ', '*', '/']⟩) ∧
      nestedOpeners.isSpaceBetween (.ofWidth 8 1) (.ofWidth 18 1) = true := by
  obtain ⟨betweenFirst, -⟩ :=
    exists_leftmost_isSpaceBetween_iff nestedOpeners (.ofWidth 0 2) (.ofWidth 8 1)
  obtain ⟨betweenSecond, -⟩ :=
    exists_leftmost_isSpaceBetween_iff nestedOpeners (.ofWidth 8 1) (.ofWidth 18 1)
  obtain ⟨hidden, onlyHidden, -, tight⟩ :=
    betweenFirst ['é'] ['/', '*', '/', ' ', '*', '/'] "b//**/* */c".toList (by decide) (by decide)
      (by decide)
  obtain ⟨joined, onlyJoined, -, spaced⟩ :=
    betweenSecond "é/*/ */b".toList ['/', '/', '*', '*', '/', '*', ' ', '*', '/'] ['c'] (by decide)
      (by decide) (by decide)
  have oneLine : Text.OneLineBody ['/', ' '] :=
    Text.oneLineBody_cons_iff.2
      ⟨by decide, rfl, Text.oneLineBody_cons_iff.2 ⟨by decide, rfl, Text.oneLineBody_nil⟩⟩
  have cutHidden : Passages.Leftmost ⟨[⟨[], ['/', ' ']⟩], []⟩ ['/', '*', '/', ' ', '*', '/'] :=
    Passages.leftmost_comment_iff.2 ⟨oneLine, Passages.leftmost_nil_iff.2 rfl⟩
  have behind : Passages.Leftmost ⟨[], ['*', ' ', '*', '/']⟩ ['*', ' ', '*', '/'] := by
    iterate 4
      refine (Passages.leftmost_cons_iff (Text.not_opensComment_of_unmarked ?_)).2
        ⟨⟨[], _⟩, rfl, ?_⟩
      · simp
    exact Passages.leftmost_nil_iff.2 rfl
  have cutJoined : Passages.Leftmost ⟨[⟨['/'], []⟩], ['*', ' ', '*', '/']⟩
      ['/', '/', '*', '*', '/', '*', ' ', '*', '/'] := by
    refine (Passages.leftmost_cons_iff (Text.not_opensComment_of_unmarked ?_)).2
      ⟨Passages.comment ⟨[], ['*', ' ', '*', '/']⟩ [], rfl,
        Passages.leftmost_comment_iff.2 ⟨Text.oneLineBody_nil, behind⟩⟩
    simp
  obtain rfl := (onlyHidden _).1 cutHidden
  obtain rfl := (onlyJoined _).1 cutJoined
  refine ⟨onlyHidden, Bool.eq_false_iff.2 (mt tight.1 ?_), onlyJoined,
    spaced.2 ⟨' ', by decide, by decide⟩⟩
  simp [Passages.kept]

end Source

end AnnotatedSource
