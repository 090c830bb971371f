import AnnotatedSource.Proofs.Comments.Run

/-!
Places of comments as sets.  The places that a run keeps, and those at which comments stand inside
a span, are told by properties of the tokens alone; the tokens at such places are a filter of the
stream.
-/

set_option autoImplicit false
set_option relaxedAutoImplicit false

namespace AnnotatedSource.TokenSeq

/-- Places mark the tokens with a property when they are the places of these tokens, in order. -/
structure Marks (stream : TokenSeq) (property : Token → Prop) (places : List Nat) : Prop where
  increasing : places.Pairwise (· < ·)
  mem_iff : ∀ place, place ∈ places ↔ ∃ token, stream.get? place = some token ∧ property token

/-- Places list comments when a comment stands at each of them and each is behind the one before. -/
structure ListsComments (stream : TokenSeq) (places : List Nat) : Prop where
  increasing : places.Pairwise (· < ·)
  lt_size : ∀ place ∈ places, place < stream.size
  isComment : ∀ place ∈ places, ∃ token, stream.get? place = some token ∧ token.isComment = true

/-- No code token stands between two spans. -/
def ClearBetween (stream : TokenSeq) (left right : Span) : Prop :=
  ∀ token ∈ stream.tokens.toList, token.isComment = false →
    ¬(left.Precedes token.span ∧ token.span.Precedes right)

instance (stream : TokenSeq) (left right : Span) : Decidable (stream.ClearBetween left right) :=
  inferInstanceAs (Decidable (∀ token ∈ stream.tokens.toList, _ → _))

variable {stream : TokenSeq}

private theorem filterMap_range {α : Type} (items : List α) :
    (List.range items.length).filterMap (fun index => items[index]?) = items := by
  induction items with
  | nil => rfl
  | cons item items ih =>
    rw [List.length_cons, List.range_succ_eq_map, List.filterMap_cons, List.filterMap_map]
    simpa [Function.comp_def] using ih

private theorem toList_eq_filterMap :
    stream.tokens.toList = (List.range stream.size).filterMap stream.get? := by
  have listed := filterMap_range stream.tokens.toList
  simp only [Array.length_toList, Array.getElem?_toList] at listed
  exact listed.symm

theorem Marks.congr {p q : Token → Prop} {places : List Nat} (marks : stream.Marks p places)
    (same : ∀ token, p token ↔ q token) : stream.Marks q places where
  increasing := marks.increasing
  mem_iff place := by simp only [marks.mem_iff place, same]

theorem Marks.listsComments {property : Token → Prop}
    {places : List Nat} (marks : stream.Marks property places)
    (comments : ∀ token, property token → token.isComment = true) :
    stream.ListsComments places where
  increasing := marks.increasing
  lt_size place member := by
    obtain ⟨token, found, -⟩ := (marks.mem_iff place).1 member
    exact lt_size_of_get? found
  isComment place member := by
    obtain ⟨token, found, has⟩ := (marks.mem_iff place).1 member
    exact ⟨token, found, comments token has⟩

theorem listsComments_nil (stream : TokenSeq) : stream.ListsComments [] :=
  ⟨.nil, List.forall_mem_nil _, List.forall_mem_nil _⟩

theorem Marks.select_eq {property : Token → Prop} [DecidablePred property] {places : List Nat}
    (marks : stream.Marks property places) :
    stream.select places = stream.tokens.toList.filter fun token => property token := by
  have marked : places =
      (List.range stream.size).filter fun place => (stream.get? place).any (property ·) := by
    refine marks.increasing.eq_of_mem_iff (List.pairwise_lt_range.filter _) fun place => ?_
    rw [marks.mem_iff, List.mem_filter, List.mem_range, Option.any_eq_true]
    constructor
    · rintro ⟨token, found, has⟩
      exact ⟨lt_size_of_get? found, token, found, decide_eq_true has⟩
    · rintro ⟨-, token, found, has⟩
      exact ⟨token, found, of_decide_eq_true has⟩
  rw [marked, select, List.filterMap_filter, toList_eq_filterMap, List.filter_filterMap]
  congr 1
  funext place
  cases stream.get? place with
  | none => rfl
  | some token => simp [Option.filter]

theorem mem_commentsIn_iff {first last place : Nat} :
    place ∈ stream.commentsIn first last ↔ first ≤ place ∧ place < last ∧
      ∃ token, stream.get? place = some token ∧ token.isComment = true := by
  unfold commentsIn
  rw [List.mem_filter, List.mem_range'_1, Option.any_eq_true]
  constructor
  · rintro ⟨⟨lower, upper⟩, token, found, comment⟩
    exact ⟨lower, by omega, token, found, comment⟩
  · rintro ⟨lower, upper, token, found, comment⟩
    exact ⟨⟨lower, by omega⟩, token, found, comment⟩

private theorem increasing_commentsIn (first last : Nat) :
    (stream.commentsIn first last).Pairwise (· < ·) :=
  List.Pairwise.filter _ List.pairwise_lt_range'

theorem marks_comments : stream.Marks (·.isComment = true) (stream.commentsIn 0 stream.size) where
  increasing := increasing_commentsIn _ _
  mem_iff place := by
    rw [mem_commentsIn_iff]
    constructor
    · rintro ⟨-, -, token, found, comment⟩
      exact ⟨token, found, comment⟩
    · rintro ⟨token, found, comment⟩
      exact ⟨Nat.zero_le _, lt_size_of_get? found, token, found, comment⟩

theorem InOrder.mem_enclosedBounds_iff (inOrder : stream.InOrder) (target : Span) {place : Nat}
    {token : Token} (found : stream.get? place = some token) :
    ((stream.enclosedBounds target).1 ≤ place ∧ place < (stream.enclosedBounds target).2) ↔
      target.Encloses token.span := by
  have starts : place < stream.startingBefore target.start ↔ token.span.start < target.start :=
    inOrder.lt_startingBefore_iff found
  have stops : place < stream.endingBy target.stop ↔ token.span.stop ≤ target.stop :=
    inOrder.lt_endingBy_iff found
  show (stream.startingBefore target.start ≤ place ∧
    place < max (stream.endingBy target.stop) (stream.startingBefore target.start)) ↔ _
  omega

theorem InOrder.marks_enclosed (inOrder : stream.InOrder) (target : Span) :
    stream.Marks (fun comment => comment.isComment = true ∧ target.Encloses comment.span)
      (stream.commentsIn (stream.enclosedBounds target).1 (stream.enclosedBounds target).2) where
  increasing := increasing_commentsIn _ _
  mem_iff place := by
    rw [mem_commentsIn_iff]
    constructor
    · rintro ⟨lower, upper, token, found, comment⟩
      exact ⟨token, found, comment, (inOrder.mem_enclosedBounds_iff target found).1 ⟨lower, upper⟩⟩
    · rintro ⟨token, found, comment, inside⟩
      obtain ⟨lower, upper⟩ := (inOrder.mem_enclosedBounds_iff target found).2 inside
      exact ⟨lower, upper, token, found, comment⟩

theorem mem_takeWhile_iff {α : Type} {before : α → α → Prop} [Std.Asymm before]
    {holds : α → Bool} {items : List α} (ordered : items.Pairwise before) {item : α} :
    item ∈ items.takeWhile holds ↔
      item ∈ items ∧ holds item = true ∧
        ∀ other ∈ items, before other item → holds other = true := by
  induction ordered with
  | nil => simp
  | @cons first rest above _ ih =>
    rw [List.takeWhile_cons]
    by_cases holdsFirst : holds first = true
    · rw [if_pos holdsFirst, List.mem_cons, ih]
      constructor
      · rintro (rfl | ⟨member, itself, earlier⟩)
        · refine ⟨List.mem_cons_self, holdsFirst, fun other hother order => ?_⟩
          rcases List.mem_cons.1 hother with rfl | later
          · exact holdsFirst
          · exact absurd order (Std.Asymm.asymm _ _ (above other later))
        · refine ⟨List.mem_cons_of_mem _ member, itself, fun other hother order => ?_⟩
          rcases List.mem_cons.1 hother with rfl | later
          · exact holdsFirst
          · exact earlier other later order
      · rintro ⟨member, itself, earlier⟩
        rcases List.mem_cons.1 member with rfl | later
        · exact .inl rfl
        · exact .inr ⟨later, itself, fun other hother =>
            earlier other (List.mem_cons_of_mem _ hother)⟩
    · rw [if_neg holdsFirst]
      constructor
      · intro member
        contradiction
      · rintro ⟨member, itself, earlier⟩
        rcases List.mem_cons.1 member with rfl | later
        · exact absurd itself holdsFirst
        · exact absurd (earlier first List.mem_cons_self (above item later)) holdsFirst

private theorem keepsBefore_iff {outer : Option Span} {token : Token} :
    keepsBefore outer token = true ↔
      token.isComment = true ∧ ∀ span ∈ outer, span.start ≤ token.span.start := by
  cases outer <;> simp [keepsBefore]

private theorem keepsAfter_iff {outer : Option Span} {token : Token} :
    keepsAfter outer token = true ↔
      token.isComment = true ∧ ∀ span ∈ outer, token.span.stop ≤ span.stop := by
  cases outer <;> simp [keepsAfter]

private theorem keptAt_eq_true_iff {keeps : Token → Bool} {place : Nat} :
    stream.keptAt keeps place = true ↔
      ∃ token, stream.get? place = some token ∧ keeps token = true :=
  Option.any_eq_true _ _

/-- Where every comment nearer than a kept one is kept too, a run keeps the comments with nothing
but comments on the way to them. -/
private theorem mem_run_iff {nearer : Nat → Nat → Prop} [Std.Asymm nearer] {items : List Nat}
    (ordered : items.Pairwise nearer) (inside : ∀ item ∈ items, item < stream.size)
    {keeps : Token → Bool} (comments : ∀ token, keeps token = true → token.isComment = true)
    (spreads : ∀ {i j left right}, stream.get? i = some left → stream.get? j = some right →
      nearer i j → keeps right = true → left.isComment = true → keeps left = true)
    {place : Nat} :
    place ∈ items.takeWhile (stream.keptAt keeps) ↔
      ∃ token, stream.get? place = some token ∧ place ∈ items ∧ keeps token = true ∧
        ∀ other ∈ items, nearer other place →
          ∀ between, stream.get? other = some between → between.isComment = true := by
  rw [mem_takeWhile_iff ordered]
  constructor
  · rintro ⟨member, kept, way⟩
    obtain ⟨token, found, keeps⟩ := keptAt_eq_true_iff.1 kept
    refine ⟨token, found, member, keeps, ?_⟩
    intro other hother near between hbetween
    have keptBetween := way other hother near
    rw [keptAt_of_get? hbetween] at keptBetween
    exact comments between keptBetween
  · rintro ⟨token, found, member, keeps, way⟩
    refine ⟨member, keptAt_eq_true_iff.2 ⟨token, found, keeps⟩, ?_⟩
    intro other hother near
    obtain ⟨between, hbetween⟩ := exists_get?_eq_some (inside other hother)
    have isComment := way other hother near between hbetween
    exact keptAt_eq_true_iff.2 ⟨between, hbetween, spreads hbetween found near keeps isComment⟩

private theorem clearBetween_iff_before (separated : stream.Separated) {target : Span}
    {place : Nat} {comment : Token} (found : stream.get? place = some comment) :
    stream.ClearBetween comment.span target ↔
      ∀ other < stream.endingBy target.start, other > place →
        ∀ between, stream.get? other = some between → between.isComment = true := by
  constructor
  · intro clear other below order between hbetween
    have after := separated.inOrder.precedes_of_lt found hbetween order
    have before := (separated.inOrder.lt_endingBy_iff hbetween).1 below
    by_contra isCode
    exact clear between (mem_tokens_iff.2 ⟨other, hbetween⟩) (by simpa using isCode)
      ⟨after, before⟩
  · intro way token member isCode ⟨after, before⟩
    obtain ⟨index, hindex⟩ := mem_tokens_iff.1 member
    have below := (separated.inOrder.lt_endingBy_iff hindex).2 before
    have order := (separated.precedes_iff_lt found hindex).1 after
    rw [way index below order token hindex] at isCode
    contradiction

private theorem clearBetween_iff_after (separated : stream.Separated) {target : Span}
    {place : Nat} {comment : Token} (found : stream.get? place = some comment) :
    stream.ClearBetween target comment.span ↔
      ∀ other, stream.startingBefore target.stop ≤ other ∧ other < stream.size → other < place →
        ∀ between, stream.get? other = some between → between.isComment = true := by
  constructor
  · intro clear other ⟨above, _⟩ order between hbetween
    have before := separated.inOrder.precedes_of_lt hbetween found order
    have notBefore := mt (separated.inOrder.lt_startingBefore_iff hbetween).2 (Nat.not_lt.2 above)
    by_contra isCode
    exact clear between (mem_tokens_iff.2 ⟨other, hbetween⟩) (by simpa using isCode)
      ⟨Nat.not_lt.1 notBefore, before⟩
  · intro way token member isCode ⟨after, before⟩
    obtain ⟨index, hindex⟩ := mem_tokens_iff.1 member
    have above := mt (separated.inOrder.lt_startingBefore_iff hindex).1 (Nat.not_lt.2 after)
    have order := (separated.precedes_iff_lt hindex found).1 before
    rw [way index ⟨Nat.not_lt.1 above, lt_size_of_get? hindex⟩ order token hindex] at isCode
    contradiction

theorem Separated.marks_placesBefore (separated : stream.Separated) (outer : Option Span)
    (target : Span) :
    stream.Marks (fun comment => comment.isComment = true ∧ comment.span.Precedes target ∧
        (∀ span ∈ outer, span.start ≤ comment.span.start) ∧
        stream.ClearBetween comment.span target)
      (stream.placesBefore outer target).reverse := by
  rw [separated.placesBefore_eq]
  have ordered : (List.range (stream.endingBy target.start)).reverse.Pairwise (· > ·) :=
    List.pairwise_reverse.2 List.pairwise_lt_range
  have inside : ∀ item ∈ (List.range (stream.endingBy target.start)).reverse,
      item < stream.size := by
    intro item member
    rw [List.mem_reverse, List.mem_range] at member
    exact Nat.lt_of_lt_of_le member (endingBy_le_size _)
  refine ⟨List.pairwise_reverse.2 (ordered.sublist (List.takeWhile_sublist _)), fun place => ?_⟩
  rw [List.mem_reverse, mem_run_iff ordered inside fun token keeps => (keepsBefore_iff.1 keeps).1]
  · refine exists_congr fun comment => and_congr_right fun found => ?_
    simp only [List.mem_reverse, List.mem_range]
    rw [keepsBefore_iff, separated.inOrder.lt_endingBy_iff found,
      clearBetween_iff_before separated found]
    tauto
  · intro i j left right hleft hright order keeps isComment
    obtain ⟨-, within⟩ := keepsBefore_iff.1 keeps
    refine keepsBefore_iff.2 ⟨isComment, fun span hspan => ?_⟩
    have follows := separated.inOrder.precedes_of_lt hright hleft order
    have width := right.span.start_le_stop
    have bound := within span hspan
    omega

theorem Separated.marks_placesAfter (separated : stream.Separated) (outer : Option Span)
    (target : Span) :
    stream.Marks (fun comment => comment.isComment = true ∧ target.Precedes comment.span ∧
        (∀ span ∈ outer, comment.span.stop ≤ span.stop) ∧
        stream.ClearBetween target comment.span)
      (stream.placesAfter outer target) := by
  rw [separated.placesAfter_eq]
  have ordered : (List.range' (stream.startingBefore target.stop)
      (stream.size - stream.startingBefore target.stop)).Pairwise (· < ·) :=
    List.pairwise_lt_range'
  have listed (item : Nat) : item ∈ List.range' (stream.startingBefore target.stop)
        (stream.size - stream.startingBefore target.stop) ↔
      stream.startingBefore target.stop ≤ item ∧ item < stream.size := by
    rw [List.mem_range'_1]
    omega
  refine ⟨ordered.sublist (List.takeWhile_sublist _), fun place => ?_⟩
  rw [mem_run_iff ordered (fun item member => ((listed item).1 member).2)
    fun token keeps => (keepsAfter_iff.1 keeps).1]
  · refine exists_congr fun comment => and_congr_right fun found => ?_
    have behind : stream.startingBefore target.stop ≤ place ∧ place < stream.size ↔
        target.Precedes comment.span := by
      have starts : place < stream.startingBefore target.stop ↔ comment.span.start < target.stop :=
        separated.inOrder.lt_startingBefore_iff found
      have bound := lt_size_of_get? found
      omega
    simp only [listed]
    rw [keepsAfter_iff, behind, clearBetween_iff_after separated found]
    tauto
  · intro i j left right hleft hright order keeps isComment
    obtain ⟨-, within⟩ := keepsAfter_iff.1 keeps
    refine keepsAfter_iff.2 ⟨isComment, fun span hspan => ?_⟩
    have leads := separated.inOrder.precedes_of_lt hleft hright order
    have width := right.span.start_le_stop
    have bound := within span hspan
    omega

end AnnotatedSource.TokenSeq
