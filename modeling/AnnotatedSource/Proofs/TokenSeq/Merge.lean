import AnnotatedSource.Proofs.StableOrder
import AnnotatedSource.Proofs.TokenSeq.Contents

/-!
Merged streams.  A stream is the stable order of the code tokens with the comments behind them.
Where no two of the code tokens and comments overlap, ordering them by start puts them one after
another, so that every offset cuts the stream in two; and taking the comments out again leaves the
code tokens as they were.
-/

set_option autoImplicit false
set_option relaxedAutoImplicit false

namespace AnnotatedSource

/-- None of the spans is empty, and no two of them have an offset in common. -/
structure Span.AllApart (spans : List Span) : Prop where
  nonempty : ∀ span ∈ spans, span.start < span.stop
  apart : spans.Pairwise Span.Apart

namespace Span

theorem Apart.symm {left right : Span} (h : left.Apart right) : right.Apart left := by
  intro offset both
  exact h offset ⟨both.2, both.1⟩

theorem AllApart.of_sublist {spans other : List Span} (h : AllApart spans)
    (sublist : other.Sublist spans) : AllApart other where
  nonempty span member := h.nonempty span (sublist.subset member)
  apart := h.apart.sublist sublist

theorem AllApart.of_perm {spans other : List Span} (h : AllApart spans)
    (perm : other.Perm spans) : AllApart other where
  nonempty span member := h.nonempty span (perm.mem_iff.1 member)
  apart := (perm.pairwise_iff fun apart => apart.symm).2 h.apart

end Span

namespace TokenSeq

theorem pairwise_precedes_of_allApart {lexemes : List Token}
    (apart : Span.AllApart (lexemes.map Token.span))
    (ordered : lexemes.Pairwise fun left right => left.span.start ≤ right.span.start) :
    lexemes.Pairwise fun left right => left.span.Precedes right.span := by
  have disjoint : lexemes.Pairwise fun left right => left.span.Apart right.span :=
    List.pairwise_map.1 apart.apart
  have nonempty {token : Token} (member : token ∈ lexemes) :
      token.span.start < token.span.stop :=
    apart.nonempty _ (List.mem_map_of_mem member)
  refine (disjoint.and ordered).imp_of_mem fun {left right} hleft hright both => ?_
  have order := both.2
  have leftNonempty := nonempty hleft
  have rightNonempty := nonempty hright
  rcases Span.precedes_or_precedes_of_apart leftNonempty rightNonempty both.1 with first | second
  · exact first
  · omega

/-- There is one way to put lexemes that are not empty one after another. -/
theorem eq_of_perm_of_pairwise_precedes {first second : List Token}
    (nonempty : ∀ lexeme ∈ first, lexeme.span.start < lexeme.span.stop)
    (hfirst : first.Pairwise fun left right => left.span.Precedes right.span)
    (hsecond : second.Pairwise fun left right => left.span.Precedes right.span)
    (perm : first.Perm second) : first = second := by
  refine List.Perm.eq_of_pairwise ?_ hfirst hsecond perm
  intro left right hleft hright before after
  have leftNonempty := nonempty left hleft
  have rightNonempty := nonempty right (perm.mem_iff.2 hright)
  omega

theorem separated_of_allApart {lexemes : List Token}
    (apart : Span.AllApart (lexemes.map Token.span))
    (ordered : lexemes.Pairwise fun left right => left.span.start ≤ right.span.start) :
    (⟨lexemes.toArray⟩ : TokenSeq).Separated where
  inOrder := (pairwise_precedes_of_allApart apart ordered).isChain
  nonempty _ member := apart.nonempty _ (List.mem_map_of_mem member)

variable {tokens comments : List Token}

theorem perm_merge : (merge tokens comments).tokens.toList.Perm (tokens ++ comments) :=
  List.mergeSort_perm _ _

theorem mem_merge_iff {lexeme : Token} :
    lexeme ∈ (merge tokens comments).tokens.toList ↔ lexeme ∈ tokens ∨ lexeme ∈ comments := by
  rw [perm_merge.mem_iff, List.mem_append]

theorem pairwise_start_merge : (merge tokens comments).tokens.toList.Pairwise
    fun left right => left.span.start ≤ right.span.start :=
  Span.pairwise_mergeSort_start Token.span (tokens ++ comments)

theorem sublist_merge {lexemes : List Token}
    (ordered : lexemes.Pairwise fun left right => left.span.start ≤ right.span.start)
    (sublist : lexemes.Sublist (tokens ++ comments)) :
    lexemes.Sublist (merge tokens comments).tokens.toList :=
  List.sublist_mergeSort (Span.startsBy_trans Token.span) (Span.startsBy_total Token.span)
    (ordered.imp fun order => decide_eq_true order) sublist

theorem separated_merge (apart : Span.AllApart ((tokens ++ comments).map Token.span)) :
    (merge tokens comments).Separated :=
  separated_of_allApart (apart.of_perm (perm_merge.map Token.span)) pairwise_start_merge

def codeOf (lexemes : List Token) : List Token := lexemes.filter fun lexeme => !lexeme.isComment

theorem codeOf_eq_self (h : ∀ token ∈ tokens, token.isComment = false) :
    codeOf tokens = tokens := by
  apply List.filter_eq_self.2
  intro token member
  rw [h token member]
  rfl

theorem codeOf_eq_nil (h : ∀ comment ∈ comments, comment.isComment = true) :
    codeOf comments = [] := by
  apply List.filter_eq_nil_iff.2
  intro comment member
  rw [h comment member]
  decide

theorem perm_codeOf_merge (areCode : ∀ token ∈ tokens, token.isComment = false)
    (areComments : ∀ comment ∈ comments, comment.isComment = true) :
    (codeOf (merge tokens comments).tokens.toList).Perm tokens := by
  have filtered : (codeOf (merge tokens comments).tokens.toList).Perm
      (codeOf (tokens ++ comments)) := perm_merge.filter _
  have split : codeOf (tokens ++ comments) = codeOf tokens ++ codeOf comments :=
    List.filter_append tokens comments
  rw [split, codeOf_eq_self areCode, codeOf_eq_nil areComments, List.append_nil] at filtered
  exact filtered

theorem codeOf_merge (apart : Span.AllApart ((tokens ++ comments).map Token.span))
    (ordered : tokens.Pairwise fun left right => left.span.start ≤ right.span.start)
    (areCode : ∀ token ∈ tokens, token.isComment = false)
    (areComments : ∀ comment ∈ comments, comment.isComment = true) :
    codeOf (merge tokens comments).tokens.toList = tokens := by
  have perm := perm_codeOf_merge areCode areComments
  have tokensApart : Span.AllApart (tokens.map Token.span) :=
    apart.of_sublist ((List.sublist_append_left tokens comments).map Token.span)
  have stream := (separated_merge apart).inOrder.pairwise_precedes
  refine eq_of_perm_of_pairwise_precedes ?_ (stream.filter _)
    (pairwise_precedes_of_allApart tokensApart ordered) perm
  intro token member
  exact tokensApart.nonempty _ (List.mem_map_of_mem (perm.mem_iff.1 member))

/-- A stream holds the code tokens and the comments behind them in stable order, and nothing else is
a stable order of them.  Where the code tokens and the comments are each in order, the stream is
what merging the two from the front gives, a code token before a comment that starts with it; so
both stand in it in their own order. -/
theorem stablyOrders_iff_eq_merge (tokens comments : List Token) :
    (∀ arranged, Span.StablyOrders Token.span (tokens ++ comments) arranged ↔
      arranged = (merge tokens comments).tokens.toList) ∧
    ((tokens.Pairwise fun left right => left.span.start ≤ right.span.start) →
      (comments.Pairwise fun left right => left.span.start ≤ right.span.start) →
      (merge tokens comments).tokens.toList =
          tokens.merge comments (fun left right => left.span.start ≤ right.span.start) ∧
        tokens.Sublist (merge tokens comments).tokens.toList ∧
        comments.Sublist (merge tokens comments).tokens.toList) := by
  have sorted : ∀ arranged, Span.StablyOrders Token.span (tokens ++ comments) arranged ↔
      arranged = (merge tokens comments).tokens.toList := fun _ => Span.stablyOrders_iff
  refine ⟨sorted, ?_⟩
  intro hTokens hComments
  have merged := (sorted _).1 (Span.stablyOrders_merge hTokens hComments)
  refine ⟨merged.symm, ?_, ?_⟩
  · exact sublist_merge hTokens (List.sublist_append_left tokens comments)
  · exact sublist_merge hComments (List.sublist_append_right tokens comments)

def tiedTokens : List Token :=
  [⟨.identifier, "x", .ofWidth 0 1, .zero⟩, ⟨.punctuator, ";", .ofWidth 5 1, .zero⟩,
    ⟨.identifier, "y", .ofWidth 9 1, .zero⟩]

def tiedComments : List Token :=
  [⟨.block, "", .ofWidth 5 4, .zero⟩, ⟨.line, "end", .ofWidth 11 5, .zero⟩]

theorem stablyOrders_iff_eq_merge_tie :
    (tiedTokens.Pairwise fun left right => left.span.start ≤ right.span.start) ∧
      (tiedComments.Pairwise fun left right => left.span.start ≤ right.span.start) ∧
      (merge tiedTokens tiedComments).tokens.toList.map Token.value =
        ["x", ";", "", "y", "end"] := by
  have hTokens : tiedTokens.Pairwise fun left right => left.span.start ≤ right.span.start := by
    decide
  have hComments : tiedComments.Pairwise fun left right =>
      left.span.start ≤ right.span.start := by decide
  refine ⟨hTokens, hComments, ?_⟩
  rw [((stablyOrders_iff_eq_merge tiedTokens tiedComments).2 hTokens hComments).1]
  simp [tiedTokens, tiedComments, Span.ofWidth]

theorem Separated.pairwise_ends {sequence : TokenSeq} (separated : sequence.Separated) :
    (sequence.tokens.toList.Pairwise fun left right => left.span.start < right.span.start) ∧
      sequence.tokens.toList.Pairwise fun left right => left.span.stop < right.span.stop := by
  have order := separated.inOrder.pairwise_precedes
  constructor
  · refine order.imp_of_mem fun {left right} hleft _ before => ?_
    have width := separated.nonempty left hleft
    omega
  · refine order.imp_of_mem fun {left right} _ hright before => ?_
    have width := separated.nonempty right hright
    omega

/-- Lexemes that are not empty and do not overlap, in whatever order they come, are merged into a
stream of all of them that can be searched: each of them stops at or before the start of the next
one, the starts rise and the stops rise, and at every offset the lexemes that end by it, and those
that start before it, are a first part of the stream, of the length that the search counts. -/
theorem merge_searchable (tokens comments : List Token)
    (apart : Span.AllApart ((tokens ++ comments).map Token.span)) :
    (merge tokens comments).tokens.toList.Perm (tokens ++ comments) ∧
    (merge tokens comments).InOrder ∧
    ((merge tokens comments).tokens.toList.Pairwise fun left right =>
      left.span.start < right.span.start) ∧
    ((merge tokens comments).tokens.toList.Pairwise fun left right =>
      left.span.stop < right.span.stop) ∧
    ∀ offset,
      (merge tokens comments).CutsAt (fun lexeme => lexeme.span.stop ≤ offset)
        ((merge tokens comments).endingBy offset) ∧
      (merge tokens comments).CutsAt (fun lexeme => lexeme.span.start < offset)
        ((merge tokens comments).startingBefore offset) := by
  have separated := separated_merge apart
  obtain ⟨startsRise, stopsRise⟩ := separated.pairwise_ends
  have inOrder := separated.inOrder
  exact ⟨perm_merge, inOrder, startsRise, stopsRise, fun offset =>
    ⟨inOrder.cutsAt_endingBy offset, inOrder.cutsAt_startingBefore offset⟩⟩

def scatteredTokens : List Token :=
  [⟨.punctuator, ";", .ofWidth 20 1, .zero⟩, ⟨.keyword, "var", .ofWidth 0 3, .zero⟩,
    ⟨.identifier, "x", .ofWidth 12 1, .zero⟩]

def scatteredComments : List Token :=
  [⟨.block, " b ", .ofWidth 13 7, .zero⟩, ⟨.block, " a ", .ofWidth 4 7, .zero⟩]

def gatheredLexemes : List Token :=
  [⟨.keyword, "var", .ofWidth 0 3, .zero⟩, ⟨.block, " a ", .ofWidth 4 7, .zero⟩,
    ⟨.identifier, "x", .ofWidth 12 1, .zero⟩, ⟨.block, " b ", .ofWidth 13 7, .zero⟩,
    ⟨.punctuator, ";", .ofWidth 20 1, .zero⟩]

theorem merge_searchable_scattered :
    Span.AllApart ((scatteredTokens ++ scatteredComments).map Token.span) ∧
      (merge scatteredTokens scatteredComments).tokens = gatheredLexemes.toArray ∧
      (merge scatteredTokens scatteredComments).CutsAt (fun lexeme => lexeme.span.stop ≤ 13) 3 := by
  have apart : Span.AllApart ((scatteredTokens ++ scatteredComments).map Token.span) :=
    ⟨by decide, by decide⟩
  obtain ⟨perm, inOrder, -, -, cuts⟩ := merge_searchable scatteredTokens scatteredComments apart
  have gathered : (merge scatteredTokens scatteredComments).tokens = gatheredLexemes.toArray := by
    refine Array.toList_inj.1 (eq_of_perm_of_pairwise_precedes (separated_merge apart).nonempty
      inOrder.pairwise_precedes (by decide) (perm.trans (by decide)))
  have count : (merge scatteredTokens scatteredComments).endingBy 13 = 3 := by
    rw [endingBy, gathered]
    decide +kernel
  refine ⟨apart, gathered, ?_⟩
  rw [← count]
  exact (cuts 13).1

end TokenSeq

end AnnotatedSource
