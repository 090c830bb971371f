import AnnotatedSource.Comments
import AnnotatedSource.Proofs.TokenSeq.Relabel

/-!
Comments in relabelled streams.  Runs and attachments ask of a token only where it stands and
whether it is a comment, so they find the same places in a relabelled stream.
-/

set_option autoImplicit false
set_option relaxedAutoImplicit false

namespace AnnotatedSource

namespace TokenSeq

variable {f : Token → Token} {stream : TokenSeq}

theorem runBefore_map (relabels : Token.Relabels f) (outer : Option Span) (index : Nat) :
    (stream.map f).runBefore outer index = stream.runBefore outer index := by
  induction index using Nat.strongRecOn with
  | ind index ih =>
    rw [runBefore, runBefore, get?_map]
    cases stream.get? index with
    | none => rfl
    | some token =>
      simp only [Option.map_some, relabels.span_eq, relabels.isComment_eq,
        indexBefore?_map relabels]
      cases stream.indexBefore? token.span with
      | none => rfl
      | some next =>
        by_cases moves : next < index
        · simp only [moves, if_true, ih next moves]
        · simp only [moves, if_false]

private theorem runAfter_of_none {outer : Option Span} {index : Nat}
    (missing : stream.get? index = none) : stream.runAfter outer index = [] := by
  rw [runAfter]
  split
  · rfl
  · next found => rw [missing] at found; contradiction

private theorem runAfter_of_some {outer : Option Span} {index : Nat} {token : Token}
    (found : stream.get? index = some token) :
    stream.runAfter outer index =
      if token.isComment && outer.all fun span => token.span.stop ≤ span.stop then
        match stream.indexAfter? token.span with
        | none => [index]
        | some next => if index < next then index :: stream.runAfter outer next else [index]
      else [] := by
  rw [runAfter]
  split
  · next missing => rw [missing] at found; contradiction
  · next other also =>
    obtain rfl := Option.some.inj (found.symm.trans also)
    rfl

theorem runAfter_map (relabels : Token.Relabels f) (outer : Option Span) (index : Nat) :
    (stream.map f).runAfter outer index = stream.runAfter outer index := by
  induction room : stream.size - index using Nat.strongRecOn generalizing index with
  | ind left ih =>
    cases found : stream.get? index with
    | none =>
      rw [runAfter_of_none found, runAfter_of_none (by rw [get?_map, found]; rfl)]
    | some token =>
      have foundThere : (stream.map f).get? index = some (f token) := by
        rw [get?_map, found]
        rfl
      have inside := lt_size_of_get? found
      rw [runAfter_of_some found, runAfter_of_some foundThere, relabels.span_eq,
        relabels.isComment_eq, indexAfter?_map relabels]
      cases stream.indexAfter? token.span with
      | none => rfl
      | some next =>
        by_cases moves : index < next
        · simp only [moves, if_true, ih (stream.size - next) (by omega) next rfl]
        · simp only [moves, if_false]

theorem commentsIn_map (relabels : Token.Relabels f) (first last : Nat) :
    (stream.map f).commentsIn first last = stream.commentsIn first last := by
  unfold commentsIn
  simp only [get?_map, Option.any_map, relabels.isComment_eq]

theorem select_map (places : List Nat) :
    (stream.map f).select places = (stream.select places).map f := by
  unfold select
  rw [List.map_filterMap]
  congr 1
  funext place
  exact get?_map place

end TokenSeq

theorem Tree.attachment_map (tree : Tree) {f : Token → Token} (relabels : Token.Relabels f)
    (stream : TokenSeq) (id : tree.Id) :
    tree.attachment (stream.map f) id = tree.attachment stream id := by
  have before : (stream.map f).runBefore = stream.runBefore := by
    funext outer index
    exact TokenSeq.runBefore_map relabels outer index
  have after : (stream.map f).runAfter = stream.runAfter := by
    funext outer index
    exact TokenSeq.runAfter_map relabels outer index
  unfold attachment
  simp only [TokenSeq.commentsIn_map relabels, TokenSeq.size_map,
    TokenSeq.enclosedBounds_map relabels, TokenSeq.indexBefore?_map relabels,
    TokenSeq.indexAfter?_map relabels, before, after]

end AnnotatedSource
