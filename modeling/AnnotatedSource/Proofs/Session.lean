import AnnotatedSource.Proofs.Comments.Attribution
import AnnotatedSource.Proofs.Documentation.Place
import AnnotatedSource.Session

/-!
What a session tells is what its source says.  All that a session remembers of a node is what would
be computed for the node anew, whatever has been asked before; so every answer is the one that a
session gives which remembers nothing.
-/

set_option autoImplicit false
set_option relaxedAutoImplicit false

namespace AnnotatedSource

namespace Session

variable {source : Source}

/-- Whatever is remembered of a node is where its comments stand. -/
def Faithful (memory : Memory source) : Prop :=
  ∀ (id : source.tree.Id) (recalled : Attachment),
    memory[id]? = some recalled → recalled = source.attachment id

theorem faithful_empty : Faithful (∅ : Memory source) := by
  intro id recalled found
  rw [Std.HashMap.getElem?_empty] at found
  contradiction

theorem Faithful.insert {memory : Memory source} (faithful : Faithful memory)
    (id : source.tree.Id) : Faithful (memory.insert id (source.attachment id)) := by
  intro other recalled found
  rw [Std.HashMap.getElem?_insert] at found
  split at found
  · next same =>
    rw [← eq_of_beq same]
    exact (Option.some.inj found).symm
  · exact faithful other recalled found

/-- A computation gives a value when this is its result and its memory stays faithful, whatever it
faithfully remembers at the start. -/
def Gives {α : Type} (computation : Session source α) (value : α) : Prop :=
  ∀ memory : Memory source, Faithful memory →
    (computation.run memory).1 = value ∧ Faithful (computation.run memory).2

section Gives

variable {α β : Type}

theorem gives_pure (value : α) : Gives (pure value : Session source α) value :=
  fun _ faithful => ⟨rfl, faithful⟩

theorem Gives.bind {computation : Session source α} {value : α} {next : α → Session source β}
    {result : β} (first : Gives computation value) (later : Gives (next value) result) :
    Gives (computation >>= next) result := by
  intro memory faithful
  obtain ⟨same, kept⟩ := first memory faithful
  have continued := later (computation.run memory).2 kept
  rw [← same] at continued
  exact continued

theorem Gives.map {computation : Session source α} {value : α} (f : α → β)
    (gives : Gives computation value) : Gives (do return f (← computation)) (f value) :=
  gives.bind (gives_pure (f value))

end Gives

theorem gives_attachment (id : source.tree.Id) :
    Gives (attachment id) (source.attachment id) := by
  intro memory faithful
  cases recalled : memory[id]? with
  | some known =>
    have run : (attachment id).run memory = (known, memory) := by
      simp only [attachment, StateT.run_bind, StateT.run_get, pure_bind, recalled]
      rfl
    rw [run]
    exact ⟨faithful id known recalled, faithful⟩
  | none =>
    have run : (attachment id).run memory =
        (source.attachment id, memory.insert id (source.attachment id)) := by
      simp only [attachment, StateT.run_bind, StateT.run_get, pure_bind, recalled]
      rfl
    rw [run]
    exact ⟨rfl, faithful.insert id⟩

theorem gives_commentsOf (id : source.tree.Id) : Gives (commentsOf id) (source.commentsOf id) :=
  (gives_attachment id).map fun attachment : Attachment => attachment.comments source.stream

section Documentation

variable {reader : source.tree.Id → Session source (List Token)}
  {leading : source.tree.Id → List Token} (reads : ∀ id, Gives (reader id) (leading id))
include reads

theorem gives_documentationAt (id : source.tree.Id) :
    Gives (source.tree.documentationAt reader id)
      (Id.run (source.tree.documentationAt (reading leading) id)) :=
  (reads id).map fun comments =>
    documentationAbove? comments (source.tree.node id).loc.start.line

theorem gives_climb (ids : List source.tree.Id) :
    Gives (source.tree.climb reader ids) (Id.run (source.tree.climb (reading leading) ids)) := by
  induction ids with
  | nil => exact gives_pure none
  | cons id outer ih =>
    refine (reads id).bind ?_
    change Gives _ (if (!(leading id).isEmpty || (source.tree.node id).kind.endsClimb) = true then
      some id else Id.run (source.tree.climb (reading leading) outer))
    split
    · exact gives_pure (some id)
    · exact ih

theorem gives_documentation (id : source.tree.Id) :
    Gives (source.tree.documentation reader id)
      (Id.run (source.tree.documentation (reading leading) id)) := by
  unfold Tree.documentation
  split
  case h_1 | h_2 => exact gives_documentationAt reads _
  case h_3 =>
    split
    · exact gives_pure none
    · exact gives_documentationAt reads _
  case h_4 | h_5 =>
    split
    · exact gives_pure none
    · split
      · exact gives_documentationAt reads id
      · refine (gives_climb reads _).bind ?_
        generalize source.tree.climb (reading leading) (source.tree.ancestors id) = climbed
        cases climbed with
        | none => exact gives_pure none
        | some target =>
          change Gives (if (source.tree.node target).kind = .functionDeclaration then pure none
            else source.tree.documentationAt reader target)
            (Id.run (if (source.tree.node target).kind = .functionDeclaration then pure none
              else source.tree.documentationAt (reading leading) target))
          split
          · exact gives_pure none
          · exact gives_documentationAt reads target
  case h_6 => exact gives_pure none

end Documentation

theorem gives_documentationOf (id : source.tree.Id) :
    Gives (documentationOf id) (source.documentationOf id) :=
  gives_documentation (fun target => (gives_commentsOf target).map Comments.leading) id

inductive Request (source : Source) where
  | comments (id : source.tree.Id)
  | documentation (id : source.tree.Id)

inductive Answer where
  | comments (comments : Comments)
  | documentation (comment : Option Token)
deriving DecidableEq

namespace Request

/-- The answer of a session, which may recall and remember. -/
def answer : Request source → Session source Answer
  | .comments id => return .comments (← commentsOf id)
  | .documentation id => return .documentation (← documentationOf id)

/-- The answer that the source gives without a session. -/
def truth : Request source → Answer
  | .comments id => .comments (source.commentsOf id)
  | .documentation id => .documentation (source.documentationOf id)

theorem gives_answer (request : Request source) : Gives request.answer request.truth := by
  cases request with
  | comments id => exact (gives_commentsOf id).map Answer.comments
  | documentation id => exact (gives_documentationOf id).map Answer.documentation

theorem gives_mapM_answer (requests : List (Request source)) :
    Gives (requests.mapM answer) (requests.map truth) := by
  induction requests with
  | nil => exact gives_pure []
  | cons request rest ih =>
    rw [List.mapM_cons]
    exact request.gives_answer.bind (ih.map (request.truth :: ·))

end Request

structure State where
  source : Source
  memory : Memory source

namespace State

def fresh (source : Source) : State := ⟨source, ∅⟩

def ask (state : State) (request : Request state.source) : Answer × State :=
  let (answer, memory) := request.answer.run state.memory
  (answer, ⟨state.source, memory⟩)

def askAll (state : State) (requests : List (Request state.source)) : List Answer × State :=
  let (answers, memory) := (requests.mapM Request.answer).run state.memory
  (answers, ⟨state.source, memory⟩)

theorem ask_fresh (request : Request source) :
    ((fresh source).ask request).1 = request.truth :=
  (request.gives_answer ∅ faithful_empty).1

/-- All that is remembered is where the comments of nodes stand. -/
def Sound (state : State) : Prop :=
  ∀ (id : state.source.tree.Id) (recalled : Attachment), state.memory[id]? = some recalled →
    recalled = state.source.attachment id ∧ recalled.Within state.source.stream

end State

/-- A session that is asked any questions in any order gives to each the answer of a session that
remembers nothing.  It changes nothing but its memory, and its memory stays sound. -/
theorem askAll_fresh (source : Source) (separated : source.stream.Separated)
    (requests : List (Request source)) :
    ((State.fresh source).askAll requests).1 =
        requests.map (fun request => ((State.fresh source).ask request).1) ∧
      ((State.fresh source).askAll requests).2.source = source ∧
      ((State.fresh source).askAll requests).2.Sound := by
  obtain ⟨answers, faithful⟩ := Request.gives_mapM_answer requests ∅ faithful_empty
  refine ⟨?_, rfl, ?_⟩
  · have alone := List.map_congr_left fun request (_ : request ∈ requests) =>
      State.ask_fresh request
    exact answers.trans alone.symm
  · intro id recalled found
    have same := faithful id recalled found
    rw [same]
    exact ⟨rfl, Tree.within_attachment separated id⟩

/-- Documentation, then the comments of the node it was found at, then the same documentation. -/
def documentedRequests : List (Request Source.documented) :=
  [.documentation ⟨4, by decide⟩, .comments ⟨1, by decide⟩, .documentation ⟨4, by decide⟩]

def documentedAnswers : List Answer :=
  let first := Source.sampleToken .block "* f " (Span.ofWidth 0 8)
  let second := Source.sampleToken .block " g " (Span.ofWidth 9 7)
  [.documentation (some first), .comments ⟨[first, second], []⟩, .documentation (some first)]

theorem askAll_fresh_documented :
    Source.documented.stream.Separated ∧
      ((State.fresh Source.documented).askAll documentedRequests).1 = documentedAnswers ∧
      ((State.fresh Source.documented).askAll documentedRequests).2.Sound := by
  have separated : Source.documented.stream.Separated := by decide
  obtain ⟨answers, -, sound⟩ := askAll_fresh Source.documented separated documentedRequests
  have alone := List.map_congr_left fun request (_ : request ∈ documentedRequests) =>
    State.ask_fresh request
  have expected : documentedRequests.map Request.truth = documentedAnswers := by decide +kernel
  exact ⟨separated, answers.trans (alone.trans expected), sound⟩

end Session

end AnnotatedSource
