/-
# A team with a moderator

`TeamNode::RunLlmSelect` of `agentflow/nodes/team_node.cc`: each turn a
moderator, an `LlmNode`, is asked on a clone of the state for the id of a
member, which is run on the state; for an unknown id a note is left for the
moderator. Both nodes read and write the fields of the state by their own
functions, which know messages only.

What the replies of the moderator ask for is `prescribed`, where the fields are
read and written as `core/state.h` has it. The node does it if and only if the
state is a message with the moderator's output field whenever a reply names
something (`followsModerator_iff`). A JSON document is no message.

Key definitions: `LlmNode.run`, `runLlmSelect`, `prescribed`, `FollowsModerator`.
Key theorems: `selectFrom_eq_iff`, `followsModerator_iff`.
-/
import AgentFlow.Core.StateFields
import AgentFlow.Inference.CanonicalMessage
import AgentFlow.Nodes.TeamNode

namespace AgentFlow

open Json

variable {L : Libs}

/-! ### The nodes' own field functions -/

/-- `ReadField` of `LlmNode`. -/
def LlmNode.readField (A : FieldAccess L) (s : State L) (f : String) : String :=
  match s.unsafeMessage with
  | some m => A.readProtoField m f
  | none => ""

/-- `WriteField` of `LlmNode`. -/
def LlmNode.writeField (A : FieldAccess L) (s : State L) (f v : String) : State L :=
  match s.unsafeMessage with
  | some m => { s with backing := .proto (some (A.writeProtoField m f v)) }
  | none => s

/-- `ReadStringField` of `TeamNode`. -/
def TeamNode.readStringField (A : FieldAccess L) (s : State L) (f : String) : String :=
  if f = "" then "" else LlmNode.readField A s f

/-- `WriteStringField` of `TeamNode`. -/
def TeamNode.writeStringField (A : FieldAccess L) (s : State L) (f v : String) : State L :=
  if f = "" then s else LlmNode.writeField A s f v

/-- `std::isspace`. -/
def TeamNode.isSpace (c : Char) : Bool := c = ' ' || ('\t' ≤ c && c ≤ '\r')

/-- `Trim`. -/
def TeamNode.trim (s : String) : String :=
  String.ofList ((s.toList.dropWhile isSpace).reverse.dropWhile isSpace).reverse

/-- `TrimAndLower`. -/
def TeamNode.trimAndLower (s : String) : String := (trim s).map Char.toLower

/-! ### The moderator -/

/-- What the moderator's backend does with the user's text. -/
inductive ModeratorAnswer (L : Libs)
  | response (text : String)
  | cancelled
  | failed (x : L.Exception)

/-- What is written of a response. -/
def replyText (C : Codec) (response : String) : String :=
  let text := extractAssistantText C response
  if text = "" then response else text

/-- `LlmNode::Run`. -/
def LlmNode.run (A : FieldAccess L) (C : Codec) (cfg : LlmNodeConfig) (cancelled : Bool)
    (answer : String → ModeratorAnswer L) (s : State L) : Except L.Exception (State L) :=
  if cancelled then .ok s
  else
    match answer (readField A s cfg.inputField) with
    | .response text => .ok (writeField A s cfg.outputField (replyText C text))
    | .cancelled => .ok s
    | .failed x => .error x

/-- A turn as it goes outside the node: whether the token has fired, before,
when the moderator starts and when it has ended, and what its backend answers. -/
structure ModeratorTurn (L : Libs) where
  before : Bool := false
  starting : Bool := false
  answer : String → ModeratorAnswer L
  after : Bool := false

/-! ### The loop -/

/-- What a turn does to the live state, with the state it finds. -/
inductive SelectEvent (L : Libs)
  | ran (id : String) (s : State L)
  | noted (id : String) (s : State L)

def SelectEvent.state : SelectEvent L → State L
  | ran _ s | noted _ s => s

@[simp]
theorem SelectEvent.state_ran (id : String) (s : State L) : (ran id s).state = s := rfl

@[simp]
theorem SelectEvent.state_noted (id : String) (s : State L) : (noted id s).state = s := rfl

def buildListing (members : List (Member L)) : String :=
  String.join (members.map fun m => "- " ++ m.id ++ " (" ++ m.kind ++ ")\n")

def moderatorPrompt (members : List (Member L)) : String :=
  "Members available:\n" ++ buildListing members ++
    "Reply with exactly one member id from the list above, or DONE to stop."

/-- The reply that ends the loop. -/
def Stops (decision : String) : Prop := decision = "" ∨ TeamNode.trimAndLower decision = "done"

instance (decision : String) : Decidable (Stops decision) := inferInstanceAs (Decidable (_ ∨ _))

/-- The note on an unknown id, after what the field held. -/
def moderatorNote (held decision : String) : String :=
  (if held = "" then "" else held ++ "\n") ++ "[moderator-error] unknown member: " ++ decision

/-- The turns that are left, from turn `t`: what they do, and what is returned. -/
def selectFrom (A : FieldAccess L) (C : Codec) (T : TeamNode L) (turns : ℕ → ModeratorTurn L) :
    ℕ → ℕ → State L → List (SelectEvent L) × Except L.Exception (State L)
  | 0, _, s => ([], .ok s)
  | n + 1, t, s =>
    if (turns t).before then ([], .ok s)
    else
      let modState := TeamNode.writeStringField A s.clone T.moderator.inputField (moderatorPrompt T.members)
      match LlmNode.run A C T.moderator (turns t).starting (turns t).answer modState with
      | .error x => ([], .error x)
      | .ok modState =>
        if (turns t).after then ([], .ok s)
        else
          let decision := TeamNode.trim (TeamNode.readStringField A modState T.moderator.outputField)
          if Stops decision then ([], .ok s)
          else
            match findMember T.members decision with
            | none =>
              let note := moderatorNote (TeamNode.readStringField A s T.moderator.inputField) decision
              let rest := selectFrom A C T turns n (t + 1)
                (TeamNode.writeStringField A s T.moderator.inputField note)
              (.noted decision s :: rest.1, rest.2)
            | some m =>
              match m.run t s with
              | .error x => ([.ran m.id s], .error x)
              | .ok s' =>
                let rest := selectFrom A C T turns n (t + 1) s'
                (.ran m.id s :: rest.1, rest.2)

/-- `RunLlmSelect`. -/
def runLlmSelect (A : FieldAccess L) (C : Codec) (T : TeamNode L) (turns : ℕ → ModeratorTurn L) (s : State L) :
    List (SelectEvent L) × Except L.Exception (State L) :=
  selectFrom A C T turns T.maxTurns.toNat 0 s

/-! ### What the replies ask for -/

/-- The members that the replies name are run, each on the state left before,
and an unknown name is noted in the input field. The prompt is nowhere in it. -/
def prescribedFrom (A : FieldAccess L) (T : TeamNode L) (replies : ℕ → String) :
    ℕ → ℕ → State L → List (SelectEvent L) × Except L.Exception (State L)
  | 0, _, s => ([], .ok s)
  | n + 1, t, s =>
    if Stops (TeamNode.trim (replies t)) then ([], .ok s)
    else
      match findMember T.members (TeamNode.trim (replies t)) with
      | none =>
        let note := moderatorNote (s.readStringField A T.moderator.inputField) (TeamNode.trim (replies t))
        let rest := prescribedFrom A T replies n (t + 1) (s.writeStringField A T.moderator.inputField note)
        (.noted (TeamNode.trim (replies t)) s :: rest.1, rest.2)
      | some m =>
        match m.run t s with
        | .error x => ([.ran m.id s], .error x)
        | .ok s' =>
          let rest := prescribedFrom A T replies n (t + 1) s'
          (.ran m.id s :: rest.1, rest.2)

def prescribed (A : FieldAccess L) (T : TeamNode L) (replies : ℕ → String) (s : State L) :
    List (SelectEvent L) × Except L.Exception (State L) :=
  prescribedFrom A T replies T.maxTurns.toNat 0 s

/-- Turns in which the moderator responds and the token does not fire. -/
def responding (responses : ℕ → String) (t : ℕ) : ModeratorTurn L where
  answer _ := .response (responses t)

/-- The node does what the replies ask for, and returns what is left then. -/
def FollowsModerator (A : FieldAccess L) (C : Codec) (T : TeamNode L) (responses : ℕ → String) (s : State L) : Prop :=
  runLlmSelect A C T (responding responses) s = prescribed A T (fun t => replyText C (responses t)) s

/-- The state is a message, compiled or dynamic, with a field of string type. -/
def HasText (A : FieldAccess L) (s : State L) (f : String) : Prop :=
  ∃ m, s.unsafeMessage = some m ∧ A.isStringField m.descriptor f

/-! ### Messages -/

section

variable {A : FieldAccess L} {s : State L} {f v : String}

/-- On a message the functions of the nodes are those of the state. -/
theorem TeamNode.readStringField_of_message {m : Message L} (h : s.unsafeMessage = some m) :
    TeamNode.readStringField A s f = s.readStringField A f := by
  obtain ⟨pool, backing⟩ := s
  cases backing with
  | json j => cases h
  | proto p =>
    obtain rfl : p = some m := h
    rw [TeamNode.readStringField]
    split_ifs with hf
    · simp [State.readStringField, FieldAccess.readProtoField, hf, A.isStringField_empty]
    · rfl

theorem TeamNode.writeStringField_of_message {m : Message L} (h : s.unsafeMessage = some m) :
    TeamNode.writeStringField A s f v = s.writeStringField A f v := by
  obtain ⟨pool, backing⟩ := s
  cases backing with
  | json j => cases h
  | proto p =>
    obtain rfl : p = some m := h
    rw [TeamNode.writeStringField]
    split_ifs with hf
    · simp [State.writeStringField, FieldAccess.writeProtoField, hf, A.isStringField_empty]
    · rfl

/-- Writing keeps the message and its type. -/
theorem LlmNode.writeField_message :
    (LlmNode.writeField A s f v).unsafeMessage = s.unsafeMessage.map fun m => A.writeProtoField m f v := by
  rw [LlmNode.writeField]
  cases h : s.unsafeMessage with
  | none => exact h
  | some m => rfl

theorem TeamNode.writeStringField_message : (TeamNode.writeStringField A s f v).unsafeMessage =
    s.unsafeMessage.map fun m => A.writeProtoField m f v := by
  rw [TeamNode.writeStringField]
  split_ifs with hf
  · cases h : s.unsafeMessage with
    | none => rfl
    | some m => simp [FieldAccess.writeProtoField, hf, A.isStringField_empty]
  · exact LlmNode.writeField_message

theorem FieldAccess.descriptor_writeProtoField (A : FieldAccess L) (m : Message L) (f v : String) :
    (A.writeProtoField m f v).descriptor = m.descriptor := by
  rw [writeProtoField]
  split_ifs <;> rfl

/-- A clone has the message that was cloned. -/
theorem State.unsafeMessage_clone (s : State L) : s.clone.unsafeMessage = s.unsafeMessage := by
  obtain ⟨pool, backing⟩ := s
  cases backing with
  | proto p => rfl
  | json j => cases j <;> rfl

/-- What is read in the output field after the moderator has written a reply. -/
theorem read_reply (s : State L) (f prompt g reply : String) :
    (HasText A s g → TeamNode.readStringField A
      (LlmNode.writeField A (TeamNode.writeStringField A s.clone f prompt) g reply) g = reply) ∧
    (¬ HasText A s g → TeamNode.readStringField A
      (LlmNode.writeField A (TeamNode.writeStringField A s.clone f prompt) g reply) g = "") := by
  have hmessage : (LlmNode.writeField A (TeamNode.writeStringField A s.clone f prompt) g reply).unsafeMessage =
      s.unsafeMessage.map fun m => A.writeProtoField (A.writeProtoField m f prompt) g reply := by
    rw [LlmNode.writeField_message, TeamNode.writeStringField_message, State.unsafeMessage_clone, Option.map_map]
    rfl
  constructor
  · rintro ⟨m, hm, hg⟩
    have hne : g ≠ "" := by
      rintro rfl
      rw [A.isStringField_empty] at hg
      cases hg
    rw [hm, Option.map_some] at hmessage
    have hg' : A.isStringField (A.writeProtoField m f prompt).descriptor g := by
      rwa [A.descriptor_writeProtoField]
    rw [TeamNode.readStringField, if_neg hne, LlmNode.readField, hmessage]
    simp only [FieldAccess.readProtoField, A.descriptor_writeProtoField, hg]
    rw [FieldAccess.writeProtoField, if_pos hg']
    exact A.getString_setString _ _ _ _ hg
  · intro hno
    rw [TeamNode.readStringField, LlmNode.readField, hmessage]
    split_ifs
    · rfl
    · cases hm : s.unsafeMessage with
      | none => rfl
      | some m =>
        have hg : ¬ A.isStringField m.descriptor g := fun hg => hno ⟨m, hm, hg⟩
        simp [FieldAccess.readProtoField, A.descriptor_writeProtoField, hg]

end

/-! ### What the node does -/

section

variable {A : FieldAccess L} {C : Codec} {T : TeamNode L} {responses : ℕ → String} {n t : ℕ} {s : State L}

/-- The same event before what is left of two loops. -/
theorem cons_event_inj {e : SelectEvent L} {p q : List (SelectEvent L) × Except L.Exception (State L)} :
    (e :: p.1, p.2) = (e :: q.1, q.2) ↔ p = q := by
  rw [Prod.mk.injEq, List.cons.injEq, Prod.ext_iff]
  simp

theorem stops_nothing : Stops (TeamNode.trim "") := Or.inl (by decide)

/-- A reply that stops ends the loop, whether it can be read or not. -/
theorem selectFrom_of_stops (h : Stops (TeamNode.trim (replyText C (responses t)))) :
    selectFrom A C T (responding responses) (n + 1) t s = ([], .ok s) := by
  have hread := read_reply (A := A) s T.moderator.inputField (moderatorPrompt T.members) T.moderator.outputField
    (replyText C (responses t))
  simp only [selectFrom, responding, LlmNode.run, Bool.false_eq_true, if_false]
  by_cases htext : HasText A s T.moderator.outputField
  · rw [hread.1 htext, if_pos h]
  · rw [hread.2 htext, if_pos stops_nothing]

/-- A reply that cannot be read ends it too. -/
theorem selectFrom_of_not_hasText (h : ¬ HasText A s T.moderator.outputField) :
    selectFrom A C T (responding responses) (n + 1) t s = ([], .ok s) := by
  have hread := read_reply (A := A) s T.moderator.inputField (moderatorPrompt T.members) T.moderator.outputField
    (replyText C (responses t))
  simp only [selectFrom, responding, LlmNode.run, Bool.false_eq_true, if_false]
  rw [hread.2 h, if_pos stops_nothing]

/-- **When the replies are followed**, by induction on the turns: when each can be read. -/
theorem selectFrom_eq_iff :
    selectFrom A C T (responding responses) n t s =
        prescribedFrom A T (fun t => replyText C (responses t)) n t s ↔
      ∀ e ∈ (prescribedFrom A T (fun t => replyText C (responses t)) n t s).1,
        HasText A e.state T.moderator.outputField := by
  induction n generalizing t s with
  | zero => simp [selectFrom, prescribedFrom]
  | succ n ih =>
    by_cases hstops : Stops (TeamNode.trim (replyText C (responses t)))
    · rw [selectFrom_of_stops hstops, prescribedFrom, if_pos hstops]
      simp
    have hread := read_reply (A := A) s T.moderator.inputField (moderatorPrompt T.members) T.moderator.outputField
      (replyText C (responses t))
    cases hfound : findMember T.members (TeamNode.trim (replyText C (responses t))) with
    | none =>
      by_cases htext : HasText A s T.moderator.outputField
      · have hmessage := htext
        obtain ⟨m, hm, -⟩ := hmessage
        simp only [selectFrom, prescribedFrom, responding, LlmNode.run, Bool.false_eq_true, if_false,
          hread.1 htext, hstops, hfound, TeamNode.readStringField_of_message hm,
          TeamNode.writeStringField_of_message hm, List.forall_mem_cons, SelectEvent.state_noted, htext, true_and]
        exact cons_event_inj.trans ih
      · rw [selectFrom_of_not_hasText htext]
        simp [prescribedFrom, hstops, hfound, htext]
    | some member =>
      by_cases htext : HasText A s T.moderator.outputField
      · cases hrun : member.run t s with
        | error x =>
          simp [selectFrom, prescribedFrom, responding, LlmNode.run, hread.1 htext, hstops, hfound, hrun, htext]
        | ok s' =>
          simp only [selectFrom, prescribedFrom, responding, LlmNode.run, Bool.false_eq_true, if_false,
            hread.1 htext, hstops, hfound, hrun, List.forall_mem_cons, SelectEvent.state_ran, htext, true_and]
          exact cons_event_inj.trans ih
      · rw [selectFrom_of_not_hasText htext]
        cases hrun : member.run t s <;>
          simp [prescribedFrom, hstops, hfound, hrun, htext]

end

/-- **When a team follows its moderator**: when each state in which a reply
names something is a message with the output field. -/
theorem followsModerator_iff (A : FieldAccess L) (C : Codec) (T : TeamNode L) (responses : ℕ → String) (s : State L) :
    FollowsModerator A C T responses s ↔ ∀ e ∈ (prescribed A T (fun t => replyText C (responses t)) s).1,
      HasText A e.state T.moderator.outputField :=
  selectFrom_eq_iff

/-- A team of one, whose moderator has two fields. -/
def soloTeam : TeamNode Libs.named where
  members := [⟨"writer", "agent", fun _ s => .ok s⟩]
  moderator := { inputField := "question", outputField := "answer" }

/-- On a document that has both fields the member is not run. -/
theorem not_followsModerator_json : ¬ FollowsModerator .named (.ofTable []) soloTeam
    (fun t => if t = 0 then "writer" else "done")
    (.fromJson (.obj [("question", .str "Who?"), ("answer", .str "")])) := by
  intro h
  have hlength := congrArg (fun r => r.1.length) h
  revert hlength
  decide +kernel

end AgentFlow
