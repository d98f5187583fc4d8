/-
# An agent node on the on-device engine

`AgentNode::Run` over a conversation of the on-device engine: the node goes
on (`Choice.node`), the conversation does (`Choice.conversation`), and the
token fires at any moment. Cancelling the conversation, which firing the
token leads to, is two steps of the conversation that may come at any time.

A `Cancelled` from `SendAsync` ends the loop of the node, and any other
status is an exception, which the runner records as a failure. So the node
returns as long as the conversation is calm (`OnDevice.fine`), and a node
that returns under a token that has fired is recorded as cancelled
(`nodeEnd_cancelled`).

Key definitions: `OnDevice`, `OnDevice.step`, `OnDevice.Orderly`,
`OnDevice.outcome`.
Key theorems: `OnDevice.fine_step`, `OnDevice.cancelled_not_failed`.
-/
import AgentFlow.Core.Effects
import AgentFlow.Inference.LiteRt.Interrupt
import AgentFlow.Nodes.AgentNode

namespace AgentFlow.AgentNode

open LiteRt (Conversation Settings Result)
open Stepping (Run)

/-- A run of the node: its coroutine, its conversation and its token. -/
structure OnDevice where
  node : Pc
  conversation : Conversation
  fired : Bool
  deriving DecidableEq, Repr

namespace OnDevice

def start : OnDevice := ⟨.start, .fresh, false⟩

/-- What may happen next. -/
inductive Choice
  /-- The token fires. -/
  | fire
  /-- The conversation, its engine or its call goes on. -/
  | conversation (choice : Conversation.Choice)
  /-- The node goes on; the results of the tools if it waits for them. -/
  | node (results : List (Option String))
  deriving DecidableEq, Repr

/-- The node goes on with what `SendAsync` returned. -/
def sent (B : Settings) (iter : ℕ) : Result → Pc
  | .ok json => Pc.responded B.codec iter json
  | .error e => Pc.failed e
  | .thrown => .threw none

def nodeStep (B : Settings) (N : Config) (results : List (Option String)) (s : OnDevice) : Option OnDevice :=
  match s.node with
  | .start => some { s with node := Pc.begin N s.fired }
  | .loop iter message => some { s with node := Pc.enter N iter message s.fired }
  | .send iter _ =>
    (Conversation.step B (.call s.fired) s.conversation).map fun conversation =>
      { s with conversation, node := .sending iter }
  | .sending iter =>
    match s.conversation.call with
    | some (.returned r) => some { s with node := sent B iter r }
    | _ => none
  | .tools iter calls =>
    if results.length = calls.length then some { s with node := Pc.collected B.codec iter calls results } else none
  | .finish finalAnswer => some { s with node := .returned (some (output s.fired finalAnswer)) }
  | .returned _ | .threw _ => none

/-- What a choice does, if it is possible. Only the node calls `SendAsync`. -/
def step (B : Settings) (N : Config) (choice : Choice) (s : OnDevice) : Option OnDevice :=
  match choice with
  | .fire => some { s with fired := true }
  | .conversation (.call _) => none
  | .conversation choice =>
    (Conversation.step B choice s.conversation).map fun conversation => { s with conversation }
  | .node results => s.nodeStep B N results

/-- The node can begin: it has its backend and, unless the token has fired,
its options, its conversation and its message. -/
def Ready (N : Config) (fired : Bool) : Prop :=
  N.backend = true ∧ (fired = true ∨ (∃ u, N.options = .ok u) ∧ N.created = true ∧ ∃ message, N.message = .ok message)

/-- The node begins with all it needs, and the conversation is orderly. -/
def Orderly (B : Settings) (N : Config) (s : OnDevice) : Choice → Prop
  | .fire => True
  | .conversation choice => s.conversation.Orderly B choice
  | .node _ => s.node = .start → Ready N s.fired

/-- How the node's `Run` ends, for the runner. -/
def outcome {L : Libs} (write : Option String → State L) (thrown : Option String → L.Exception) (s : OnDevice) :
    Option (Except L.Exception (State L)) :=
  match s.node with
  | .returned text => some (.ok (write text))
  | .threw what => some (.error (thrown what))
  | _ => none

/-- The conversation is calm, and the node has not thrown. -/
structure Fine (s : OnDevice) : Prop where
  calm : s.conversation.Calm
  node : ∀ what, s.node ≠ .threw what

theorem responded_ne_threw (C : Json.Codec) (iter : ℕ) (resp : String) (what : Option String) :
    Pc.responded C iter resp ≠ .threw what := by
  unfold Pc.responded
  cases next C resp <;> simp

theorem enter_ne_threw (N : Config) (iter : ℕ) (message : String) (fired : Bool) (what : Option String) :
    Pc.enter N iter message fired ≠ .threw what := by
  unfold Pc.enter
  split_ifs <;> simp

theorem begin_ne_threw {N : Config} {fired : Bool} (h : Ready N fired) (what : Option String) :
    Pc.begin N fired ≠ .threw what := by
  obtain ⟨hb, hf⟩ := h
  unfold Pc.begin
  simp only [hb, Bool.not_true, Bool.false_eq_true, if_false]
  rcases hf with rfl | ⟨⟨u, hu⟩, hc, message, hm⟩
  · simp
  · cases fired <;> simp [hu, hc, hm]

/-- A status that stopping a turn may lead to is no failure of the node. -/
theorem sent_ne_threw (B : Settings) (iter : ℕ) {r : Result} (h : r.OkOrCancelled) (what : Option String) :
    sent B iter r ≠ .threw what := by
  cases r with
  | ok json => exact responded_ne_threw B.codec iter json what
  | error e =>
    have he : e.code = .cancelled := h
    simp [sent, Pc.failed, he]
  | thrown => exact absurd h id

variable {B : Settings} {N : Config} {s s' : OnDevice}

theorem fine_start : start.Fine := ⟨Conversation.calm_fresh, by simp [start]⟩

theorem fine_node {results : List (Option String)} (h : s.Fine) (hr : s.node = .start → Ready N s.fired)
    (hs : s.nodeStep B N results = some s') : s'.Fine := by
  unfold nodeStep at hs
  split at hs
  · next hn =>
    cases hs
    exact ⟨h.calm, begin_ne_threw (hr hn)⟩
  · cases hs
    exact ⟨h.calm, enter_ne_threw _ _ _ _⟩
  · obtain ⟨c, hc, rfl⟩ := Option.map_eq_some_iff.mp hs
    have ho : s.conversation.Orderly B (.call s.fired) := trivial
    exact ⟨Conversation.calm_step h.calm ho hc, by simp⟩
  · split at hs
    · next r hr =>
      cases hs
      exact ⟨h.calm, sent_ne_threw B _ (h.calm.returned r hr)⟩
    · cases hs
  · split_ifs at hs
    cases hs
    exact ⟨h.calm, by simp [Pc.collected]⟩
  · cases hs
    exact ⟨h.calm, by simp⟩
  · cases hs
  · cases hs

theorem conversation_of_step {choice : Conversation.Choice} (hs : step B N (.conversation choice) s = some s') :
    ∃ c, Conversation.step B choice s.conversation = some c ∧ s' = { s with conversation := c } := by
  cases hc : Conversation.step B choice s.conversation with
  | none => cases choice <;> simp [step, hc] at hs
  | some c =>
    refine ⟨c, rfl, ?_⟩
    cases choice <;> simp [step, hc] at hs <;> exact hs.symm

theorem fine_step {choice : Choice} (h : s.Fine) (ho : s.Orderly B N choice) (hs : step B N choice s = some s') :
    s'.Fine := by
  cases choice with
  | fire =>
    cases hs
    exact ⟨h.calm, h.node⟩
  | node results => exact fine_node h ho hs
  | conversation choice =>
    obtain ⟨c, hc, rfl⟩ := conversation_of_step hs
    exact ⟨Conversation.calm_step h.calm ho hc, h.node⟩

theorem fine {choices : List Choice} (h : Run (step B N) (Orderly B N) start choices s) : s.Fine :=
  h.invariant (fun _ _ _ hx hok hs => fine_step hx hok hs) fine_start

/-- A node that returns under a token that has fired is recorded as
cancelled, and nothing follows. -/
theorem nodeEnd_cancelled {L : Libs} (S : Setup) (loop : Loop) {x y : Exec L} {k : ℕ} {task : Task L} {out : State L}
    {cut : Option CancelPoint} (hc : x.cancelled = true) (hk : x.running[k]? = some task)
    (hs : AgentFlow.step S loop (.finish k (.ok out) cut) x = some y) :
    y.log = x.log ++ [.output task.node out, .nodeEnd task.node true false] := by
  simp only [AgentFlow.step, hk] at hs
  split_ifs at hs
  cases hs
  rw [complete_log]
  simp [completionEvents, completionTail, hc, resultEvent, isFailed]

/-- As long as the channel is closed on no call whose end of turn is still to
come, what a call returns is OK or cancelled, and a call whose channel is
closed is not left waiting. A node that makes the calls does not throw; if
its token has fired the runner records it as cancelled and not as failed. -/
theorem cancelled_not_failed (B : Settings) (N : Config) {L : Libs} (write : Option String → State L)
    (thrown : Option String → L.Exception) (S : Setup) (loop : Loop) :
    (∀ choices c, Run (Conversation.step B) (Conversation.Orderly B) .fresh choices c →
      (∀ r, c.call = some (.returned r) → r.OkOrCancelled) ∧
      (c.channel.closed = true → c.AtRest B → ¬ c.Awake)) ∧
    (∀ choices s, Run (step B N) (Orderly B N) start choices s →
      (∀ what, s.node ≠ .threw what) ∧
      ∀ (x y : Exec L) k task cut res, s.outcome write thrown = some res → s.fired = true → x.cancelled = s.fired →
        x.running[k]? = some task → AgentFlow.step S loop (.finish k res cut) x = some y →
        ∃ out, y.log = x.log ++ [.output task.node out, .nodeEnd task.node true false]) := by
  refine ⟨fun choices c h => ⟨(Conversation.calm h).returned, (Conversation.calm h).not_waiting⟩,
    fun choices s h => ⟨(fine h).node, ?_⟩⟩
  intro x y k task cut res hres hfired hx hk hs
  have hnode := (fine h).node
  unfold outcome at hres
  split at hres
  · cases hres
    exact ⟨_, nodeEnd_cancelled S loop (hx.trans hfired) hk hs⟩
  · next what hn => exact absurd hn (hnode what)
  · cases hres

/-- A node that has all it needs. -/
def ready : Config := ⟨true, .ok (), true, .ok "hi", 8⟩

/-- The token fires when the engine has sent everything. -/
def lateChoices : List Choice :=
  [.node [], .node [], .node [], .conversation (.slot (.value ()) true none),
    .conversation (.callback (.chunk "Hello" true)), .conversation .handle, .fire, .conversation .mark,
    .conversation .close, .conversation .resume, .conversation (.sunk false), .conversation .resume, .node [],
    .node []]

def orderly (s : OnDevice) : Choice → Bool
  | .conversation .close => !decide s.conversation.Awake || LiteRt.ends s.conversation.awaited
  | .conversation (.slot (.value ()) true _) => !LiteRt.fails s.conversation.awaited
  | .conversation (.sunk threw) => !threw
  | .conversation .handle => s.conversation.posted.head? != some .error
  | .conversation (.slot _ _ _) => false
  | _ => true

theorem orderly_iff {choice : Choice} (h : s.orderly choice = true) :
    s.Orderly LiteRt.Conversation.plain ready choice := by
  unfold orderly at h
  split at h
  · intro hawake
    simpa [hawake] using h
  · simpa [Orderly, Conversation.Orderly, LiteRt.Pc.streams, LiteRt.Conversation.plain] using h
  · simpa [Orderly, Conversation.Orderly] using h
  · intro hp
    rw [hp] at h
    cases h
  · cases h
  · cases choice with
    | fire => trivial
    | node results => exact fun _ => ⟨rfl, Or.inr ⟨⟨(), rfl⟩, rfl, "hi", rfl⟩⟩
    | conversation choice => cases choice <;> simp_all [Orderly, Conversation.Orderly]

theorem cancelled_not_failed_late :
    ∃ s, Run (step LiteRt.Conversation.plain ready) (Orderly LiteRt.Conversation.plain ready) start lateChoices s ∧
      s.fired = true ∧ s.node = .returned (some "Hello") ∧ ∀ what, s.node ≠ .threw what := by
  have h : (Stepping.check (step LiteRt.Conversation.plain ready) orderly lateChoices start).any
      (fun s => s.fired && s.node == .returned (some "Hello")) = true := by decide
  obtain ⟨s, hrun, hs⟩ := Run.exists_of_check (Orderly LiteRt.Conversation.plain ready) h fun _ _ => orderly_iff
  rw [Bool.and_eq_true, beq_iff_eq] at hs
  obtain ⟨hnode, -⟩ := (cancelled_not_failed LiteRt.Conversation.plain ready (fun _ => (State.null : State Libs.text))
    (fun what => what.getD "") (.plain .diamond) .run).2 lateChoices s hrun
  exact ⟨s, hrun, hs.1, hs.2, hnode⟩

/-- The token fires while the call waits for the first chunk. -/
def earlyChoices : List Choice :=
  [.node [], .node [], .node [], .conversation (.slot (.value ()) true none), .fire, .conversation .mark,
    .conversation .close, .conversation .resume, .node []]

/-- Then the call returns an internal error, and the node throws. -/
theorem not_cancelled_not_failed :
    ∃ s, Run (step LiteRt.Conversation.plain ready) (fun _ _ => True) start earlyChoices s ∧ s.fired = true ∧
      s.conversation.call = some (.returned (.error LiteRt.Pc.midDecodeError)) ∧
      s.node = .threw (some "AgentNode: backend send failed: litert-lm: streaming send failed mid-decode") := by
  have h : (Stepping.check (step LiteRt.Conversation.plain ready) (fun _ _ => true) earlyChoices start).any
      (fun s => s.fired && s.conversation.call == some (.returned (.error LiteRt.Pc.midDecodeError)) &&
        s.node == .threw (some "AgentNode: backend send failed: litert-lm: streaming send failed mid-decode")) =
        true := by decide
  obtain ⟨s, hrun, hs⟩ := Run.exists_of_check (fun _ _ => True) h fun _ _ _ => trivial
  rw [Bool.and_eq_true, Bool.and_eq_true, beq_iff_eq, beq_iff_eq] at hs
  exact ⟨s, hrun, hs.1.1, hs.1.2, hs.2⟩

end OnDevice

end AgentFlow.AgentNode
