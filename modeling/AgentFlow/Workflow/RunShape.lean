/-
# What a run of a sub-agent does

What `RunAsync` itself does before it returns or throws, case by case: the
checks that end it, the preparation, its turns with the model, and the
extraction of the answer (`Ran`); and so its turns (`Turned`). What the calls
that its tools make do is in the contract only.

Key definitions: `Turned`, `Prepared`, `Ran`, `freely`.
Key theorems: `wp_turns`, `wp_runAsync`, `ran_of_runs`, `Turned.outline`,
`Turned.last_response`.
-/
import AgentFlow.Workflow.ToolCalls

namespace AgentFlow.Workflow

open Json
open Coroutine (wp wp_bind wp_mono afterwards)

namespace SubAgentRuntime

/-- The contract of runs of which nothing is asked but what they give. -/
def freely (gives : RunArgs → Hist → Except Thrown Value → Prop) : Contract effects where
  calls _ := True
  allows _ _ _ := True
  gives := gives

/-! ### Turns -/

/-- The turn's message is sent, and `r` comes back. -/
def sent (message : String) (ctx : SubAgentContext) (r : Except Thrown (Except Status.Error String)) : Item effects :=
  .did (.send message ctx.tokenChannel) r

/-- What some turns do, with the last response before them, and how they end. -/
inductive Turned (K : Contract effects) (H : Host) (ctx : SubAgentContext) :
    ℕ → String → Hist → Except Thrown (Except ErrorKind String) → Prop
  /-- No turn is left. -/
  | spent (raw : String) : Turned K H ctx 0 raw [] (.ok (.ok raw))
  | cancelled {n : ℕ} (raw : String) {l : Hist} (hl : Polled ctx l true) :
      Turned K H ctx (n + 1) raw l (.ok (.error .cancelled))
  | thrown {n : ℕ} (raw : String) {l : Hist} (hl : Polled ctx l false) (message : String) (x : Thrown) :
      Turned K H ctx (n + 1) raw (l ++ [sent message ctx (.error x)]) (.error x)
  | failed {n : ℕ} (raw : String) {l : Hist} (hl : Polled ctx l false) (message : String) (e : Status.Error) :
      Turned K H ctx (n + 1) raw (l ++ [sent message ctx (.ok (.error e))]) (.ok (.error .engineError))
  | answered {n : ℕ} (raw : String) {l : Hist} (hl : Polled ctx l false) (message : String) {response : String}
      (ha : asked H.ordered response = none) :
      Turned K H ctx (n + 1) raw (l ++ [sent message ctx (.ok (.ok response))]) (.ok (.ok response))
  /-- A tool call throws what is no standard exception. -/
  | broken {n : ℕ} (raw : String) {l : Hist} (hl : Polled ctx l false) (message : String) {response : String}
      {calls : List Call} (ha : asked H.ordered response = some calls) {tools : Hist} (ht : ToolItems K tools)
      {x : Thrown} (hx : x.what? = none) (hr : Raises tools (.error x : Except Thrown Unit)) :
      Turned K H ctx (n + 1) raw (l ++ sent message ctx (.ok (.ok response)) :: tools) (.error x)
  | again {n : ℕ} (raw : String) {l : Hist} (hl : Polled ctx l false) (message : String) {response : String}
      {calls : List Call} (ha : asked H.ordered response = some calls) {tools rest : Hist} (ht : ToolItems K tools)
      (hr : Raises tools (.ok () : Except Thrown Unit)) {r : Except Thrown (Except ErrorKind String)}
      (h : Turned K H ctx n response rest r) :
      Turned K H ctx (n + 1) raw (l ++ sent message ctx (.ok (.ok response)) :: (tools ++ rest)) r

variable {K : Contract effects} {H : Host} {c : RunArgs} {child : AgentDef} {rootId : String}

theorem wp_turns (hK : ∀ c, K.calls c) {ctx : SubAgentContext} {view : InvocationToolView} :
    ∀ (n : ℕ) (message raw : String) (h : Hist), (turns H view ctx n message raw).wp K (fun _ _ => True)
      (fun h' r => ∃ l, h' = h ++ l ∧ Turned K H ctx n raw l r) h
  | 0, message, raw, h => ⟨[], by simp, .spent raw⟩
  | n + 1, message, raw, h => by
    refine wp_turns_succ trivial (fun l hl => ⟨l, rfl, .cancelled raw hl⟩) (fun _ _ => trivial)
      (fun l x hl => ⟨_, List.append_assoc .., .thrown raw hl message x⟩)
      (fun l e hl => ⟨_, List.append_assoc .., .failed raw hl message e⟩)
      (fun l response hl ha => ⟨_, List.append_assoc .., .answered raw hl message ha⟩)
      fun l response calls hl ha => ?_
    rw [wp_bind]
    have key : ∀ h : Hist, (callTools H view (cancelRef ctx) calls).wp K (fun _ _ => True)
        (fun h' r => ∃ tools, h' = h ++ tools ∧ ToolItems K tools ∧ Raises tools r ∧ Escapes r) h := by
      intro h
      have hcalls : (callTools H view (cancelRef ctx) calls).wp K (fun _ _ => True)
          (fun h' r => ∃ tools, h' = h ++ tools ∧ ToolItems K tools ∧ Raises tools r ∧ Escapes r) (h ++ []) :=
        wp_callTools (fun _ _ _ _ => trivial) (fun _ _ _ _ _ _ _ => ⟨trivial, hK _⟩) calls toolItems_nil
          (fun _ _ _ _ _ _ _ _ _ _ => trivial)
          fun tools r ht hr hx => ⟨tools, by rw [List.append_nil], ht, hr, hx⟩
      rwa [List.append_nil] at hcalls
    refine wp_mono (fun h' r hp => ?_) (key _)
    obtain ⟨tools, rfl, ht, hr, hx⟩ := hp
    cases r with
    | error x =>
      exact ⟨_, by rw [List.append_assoc, List.append_assoc]; rfl, .broken raw hl message ha ht (hx x rfl) hr.error⟩
    | ok results =>
      refine wp_mono (fun h' r hp => ?_) (wp_turns hK n _ _ _)
      obtain ⟨rest, rfl, hrest⟩ := hp
      refine ⟨_, ?_, .again raw hl message ha ht (hr.ok ()) hrest⟩
      simp [sent, List.append_assoc]

/-! ### Responses and spans -/

theorem Polled.outline {ctx : SubAgentContext} {l : Hist} {b : Bool} (hl : Polled ctx l b) : outline l = [] := by
  rcases hl with ⟨-, rfl⟩ | ⟨-, rfl, -⟩
  · rfl
  · rfl

namespace Turned

variable {ctx : SubAgentContext} {n : ℕ} {raw : String} {l : Hist} {r : Except Thrown (Except ErrorKind String)}

theorem outline (h : Turned K H ctx n raw l r) : ∃ n, outline l = List.replicate n .nested := by
  induction h with
  | spent => exact ⟨0, rfl⟩
  | cancelled _ hl => exact ⟨0, hl.outline⟩
  | thrown _ hl | failed _ hl | answered _ hl => exact ⟨0, by rw [outline_append, hl.outline]; rfl⟩
  | broken _ hl _ _ ht =>
    obtain ⟨n, hn⟩ := ht.outline
    refine ⟨n, ?_⟩
    rw [outline_append, hl.outline, ← hn]
    rfl
  | again _ hl _ _ ht _ _ ih =>
    obtain ⟨n, hn⟩ := ht.outline
    obtain ⟨m, hm⟩ := ih
    refine ⟨n + m, ?_⟩
    rw [outline_append, hl.outline, List.replicate_add, ← hn, ← hm, ← outline_append]
    rfl

/-- What is done in some turns: polls, sends and tool calls. -/
theorem mem (h : Turned K H ctx n raw l r) :
    ∀ i ∈ l, i.deed = .effect .isCancelled ∨ (∃ message q, i = sent message ctx q) ∨ ToolItem K i := by
  induction h with
  | spent => simp
  | cancelled _ hl => exact fun i hi => Or.inl (hl.polls i hi)
  | thrown _ hl message x =>
    intro i hi
    rcases List.mem_append.mp hi with hi | hi
    · exact Or.inl (hl.polls i hi)
    · exact Or.inr (Or.inl ⟨_, _, List.mem_singleton.mp hi⟩)
  | failed _ hl message e =>
    intro i hi
    rcases List.mem_append.mp hi with hi | hi
    · exact Or.inl (hl.polls i hi)
    · exact Or.inr (Or.inl ⟨_, _, List.mem_singleton.mp hi⟩)
  | answered _ hl message =>
    intro i hi
    rcases List.mem_append.mp hi with hi | hi
    · exact Or.inl (hl.polls i hi)
    · exact Or.inr (Or.inl ⟨_, _, List.mem_singleton.mp hi⟩)
  | broken _ hl message _ ht =>
    intro i hi
    rcases List.mem_append.mp hi with hi | hi
    · exact Or.inl (hl.polls i hi)
    rcases List.mem_cons.mp hi with hi | hi
    · exact Or.inr (Or.inl ⟨_, _, hi⟩)
    · exact Or.inr (Or.inr (ht i hi))
  | again _ hl message _ ht _ _ ih =>
    intro i hi
    rcases List.mem_append.mp hi with hi | hi
    · exact Or.inl (hl.polls i hi)
    rcases List.mem_cons.mp hi with hi | hi
    · exact Or.inr (Or.inl ⟨_, _, hi⟩)
    rcases List.mem_append.mp hi with hi | hi
    · exact Or.inr (Or.inr (ht i hi))
    · exact ih i hi

/-- The responses of a turn with tool calls, and of the turns after it. -/
theorem responses_again {l tools rest : Hist} {message response : String} (hl : Polled ctx l false)
    (ht : ToolItems K tools) : responses (l ++ sent message ctx (.ok (.ok response)) :: (tools ++ rest)) =
      response :: responses rest := by
  rw [responses_append, hl.polls.responses, List.nil_append]
  change response :: responses (tools ++ rest) = _
  rw [responses_append, ht.responses, List.nil_append]

theorem responses_answered {l : Hist} {message response : String} (hl : Polled ctx l false) :
    responses (l ++ [sent message ctx (.ok (.ok response))]) = [response] := by
  rw [responses_append, hl.polls.responses]
  rfl

/-- A turn has at most one response. -/
theorem length_responses_le (h : Turned K H ctx n raw l r) : (responses l).length ≤ n := by
  induction h with
  | spent => exact le_rfl
  | cancelled _ hl => simp [hl.polls.responses]
  | thrown _ hl | failed _ hl =>
    rw [responses_append, hl.polls.responses]
    exact Nat.zero_le _
  | answered _ hl => simp [responses_answered hl]
  | @broken n _ _ hl message response _ _ tools ht =>
    rw [← List.append_nil tools, responses_again hl ht]
    exact Nat.succ_le_succ (Nat.zero_le _)
  | again _ hl _ _ ht _ _ ih =>
    rw [responses_again hl ht, List.length_cons]
    exact Nat.succ_le_succ ih

/-- An error ends the turns before they are used up. -/
theorem length_responses_lt {kind : ErrorKind} (h : Turned K H ctx n raw l (.ok (.error kind))) :
    (responses l).length < n := by
  generalize hr : (.ok (.error kind) : Except Thrown (Except ErrorKind String)) = r at h
  induction h with
  | spent | thrown | answered | broken => cases hr
  | cancelled _ hl => simp [hl.polls.responses]
  | failed _ hl =>
    rw [responses_append, hl.polls.responses]
    exact Nat.zero_lt_succ _
  | again _ hl _ _ ht _ _ ih =>
    rw [responses_again hl ht, List.length_cons]
    exact Nat.succ_lt_succ (ih hr)

/-- What is returned is the last response: it asks for nothing, or no turn is
left. -/
theorem last_response {answer : String} (h : Turned K H ctx n raw l (.ok (.ok answer))) :
    (responses l).getLast?.getD raw = answer ∧
      ((responses l).length = n ∨ responses l ≠ [] ∧ asked H.ordered answer = none) := by
  generalize hr : (.ok (.ok answer) : Except Thrown (Except ErrorKind String)) = r at h
  induction h with
  | cancelled | thrown | failed | broken => cases hr
  | spent =>
    cases hr
    exact ⟨rfl, Or.inl rfl⟩
  | answered _ hl _ ha =>
    cases hr
    rw [responses_answered hl]
    exact ⟨rfl, Or.inr ⟨by simp, ha⟩⟩
  | again _ hl _ _ ht _ _ ih =>
    obtain ⟨hlast, hend⟩ := ih hr
    rw [responses_again hl ht, List.getLast?_cons, Option.getD_some, List.length_cons]
    refine ⟨hlast, hend.imp (congrArg Nat.succ) fun h => ⟨by simp, h.2⟩⟩

end Turned

/-! ### The run -/

def started (c : RunArgs) (id : String) : Item effects :=
  .did (.subAgentStart c.parent c.child id (rootOf c id) c.ctx.depth c.goal) ()

def ended (c : RunArgs) (id : String) (success : Bool) (errorKind : String) (bytes : ℕ) : Item effects :=
  .did (.subAgentEnd id c.ctx.depth success errorKind bytes) ()

def failedWith (c : RunArgs) (id : String) (kind : ErrorKind) : Item effects := ended c id false kind.text 0

def drawn (id : String) : Item effects := .did .uuid id

def errorValue (kind : ErrorKind) (more : List (String × Value)) : Value := .obj (("error", .str kind.text) :: more)

def succeeded (c : RunArgs) (id text : String) : Item effects := ended c id true "" (text.utf8ByteSize % 2 ^ 32)

/-- The call has passed its checks, and the prompt was evaluated. -/
structure Prepared (H : Host) (c : RunArgs) (d : DelegateSpec) (child : AgentDef) (system : String) (clock : Hist) :
    Prop where
  admitted : admission H.workflow c = .admitted d
  declared : H.workflow.findAgent c.child = some child
  prompt : (child.systemPrompt = "" ∧ system = "" ∧ clock = []) ∨
    ∃ template time, child.systemPrompt ≠ "" ∧ TemplateString.parse child.systemPrompt = .ok template ∧
      system = promptText H.ordered (template.evaluate H.ordered
        { workflowName := H.workflow.name, workflowVersion := H.workflow.version, now := time }) ∧
      clock = [.did .now time]

/-- What is done before the tools are exported. -/
theorem Prepared.mem {d : DelegateSpec} {system id : String} {clock rest : Hist} (h : Prepared H c d child system clock)
    {i : Item effects} (hi : i ∈ drawn id :: started c id :: clock ++ rest) :
    (i = drawn id ∨ i = started c id ∨ ∃ time, i = .did .now time) ∨ i ∈ rest := by
  rcases List.mem_append.mp hi with hi | hi
  · left
    rcases List.mem_cons.mp hi with hi | hi
    · exact Or.inl hi
    rcases List.mem_cons.mp hi with hi | hi
    · exact Or.inr (Or.inl hi)
    rcases h.prompt with ⟨-, -, rfl⟩ | ⟨_, time, -, -, -, rfl⟩
    · cases hi
    · exact Or.inr (Or.inr ⟨time, List.mem_singleton.mp hi⟩)
  · exact Or.inr hi

theorem Prepared.parses {d : DelegateSpec} {system : String} {clock : Hist} (h : Prepared H c d child system clock) :
    child.systemPrompt = "" ∨ ∃ template, TemplateString.parse child.systemPrompt = .ok template :=
  h.prompt.imp And.left fun ⟨template, _, _, hparse, _⟩ => ⟨template, hparse⟩

/-- The conversation factory was asked. -/
def asking (H : Host) (c : RunArgs) (child : AgentDef) (system tools : String) (r : Except Thrown Bool) :
    Item effects :=
  .did (.createConversation child.model.backend c.child (conversationOptions H child system tools)) r

/-- What a run does, and how it ends. -/
inductive Ran (K : Contract effects) (H : Host) (c : RunArgs) : Hist → Except Thrown Value → Prop
  | unknownAgent (id : String) (ha : admission H.workflow c = .unknownAgent) :
      Ran K H c [drawn id, failedWith c id .unknownAgent] (.ok (errorValue .unknownAgent []))
  | maxDepthExceeded (id : String) (ha : admission H.workflow c = .maxDepthExceeded) :
      Ran K H c [drawn id, started c id, failedWith c id .maxDepthExceeded]
        (.ok (errorValue .maxDepthExceeded [("depth", .int c.ctx.depth)]))
  | badTemplate (id : String) {d : DelegateSpec} {child : AgentDef} {e : String}
      (ha : admission H.workflow c = .admitted d) (hc : H.workflow.findAgent c.child = some child)
      (hp : child.systemPrompt ≠ "") (he : TemplateString.parse child.systemPrompt = .error e) :
      Ran K H c [drawn id, started c id, failedWith c id .badTemplate] (.ok (errorValue .badTemplate []))
  | unexported (id : String) {d : DelegateSpec} {child : AgentDef} {system : String} {clock : Hist} {x : Thrown}
      (hp : Prepared H c d child system clock) (hx : (toolView H c child (rootOf c id)).exportToolsJson H = .error x) :
      Ran K H c (drawn id :: started c id :: clock) (.error x)
  | unknownBackend (id : String) {d : DelegateSpec} {child : AgentDef} {system tools : String} {clock : Hist}
      (hp : Prepared H c d child system clock) (ht : (toolView H c child (rootOf c id)).exportToolsJson H = .ok tools)
      (what : String) : Ran K H c (drawn id :: started c id :: clock ++
        [asking H c child system tools (.error (.agentflow what)), failedWith c id .unknownBackend])
        (.ok (errorValue .unknownBackend [("backend", .str child.model.backend)]))
  | uncreated (id : String) {d : DelegateSpec} {child : AgentDef} {system tools : String} {clock : Hist}
      (hp : Prepared H c d child system clock) (ht : (toolView H c child (rootOf c id)).exportToolsJson H = .ok tools)
      {x : Thrown} (hx : ∀ what, x ≠ .agentflow what) : Ran K H c (drawn id :: started c id :: clock ++
        [asking H c child system tools (.error x)]) (.error x)
  | noConversation (id : String) {d : DelegateSpec} {child : AgentDef} {system tools : String} {clock : Hist}
      (hp : Prepared H c d child system clock)
      (ht : (toolView H c child (rootOf c id)).exportToolsJson H = .ok tools) : Ran K H c
        (drawn id :: started c id :: clock ++
          [asking H c child system tools (.ok false), failedWith c id .engineError])
        (.ok (errorValue .engineError []))
  | thrown (id : String) {d : DelegateSpec} {child : AgentDef} {system tools : String} {clock l : Hist} {x : Thrown}
      (hp : Prepared H c d child system clock) (ht : (toolView H c child (rootOf c id)).exportToolsJson H = .ok tools)
      (hl : Turned K H c.ctx kSubAgentMaxIter "" l (.error x)) : Ran K H c
        (drawn id :: started c id :: clock ++ asking H c child system tools (.ok true) :: l) (.error x)
  | failed (id : String) {d : DelegateSpec} {child : AgentDef} {system tools : String} {clock l : Hist}
      {kind : ErrorKind} (hp : Prepared H c d child system clock)
      (ht : (toolView H c child (rootOf c id)).exportToolsJson H = .ok tools)
      (hl : Turned K H c.ctx kSubAgentMaxIter "" l (.ok (.error kind))) : Ran K H c
        (drawn id :: started c id :: clock ++
          asking H c child system tools (.ok true) :: (l ++ [failedWith c id kind]))
        (.ok (errorValue kind []))
  | extracted (id : String) {d : DelegateSpec} {child : AgentDef} {system tools raw text : String} {clock l : Hist}
      (hp : Prepared H c d child system clock) (ht : (toolView H c child (rootOf c id)).exportToolsJson H = .ok tools)
      (hl : Turned K H c.ctx kSubAgentMaxIter "" l (.ok (.ok raw)))
      (hx : SubAgentRuntime.extracted H.ordered (extractPath d) raw = some text) : Ran K H c
        (drawn id :: started c id :: clock ++ asking H c child system tools (.ok true) :: (l ++ [succeeded c id text]))
        (.ok (.str text))
  | unextracted (id : String) {d : DelegateSpec} {child : AgentDef} {system tools raw : String} {clock l : Hist}
      (hp : Prepared H c d child system clock) (ht : (toolView H c child (rootOf c id)).exportToolsJson H = .ok tools)
      (hl : Turned K H c.ctx kSubAgentMaxIter "" l (.ok (.ok raw)))
      (hx : SubAgentRuntime.extracted H.ordered (extractPath d) raw = none) : Ran K H c
        (drawn id :: started c id :: clock ++ asking H c child system tools (.ok true) ::
          (l ++ [.did (.subAgentExtractFailed id (extractPath d)) (), succeeded c id raw]))
        (.ok (.str raw))

theorem wp_start (hK : ∀ c, K.calls c) {id system : String} {d : DelegateSpec} {clock : Hist}
    (hp : Prepared H c d child system clock) : (start H d id (rootOf c id) c child system).wp K (fun _ _ => True)
      (Ran K H c) (drawn id :: started c id :: clock) := by
  unfold start
  cases hx : (toolView H c child (rootOf c id)).exportToolsJson H with
  | error x => exact .unexported id hp hx
  | ok tools =>
    refine ⟨trivial, fun r => ?_⟩
    rcases r with (what | what) | created
    · refine ⟨trivial, fun _ => ?_⟩
      rw [List.append_assoc]
      exact .unknownBackend id hp hx what
    · exact .uncreated id hp hx (by simp)
    · exact .uncreated id hp hx (by simp)
    cases created with
    | false =>
      refine ⟨trivial, fun _ => ?_⟩
      rw [List.append_assoc]
      exact .noConversation id hp hx
    | true =>
      simp only [Coroutine.bind, converse]
      rw [wp_bind]
      refine wp_mono (fun h' r hl => ?_) (wp_turns hK _ _ _ _)
      obtain ⟨l, rfl, hl⟩ := hl
      rw [List.append_assoc]
      rcases r with x | kind | raw
      · exact .thrown id hp hx hl
      · refine ⟨trivial, fun _ => ?_⟩
        change Ran K H c _ (.ok (errorValue kind []))
        rw [List.append_assoc]
        exact .failed id hp hx hl
      · simp only [afterwards, finish]
        cases he : SubAgentRuntime.extracted H.ordered (extractPath d) raw with
        | some text =>
          refine ⟨trivial, fun _ => ?_⟩
          change Ran K H c _ (.ok (.str text))
          rw [List.append_assoc]
          exact .extracted id hp hx hl he
        | none =>
          refine ⟨trivial, fun _ => ⟨trivial, fun _ => ?_⟩⟩
          change Ran K H c _ (.ok (.str raw))
          rw [List.append_assoc, List.append_assoc]
          exact .unextracted id hp hx hl he

/-- **What `RunAsync` does**, whatever its calls do. -/
theorem wp_runAsync (hK : ∀ c, K.calls c) :
    (runAsync H c).wp K (fun _ _ => True) (Ran K H c) [] := by
  refine ⟨trivial, fun id => ?_⟩
  simp only [Coroutine.bind]
  cases ha : admission H.workflow c with
  | unknownAgent => exact ⟨trivial, fun _ => .unknownAgent id ha⟩
  | maxDepthExceeded => exact ⟨trivial, fun _ => ⟨trivial, fun _ => .maxDepthExceeded id ha⟩⟩
  | admitted d =>
    refine ⟨trivial, fun _ => ?_⟩
    simp only [Coroutine.bind, proceed]
    cases hc : H.workflow.findAgent c.child with
    | none => exact ⟨trivial, fun a => a.elim⟩
    | some child =>
      simp only [systemText]
      by_cases hs : child.systemPrompt = ""
      · rw [if_pos hs]
        exact wp_start hK ⟨ha, hc, Or.inl ⟨hs, rfl, rfl⟩⟩
      · rw [if_neg hs]
        cases hp : TemplateString.parse child.systemPrompt with
        | error e => exact ⟨trivial, fun _ => .badTemplate id ha hc hs hp⟩
        | ok template =>
          exact ⟨trivial, fun time => wp_start hK ⟨ha, hc, Or.inr ⟨template, time, hs, hp, rfl, rfl⟩⟩⟩

/-- A run that has ended, for what is known of the calls in it. -/
theorem ran_of_runs {gives : RunArgs → Hist → Except Thrown Value → Prop}
    (hgives : ∀ c l r, Ran (freely gives) H c l r → gives c l r) {l : Hist} {r : Except Thrown Value}
    (hr : Runs (runAsync H) (runAsync H c) l (some r)) : Ran (freely gives) H c l r := by
  have hbody : ∀ c, (freely gives).calls c →
      (runAsync H c).wp (freely gives) ((freely gives).allows c) ((freely gives).gives c) [] :=
    fun c _ => wp_mono (hgives c) (wp_runAsync fun _ => trivial)
  exact (hr.sound hbody (wp_runAsync fun _ => trivial)).2.1 r rfl

end SubAgentRuntime

end AgentFlow.Workflow
