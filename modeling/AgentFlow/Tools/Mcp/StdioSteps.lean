/-
# What a step of the client over pipes does

One lemma for each operation says what it changes: the writer (`writeLine_eq`,
`Pumps`), a request (`sendRequest_of_ready`), a line taken out of the buffer
(`getLine_eq`, `Took`). Between steps no call is left on a waiter channel and
the state is never connecting (`Settled`), since `ConnectStdio` makes it ready
before its first suspension; `did_of_step` then lists what a step can do, with
its guards, and everything later is proved from that list.

Key definitions: `Settled`, `Continues`, `Did`.
Key theorems: `did_of_step`, `settled_of_reaches`.
-/
import AgentFlow.Tools.Mcp.Stdio

namespace AgentFlow
namespace Mcp
namespace Stdio

open Json

variable {sp : Spec} {s s' : State} {t : ℕ}

/-! ### The writer -/

/-- What the writer does with the queue: nothing, or it starts to write the
first line. The writer's state before, the one after, and the log. -/
inductive Pumps (child : Option ℕ) (queue : List Line) : Option ℕ → Option ℕ → List Event → Prop
  | nothing (w : Option ℕ) : Pumps child queue w w []
  | starts {c : ℕ} {l : Line} {rest : List Line} :
      child = some c → queue = l :: rest → Pumps child queue none (some c) [.wrote c l]

namespace State

/-- The state with another queue and another write, and more in the log. -/
def withWriter (s : State) (queue : List Line) (w : Option ℕ) (es : List Event) : State :=
  { s with writeQueue := queue, writing := w, log := s.log ++ es }

theorem pumpWriter_eq (s : State) : ∃ w es,
    s.pumpWriter = s.withWriter s.writeQueue w es ∧ Pumps s.child s.writeQueue none w es := by
  unfold pumpWriter
  split
  · rename_i c l rest hc hq
    exact ⟨some c, [.wrote c l], rfl, .starts hc hq⟩
  · exact ⟨none, [], by simp [withWriter], .nothing none⟩

theorem withWriter_withWriter (s : State) (q q' : List Line) (w w' : Option ℕ) (es es' : List Event) :
    (s.withWriter q w es).withWriter q' w' es' = s.withWriter q' w' (es ++ es') := by
  simp [withWriter]

theorem writeLine_eq (s : State) (m : Message) : ∃ w es,
    s.writeLine m = s.withWriter (s.writeQueue ++ [⟨s.children, m⟩]) w (.queued ⟨s.children, m⟩ :: es) ∧
      Pumps s.child (s.writeQueue ++ [⟨s.children, m⟩]) s.writing w es := by
  have hq : s.writeLine m =
      if s.writing.isNone then
        (s.withWriter (s.writeQueue ++ [⟨s.children, m⟩]) s.writing [.queued ⟨s.children, m⟩]).pumpWriter
      else s.withWriter (s.writeQueue ++ [⟨s.children, m⟩]) s.writing [.queued ⟨s.children, m⟩] := rfl
  rw [hq]
  split_ifs with hw
  · obtain ⟨w, es, heq, hp⟩ := pumpWriter_eq
      (s.withWriter (s.writeQueue ++ [⟨s.children, m⟩]) s.writing [.queued ⟨s.children, m⟩])
    rw [heq, withWriter_withWriter, Option.isNone_iff_eq_none.mp hw]
    exact ⟨w, es, rfl, hp⟩
  · exact ⟨s.writing, [], rfl, .nothing _⟩

end State

/-! ### Requests -/

/-- The handlers a new request posts: one, if its token has fired. -/
def posted (token : Option Bool) (id : ℕ) : List ℕ := if token = some true then [id] else []

/-- What a call is after it has made its request. -/
def Task.ask (k : Task) (token : Option Bool) (id : ℕ) (pc : Pc) : Task :=
  { k with request := if token.isSome then some id else k.request, pc := pc }

namespace State

/-- A request is in the table, its callback on the token. -/
def registered (s : State) (t : ℕ) (m : Method) (token : Option Bool) (pc : ℕ → Pc) : State :=
  { s with
    requests := s.requests.register
    cancels := s.cancels ++ posted token s.requests.next
    tasks := s.tasks.modify t fun k => k.ask token s.requests.next (pc s.requests.next)
    log := s.log ++ .requested t s.requests.next m :: (posted token s.requests.next).map Event.cancelPosted }

/-- A line is written between two changes that the writer does not see. -/
private theorem writeLine_setPc {s₁ : State} {m : Message} {pc : Pc} (hs : s₁.setPc t pc = s')
    (hc : s₁.child = s.child) (hn : s₁.children = s.children) (hq : s₁.writeQueue = s.writeQueue)
    (hw : s₁.writing = s.writing) : ∃ w es,
    (s₁.writeLine m).setPc t pc =
      s'.withWriter (s.writeQueue ++ [⟨s.children, m⟩]) w (.queued ⟨s.children, m⟩ :: es) ∧
      Pumps s.child (s.writeQueue ++ [⟨s.children, m⟩]) s.writing w es := by
  obtain ⟨w, es, heq, hp⟩ := s₁.writeLine_eq m
  rw [hc, hn, hq, hw] at hp
  refine ⟨w, es, ?_, hp⟩
  rw [heq, hn, hq, ← hs]
  rfl

/-- What a request changes: the table, the token's callbacks, its task and the
log, and then what its line changes. -/
theorem sendRequest_of_ready (h : s.state = .ready) (t : ℕ) (m : Method) (params : Value) (token : Option Bool)
    (pc : ℕ → Pc) : ∃ w es, s.sendRequest t m params token pc =
      .ok ((s.registered t m token pc).withWriter
        (s.writeQueue ++ [⟨s.children, ⟨some s.requests.next, m, params⟩⟩]) w
        (.queued ⟨s.children, ⟨some s.requests.next, m, params⟩⟩ :: es)) ∧
      Pumps s.child (s.writeQueue ++ [⟨s.children, ⟨some s.requests.next, m, params⟩⟩]) s.writing w es := by
  have hmod : (s.tasks.modify t fun k => { k with request := some s.requests.next }).modify t
      (fun k => { k with pc := pc s.requests.next }) =
      s.tasks.modify t fun k => { k with request := some s.requests.next, pc := pc s.requests.next } := by
    rw [List.modify_modify_eq]
    rfl
  unfold sendRequest
  rw [if_neg (by simp [h])]
  simp only [Except.ok.injEq]
  rcases token with _ | _ | _
  · exact writeLine_setPc (by simp [registered, posted, setPc, record, Task.ask]) rfl rfl rfl rfl
  · exact writeLine_setPc (by simp [registered, posted, setPc, record, Task.ask, hmod]) rfl rfl rfl rfl
  · exact writeLine_setPc (by simp [registered, posted, setPc, record, Task.ask, postCancel, hmod]) rfl rfl rfl rfl

/-- The call `t` has made the request and waits at `pc`. -/
def Asked (s : State) (t : ℕ) (m : Method) (params : Value) (token : Option Bool) (pc : ℕ → Pc) (s' : State) : Prop :=
  ∃ w es, s' = (s.registered t m token pc).withWriter
      (s.writeQueue ++ [⟨s.children, ⟨some s.requests.next, m, params⟩⟩]) w
      (.queued ⟨s.children, ⟨some s.requests.next, m, params⟩⟩ :: es) ∧
    Pumps s.child (s.writeQueue ++ [⟨s.children, ⟨some s.requests.next, m, params⟩⟩]) s.writing w es

/-- A notification is queued, if there is a child. -/
def Notified (s : State) (m : Message) (s' : State) : Prop :=
  (s.child = none ∧ s' = s) ∨
  ((∃ c, s.child = some c) ∧ ∃ w es,
    s' = s.withWriter (s.writeQueue ++ [⟨s.children, m⟩]) w (.queued ⟨s.children, m⟩ :: es) ∧
    Pumps s.child (s.writeQueue ++ [⟨s.children, m⟩]) s.writing w es)

theorem notified_sendNotification (s : State) (m : Message) : s.Notified m (s.sendNotification m) := by
  unfold sendNotification
  cases hc : s.child with
  | none => exact Or.inl ⟨hc, by simp⟩
  | some c => exact Or.inr ⟨⟨c, hc⟩, s.writeLine_eq m⟩

end State

/-! ### Calls -/

/-- No connection attempt is under way between two steps, and no call waits
for one. -/
structure Settled (s : State) : Prop where
  state_ne : s.state ≠ .connecting
  waiters : s.connectWaiters = []
  tasks : ∀ k ∈ s.tasks, k.pc ≠ .running ∧ ∀ b, k.pc ≠ .waiting b

/-- A call as it starts. -/
def newTask (p : Purpose) (fired : Bool) : Task := ⟨p, if p.isCallTool then some fired else none, none, .running⟩

namespace State

def arrive (s : State) (p : Purpose) (fired : Bool) : State :=
  { s with tasks := s.tasks ++ [newTask p fired], log := s.log ++ [.called s.tasks.length p] }

/-- What is left of a broken transport before the next attempt. -/
def torn (s : State) : State := if s.state = .broken then s.closePipes.failPending else s

/-- A new child with its reader. -/
def openSession (s : State) : State :=
  { s with
    state := .ready
    child := some (s.children + 1)
    children := s.children + 1
    readers := s.readers ++ [⟨s.children + 1, s.hasLine⟩]
    log := s.log ++ [.spawned (s.children + 1)] }

/-- `Shutdown()`. -/
def stopped (s : State) : State :=
  { s with
    state := if s.state = .ready then .broken else s.state
    shutdown := true
    child := none
    requests := s.requests.closeAll
    log := s.log ++ .shutDown :: s.requests.pending.map Event.closed }

/-- The token of `t` fires, which posts a handler if the call has its request. -/
def fired (s : State) (t : ℕ) (request : Option ℕ) : State :=
  { s with
    tasks := s.tasks.modify t fun k => { k with token := some true }
    cancels := s.cancels ++ request.toList
    log := s.log ++ request.toList.map Event.cancelPosted }

/-- The posted handler closes the request. -/
def cancelled (s : State) (id : ℕ) : State :=
  { s with cancels := s.cancels.erase id, requests := s.requests.close id, log := s.log ++ [.closed id] }

/-- Bytes of the child `c` are in the buffer. -/
def fed (s : State) (c : ℕ) (chunk : List Char) : State :=
  { s with readBuf := s.readBuf ++ chunk.map fun x => (c, x) }

/-- A line is out of the buffer. -/
def took (s : State) (requests : Requests.Table Value) (es : List Event) : State :=
  { s with
    readBuf := s.readBuf.drop (s.firstLine.length + 1)
    requests := requests
    log := s.log ++ .read s.children s.firstLine :: es }

end State

/-- What a call does once the client is ready. -/
inductive Continues (sp : Spec) (s : State) (t : ℕ) (task : Task) : State → Prop
  | refused {e : Status.Error} : task.purpose.request sp.toClient = .error e →
      Continues sp s t task (s.finish t (.failed e))
  | connected : task.purpose.request sp.toClient = .ok none → Continues sp s t task (s.finish t .connected)
  | asked {m : Method} {params : Value} {s' : State} :
      task.purpose.request sp.toClient = .ok (some (m, params)) →
      s.Asked t m params task.token .request s' → Continues sp s t task s'

/-- What an inbound message does: it is dropped, forwarded, or the answer to a
pending request. -/
inductive Dispatched (s : State) (v : Value) : Requests.Table Value → List Event → Prop
  | dropped : Dispatched s v s.requests []
  | notified (method params : String) : Dispatched s v s.requests [.notified method params]
  | delivered {j : Value} {id : ℕ} : v.find? "id" = some j → j.toInt64? = some (id : ℤ) →
      id ∈ s.requests.pending → Dispatched s v (s.requests.deliver id v) [.delivered id v]

/-- What a line out of the buffer does: nothing if it is not JSON. -/
inductive Took (s : State) : Requests.Table Value → List Event → Prop
  | dropped : Took s s.requests []
  | inbound {v : Value} {requests : Requests.Table Value} {es : List Event} :
      Dispatched s v requests es → Took s requests (.inbound v :: es)

/-- The steps that start a child. -/
def State.spawns (sp : Spec) (s : State) : Choice → Bool
  | .call _ _ .started =>
    !s.shutdown && s.state ≠ .ready && sp.transport = .stdio && sp.commandOrUrl ≠ ""
  | _ => false

theorem shutdown_of_spawns {c : Choice} (h : s.spawns sp c = true) : s.shutdown = false := by
  unfold State.spawns at h
  split at h
  · simp only [Bool.and_eq_true, Bool.not_eq_true'] at h
    exact h.1.1.1
  · simp at h

/-- **What a step can do.** -/
inductive Did (sp : Spec) (s : State) : Choice → State → Prop
  | refused {p fired spawn e} : s.shutdown = true →
      Did sp s (.call p fired spawn) ((s.arrive p fired).finish s.tasks.length (.failed e))
  | ready {p fired spawn s'} : s.state = .ready → (p = .connect → s.shutdown = false) →
      Continues sp (s.arrive p fired) s.tasks.length (newTask p fired) s' → Did sp s (.call p fired spawn) s'
  | notStarted {p fired spawn e} : s.shutdown = false → s.state ≠ .ready →
      Did sp s (.call p fired spawn)
        (((s.arrive p fired).torn.setState .broken).finish s.tasks.length (.failed e))
  | started {p fired s'} : s.spawns sp (.call p fired .started) = true →
      (s.arrive p fired).torn.openSession.Asked s.tasks.length .init initParams none
        (Pc.handshake · (s.children + 1)) s' →
      Did sp s (.call p fired .started) s'
  | handshakeThrew {t k id c v e} : s.tasks[t]? = some k → k.pc = .handshake id c →
      s.requests.slot id = some (.delivered v) → rpcResult v = .error e →
      Did sp s (.resume t) (s.finish t (.thrown e))
  | handshakeFailed {t k id c r e} : s.tasks[t]? = some k → k.pc = .handshake id c →
      (s.requests.slot id).bind receive = some r → answer r = .ok (.error e) →
      Did sp s (.resume t) ((s.setState .broken).finish t (.failed e))
  | handshakeDone {t k id c v result s₁ s'} : s.tasks[t]? = some k → k.pc = .handshake id c →
      s.requests.slot id = some (.delivered v) → rpcResult v = .ok (.ok result) →
      s.Notified initializedNotification s₁ → Continues sp (s₁.setState .ready) t k s' →
      Did sp s (.resume t) s'
  | answered {t k id r} : s.tasks[t]? = some k → k.pc = .request id →
      (s.requests.slot id).bind receive = some r →
      Did sp s (.resume t) (s.finish t (k.purpose.outcome sp.toClient (answer r)))
  | fired {t k} : s.tasks[t]? = some k → k.token = some false → Did sp s (.fire t) (s.fired t k.request)
  | cancelMissed {id} : id ∈ s.cancels → id ∉ s.requests.pending →
      Did sp s (.runCancel id) { s with cancels := s.cancels.erase id }
  | cancelled {id s'} : id ∈ s.cancels → id ∈ s.requests.pending →
      (s.cancelled id).Notified (cancelledNotification id) s' → Did sp s (.runCancel id) s'
  | bytes {r c chunk} : s.readers[r]? = some ⟨c, false⟩ → Did sp s (.data r chunk) (s.fed c chunk)
  | line {c r rd chunk requests es} : (c = .data r chunk ∨ c = .lineReady r ∧ chunk = []) →
      s.readers[r]? = some rd → Took (s.fed rd.child chunk) requests es →
      Did sp s c (((s.fed rd.child chunk).took requests es).readAgain r)
  | readFailed {r rd} : s.readers[r]? = some rd →
      Did sp s (.readFailed r) ({ s with readers := s.readers.eraseIdx r }.transportDied)
  | wrote {c w es} : s.writing = some c → Pumps s.child s.writeQueue.tail none w es →
      Did sp s (.written true) (s.withWriter s.writeQueue.tail w es)
  | writeFailed {c} : s.writing = some c →
      Did sp s (.written false) (s.withWriter s.writeQueue.tail none []).transportDied
  | shutDown : Did sp s .shutdown s.stopped
  | handlerSet {b} : Did sp s (.setInboundEventHandler b) { s with handler := b }

namespace State

theorem notifyConnectWaiters_of_nil (h : s.connectWaiters = []) : s.notifyConnectWaiters = s := by
  unfold notifyConnectWaiters
  rw [h, List.foldl_nil, ← h]

theorem finishConnect_eq (h : s.connectWaiters = []) (t : ℕ) (task : Task) (status : Option Status.Error) :
    s.finishConnect sp t task status =
      (s.setState (if status.isNone then .ready else .broken)).proceed sp t task status := by
  unfold finishConnect
  simp only
  rw [notifyConnectWaiters_of_nil]
  exact h

theorem proceed_of_ready (h : s.state = .ready) (t : ℕ) (task : Task) :
    Continues sp s t task (s.proceed sp t task none) := by
  simp only [proceed]
  split
  · rename_i e hr
    exact .refused hr
  · rename_i hr
    exact .connected hr
  · rename_i m params hr
    obtain ⟨w, es, heq, hp⟩ := sendRequest_of_ready h t m params task.token .request
    rw [heq]
    exact .asked hr ⟨w, es, rfl, hp⟩

/-- The state with another table, and more in the log. -/
def withTable (s : State) (requests : Requests.Table Value) (es : List Event) : State :=
  { s with requests := requests, log := s.log ++ es }

theorem withTable_self (s : State) : s.withTable s.requests [] = s := by simp [withTable]

theorem dispatchInbound_eq (sp : Spec) (s : State) (v : Value) : ∃ requests es,
    s.dispatchInbound sp v = s.withTable requests es ∧ Dispatched s v requests es := by
  unfold dispatchInbound
  split
  · split
    · rename_i method params _
      split_ifs
      · exact ⟨_, _, rfl, .notified method params⟩
      · exact ⟨_, _, s.withTable_self.symm, .dropped⟩
    · exact ⟨_, _, s.withTable_self.symm, .dropped⟩
  · rename_i j hne
    split
    · exact ⟨_, _, s.withTable_self.symm, .dropped⟩
    · rename_i i hi
      split_ifs with hp
      · have hid : v.find? "id" = some ((v.find? "id").getD .null) := by
          cases hf : v.find? "id" with
          | none => exact absurd (by rw [hf]; rfl) hne
          | some w => rfl
        refine ⟨_, _, rfl, .delivered hid ?_ hp.2⟩
        rw [hi, Int.toNat_of_nonneg hp.1]
      · exact ⟨_, _, s.withTable_self.symm, .dropped⟩

theorem getLine_eq (sp : Spec) (s : State) : ∃ requests es, s.getLine sp = s.took requests es ∧ Took s requests es := by
  unfold getLine
  simp only
  split_ifs with hl
  · exact ⟨s.requests, [], rfl, .dropped⟩
  split
  · rename_i v hv
    obtain ⟨requests, es, heq, hd⟩ := dispatchInbound_eq sp ((s.took s.requests []).record [.inbound v]) v
    refine ⟨requests, .inbound v :: es, ?_, ?_⟩
    · refine Eq.trans heq ?_
      simp [withTable, took, record]
    · cases hd with
      | dropped => exact .inbound .dropped
      | notified method params => exact .inbound (.notified method params)
      | delivered hid hj hp => exact .inbound (.delivered hid hj hp)
  · exact ⟨s.requests, [], rfl, .dropped⟩

theorem torn_connectWaiters (s : State) : s.torn.connectWaiters = s.connectWaiters := by
  unfold torn
  split_ifs <;> rfl

theorem torn_tasks (s : State) : s.torn.tasks = s.tasks := by
  unfold torn
  split_ifs <;> rfl

theorem torn_children (s : State) : s.torn.children = s.children := by
  unfold torn
  split_ifs <;> rfl

/-- The transport of an attempt: it ends at once with an error, or the new
child is sent `initialize`. -/
theorem startConnect_cases (sp : Spec) (hw : s.connectWaiters = []) (t : ℕ) (task : Task) (spawn : Spawn) :
    (∃ e, s.startConnect sp t task spawn = (s.setState .broken).finish t (.failed e)) ∨
    ((sp.transport = .stdio ∧ sp.commandOrUrl ≠ "" ∧ spawn = .started) ∧
      s.openSession.Asked t .init initParams none (Pc.handshake · (s.children + 1))
        (s.startConnect sp t task spawn)) := by
  have hfail : ∀ e, (s.setState .connecting).finishConnect sp t task (some e) =
      (s.setState .broken).finish t (.failed e) := by
    intro e
    rw [finishConnect_eq (s := s.setState .connecting) hw]
    rfl
  have hopen : ∃ s', (s.setState .connecting).connectStdio sp t .started = .ok s' ∧ sp.commandOrUrl ≠ "" ∧
        s.openSession.Asked t .init initParams none (Pc.handshake · (s.children + 1)) s' ∨
      ∃ e, (s.setState .connecting).connectStdio sp t .started = .error e := by
    unfold connectStdio
    split_ifs with hcmd
    · exact ⟨s, Or.inr ⟨_, rfl⟩⟩
    · obtain ⟨w, es, heq, hp⟩ := sendRequest_of_ready (s := s.openSession) rfl t .init initParams none
        (Pc.handshake · (s.children + 1))
      exact ⟨_, Or.inl ⟨heq, hcmd, w, es, rfl, hp⟩⟩
  simp only [startConnect]
  split
  · rename_i htr
    cases spawn with
    | started =>
      obtain ⟨s', ⟨heq, hcmd, hask⟩ | ⟨e, heq⟩⟩ := hopen
      · rw [heq]
        exact Or.inr ⟨⟨htr, hcmd, rfl⟩, hask⟩
      · rw [heq]
        exact Or.inl ⟨e, hfail e⟩
    | pipeFailed err =>
      simp only [connectStdio]
      split_ifs
      · exact Or.inl ⟨_, hfail _⟩
      · exact Or.inl ⟨_, hfail _⟩
    | forkFailed err =>
      simp only [connectStdio]
      split_ifs
      · exact Or.inl ⟨_, hfail _⟩
      · exact Or.inl ⟨_, hfail _⟩
  · exact Or.inl ⟨_, hfail _⟩

theorem connect_of_not_ready (hsd : s.shutdown = false) (hr : s.state ≠ .ready) (hc : s.state ≠ .connecting)
    (hw : s.connectWaiters = []) (t : ℕ) (task : Task) (spawn : Spawn) :
    s.connect sp t task spawn = s.torn.startConnect sp t task spawn := by
  have htorn : (if s.state = .broken then s.shutdownInternal false else s) = s.torn := by
    unfold torn
    split_ifs with hb
    · have hn : s.closePipes.failPending.notifyConnectWaiters = s.closePipes.failPending :=
        notifyConnectWaiters_of_nil hw
      have hst : s.closePipes.failPending.state = .broken := hb
      simp [shutdownInternal, hn, hst]
    · rfl
  have hst : s.torn.state ≠ .connecting := by
    unfold torn
    split_ifs
    · exact hc
    · exact hc
  unfold connect
  simp only [hsd, htorn, Bool.false_eq_true, if_false, if_neg hr, if_neg hst]

theorem shutdownInternal_stopped (hw : s.connectWaiters = []) :
    (s.record [.shutDown]).shutdownInternal true = s.stopped := by
  have hn : ({ s.record [.shutDown] with shutdown := true }.closePipes.failPending).notifyConnectWaiters =
      { s.record [.shutDown] with shutdown := true }.closePipes.failPending := notifyConnectWaiters_of_nil hw
  have hst : { s.record [.shutDown] with shutdown := true }.closePipes.failPending.state = s.state := rfl
  simp only [shutdownInternal, if_true, hn, hst]
  split_ifs with hr
  · simp [stopped, setState, failPending, closePipes, record, hr]
  · simp [stopped, failPending, closePipes, record, hr]

theorem Notified.connectWaiters {m : Message} (h : s.Notified m s') : s'.connectWaiters = s.connectWaiters := by
  rcases h with ⟨-, rfl⟩ | ⟨-, w, es, rfl, -⟩
  · rfl
  · rfl

end State

/-- Only an answer, not a closed channel, has a result or throws. -/
theorem delivered_of_answer {id : ℕ} {r : Except ErrorCode Value} (hr : (s.requests.slot id).bind receive = some r)
    (ha : ∀ e, answer r ≠ .ok (.error e)) :
    ∃ v, s.requests.slot id = some (.delivered v) ∧ answer r = rpcResult v := by
  obtain ⟨slot, hslot, hrec⟩ := Option.bind_eq_some_iff.mp hr
  cases slot with
  | waiting => simp [receive] at hrec
  | closed =>
    obtain rfl := Option.some.inj hrec
    exact absurd rfl (ha _)
  | delivered v =>
    obtain rfl := Option.some.inj hrec
    exact ⟨v, hslot, rfl⟩

/-! ### The list -/

private theorem did_of_call (hs : Settled s) (p : Purpose) (fired : Bool) (spawn : Spawn) :
    Did sp s (.call p fired spawn) (s.call sp p fired spawn) := by
  have hcall : s.call sp p fired spawn =
      if p ≠ .connect ∧ s.state = .ready then (s.arrive p fired).proceed sp s.tasks.length (newTask p fired) none
      else (s.arrive p fired).connect sp s.tasks.length (newTask p fired) spawn := rfl
  have hready : ∀ h : s.state = .ready, Continues sp (s.arrive p fired) s.tasks.length (newTask p fired)
      ((s.arrive p fired).proceed sp s.tasks.length (newTask p fired) none) :=
    fun h => State.proceed_of_ready (s := s.arrive p fired) h _ _
  rw [hcall]
  split_ifs with hp
  · exact .ready hp.2 (fun h => absurd h hp.1) (hready hp.2)
  cases hsd : s.shutdown with
  | true =>
    have : (s.arrive p fired).connect sp s.tasks.length (newTask p fired) spawn =
        (s.arrive p fired).finish s.tasks.length (.failed ⟨.cancelled, "client shut down"⟩) := by
      have hsd' : (s.arrive p fired).shutdown = true := hsd
      simp [State.connect, hsd', State.proceed]
    rw [this]
    exact .refused hsd
  | false =>
    have hsd' : (s.arrive p fired).shutdown = false := hsd
    by_cases hr : s.state = .ready
    · have : (s.arrive p fired).connect sp s.tasks.length (newTask p fired) spawn =
          (s.arrive p fired).proceed sp s.tasks.length (newTask p fired) none := by
        have hr' : (s.arrive p fired).state = .ready := hr
        simp [State.connect, hsd', hr']
      rw [this]
      exact .ready hr (fun _ => hsd) (hready hr)
    · rw [State.connect_of_not_ready hsd' hr hs.state_ne hs.waiters]
      have hw : (s.arrive p fired).torn.connectWaiters = [] := by
        rw [State.torn_connectWaiters]
        exact hs.waiters
      rcases State.startConnect_cases sp hw s.tasks.length (newTask p fired) spawn with
        ⟨e, he⟩ | ⟨⟨htr, hcmd, rfl⟩, hask⟩
      · rw [he]
        exact .notStarted hsd hr
      · have hc : (s.arrive p fired).torn.children = s.children := (s.arrive p fired).torn_children
        rw [hc] at hask
        exact .started (by simp [State.spawns, hsd, hr, htr, hcmd]) hask

private theorem did_of_resume (hs : Settled s) (h : s.resume sp t = some s') : Did sp s (.resume t) s' := by
  unfold State.resume at h
  cases hk : s.tasks[t]? with
  | none => simp [hk] at h
  | some k =>
    simp only [hk] at h
    have hset := hs.tasks k (List.mem_of_getElem? hk)
    cases hpc : k.pc with
    | running => exact absurd hpc hset.1
    | waiting b => exact absurd hpc (hset.2 b)
    | done => simp [hpc] at h
    | request id =>
      simp only [hpc, Option.map_eq_some_iff] at h
      obtain ⟨r, hr, rfl⟩ := h
      exact .answered hk hpc hr
    | handshake id c =>
      simp only [hpc, Option.map_eq_some_iff] at h
      obtain ⟨r, hr, rfl⟩ := h
      cases ha : answer r with
      | error e =>
        obtain ⟨v, hv, hres⟩ := delivered_of_answer hr (by rw [ha]; simp)
        rw [ha] at hres
        exact .handshakeThrew hk hpc hv hres.symm
      | ok a =>
        cases a with
        | error e =>
          simp only
          rw [State.finishConnect_eq hs.waiters]
          exact .handshakeFailed hk hpc hr ha
        | ok result =>
          obtain ⟨v, hv, hres⟩ := delivered_of_answer hr (by rw [ha]; simp)
          rw [ha] at hres
          simp only
          have hn := s.notified_sendNotification initializedNotification
          rw [State.finishConnect_eq (hn.connectWaiters.trans hs.waiters)]
          exact .handshakeDone hk hpc hv hres.symm hn (State.proceed_of_ready rfl t k)

/-- Under `Settled` a step is one of those listed. -/
theorem did_of_step {c : Choice} (hs : Settled s) (h : step sp c s = some s') : Did sp s c s' := by
  cases c with
  | call p fired spawn =>
    obtain rfl : s.call sp p fired spawn = s' := by simpa [step] using h
    exact did_of_call hs p fired spawn
  | resume t => exact did_of_resume hs h
  | fire t =>
    simp only [step, State.fire] at h
    split at h
    · rename_i p request pc hk
      cases request with
      | none =>
        obtain rfl := Option.some.inj h
        have : s.fired t none = { s with tasks := s.tasks.modify t fun k => { k with token := some true } } := by
          simp [State.fired]
        rw [← this]
        exact .fired hk rfl
      | some id =>
        obtain rfl := Option.some.inj h
        exact .fired hk rfl
    · simp at h
  | runCancel id =>
    simp only [step] at h
    split_ifs at h with hc
    obtain rfl := Option.some.inj h
    unfold State.runCancel
    simp only
    split_ifs with hp
    · exact .cancelled hc hp (State.notified_sendNotification (s.cancelled id) _)
    · exact .cancelMissed hc hp
  | data r chunk =>
    simp only [step, State.data] at h
    split at h
    · rename_i c hr
      have hfed : { s with readBuf := s.readBuf ++ chunk.map fun x => (c, x) } = s.fed c chunk := rfl
      rw [hfed] at h
      split_ifs at h with hl
      · obtain rfl := Option.some.inj h
        obtain ⟨requests, es, heq, htook⟩ := (s.fed c chunk).getLine_eq sp
        rw [heq]
        exact .line (Or.inl rfl) hr htook
      · obtain rfl := Option.some.inj h
        exact .bytes hr
    · simp at h
  | lineReady r =>
    simp only [step, State.lineReady] at h
    split at h
    · rename_i c hr
      obtain rfl := Option.some.inj h
      have hfed : s.fed c [] = s := by simp [State.fed]
      obtain ⟨requests, es, heq, htook⟩ := s.getLine_eq sp
      rw [heq]
      have hline : Did sp s (.lineReady r) (((s.fed c []).took requests es).readAgain r) :=
        .line (Or.inr ⟨rfl, rfl⟩) hr (hfed.symm ▸ htook)
      rwa [hfed] at hline
    · simp at h
  | readFailed r =>
    simp only [step, State.readFailed] at h
    split at h
    · rename_i c hr
      obtain rfl := Option.some.inj h
      exact .readFailed hr
    · simp at h
  | written ok =>
    obtain ⟨c, hc⟩ : ∃ c, s.writing = some c := by
      cases hw : s.writing with
      | none => simp [step, State.written, hw] at h
      | some c => exact ⟨c, rfl⟩
    cases ok with
    | true =>
      have hw : s.written true = some (s.withWriter s.writeQueue.tail s.writing []).pumpWriter := by
        simp [State.written, State.withWriter, hc]
      obtain rfl := Option.some.inj (hw.symm.trans h)
      obtain ⟨w, es, heq, hp⟩ := State.pumpWriter_eq (s.withWriter s.writeQueue.tail s.writing [])
      rw [heq, State.withWriter_withWriter]
      exact .wrote hc hp
    | false =>
      have hw : s.written false = some (s.withWriter s.writeQueue.tail none []).transportDied := by
        simp [State.written, State.withWriter, hc]
      obtain rfl := Option.some.inj (hw.symm.trans h)
      exact .writeFailed hc
  | shutdown =>
    obtain rfl := Option.some.inj h
    rw [State.shutdownInternal_stopped hs.waiters]
    exact .shutDown
  | setInboundEventHandler b =>
    obtain rfl := Option.some.inj h
    exact .handlerSet

/-! ### The state between steps -/

/-- Changing one entry to something that has `P`, when the others have it. -/
theorem forall_modify {α : Type*} {P : α → Prop} {l : List α} {f : α → α} {i : ℕ}
    (h : ∀ j a, l[j]? = some a → j ≠ i → P a) (hf : ∀ a, l[i]? = some a → P (f a)) :
    ∀ a ∈ l.modify i f, P a := by
  intro a ha
  obtain ⟨j, hj⟩ := List.mem_iff_getElem?.mp ha
  rw [List.getElem?_modify] at hj
  cases hb : l[j]? with
  | none => simp [hb] at hj
  | some b =>
    have hab : (if i = j then f b else b) = a := by simpa [hb] using hj
    subst hab
    split_ifs with hij
    · exact hf b (hij ▸ hb)
    · exact h j b hb (Ne.symm hij)

/-- `Settled`, but for the call `t` that runs. -/
structure SettledBut (t : ℕ) (s : State) : Prop where
  state_ne : s.state ≠ .connecting
  waiters : s.connectWaiters = []
  tasks : ∀ i k, s.tasks[i]? = some k → i ≠ t → k.pc ≠ .running ∧ ∀ b, k.pc ≠ .waiting b

theorem Settled.but (hs : Settled s) (t : ℕ) : SettledBut t s :=
  ⟨hs.state_ne, hs.waiters, fun _ k hk _ => hs.tasks k (List.mem_of_getElem? hk)⟩

theorem Settled.arrive (hs : Settled s) (p : Purpose) (fired : Bool) :
    SettledBut s.tasks.length (s.arrive p fired) where
  state_ne := hs.state_ne
  waiters := hs.waiters
  tasks := by
    intro i k hk hi
    have hlt : i < s.tasks.length := by
      have := (List.getElem?_eq_some_iff.mp hk).1
      simp only [State.arrive, List.length_append, List.length_singleton] at this
      omega
    rw [State.arrive, List.getElem?_append_left hlt] at hk
    exact hs.tasks k (List.mem_of_getElem? hk)

namespace SettledBut

theorem setState (hs : SettledBut t s) {st : ConnState} (h : st ≠ .connecting) : SettledBut t (s.setState st) :=
  ⟨h, hs.waiters, hs.tasks⟩

theorem torn (hs : SettledBut t s) : SettledBut t s.torn := by
  unfold State.torn
  split_ifs
  · exact ⟨hs.state_ne, hs.waiters, hs.tasks⟩
  · exact hs

theorem finish (hs : SettledBut t s) (o : Outcome) : Settled (s.finish t o) :=
  ⟨hs.state_ne, hs.waiters, forall_modify hs.tasks fun _ _ => ⟨nofun, nofun⟩⟩

theorem asked {m : Method} {params : Value} {token : Option Bool} {pc : ℕ → Pc} (hs : SettledBut t s)
    (hpc : ∀ id, pc id ≠ .running ∧ ∀ b, pc id ≠ .waiting b) (h : s.Asked t m params token pc s') :
    Settled s' := by
  obtain ⟨w, es, rfl, -⟩ := h
  exact ⟨hs.state_ne, hs.waiters, forall_modify hs.tasks fun _ _ => hpc _⟩

theorem continues {k : Task} (hs : SettledBut t s) (h : Continues sp s t k s') : Settled s' := by
  cases h with
  | refused _ => exact hs.finish _
  | connected _ => exact hs.finish _
  | asked _ h => exact hs.asked (fun id => ⟨by simp, by simp⟩) h

end SettledBut

theorem Settled.notified {m : Message} (hs : Settled s) (h : s.Notified m s') : Settled s' := by
  rcases h with ⟨-, rfl⟩ | ⟨-, w, es, rfl, -⟩
  · exact hs
  · exact ⟨hs.state_ne, hs.waiters, hs.tasks⟩

theorem settled_step {c : Choice} (hs : Settled s) (h : step sp c s = some s') : Settled s' := by
  cases did_of_step hs h with
  | refused _ => exact (hs.arrive _ _).finish _
  | ready _ _ hc => exact (hs.arrive _ _).continues hc
  | notStarted _ _ => exact ((hs.arrive _ _).torn.setState (by simp)).finish _
  | started _ ha =>
    refine SettledBut.asked ?_ (fun id => ⟨by simp, by simp⟩) ha
    exact ⟨by simp [State.openSession], (hs.arrive _ _).torn.waiters, (hs.arrive _ _).torn.tasks⟩
  | handshakeThrew _ _ _ _ => exact (hs.but _).finish _
  | handshakeFailed _ _ _ _ => exact ((hs.but _).setState (by simp)).finish _
  | handshakeDone _ _ _ _ hn hc => exact (((hs.notified hn).but _).setState (by simp)).continues hc
  | answered _ _ _ => exact (hs.but _).finish _
  | fired hk _ =>
    refine ⟨hs.state_ne, hs.waiters, forall_modify (hs.but _).tasks fun k hk => ?_⟩
    exact hs.tasks k (List.mem_of_getElem? hk)
  | cancelMissed _ _ => exact ⟨hs.state_ne, hs.waiters, hs.tasks⟩
  | cancelled _ _ hn => exact Settled.notified (s := s.cancelled _) ⟨hs.state_ne, hs.waiters, hs.tasks⟩ hn
  | bytes _ => exact ⟨hs.state_ne, hs.waiters, hs.tasks⟩
  | line _ _ _ => exact ⟨hs.state_ne, hs.waiters, hs.tasks⟩
  | readFailed _ => exact ⟨by simp [State.transportDied, State.setState], hs.waiters, hs.tasks⟩
  | wrote _ _ => exact ⟨hs.state_ne, hs.waiters, hs.tasks⟩
  | writeFailed _ => exact ⟨by simp [State.transportDied, State.setState], hs.waiters, hs.tasks⟩
  | shutDown =>
    refine ⟨?_, hs.waiters, hs.tasks⟩
    simp only [State.stopped]
    split_ifs
    · simp
    · exact hs.state_ne
  | handlerSet => exact ⟨hs.state_ne, hs.waiters, hs.tasks⟩

theorem settled_init : Settled {} := ⟨by simp, rfl, by simp⟩

theorem settled_of_reaches {ok : State → Choice → Prop} {cs : List Choice} (h : Reaches sp ok cs s) : Settled s :=
  h.invariant (fun _ _ _ hs _ hst => settled_step hs hst) settled_init

/-- An invariant from the list of what a step can do. -/
theorem Reaches.invariant {ok : State → Choice → Prop} {I : State → Prop} {cs : List Choice}
    (hstep : ∀ s c s', Settled s → I s → ok s c → Did sp s c s' → I s') (h : Reaches sp ok cs s) (h0 : I {}) :
    I s := by
  have hboth : Settled s ∧ I s := by
    refine Stepping.Run.invariant (I := fun s => Settled s ∧ I s) ?_ h ⟨settled_init, h0⟩
    intro x c y hx hok hst
    exact ⟨settled_step hx.1 hst, hstep x c y hx.1 hx.2 hok (did_of_step hx.1 hst)⟩
  exact hboth.2

end Stdio
end Mcp
end AgentFlow
