/-
# One handshake at a time

In the runs of undisturbed steps at most one handshake is in progress, every
`tools/*` request has the session id the last completed handshake was
assigned, and a `Connect` that succeeds leaves the client ready with a
session. A late failure of a request is enough for a second handshake.

Key definitions: `Reports`, `ToolPosts`.
Key theorems: `single_flight_of_undisturbed`, `not_single_flight`.
-/
import AgentFlow.Tools.Mcp.HttpHandshake

namespace AgentFlow
namespace Mcp
namespace Http

open Json

variable {sp : Spec} {s s' : State} {t : ℕ}

/-! ### `Connect` succeeds -/

def Event.isConnected : Event → Bool
  | .returned _ .connected => true
  | _ => false

/-- No `Connect` succeeds from the one state to the other, or the second is
ready. -/
def Reports (s s' : State) : Prop :=
  ∃ es, s'.log = s.log ++ es ∧ ((∃ e ∈ es, e.isConnected = true) → s'.state = .ready)

/-- No `Connect` succeeds. -/
def Silent (s s' : State) : Prop := ∃ es, s'.log = s.log ++ es ∧ ∀ e ∈ es, e.isConnected = false

namespace Silent

theorem of_log (h : s'.log = s.log) : Silent s s' := ⟨[], by rw [h, List.append_nil], by simp⟩

theorem record {es : List Event} (h : ∀ e ∈ es, e.isConnected = false) : Silent s (s.record es) := ⟨es, rfl, h⟩

theorem reports (h : Silent s s') : Reports s s' := by
  obtain ⟨es, hl, hes⟩ := h
  refine ⟨es, hl, fun ⟨e, he, hc⟩ => ?_⟩
  simp [hes e he] at hc

theorem trans {s'' : State} (h : Silent s s') (h' : Silent s' s'') : Silent s s'' := by
  obtain ⟨es, hl, hes⟩ := h
  obtain ⟨es', hl', hes'⟩ := h'
  refine ⟨es ++ es', by rw [hl', hl, List.append_assoc], fun e he => ?_⟩
  rcases List.mem_append.mp he with he | he
  · exact hes e he
  · exact hes' e he

theorem then_reports {s'' : State} (h : Silent s s') (h' : Reports s' s'') : Reports s s'' := by
  obtain ⟨es, hl, hes⟩ := h
  obtain ⟨es', hl', hst⟩ := h'
  refine ⟨es ++ es', by rw [hl', hl, List.append_assoc], fun ⟨e, he, hc⟩ => ?_⟩
  rcases List.mem_append.mp he with he | he
  · simp [hes e he] at hc
  · exact hst ⟨e, he, hc⟩

theorem notify (s : State) : Silent s s.notifyConnectWaiters := by
  rw [s.notifyConnectWaiters_eq]
  exact of_log rfl

theorem maybeStart (s : State) : Silent s s.maybeStartHttpReader := by
  unfold State.maybeStartHttpReader
  split_ifs
  · exact of_log rfl
  · exact ⟨[_], rfl, by simp [Event.isConnected]⟩

theorem finish_failed (s : State) (t : ℕ) (e : Status.Error) : Silent s (s.finish t (.failed e)) :=
  ⟨[_], rfl, by simp [Event.isConnected]⟩

theorem postRpc (sp : Spec) (s : State) (t : ℕ) (task : Task) (m : Method) (params : Value) (b : Bool) (pc : ℕ → Pc) :
    Silent s (s.postRpc sp t task m params b pc) := by
  cases b
  · exact ⟨[_], rfl, by simp [Event.isConnected]⟩
  · exact ⟨[_], rfl, by simp [Event.isConnected]⟩

theorem finishConnect_failed (sp : Spec) (s : State) (t : ℕ) (task : Task) (e : Status.Error) :
    Silent s (s.finishConnect sp t task (some e)) := by
  have hset : Silent s (s.setState .broken) := of_log rfl
  exact (hset.trans (notify _)).trans (finish_failed _ t e)

theorem startConnect (sp : Spec) (s : State) (t : ℕ) (task : Task) : Silent s (s.startConnect sp t task) := by
  unfold State.startConnect
  simp only
  split_ifs
  · have hset : Silent s (s.setState .connecting) := of_log rfl
    exact hset.trans (finishConnect_failed _ _ _ _ _)
  · have hset : Silent s { s.setState .connecting with sessionId := "" } := of_log rfl
    exact hset.trans (postRpc _ _ _ _ _ _ _ _)

theorem postResult (sp : Spec) (s : State) (id : Option ℕ) (head : ResponseHead) (body : Except Status.Error String) :
    Silent s (s.postResult sp id head body).1 := by
  have hpub : Silent s (s.publishSession head) := by
    unfold State.publishSession
    split_ifs
    · exact of_log rfl
    · exact of_log rfl
  refine hpub.trans ?_
  unfold State.postResult
  simp only
  split
  · split_ifs
    · exact of_log rfl
    · exact of_log rfl
  · split
    · exact of_log rfl
    · refine record fun e he => ?_
      obtain ⟨n, -, rfl⟩ := List.mem_map.mp he
      rfl

end Silent

theorem Reports.proceed {task : Task} {status : Option Status.Error} (hr : status = none → s.state = .ready) :
    Reports s (s.proceed sp t task status) := by
  cases status with
  | some e => exact (Silent.finish_failed s t e).reports
  | none =>
    simp only [State.proceed]
    split
    · exact (Silent.finish_failed _ _ _).reports
    · exact ⟨[_], rfl, fun _ => hr rfl⟩
    · unfold State.sendRequest
      rw [if_neg (by simp [hr rfl])]
      exact (Silent.postRpc _ _ _ _ _ _ _ _).reports

theorem outcome_ne_connected {p : Purpose} {c : Client} (hp : p ≠ .connect)
    (r : Except Json.Error (Except Status.Error Value)) : p.outcome c r ≠ .connected := by
  unfold Purpose.outcome
  split
  · simp
  · simp
  · cases p with
    | connect => exact absurd rfl hp
    | listTools =>
      simp only [Purpose.returns]
      split
      · simp
      · simp
    | callTool _ _ => simp [Purpose.returns]

/-- `Connect` makes no request of its own. -/
def ToolPosts (s : State) : Prop := ∀ k ∈ s.tasks, ∀ id, k.pc = .toolPost id → k.purpose ≠ .connect

namespace ToolPosts

theorem of_tasks (h : ToolPosts s) (ht : s'.tasks = s.tasks) : ToolPosts s' := by
  unfold ToolPosts
  rw [ht]
  exact h

theorem setPc {p : Pc} (h : ToolPosts s)
    (hpc : ∀ k id, s.tasks[t]? = some k → p = .toolPost id → k.purpose ≠ .connect) : ToolPosts (s.setPc t p) := by
  intro k hk
  obtain ⟨i, hi⟩ := List.mem_iff_getElem?.mp hk
  simp only [State.setPc, List.getElem?_modify] at hi
  obtain ⟨k₀, hk₀, rfl⟩ := Option.map_eq_some_iff.mp hi
  intro id
  split_ifs with hti
  · exact hpc k₀ id (hti ▸ hk₀)
  · exact h k₀ (List.mem_of_getElem? hk₀) id

theorem finish (h : ToolPosts s) (t : ℕ) (o : Outcome) : ToolPosts (s.finish t o) :=
  h.setPc (t := t) (p := .done) (by simp)

theorem notify (h : ToolPosts s) : ToolPosts s.notifyConnectWaiters := by
  have hall : ∀ (ws : List ℕ) (s : State), ToolPosts s →
      ToolPosts (ws.foldl (fun s t => s.setPc t (.waiting true)) s) := by
    intro ws
    induction ws with
    | nil => exact fun _ h => h
    | cons t ws ih => exact fun s h => ih _ (h.setPc (by simp))
  exact hall _ s h

theorem maybeStart (h : ToolPosts s) : ToolPosts s.maybeStartHttpReader := by
  unfold State.maybeStartHttpReader
  split_ifs
  · exact h
  · exact h.of_tasks rfl

theorem proceed {task : Task} {status : Option Status.Error} (h : ToolPosts s)
    (hk : ∀ k, s.tasks[t]? = some k → k.purpose = task.purpose) : ToolPosts (s.proceed sp t task status) := by
  cases status with
  | some e => exact h.finish _ _
  | none =>
    simp only [State.proceed]
    split
    · exact h.finish _ _
    · exact h.finish _ _
    · rename_i m params hreq
      unfold State.sendRequest
      split_ifs
      · exact h.finish _ _
      · refine ToolPosts.setPc (h.of_tasks rfl) fun k id hk' _ => ?_
        rw [hk k hk']
        intro hp
        simp [hp, Purpose.request] at hreq

/-- Waking the waiters keeps what the calls are for. -/
theorem purpose_notify {k : Task} {p : Purpose} (hk : ∀ k, s.tasks[t]? = some k → k.purpose = p)
    (h : s.notifyConnectWaiters.tasks[t]? = some k) : k.purpose = p := by
  have hall : ∀ (ws : List ℕ) (s : State), (∀ k, s.tasks[t]? = some k → k.purpose = p) →
      ∀ k, (ws.foldl (fun s t => s.setPc t (.waiting true)) s).tasks[t]? = some k → k.purpose = p := by
    intro ws
    induction ws with
    | nil => exact fun _ h => h
    | cons t' ws ih =>
      intro s h
      refine ih _ fun k hk => ?_
      simp only [State.setPc, List.getElem?_modify] at hk
      obtain ⟨k₀, hk₀, rfl⟩ := Option.map_eq_some_iff.mp hk
      split_ifs
      · exact h k₀ hk₀
      · exact h k₀ hk₀
  exact hall _ s hk k h

theorem finishConnect {task : Task} {status : Option Status.Error} (h : ToolPosts s)
    (hk : ∀ k, s.tasks[t]? = some k → k.purpose = task.purpose) : ToolPosts (s.finishConnect sp t task status) := by
  have hset : ∀ st, ToolPosts (s.setState st) := fun st => h.of_tasks rfl
  have htasks : (s.setState .ready).maybeStartHttpReader.tasks = s.tasks := by
    unfold State.maybeStartHttpReader
    split_ifs
    · rfl
    · rfl
  cases status with
  | none =>
    refine (hset .ready).maybeStart.notify.proceed fun k hk' => purpose_notify ?_ hk'
    rw [htasks]
    exact hk
  | some e => exact (hset .broken).notify.proceed fun k hk' => purpose_notify (s := s.setState .broken) hk hk'

theorem postRpc {task : Task} {m : Method} {params : Value} {b : Bool} {pc : ℕ → Pc} (h : ToolPosts s)
    (hpc : ∀ n id, pc n ≠ .toolPost id) : ToolPosts (s.postRpc sp t task m params b pc) := by
  unfold State.postRpc
  refine ToolPosts.setPc ?_ fun _ id _ h => absurd h (hpc _ id)
  cases b
  · exact h.of_tasks rfl
  · exact h.of_tasks rfl

end ToolPosts

theorem toolPosts_step {c : Choice} (h : ToolPosts s) (hd : Did sp s c s') : ToolPosts s' := by
  have harrive : ∀ p context, ToolPosts (s.arrive p context) := by
    intro p context k hk id hpc
    rcases List.mem_append.mp hk with hk | hk
    · exact h k hk id hpc
    · obtain rfl := List.mem_singleton.mp hk
      simp [newTask] at hpc
  have hnew : ∀ p context k, (s.arrive p context).tasks[s.tasks.length]? = some k →
      k.purpose = (newTask p context).purpose := by
    intro p context k hk
    rw [State.arrive, List.getElem?_concat_length] at hk
    rw [← Option.some.inj hk]
  have hpost : ∀ id head body, (s.postResult sp id head body).1.tasks = s.tasks := fun id head body =>
    (completes_postResult sp s id head body).tasks
  cases hd with
  | refused _ _ => exact (harrive _ _).finish _ _
  | ready _ _ => exact (harrive _ _).proceed (hnew _ _)
  | @waits p context _ _ => exact ToolPosts.setPc ((harrive p context).of_tasks rfl) (by simp)
  | @starts p context _ _ _ =>
    have hfresh : ToolPosts (s.arrive p context).fresh ∧ ∀ k, (s.arrive p context).fresh.tasks[s.tasks.length]? = some k →
        k.purpose = (newTask p context).purpose := by
      unfold State.fresh
      split_ifs
      · set s₁ := { ((s.arrive p context).record [.dropped]).stopHttpReader with lastEventId := "", sessionId := "" }
        have hposts : ToolPosts s₁ := (harrive p context).of_tasks rfl
        exact ⟨hposts.notify, fun k hk => ToolPosts.purpose_notify (s := s₁) (hnew p context) hk⟩
      · exact ⟨harrive p context, hnew p context⟩
    unfold State.startConnect
    simp only
    split_ifs
    · exact ToolPosts.finishConnect (hfresh.1.of_tasks rfl) hfresh.2
    · exact ToolPosts.postRpc (hfresh.1.of_tasks rfl) (by simp)
  | @woken t k hk _ =>
    refine h.proceed fun k' hk' => ?_
    rw [Option.some.inj (hk'.symm.trans hk)]
  | @initDone t k id head body hk _ =>
    have hres := h.of_tasks (hpost (some id) head body)
    have hpurpose : ∀ k', (s.postResult sp (some id) head body).1.tasks[t]? = some k' → k'.purpose = k.purpose := by
      intro k' hk'
      rw [hpost] at hk'
      rw [Option.some.inj (hk'.symm.trans hk)]
    unfold State.initAnswered
    split
    · exact hres.finish _ _
    · exact hres.finishConnect hpurpose
    · split_ifs
      · exact hres.finishConnect hpurpose
      · exact hres.postRpc (by simp)
  | @ackDone t k assigned head body hk _ =>
    have hres := h.of_tasks (hpost none head body)
    have hpurpose : ∀ k', (s.postResult sp none head body).1.tasks[t]? = some k' → k'.purpose = k.purpose := by
      intro k' hk'
      rw [hpost] at hk'
      rw [Option.some.inj (hk'.symm.trans hk)]
    unfold State.ackAnswered
    split
    · exact hres.finish _ _
    · exact hres.finishConnect hpurpose
    · set s₁ := (s.postResult sp none head body).1.setState .ready
      have hposts : ToolPosts s₁ := hres.of_tasks rfl
      exact ToolPosts.finishConnect (s := s₁.notifyConnectWaiters.record _) hposts.notify
        fun k' hk' => ToolPosts.purpose_notify (s := s₁) hpurpose hk'
  | toolDone _ _ => exact (h.of_tasks (hpost _ _ _)).finish _ _
  | readerLoops _ _ _ =>
    unfold State.readHttpNotifications
    split_ifs
    · exact h.of_tasks rfl
    · exact h.of_tasks rfl
  | received _ _ =>
    unfold State.receive
    split_ifs
    · exact h
    simp only
    split_ifs
    · exact h.of_tasks rfl
    · unfold State.recordId State.forward
      split
      · split
        · exact h.of_tasks rfl
        · exact h.of_tasks rfl
      · split
        · exact h.of_tasks rfl
        · exact h.of_tasks rfl
  | getDone _ _ =>
    unfold State.getCompletes
    split_ifs
    · exact h.of_tasks rfl
    · exact h.of_tasks rfl
    · exact h.of_tasks rfl
    · exact h.of_tasks rfl
  | handlerSet =>
    unfold State.setInboundEventHandler
    simp only
    split_ifs
    · exact ToolPosts.maybeStart (h.of_tasks rfl)
    · exact h.of_tasks rfl
  | shutDown => exact ToolPosts.notify (h.of_tasks rfl)

theorem reports_of_did {c : Choice} (hp : ToolPosts s) (hd : Did sp s c s') : Reports s s' := by
  have harrive : ∀ p context, Silent s (s.arrive p context) := fun p context => ⟨[_], rfl, by simp [Event.isConnected]⟩
  cases hd with
  | refused _ _ => exact ((harrive _ _).trans (Silent.finish_failed _ _ _)).reports
  | @ready p context hr _ => exact (harrive p context).then_reports (Reports.proceed fun _ => hr)
  | @waits p context _ _ => exact ((harrive p context).trans (Silent.of_log rfl)).reports
  | @starts p context _ _ _ =>
    have hfresh : Silent (s.arrive p context) (s.arrive p context).fresh := by
      unfold State.fresh
      split_ifs
      · have hlog := (shutdownInternal_eq ((s.arrive p context).record [.dropped]) false).2.2.1
        exact ⟨[.dropped], hlog, by simp [Event.isConnected]⟩
      · exact Silent.of_log rfl
    exact (((harrive p context).trans hfresh).trans (Silent.startConnect _ _ _ _)).reports
  | woken _ _ =>
    refine Reports.proceed fun hst => ?_
    by_contra hne
    simp [hne] at hst
  | @initDone t k id head body _ _ =>
    refine (Silent.postResult sp s (some id) head body).then_reports (Silent.reports ?_)
    unfold State.initAnswered
    split
    · exact ⟨[_], rfl, by simp [Event.isConnected]⟩
    · exact Silent.finishConnect_failed _ _ _ _ _
    · split_ifs
      · exact Silent.finishConnect_failed _ _ _ _ _
      · exact Silent.postRpc _ _ _ _ _ _ _ _
  | @ackDone t k assigned head body _ _ =>
    refine (Silent.postResult sp s none head body).then_reports ?_
    unfold State.ackAnswered
    split
    · exact Silent.reports ⟨[_], rfl, by simp [Event.isConnected]⟩
    · exact (Silent.finishConnect_failed _ _ _ _ _).reports
    · set s₁ := (s.postResult sp none head body).1
      set s₂ := (s₁.setState .ready).notifyConnectWaiters.record [.handshaken t assigned]
      have hset : Silent s₁ (s₁.setState .ready) := Silent.of_log rfl
      have hrec : Silent s₁ s₂ := (hset.trans (Silent.notify _)).trans (Silent.record (by simp [Event.isConnected]))
      have hready : Silent s₂ (s₂.setState .ready) := Silent.of_log rfl
      have hstart := (hrec.trans hready).trans ((Silent.maybeStart _).trans (Silent.notify _))
      have hstate : (s₂.setState .ready).maybeStartHttpReader.notifyConnectWaiters.state = .ready := by
        rw [State.notifyConnectWaiters_eq]
        unfold State.maybeStartHttpReader
        split_ifs
        · rfl
        · rfl
      exact hstart.then_reports (Reports.proceed fun _ => hstate)
  | @toolDone t k id head body hk hpc =>
    refine (Silent.postResult sp s (some id) head body).then_reports (Silent.reports ⟨[_], rfl, ?_⟩)
    have hne := hp _ (List.mem_of_getElem? hk) _ hpc
    intro e he
    obtain rfl := List.mem_singleton.mp he
    have := outcome_ne_connected (c := sp.toClient) hne
    simp only [Event.isConnected]
    split
    · rename_i heq
      obtain ⟨-, ho⟩ := Event.returned.inj heq
      exact absurd ho (this _)
    · rfl
  | readerLoops _ _ _ =>
    refine Silent.reports ?_
    unfold State.readHttpNotifications
    split_ifs
    · exact ⟨[_], rfl, by simp [Event.isConnected]⟩
    · exact Silent.of_log rfl
  | received _ _ =>
    refine Silent.reports ?_
    unfold State.receive
    split_ifs
    · exact Silent.of_log rfl
    simp only
    split_ifs
    · exact Silent.of_log rfl
    · unfold State.recordId State.forward
      split
      · split
        · exact ⟨[_], rfl, by simp [Event.isConnected]⟩
        · exact Silent.of_log rfl
      · split
        · exact ⟨[_], rfl, by simp [Event.isConnected]⟩
        · exact Silent.of_log rfl
  | getDone _ _ =>
    refine Silent.reports ?_
    unfold State.getCompletes
    split_ifs
    · exact Silent.of_log rfl
    · exact Silent.of_log rfl
    · exact Silent.of_log rfl
    · exact Silent.of_log rfl
  | @handlerSet b =>
    refine Silent.reports ?_
    have hset : Silent s (State.record { s with handler := b } [.handlerSet b]) := ⟨[_], rfl, by simp [Event.isConnected]⟩
    unfold State.setInboundEventHandler
    simp only
    split_ifs
    · exact hset.trans (Silent.maybeStart _)
    · exact hset.trans (Silent.of_log rfl)
  | shutDown =>
    have hlog := (shutdownInternal_eq (s.record [.shutDown]) true).2.2.1
    exact Silent.reports ⟨[.shutDown], hlog, by simp [Event.isConnected]⟩

/-! ### Whole runs -/

/-- **One handshake at a time.** In every run of a client whose configuration
does not set the session, when the steps are undisturbed: at most one call is
in a handshake; every `tools/*` request is sent with the session id of the
handshake completed last; and a step in which a `Connect` succeeds leaves the
client ready with a session. -/
theorem single_flight_of_undisturbed {cs : List Choice} (hsp : sp.NoSession)
    (h : Reaches sp (fun s c => Undisturbed s c = true) cs s) :
    (∀ i j, (s.handshake i).isSome = true → (s.handshake j).isSome = true → i = j) ∧
    History.Each SentInSession s.log ∧
    (∀ c s', Undisturbed s c = true → step sp c s = some s' → ∃ es, s'.log = s.log ++ es ∧
      ((∃ e ∈ es, e.isConnected = true) → s'.state = .ready ∧ s'.sessionId ≠ "")) := by
  have hI : SingleFlight s ∧ ToolPosts s := Reaches.invariant (I := fun s => SingleFlight s ∧ ToolPosts s)
    (fun _ _ _ hI hok hd => ⟨singleFlight_step hsp hI.1 hok hd, toolPosts_step hI.2 hd⟩) h
    ⟨singleFlight_init, by simp [ToolPosts]⟩
  refine ⟨hI.1.one, hI.1.sent, fun c s' hok hstep => ?_⟩
  obtain ⟨es, hl, hst⟩ := reports_of_did hI.2 (did_of_step hstep)
  have hnext := singleFlight_step hsp hI.1 hok (did_of_step hstep)
  exact ⟨es, hl, fun he => ⟨hst he, (hnext.ready (hst he)).2⟩⟩

/-- A handshake, and a tool call in its session. -/
def toolRun : List Choice := handshakeRun ++ [.call .listTools "", .answer 1 2 "a"]

theorem single_flight_of_undisturbed_tools : ∃ s,
    Reaches Spec.sample (fun s c => Undisturbed s c = true) toolRun s ∧ s.sessionId = "a" ∧
    History.Each SentInSession s.log := by
  have h : (Stepping.check (step Spec.sample) Undisturbed toolRun {}).any
      (fun s => s.sessionId = "a") = true := by decide +kernel
  obtain ⟨s, hr, hs⟩ := Stepping.Run.exists_of_check (fun s c => Undisturbed s c = true) h fun _ _ h => h
  have hsp : Spec.sample.NoSession := by simp [Spec.NoSession, Spec.sample]
  exact ⟨s, hr, of_decide_eq_true hs, (single_flight_of_undisturbed hsp hr).2.1⟩

/-- The POST of a call fails. -/
def Choice.failed (t : ℕ) : Choice := .postDone t ⟨0, []⟩ (.error ⟨.unavailable, "connection reset"⟩)

/-- Two requests are outstanding; one fails, a `Connect` starts the next
handshake, the other fails late, and one more `Connect` starts another. -/
def lateFailureRun : List Choice :=
  handshakeRun ++ [.call .listTools "", .call .listTools "", .failed 2, .call .connect "", .failed 1, .call .connect ""]

/-- A request of the earlier session that fails during the handshake lets a
second one start. -/
theorem not_single_flight : ∃ s, Reaches Spec.sample (fun _ _ => True) lateFailureRun s ∧
    (s.handshake 3).isSome = true ∧ (s.handshake 4).isSome = true := by
  have h : (Stepping.check (step Spec.sample) (fun _ _ => true) lateFailureRun {}).any
      (fun s => (s.handshake 3).isSome && (s.handshake 4).isSome) = true := by decide +kernel
  obtain ⟨s, hr, hs⟩ := Stepping.Run.exists_of_check (fun _ _ => True) h fun _ _ _ => trivial
  rw [Bool.and_eq_true] at hs
  exact ⟨s, hr, hs⟩

end Http
end Mcp
end AgentFlow
