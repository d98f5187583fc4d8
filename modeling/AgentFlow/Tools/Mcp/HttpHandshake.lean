/-
# The handshake over HTTP

Calls that find the client unconnected share one handshake: the first makes
it, the others wait. What is shared is one state and one session id, and a
POST that fails sets the state to broken whatever else is going on; a call
that comes then starts a second handshake. Likewise any answer may bring a
session id, which replaces the one in use.

The steps that do neither are `Undisturbed`, and they keep `SingleFlight`: one
handshake at most, the session in use is the one it was assigned, and a client
that is ready has a session.

Key definitions: `Undisturbed`, `SentInSession`, `SingleFlight`.
Key theorems: `singleFlight_step`.
-/
import AgentFlow.Tools.Mcp.HttpReader

namespace AgentFlow
namespace Mcp
namespace Http

open Json

variable {sp : Spec} {s s' : State} {t : ℕ}

/-! ### What should hold -/

/-- The handshake a call is in: before the answer to `initialize`, or after it
with the session that was assigned. -/
def Pc.handshake? : Pc → Option (Option String)
  | .initPost _ => some none
  | .ackPost assigned => some (some assigned)
  | _ => none

def State.handshake (s : State) (i : ℕ) : Option (Option String) := s.tasks[i]?.bind fun k => k.pc.handshake?

def State.inHandshake (s : State) : Bool := s.tasks.any fun k => k.pc.handshake?.isSome

def Event.assigned? : Event → Option String
  | .handshaken _ sid => some sid
  | _ => none

/-- The session of the handshake completed last. -/
def lastAssigned (log : List Event) : Option String := (log.filterMap Event.assigned?).getLast?

def isTools : Method → Bool
  | .toolsList => true
  | .toolsCall => true
  | _ => false

/-- A `tools/*` request is sent in the session of the last completed handshake. -/
def SentInSession (before : List Event) (e : Event) : Prop :=
  ∀ t m headers, e = .posted t m headers → isTools m.method = true →
    lastAssigned before = some (sessionIdFromHeaders headers)

/-- The POST does not fail, or only because it was cancelled. -/
def staysUp : Except Status.Error String → Bool
  | .error e => e.code = .cancelled
  | .ok _ => true

def State.isInitPost (s : State) (t : ℕ) : Bool := s.handshake t = some none

/-- What a run has to keep to: a call that finds the client broken does not
come during a handshake; an answer to another POST than `initialize` brings no
other session id while a handshake is in progress or the client stays ready;
`Shutdown()` is not called while an acknowledgement is outstanding. -/
def Undisturbed (s : State) : Choice → Bool
  | .call _ _ => s.state ≠ .broken || s.shutdown || !s.inHandshake
  | .postDone t head body =>
    s.isInitPost t || sessionIdFromHeaders head.headers = "" || sessionIdFromHeaders head.headers = s.sessionId ||
      (!s.inHandshake && (s.state ≠ .ready || !staysUp body))
  | .shutdown => s.tasks.all fun k => k.pc.handshake?.join = none
  | _ => true

/-! ### The session on the wire -/

/-- The configuration does not set the session. -/
def Spec.NoSession (sp : Spec) : Prop := ∀ h ∈ sp.headers, toLower h.1 ≠ "mcp-session-id"

theorem find?_modify {α : Type*} {p : α → Bool} {f : α → α} (hp : ∀ a, p (f a) = p a) :
    ∀ (l : List α) (i : ℕ), (∀ a, l[i]? = some a → p a = false) → (l.modify i f).find? p = l.find? p
  | [], _, _ => by simp
  | a :: l, 0, h => by
    have ha : p a = false := h a rfl
    simp [hp, ha]
  | a :: l, i + 1, h => by
    rw [List.modify_succ_cons, List.find?_cons, List.find?_cons, find?_modify hp l i h]

theorem find?_setHeader {headers : Headers} {name value : String} (h : toLower name ≠ "mcp-session-id") :
    (setHeader headers name value).find? (fun h => toLower h.1 = "mcp-session-id") =
      headers.find? fun h => toLower h.1 = "mcp-session-id" := by
  unfold setHeader
  split
  · rename_i i hi
    refine find?_modify (f := fun h => (h.1, value)) (fun _ => rfl) headers i fun a ha => ?_
    obtain ⟨hlt, hname, -⟩ := List.findIdx?_eq_some_iff_getElem.mp hi
    obtain ⟨_, rfl⟩ := List.getElem?_eq_some_iff.mp ha
    rw [decide_eq_true_eq] at hname
    rw [decide_eq_false_iff_not, hname]
    exact h
  · rw [List.find?_append]
    simp [h]

/-- A POST carries the session it was given. -/
theorem sessionIdFromHeaders_postHeaders {sid : String} {configured : Headers} (metadata : Headers)
    (h : ∀ h ∈ configured, toLower h.1 ≠ "mcp-session-id") (hne : sid ≠ "") :
    sessionIdFromHeaders (postHeaders sid configured metadata) = sid := by
  have hfold : ∀ (hs base : Headers), (∀ h ∈ hs, toLower h.1 ≠ "mcp-session-id") →
      (hs.foldl (fun hs h => setHeader hs h.1 h.2) base).find? (fun h => toLower h.1 = "mcp-session-id") =
        base.find? fun h => toLower h.1 = "mcp-session-id" := by
    intro hs
    induction hs with
    | nil => exact fun _ _ => rfl
    | cons b hs ih =>
      intro base hb
      rw [List.foldl_cons, ih _ fun h hh => hb h (List.mem_cons_of_mem _ hh)]
      exact find?_setHeader (hb b (List.mem_cons_self ..))
  have hbase : (buildMcpHttpHeaders sid).find? (fun h => toLower h.1 = "mcp-session-id") =
      some ("Mcp-Session-Id", sid) := by
    have h₁ : toLower "Content-Type" ≠ "mcp-session-id" := by decide
    have h₂ : toLower "Accept" ≠ "mcp-session-id" := by decide
    have h₃ : toLower "Mcp-Session-Id" = "mcp-session-id" := by decide
    simp [buildMcpHttpHeaders, hne, h₁, h₂, h₃]
  have hname : toLower "mcp-session-id" = "mcp-session-id" := by decide
  unfold sessionIdFromHeaders headerValue postHeaders
  rw [hname, List.find?_append, hfold configured _ h, hbase]
  rfl

/-! ### Handshakes of calls -/

theorem handshake_setPc {i : ℕ} {pc : Pc} : (s.setPc t pc).handshake i =
    if i = t then s.tasks[t]?.bind fun _ => pc.handshake? else s.handshake i := by
  unfold State.handshake State.setPc
  simp only [List.getElem?_modify]
  split_ifs with h₁ h₂ h₂
  · subst h₁
    cases s.tasks[t]? with
    | none => rfl
    | some k => rfl
  · exact absurd h₁.symm h₂
  · exact absurd h₂.symm h₁
  · simp

theorem handshake_of_tasks {i : ℕ} (h : s'.tasks = s.tasks) : s'.handshake i = s.handshake i := by
  unfold State.handshake
  rw [h]

theorem inHandshake_eq_false (h : s.inHandshake = false) (i : ℕ) : s.handshake i = none := by
  unfold State.handshake
  cases hk : s.tasks[i]? with
  | none => rfl
  | some k =>
    have := List.any_eq_false.mp h k (List.mem_of_getElem? hk)
    simpa using this

/-- The waiters are calls that wait. -/
def Waiters (s : State) : Prop := ∀ i ∈ s.connectWaiters, ∃ k, s.tasks[i]? = some k ∧ k.pc = .waiting false

/-- Waking the waiters starts and ends no handshake. -/
theorem handshake_notify {i : ℕ} (hw : Waiters s) : s.notifyConnectWaiters.handshake i = s.handshake i := by
  rw [s.notifyConnectWaiters_eq]
  unfold State.handshake
  by_cases hi : i ∈ s.connectWaiters
  · obtain ⟨k, hk, hpc⟩ := hw i hi
    rw [hk]
    cases hk' : (wake s.connectWaiters s.tasks)[i]? with
    | none => simp [hpc, Pc.handshake?]
    | some k' => simp [hpc, getElem?_wake_of_mem hi hk', Pc.handshake?]
  · simp only [getElem?_wake hi]

theorem Waiters.setPc {pc : Pc} (hw : Waiters s) (ht : t ∉ s.connectWaiters) : Waiters (s.setPc t pc) := by
  intro i hi
  obtain ⟨k, hk, hpc⟩ := hw i hi
  have hne : t ≠ i := fun h => ht (h ▸ hi)
  refine ⟨k, ?_, hpc⟩
  simp only [State.setPc]
  rw [List.getElem?_modify_ne _ _ hne, hk]

theorem Waiters.notify (s : State) : Waiters s.notifyConnectWaiters := by
  rw [s.notifyConnectWaiters_eq]
  intro i hi
  simp at hi

/-! ### The invariant -/

/-- What is kept about the calls but `t`, which runs. -/
structure FlightBut (t : ℕ) (s : State) : Prop where
  one : ∀ i j, i ≠ t → j ≠ t → (s.handshake i).isSome = true → (s.handshake j).isSome = true → i = j
  init : ∀ i, i ≠ t → s.handshake i = some none → s.sessionId = ""
  ack : ∀ i sid, i ≠ t → s.handshake i = some (some sid) → s.sessionId = sid ∧ sid ≠ ""
  busy : ∀ i, i ≠ t → (s.handshake i).isSome = true → s.state = .connecting ∨ s.state = .broken
  ready : s.state = .ready → lastAssigned s.log = some s.sessionId ∧ s.sessionId ≠ ""
  sent : History.Each SentInSession s.log
  waiters : Waiters s
  notWaiting : t ∉ s.connectWaiters

structure SingleFlight (s : State) : Prop where
  one : ∀ i j, (s.handshake i).isSome = true → (s.handshake j).isSome = true → i = j
  init : ∀ i, s.handshake i = some none → s.sessionId = ""
  ack : ∀ i sid, s.handshake i = some (some sid) → s.sessionId = sid ∧ sid ≠ ""
  busy : ∀ i, (s.handshake i).isSome = true → s.state = .connecting ∨ s.state = .broken
  ready : s.state = .ready → lastAssigned s.log = some s.sessionId ∧ s.sessionId ≠ ""
  sent : History.Each SentInSession s.log
  waiters : Waiters s

/-- Entries that are no request of a call and complete no handshake. -/
def Event.apart : Event → Bool
  | .posted _ m _ => !isTools m.method
  | .handshaken _ _ => false
  | _ => true

theorem SentInSession.of_apart {e : Event} (he : e.apart = true) (l : List Event) : SentInSession l e := by
  rintro t m headers rfl hm
  simp [Event.apart, hm] at he

theorem assigned?_of_apart {e : Event} (he : e.apart = true) : e.assigned? = none := by
  cases e with
  | handshaken _ _ => simp [Event.apart] at he
  | _ => rfl

theorem lastAssigned_append {log es : List Event} (hes : ∀ e ∈ es, e.assigned? = none) :
    lastAssigned (log ++ es) = lastAssigned log := by
  rw [lastAssigned, List.filterMap_append, List.filterMap_eq_nil_iff.mpr hes, List.append_nil]
  rfl

theorem SingleFlight.but (h : SingleFlight s) (ht : t ∉ s.connectWaiters) : FlightBut t s where
  one := fun i j _ _ => h.one i j
  init := fun i _ => h.init i
  ack := fun i sid _ => h.ack i sid
  busy := fun i _ => h.busy i
  ready := h.ready
  sent := h.sent
  waiters := h.waiters
  notWaiting := ht

namespace FlightBut

/-- Nothing of it is changed. -/
theorem keep {es : List Event} (h : FlightBut t s) (hh : ∀ i, i ≠ t → s'.handshake i = s.handshake i)
    (hst : s'.state = s.state) (hsid : s'.sessionId = s.sessionId) (hl : s'.log = s.log ++ es)
    (hes : ∀ e ∈ es, e.apart = true) (hw : Waiters s') (ht : t ∉ s'.connectWaiters) : FlightBut t s' where
  one := fun i j hi hj => by
    rw [hh i hi, hh j hj]
    exact h.one i j hi hj
  init := fun i hi => by
    rw [hh i hi, hsid]
    exact h.init i hi
  ack := fun i sid hi => by
    rw [hh i hi, hsid]
    exact h.ack i sid hi
  busy := fun i hi => by
    rw [hh i hi, hst]
    exact h.busy i hi
  ready := by
    rw [hst, hsid, hl, lastAssigned_append fun e he => assigned?_of_apart (hes e he)]
    exact h.ready
  sent := by
    rw [hl]
    exact h.sent.append_of_forall fun e he l => SentInSession.of_apart (hes e he) l
  waiters := hw
  notWaiting := ht

theorem setBroken (h : FlightBut t s) : FlightBut t (s.setState .broken) where
  one := h.one
  init := h.init
  ack := h.ack
  busy := fun _ _ _ => Or.inr rfl
  ready := fun hr => by simp [State.setState] at hr
  sent := h.sent
  waiters := h.waiters
  notWaiting := h.notWaiting

theorem notify (h : FlightBut t s) : FlightBut t s.notifyConnectWaiters := by
  have hl : s.notifyConnectWaiters.log = s.log ++ [] := by rw [s.notifyConnectWaiters_eq, List.append_nil]
  have hst : s.notifyConnectWaiters.state = s.state := by rw [s.notifyConnectWaiters_eq]
  have hsid : s.notifyConnectWaiters.sessionId = s.sessionId := by rw [s.notifyConnectWaiters_eq]
  refine h.keep (fun i _ => handshake_notify h.waiters) hst hsid hl (by simp) (Waiters.notify s) ?_
  rw [s.notifyConnectWaiters_eq]
  simp

theorem maybeStart (h : FlightBut t s) : FlightBut t s.maybeStartHttpReader := by
  unfold State.maybeStartHttpReader
  split_ifs
  · exact h
  · exact h.keep (fun i _ => handshake_of_tasks rfl) rfl rfl rfl (by simp [Event.apart]) h.waiters h.notWaiting

/-- The call ends, or goes on to something that is no handshake. -/
theorem settle {p : Pc} (h : FlightBut t s) (hpc : p.handshake? = none) : SingleFlight (s.setPc t p) := by
  have hh : ∀ i, ((s.setPc t p).handshake i).isSome = true →
      i ≠ t ∧ (s.setPc t p).handshake i = s.handshake i := by
    intro i hi
    rw [handshake_setPc] at hi ⊢
    split_ifs at hi ⊢ with ht
    · rw [hpc] at hi
      cases s.tasks[t]? <;> simp at hi
    · exact ⟨ht, rfl⟩
  constructor
  · intro i j hi hj
    obtain ⟨hit, hi'⟩ := hh i hi
    obtain ⟨hjt, hj'⟩ := hh j hj
    exact h.one i j hit hjt (hi' ▸ hi) (hj' ▸ hj)
  · intro i hi
    obtain ⟨hit, hi'⟩ := hh i (by rw [hi]; rfl)
    exact h.init i hit (hi' ▸ hi)
  · intro i sid hi
    obtain ⟨hit, hi'⟩ := hh i (by rw [hi]; rfl)
    exact h.ack i sid hit (hi' ▸ hi)
  · intro i hi
    obtain ⟨hit, hi'⟩ := hh i hi
    exact h.busy i hit (hi' ▸ hi)
  · exact h.ready
  · exact h.sent
  · exact h.waiters.setPc h.notWaiting

end FlightBut

theorem SingleFlight.record {l : List Event} (h : SingleFlight s) (hes : ∀ e ∈ l, e.apart = true) :
    SingleFlight (s.record l) where
  one := h.one
  init := h.init
  ack := h.ack
  busy := h.busy
  ready := fun hr => by
    have hlast : lastAssigned (s.log ++ l) = lastAssigned s.log :=
      lastAssigned_append fun e he => assigned?_of_apart (hes e he)
    exact ⟨hlast.trans (h.ready hr).1, (h.ready hr).2⟩
  sent := h.sent.append_of_forall fun e he l => SentInSession.of_apart (hes e he) l
  waiters := h.waiters

namespace FlightBut

theorem finish (h : FlightBut t s) (o : Outcome) : SingleFlight (s.finish t o) :=
  (h.settle (p := .done) rfl).record (by simp [Event.apart])

/-- A ready client sends the request of a call. -/
theorem tool {task : Task} {m : Method} {params : Value} (hsp : sp.NoSession) (h : FlightBut t s)
    (hr : s.state = .ready) : SingleFlight (s.postRpc sp t task m params false .toolPost) := by
  obtain ⟨hlast, hne⟩ := h.ready hr
  have hset : SingleFlight ({ s with nextId := s.nextId + 1 }.setPc t (.toolPost s.nextId)) :=
    FlightBut.settle (s := { s with nextId := s.nextId + 1 })
      (h.keep (fun i _ => handshake_of_tasks rfl) rfl rfl (List.append_nil _).symm (by simp) h.waiters h.notWaiting) rfl
  have hsent : SentInSession s.log (.posted t ⟨some s.nextId, m, params⟩
      (postHeaders s.sessionId sp.headers (callMetadata m task.context sp.metadataToken))) := by
    intro i msg headers he _
    obtain ⟨-, -, rfl⟩ := Event.posted.inj he
    rw [sessionIdFromHeaders_postHeaders _ hsp hne]
    exact hlast
  refine ⟨hset.one, hset.init, hset.ack, hset.busy, fun _ => ?_, History.each_snoc.mpr ⟨h.sent, hsent⟩, hset.waiters⟩
  have hlog : (s.postRpc sp t task m params false .toolPost).log = s.log ++ [.posted t ⟨some s.nextId, m, params⟩
      (postHeaders s.sessionId sp.headers (callMetadata m task.context sp.metadataToken))] := rfl
  refine ⟨?_, hne⟩
  rw [hlog, lastAssigned_append (by simp [Event.assigned?])]
  exact hlast

theorem proceed {task : Task} {status : Option Status.Error} (hsp : sp.NoSession) (h : FlightBut t s)
    (hr : status = none → s.state = .ready) : SingleFlight (s.proceed sp t task status) := by
  cases status with
  | some e => exact h.finish _
  | none =>
    simp only [State.proceed]
    split
    · exact h.finish _
    · exact h.finish _
    · unfold State.sendRequest
      rw [if_neg (by simp [hr rfl])]
      exact h.tool hsp (hr rfl)

theorem finishConnect_failed {task : Task} (hsp : sp.NoSession) (h : FlightBut t s) (e : Status.Error) :
    SingleFlight (s.finishConnect sp t task (some e)) := by
  have hfin : s.finishConnect sp t task (some e) =
      (s.setState .broken).notifyConnectWaiters.proceed sp t task (some e) := rfl
  rw [hfin]
  exact h.setBroken.notify.proceed hsp (by simp)

end FlightBut

/-- No call but `t` is in a handshake. -/
structure Alone (t : ℕ) (s : State) : Prop where
  none : ∀ i, i ≠ t → s.handshake i = none
  sent : History.Each SentInSession s.log
  waiters : Waiters s
  notWaiting : t ∉ s.connectWaiters

namespace Alone

theorem flightBut (h : Alone t s)
    (hr : s.state = .ready → lastAssigned s.log = some s.sessionId ∧ s.sessionId ≠ "") : FlightBut t s where
  one := fun i j hi _ hs => by simp [h.none i hi] at hs
  init := fun i hi hs => by simp [h.none i hi] at hs
  ack := fun i sid hi hs => by simp [h.none i hi] at hs
  busy := fun i hi hs => by simp [h.none i hi] at hs
  ready := hr
  sent := h.sent
  waiters := h.waiters
  notWaiting := h.notWaiting

/-- Nothing of it is changed; state and session may be. -/
theorem keep {es : List Event} (h : Alone t s) (hh : ∀ i, s'.handshake i = s.handshake i) (hl : s'.log = s.log ++ es)
    (hes : ∀ e ∈ es, e.apart = true) (hw : Waiters s') (ht : t ∉ s'.connectWaiters) : Alone t s' where
  none := fun i hi => (hh i).trans (h.none i hi)
  sent := by
    rw [hl]
    exact h.sent.append_of_forall fun e he l => SentInSession.of_apart (hes e he) l
  waiters := hw
  notWaiting := ht

theorem setState (h : Alone t s) (st : ConnState) : Alone t (s.setState st) :=
  ⟨h.none, h.sent, h.waiters, h.notWaiting⟩

/-- The call `t` begins a handshake, or goes on with it. -/
theorem enter {p : Pc} (h : Alone t s) (hst : s.state = .connecting ∨ s.state = .broken)
    (hpc : (p.handshake? = some Option.none ∧ s.sessionId = "") ∨
      (p.handshake? = some (some s.sessionId) ∧ s.sessionId ≠ "")) : SingleFlight (s.setPc t p) := by
  have hh : ∀ i x, (s.setPc t p).handshake i = some x → i = t ∧ p.handshake? = some x := by
    intro i x hi
    rw [handshake_setPc] at hi
    split_ifs at hi with ht
    · refine ⟨ht, ?_⟩
      cases hk : s.tasks[t]? with
      | none => simp [hk] at hi
      | some k => simpa [hk] using hi
    · simp [h.none i ht] at hi
  have hsome : ∀ i, ((s.setPc t p).handshake i).isSome = true → i = t := by
    intro i hi
    obtain ⟨x, hx⟩ := Option.isSome_iff_exists.mp hi
    exact (hh i x hx).1
  constructor
  · intro i j hi hj
    rw [hsome i hi, hsome j hj]
  · intro i hi
    have hx := (hh i _ hi).2
    rcases hpc with ⟨-, hsid⟩ | ⟨hpc, -⟩
    · exact hsid
    · simp [hpc] at hx
  · intro i sid hi
    have hx := (hh i _ hi).2
    rcases hpc with ⟨hpc, -⟩ | ⟨hpc, hne⟩
    · simp [hpc] at hx
    · obtain rfl : s.sessionId = sid := by simpa [hpc] using hx
      exact ⟨rfl, hne⟩
  · exact fun _ _ => hst
  · intro hr
    have hr : s.state = .ready := hr
    rcases hst with hst | hst
    · simp [hst] at hr
    · simp [hst] at hr
  · exact h.sent
  · exact h.waiters.setPc h.notWaiting

end Alone

namespace SingleFlight

theorem keep {es : List Event} (h : SingleFlight s) (hh : ∀ i, s'.handshake i = s.handshake i)
    (hst : s'.state = s.state ∨ s'.state = .broken) (hsid : s'.sessionId = s.sessionId) (hl : s'.log = s.log ++ es)
    (hes : ∀ e ∈ es, e.apart = true) (hw : Waiters s') : SingleFlight s' where
  one := fun i j => by
    rw [hh i, hh j]
    exact h.one i j
  init := fun i => by
    rw [hh i, hsid]
    exact h.init i
  ack := fun i sid => by
    rw [hh i, hsid]
    exact h.ack i sid
  busy := fun i => by
    rw [hh i]
    intro hi
    rcases hst with hst | hst
    · rw [hst]
      exact h.busy i hi
    · exact Or.inr hst
  ready := fun hr => by
    rcases hst with hst | hst
    · rw [hsid, hl, lastAssigned_append fun e he => assigned?_of_apart (hes e he)]
      exact h.ready (hst ▸ hr)
    · simp [hst] at hr
  sent := by
    rw [hl]
    exact h.sent.append_of_forall fun e he l => SentInSession.of_apart (hes e he) l
  waiters := hw

/-- A change that no call sees. -/
theorem same {es : List Event} (h : SingleFlight s) (ht : s'.tasks = s.tasks)
    (hc : s'.connectWaiters = s.connectWaiters) (hst : s'.state = s.state ∨ s'.state = .broken)
    (hsid : s'.sessionId = s.sessionId) (hl : s'.log = s.log ++ es) (hes : ∀ e ∈ es, e.apart = true) :
    SingleFlight s' := by
  refine h.keep (fun i => handshake_of_tasks ht) hst hsid hl hes ?_
  unfold Waiters
  rw [ht, hc]
  exact h.waiters

theorem handshake_arrive (s : State) (p : Purpose) (context : String) (i : ℕ) :
    (s.arrive p context).handshake i = s.handshake i := by
  unfold State.handshake State.arrive
  simp only [List.getElem?_append]
  split_ifs with hi
  · rfl
  · rw [List.getElem?_eq_none (l := s.tasks) (by omega)]
    cases hk : [newTask p context][i - s.tasks.length]? with
    | none => rfl
    | some k =>
      obtain rfl : k = newTask p context := by simpa using List.mem_of_getElem? hk
      rfl

theorem arrive (h : SingleFlight s) (p : Purpose) (context : String) : SingleFlight (s.arrive p context) := by
  refine h.keep (handshake_arrive s p context) (Or.inl rfl) rfl rfl (by simp [Event.apart]) ?_
  intro i hi
  obtain ⟨k, hk, hpc⟩ := h.waiters i hi
  refine ⟨k, ?_, hpc⟩
  rw [State.arrive, List.getElem?_append_left (List.getElem?_eq_some_iff.mp hk).1, hk]

/-- The new call is not a waiter. -/
theorem notMem_arrive (h : SingleFlight s) (p : Purpose) (context : String) :
    s.tasks.length ∉ (s.arrive p context).connectWaiters := by
  intro hmem
  obtain ⟨k, hk, -⟩ := h.waiters _ hmem
  simp at hk

/-- A call that does not wait is not a waiter. -/
theorem notMem_of_pc {k : Task} (h : SingleFlight s) (hk : s.tasks[t]? = some k) (hpc : k.pc ≠ .waiting false) :
    t ∉ s.connectWaiters := by
  intro hmem
  obtain ⟨k', hk', hpc'⟩ := h.waiters t hmem
  obtain rfl := Option.some.inj (hk'.symm.trans hk)
  exact hpc hpc'

theorem alone (h : SingleFlight s) (ht : t ∉ s.connectWaiters) (hh : (s.handshake t).isSome = true) : Alone t s where
  none := fun i hi => by
    by_contra hne
    exact hi (h.one i t (Option.isSome_iff_ne_none.mpr hne) hh)
  sent := h.sent
  waiters := h.waiters
  notWaiting := ht

theorem alone_of_none (h : SingleFlight s) (ht : t ∉ s.connectWaiters) (hh : ∀ i, s.handshake i = none) : Alone t s :=
  ⟨fun i _ => hh i, h.sent, h.waiters, ht⟩

/-- The new call waits for the handshake in progress. -/
theorem awaitConnect (h : SingleFlight s) (p : Purpose) (context : String) :
    SingleFlight ((s.arrive p context).awaitConnect s.tasks.length) := by
  have hset := (h.arrive p context).but (t := s.tasks.length) (h.notMem_arrive p context)
  have hsettle : SingleFlight ((s.arrive p context).setPc s.tasks.length (.waiting false)) := hset.settle rfl
  refine ⟨hsettle.one, hsettle.init, hsettle.ack, hsettle.busy, hsettle.ready, hsettle.sent, ?_⟩
  intro i hi
  rcases List.mem_append.mp hi with hi | hi
  · exact hsettle.waiters i hi
  · obtain rfl := List.mem_singleton.mp hi
    refine ⟨{ newTask p context with pc := .waiting false }, ?_, rfl⟩
    simp [State.awaitConnect, State.setPc, State.arrive]

end SingleFlight

/-! ### The end of a POST -/

/-- What a completed POST changes besides its call: the session, and the state
if it failed. -/
structure Completes (s : State) (head : ResponseHead) (body : Except Status.Error String) (s' : State) : Prop where
  tasks : s'.tasks = s.tasks
  waiters : s'.connectWaiters = s.connectWaiters
  session : s'.sessionId = if sessionIdFromHeaders head.headers = "" then s.sessionId
    else sessionIdFromHeaders head.headers
  stays : staysUp body = true → s'.state = s.state
  fails : staysUp body = false → s'.state = .broken
  log : ∃ es, s'.log = s.log ++ es ∧ ∀ e ∈ es, e.apart = true

theorem completes_postResult (sp : Spec) (s : State) (id : Option ℕ) (head : ResponseHead)
    (body : Except Status.Error String) : Completes s head body (s.postResult sp id head body).1 := by
  have hpub : Completes s head (.ok "") (s.publishSession head) := by
    unfold State.publishSession
    split_ifs with hsid
    · exact ⟨rfl, rfl, by simp [hsid], fun _ => rfl, by simp [staysUp], [], (List.append_nil _).symm, by simp⟩
    · exact ⟨rfl, rfl, by simp [hsid], fun _ => rfl, by simp [staysUp], [], (List.append_nil _).symm, by simp⟩
  have hst : (s.publishSession head).state = s.state := hpub.stays rfl
  unfold State.postResult
  simp only
  split
  · rename_i e
    split_ifs with hc
    · exact ⟨hpub.tasks, hpub.waiters, hpub.session, fun _ => hst, by simp [staysUp, hc], hpub.log⟩
    · exact ⟨hpub.tasks, hpub.waiters, hpub.session, by simp [staysUp, hc], fun _ => rfl, hpub.log⟩
  · rename_i text
    split
    · exact ⟨hpub.tasks, hpub.waiters, hpub.session, fun _ => hst, by simp [staysUp], hpub.log⟩
    · rename_i messages _
      obtain ⟨es, hl, hes⟩ := hpub.log
      refine ⟨hpub.tasks, hpub.waiters, hpub.session, fun _ => hst, by simp [staysUp],
        es ++ (messages.filterMap ((s.publishSession head).notification? sp)).map fun n => .notified n.1 n.2, ?_, ?_⟩
      · simp [State.dispatchAll, State.record, hl]
      · intro e he
        rcases List.mem_append.mp he with he | he
        · exact hes e he
        · obtain ⟨n, -, rfl⟩ := List.mem_map.mp he
          rfl

namespace Completes

variable {head : ResponseHead} {body : Except Status.Error String}

theorem handshake (h : Completes s head body s') (i : ℕ) : s'.handshake i = s.handshake i := handshake_of_tasks h.tasks

theorem waits (h : Completes s head body s') (hw : Waiters s) : Waiters s' := by
  unfold Waiters
  rw [h.tasks, h.waiters]
  exact hw

theorem state (h : Completes s head body s') : s'.state = s.state ∨ s'.state = .broken := by
  cases hb : staysUp body with
  | true => exact Or.inl (h.stays hb)
  | false => exact Or.inr (h.fails hb)

theorem alone (h : Completes s head body s') (ha : Alone t s) : Alone t s' := by
  obtain ⟨es, hl, hes⟩ := h.log
  refine ha.keep h.handshake hl hes (h.waits ha.waiters) ?_
  rw [h.waiters]
  exact ha.notWaiting

end Completes

/-- The answer to `initialize`. -/
theorem SingleFlight.initAnswered {k : Task} {id : ℕ} {head : ResponseHead} {body : Except Status.Error String}
    {r : Except Json.Error (Except Status.Error Value)} (hsp : sp.NoSession) (h : SingleFlight s)
    (hk : s.tasks[t]? = some k) (hpc : k.pc = .initPost id) (hc : Completes s head body s') :
    SingleFlight (s'.initAnswered sp t k head r) := by
  have hh : s.handshake t = some none := by simp [State.handshake, hk, hpc, Pc.handshake?]
  have halone := hc.alone (h.alone (h.notMem_of_pc hk (by simp [hpc])) (by rw [hh]; rfl))
  have hst : s'.state = .connecting ∨ s'.state = .broken := by
    rcases hc.state with hst | hst
    · rw [hst]
      exact h.busy t (by rw [hh]; rfl)
    · exact Or.inr hst
  have hbut : FlightBut t s' := halone.flightBut fun hr => by
    rcases hst with hst | hst
    · simp [hst] at hr
    · simp [hst] at hr
  unfold State.initAnswered
  split
  · exact hbut.finish _
  · exact hbut.finishConnect_failed hsp _
  · split_ifs with hsid
    · exact hbut.finishConnect_failed hsp _
    · -- the session is the one that came with this answer
      have hassigned : s'.sessionId = sessionIdFromHeaders head.headers := by
        have hbefore := h.init t hh
        rw [hc.session] at hsid ⊢
        split_ifs at hsid ⊢ with hnone
        · exact absurd hbefore hsid
        · rfl
      have hrec : Alone t (s'.record [.posted t ⟨none, .initialized, Value.object []⟩
          (postHeaders s'.sessionId sp.headers (callMetadata .initialized k.context sp.metadataToken))]) :=
        halone.keep (fun _ => rfl) rfl (by simp [Event.apart, isTools]) halone.waiters halone.notWaiting
      have := hrec.enter (p := .ackPost s'.sessionId) hst (Or.inr ⟨rfl, hsid⟩)
      rw [← hassigned]
      exact this

/-- The acknowledgement. -/
theorem SingleFlight.ackAnswered {k : Task} {assigned : String} {head : ResponseHead}
    {body : Except Status.Error String} {r : Except Json.Error (Except Status.Error Value)} (hsp : sp.NoSession)
    (h : SingleFlight s) (hk : s.tasks[t]? = some k) (hpc : k.pc = .ackPost assigned)
    (hsid : sessionIdFromHeaders head.headers = "" ∨ sessionIdFromHeaders head.headers = s.sessionId)
    (hc : Completes s head body s') : SingleFlight (s'.ackAnswered sp t k assigned r) := by
  have hh : s.handshake t = some (some assigned) := by simp [State.handshake, hk, hpc, Pc.handshake?]
  have halone := hc.alone (h.alone (h.notMem_of_pc hk (by simp [hpc])) (by rw [hh]; rfl))
  obtain ⟨hsession, hne⟩ := h.ack t assigned hh
  have hkept : s'.sessionId = assigned := by
    rw [hc.session]
    split_ifs with hnone
    · exact hsession
    · exact (hsid.resolve_left hnone).trans hsession
  have hbut : FlightBut t s' := halone.flightBut fun hr => by
    have hst := h.busy t (by rw [hh]; rfl)
    rcases hc.state with heq | heq
    · rcases hst with hst | hst
      · simp [heq, hst] at hr
      · simp [heq, hst] at hr
    · simp [heq] at hr
  unfold State.ackAnswered
  split
  · exact hbut.finish _
  · exact hbut.finishConnect_failed hsp _
  · -- the handshake is complete
    set s₁ := (s'.setState .ready).notifyConnectWaiters.record [.handshaken t assigned] with hs₁
    have hnotify : (s'.setState .ready).notifyConnectWaiters =
        { s'.setState .ready with tasks := wake s'.connectWaiters s'.tasks, connectWaiters := [] } :=
      State.notifyConnectWaiters_eq _
    have halone₁ : Alone t s₁ := by
      refine ⟨fun i hi => ?_, ?_, ?_, ?_⟩
      · have hsame : s₁.handshake i = s'.handshake i := handshake_notify (s := s'.setState .ready) halone.waiters
        exact hsame.trans (halone.none i hi)
      · refine History.each_snoc.mpr ⟨?_, ?_⟩
        · rw [hnotify]
          exact halone.sent
        · intro i m headers he
          simp at he
      · exact Waiters.notify _
      · rw [hs₁, hnotify]
        simp [State.record]
    have hready : lastAssigned s₁.log = some s₁.sessionId ∧ s₁.sessionId ≠ "" := by
      have hsid₁ : s₁.sessionId = assigned := by
        rw [hs₁, hnotify]
        exact hkept
      rw [hsid₁]
      refine ⟨?_, hne⟩
      simp [hs₁, State.record, lastAssigned, Event.assigned?]
    have hfin : s₁.finishConnect sp t k none =
        (s₁.setState .ready).maybeStartHttpReader.notifyConnectWaiters.proceed sp t k none := rfl
    rw [hfin]
    have hbut₁ : FlightBut t (s₁.setState .ready) := (halone₁.setState .ready).flightBut fun _ => hready
    refine hbut₁.maybeStart.notify.proceed hsp fun _ => ?_
    rw [State.notifyConnectWaiters_eq]
    unfold State.maybeStartHttpReader
    split_ifs
    · rfl
    · rfl

/-- A request of a call is answered. -/
theorem SingleFlight.toolAnswered {k : Task} {id : ℕ} {head : ResponseHead} {body : Except Status.Error String}
    (h : SingleFlight s) (hk : s.tasks[t]? = some k) (hpc : k.pc = .toolPost id)
    (hok : Undisturbed s (.postDone t head body) = true) (hc : Completes s head body s') (o : Outcome) :
    SingleFlight (s'.finish t o) := by
  have ht := h.notMem_of_pc hk (by simp [hpc])
  have ht' : t ∉ s'.connectWaiters := by
    rw [hc.waiters]
    exact ht
  have hnot : s.isInitPost t = false := by simp [State.isInitPost, State.handshake, hk, hpc, Pc.handshake?]
  obtain ⟨es, hl, hes⟩ := hc.log
  simp only [Undisturbed, hnot, Bool.false_or, Bool.or_eq_true, Bool.and_eq_true, decide_eq_true_eq,
    Bool.not_eq_true'] at hok
  rcases hok with hsid | ⟨hnone, hdown⟩
  · have hsame : s'.sessionId = s.sessionId := by
      rw [hc.session]
      split_ifs with hempty
      · rfl
      · exact hsid.resolve_left hempty
    have hflight : SingleFlight s' := h.keep hc.handshake hc.state hsame hl hes (hc.waits h.waiters)
    exact (hflight.but ht').finish o
  · -- the client is not ready afterwards, and no handshake is in progress
    have halone := hc.alone (h.alone_of_none ht (inHandshake_eq_false hnone))
    refine FlightBut.finish (halone.flightBut fun hr => ?_) o
    rcases hdown with hst | hfail
    · rcases hc.state with heq | heq
      · exact absurd (heq.symm.trans hr) (by simpa using hst)
      · simp [heq] at hr
    · simp [hc.fails hfail] at hr

theorem handshake_shutdownInternal (hw : Waiters s) (permanent : Bool) (i : ℕ) :
    (s.shutdownInternal permanent).handshake i = s.handshake i := by
  cases permanent with
  | true =>
    exact handshake_notify
      (s := { State.stopHttpReader { s with shutdown := true } with lastEventId := "", sessionId := "" }) hw
  | false => exact handshake_notify (s := { s.stopHttpReader with lastEventId := "", sessionId := "" }) hw

theorem shutdownInternal_eq (s : State) (permanent : Bool) : (s.shutdownInternal permanent).connectWaiters = [] ∧
    (s.shutdownInternal permanent).sessionId = "" ∧ (s.shutdownInternal permanent).log = s.log ∧
    (s.shutdownInternal permanent).state = if permanent then .broken else .idle := by
  unfold State.shutdownInternal
  simp only [State.notifyConnectWaiters_eq]
  cases permanent with
  | true => exact ⟨rfl, rfl, rfl, rfl⟩
  | false => exact ⟨rfl, rfl, rfl, rfl⟩

/-- `Shutdown()`, with no acknowledgement outstanding. -/
theorem SingleFlight.shutDown (h : SingleFlight s) (hok : Undisturbed s .shutdown = true) :
    SingleFlight ((s.record [.shutDown]).shutdownInternal true) := by
  have hrec := h.record (l := [.shutDown]) (by simp [Event.apart])
  obtain ⟨hcw, hsid, hlog, hst⟩ := shutdownInternal_eq (s.record [.shutDown]) true
  have hh := handshake_shutdownInternal (s := s.record [.shutDown]) hrec.waiters true
  have hnoack : ∀ i sid, s.handshake i ≠ some (some sid) := by
    intro i sid hi
    obtain ⟨k, hk, hpc⟩ := Option.bind_eq_some_iff.mp hi
    simp only [Undisturbed, List.all_eq_true, decide_eq_true_eq] at hok
    have := hok k (List.mem_of_getElem? hk)
    simp [hpc] at this
  constructor
  · intro i j
    rw [hh, hh]
    exact hrec.one i j
  · exact fun _ _ => hsid
  · intro i sid
    rw [hh]
    exact fun hi => absurd hi (hnoack i sid)
  · exact fun _ _ => Or.inr hst
  · intro hr
    rw [hst] at hr
    simp at hr
  · rw [hlog]
    exact hrec.sent
  · intro i hi
    rw [hcw] at hi
    simp at hi

/-- A call that finds no handshake in progress starts one. -/
theorem SingleFlight.starts {p : Purpose} {context : String} (hsp : sp.NoSession) (h : SingleFlight s)
    (hok : Undisturbed s (.call p context) = true) (hsd : s.shutdown = false) (hc : s.state ≠ .connecting) :
    SingleFlight ((s.arrive p context).fresh.startConnect sp s.tasks.length (newTask p context)) := by
  have harrive := h.arrive p context
  have hnone : ∀ i, (s.arrive p context).handshake i = none := by
    intro i
    rw [handshake_arrive]
    by_cases hb : s.state = .broken
    · refine inHandshake_eq_false ?_ i
      simpa [Undisturbed, hb, hsd] using hok
    · by_contra hne
      rcases h.busy i (Option.isSome_iff_ne_none.mpr hne) with hst | hst
      · exact hc hst
      · exact hb hst
  have halone : Alone s.tasks.length (s.arrive p context).fresh := by
    unfold State.fresh
    split_ifs
    · have hrec := harrive.record (l := [.dropped]) (by simp [Event.apart])
      obtain ⟨hcw, -, hlog, -⟩ := shutdownInternal_eq ((s.arrive p context).record [.dropped]) false
      refine ⟨fun i _ => ?_, ?_, ?_, ?_⟩
      · rw [handshake_shutdownInternal hrec.waiters]
        exact hnone i
      · rw [hlog]
        exact hrec.sent
      · intro i hi
        rw [hcw] at hi
        simp at hi
      · rw [hcw]
        simp
    · exact harrive.alone_of_none (h.notMem_arrive p context) hnone
  unfold State.startConnect
  simp only
  split_ifs
  · refine FlightBut.finishConnect_failed hsp ((halone.setState .connecting).flightBut fun hr => ?_) _
    simp [State.setState] at hr
  · set s₁ := { (s.arrive p context).fresh.setState .connecting with sessionId := "" } with hs₁
    have hrec : Alone s.tasks.length ({ s₁ with nextId := s₁.nextId + 1 }.record [.posted s.tasks.length
        ⟨some s₁.nextId, .init, initParams⟩
        (postHeaders s₁.sessionId sp.headers (callMetadata .init (newTask p context).context sp.metadataToken))]) :=
      halone.keep (fun _ => rfl) rfl (by simp [Event.apart, isTools]) halone.waiters halone.notWaiting
    exact hrec.enter (p := .initPost s₁.nextId) (Or.inl rfl) (Or.inl ⟨rfl, rfl⟩)

theorem singleFlight_step {c : Choice} (hsp : sp.NoSession) (h : SingleFlight s) (hok : Undisturbed s c = true)
    (hd : Did sp s c s') : SingleFlight s' := by
  have hbut : ∀ p context, FlightBut s.tasks.length (s.arrive p context) := fun p context =>
    (h.arrive p context).but (h.notMem_arrive p context)
  cases hd with
  | refused _ _ => exact (hbut _ _).finish _
  | ready hr _ => exact (hbut _ _).proceed hsp fun _ => hr
  | waits _ _ => exact h.awaitConnect _ _
  | starts hsd _ hc => exact h.starts hsp hok hsd hc
  | woken hk hpc =>
    refine (h.but (h.notMem_of_pc hk (by simp [hpc]))).proceed hsp fun hst => ?_
    by_contra hne
    simp [hne] at hst
  | initDone hk hpc => exact h.initAnswered hsp hk hpc (completes_postResult _ _ _ _ _)
  | @ackDone t k assigned head body hk hpc =>
    refine h.ackAnswered hsp hk hpc ?_ (completes_postResult _ _ _ _ _)
    have hin : s.inHandshake = true := by
      refine List.any_eq_true.mpr ⟨k, List.mem_of_getElem? hk, ?_⟩
      rw [hpc]
      rfl
    have hnot : s.isInitPost t = false := by simp [State.isInitPost, State.handshake, hk, hpc, Pc.handshake?]
    simpa [Undisturbed, hnot, hin] using hok
  | toolDone hk hpc => exact h.toolAnswered hk hpc hok (completes_postResult _ _ _ _ _) _
  | readerLoops _ _ _ =>
    unfold State.readHttpNotifications
    split_ifs
    · exact h.same rfl rfl (Or.inl rfl) rfl rfl (by simp [Event.apart])
    · exact h.same rfl rfl (Or.inl rfl) rfl (List.append_nil _).symm (by simp)
  | @received r rd ev _ _ =>
    unfold State.receive
    split_ifs
    · exact h
    have hset : SingleFlight { s with readers := s.readers.set r { rd with delay := State.eventDelay rd ev } } :=
      h.same rfl rfl (Or.inl rfl) rfl (List.append_nil _).symm (by simp)
    simp only
    split_ifs
    · exact hset
    have hforward : SingleFlight (State.forward sp { s with
        readers := s.readers.set r { rd with delay := State.eventDelay rd ev } } rd ev) := by
      unfold State.forward
      split
      · exact hset.same rfl rfl (Or.inl rfl) rfl rfl (by simp [Event.apart])
      · exact hset
    unfold State.recordId
    split
    · exact hforward.same rfl rfl (Or.inl rfl) rfl (List.append_nil _).symm (by simp)
    · exact hforward
  | getDone _ _ =>
    unfold State.getCompletes
    split_ifs
    · exact h.same rfl rfl (Or.inl rfl) rfl (List.append_nil _).symm (by simp)
    · exact h.same rfl rfl (Or.inr rfl) rfl (List.append_nil _).symm (by simp)
    · exact h.same rfl rfl (Or.inl rfl) rfl (List.append_nil _).symm (by simp)
    · exact h.same rfl rfl (Or.inl rfl) rfl (List.append_nil _).symm (by simp)
  | @handlerSet b =>
    have hset : SingleFlight (State.record { s with handler := b } [.handlerSet b]) :=
      h.same rfl rfl (Or.inl rfl) rfl rfl (by simp [Event.apart])
    unfold State.setInboundEventHandler
    simp only
    split_ifs
    · unfold State.maybeStartHttpReader
      split_ifs
      · exact hset
      · exact hset.same rfl rfl (Or.inl rfl) rfl rfl (by simp [Event.apart])
    · exact hset.same rfl rfl (Or.inl rfl) rfl (List.append_nil _).symm (by simp)
  | shutDown => exact h.shutDown hok

theorem singleFlight_init : SingleFlight {} where
  one := by simp [State.handshake]
  init := fun _ _ => rfl
  ack := by simp [State.handshake]
  busy := by simp [State.handshake]
  ready := by simp
  sent := History.each_nil
  waiters := by simp [Waiters]

end Http
end Mcp
end AgentFlow
