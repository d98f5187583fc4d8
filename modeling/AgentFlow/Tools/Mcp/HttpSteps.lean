/-
# What a step of the client over HTTP does

A step makes a call go on, ends a POST, moves a notification reader, or
changes what all of them share; `did_of_step` lists the cases with their
guards. Each of them is put together from a few operations (`proceed`,
`finishConnect`, `stopHttpReader`, ...), so an invariant is proved of those
operations, and of a step by the list.

Key definitions: `Did`, `State.handshake`.
Key theorems: `did_of_step`, `Reaches.invariant`.
-/
import AgentFlow.Lib.History
import AgentFlow.Tools.Mcp.Http

namespace AgentFlow
namespace Mcp
namespace Http

open Json

variable {sp : Spec} {s s' : State} {t : ℕ}

def newTask (p : Purpose) (context : String) : Task := ⟨p, context, .running⟩

namespace State

def arrive (s : State) (p : Purpose) (context : String) : State :=
  { s with tasks := s.tasks ++ [newTask p context], log := s.log ++ [.called s.tasks.length p] }

/-- A broken transport is dropped before the next attempt. -/
def fresh (s : State) : State := if s.state = .broken then (s.record [.dropped]).shutdownInternal false else s

/-- The call `t` waits for the attempt that is in progress. -/
def awaitConnect (s : State) (t : ℕ) : State :=
  { s with connectWaiters := s.connectWaiters ++ [t] }.setPc t (.waiting false)

end State

/-- **What a step can do.** -/
inductive Did (sp : Spec) (s : State) : Choice → State → Prop
  | refused {p context} : s.shutdown = true → (p ≠ .connect → s.state ≠ .ready) →
      Did sp s (.call p context)
        ((s.arrive p context).finish s.tasks.length (.failed ⟨.cancelled, "client shut down"⟩))
  | ready {p context} : s.state = .ready → (p = .connect → s.shutdown = false) →
      Did sp s (.call p context) ((s.arrive p context).proceed sp s.tasks.length (newTask p context) none)
  | waits {p context} : s.shutdown = false → s.state = .connecting →
      Did sp s (.call p context) ((s.arrive p context).awaitConnect s.tasks.length)
  | starts {p context} : s.shutdown = false → s.state ≠ .ready → s.state ≠ .connecting →
      Did sp s (.call p context) ((s.arrive p context).fresh.startConnect sp s.tasks.length (newTask p context))
  | woken {t k} : s.tasks[t]? = some k → k.pc = .waiting true →
      Did sp s (.resume t) (s.proceed sp t k
        (if s.state = .ready then none else some ⟨.unavailable, "MCP server failed to start"⟩))
  | initDone {t k id head body} : s.tasks[t]? = some k → k.pc = .initPost id →
      Did sp s (.postDone t head body)
        ((s.postResult sp (some id) head body).1.initAnswered sp t k head (s.postResult sp (some id) head body).2)
  | ackDone {t k assigned head body} : s.tasks[t]? = some k → k.pc = .ackPost assigned →
      Did sp s (.postDone t head body)
        ((s.postResult sp none head body).1.ackAnswered sp t k assigned (s.postResult sp none head body).2)
  | toolDone {t k id head body} : s.tasks[t]? = some k → k.pc = .toolPost id →
      Did sp s (.postDone t head body)
        ((s.postResult sp (some id) head body).1.finish t
          (k.purpose.outcome sp.toClient (s.postResult sp (some id) head body).2))
  | readerLoops {c r rd delay} : s.readers[r]? = some rd → (c = .runReader r ∨ c = .timerDone r) →
      (delay = rd.delay ∨ delay = min (rd.delay * 2) 30000) →
      Did sp s c (s.readHttpNotifications sp r { rd with delay := delay })
  | received {r rd ev} : s.readers[r]? = some rd → rd.pc = .getting →
      Did sp s (.event r ev) (s.receive sp r rd ev)
  | getDone {r rd statusCode status} : s.readers[r]? = some rd → rd.pc = .getting →
      Did sp s (.getDone r statusCode status) (s.getCompletes r rd statusCode status)
  | handlerSet {b} : Did sp s (.setInboundEventHandler b) (s.setInboundEventHandler b)
  | shutDown : Did sp s .shutdown ((s.record [.shutDown]).shutdownInternal true)

theorem State.readerAt_eq_some {r : ℕ} {pc : ReaderPc} {rd : Reader} :
    s.readerAt r pc = some rd ↔ s.readers[r]? = some rd ∧ rd.pc = pc := by
  simp [State.readerAt, Option.filter_eq_some_iff]

private theorem did_of_call (sp : Spec) (s : State) (p : Purpose) (context : String) :
    Did sp s (.call p context) (s.call sp p context) := by
  have hcall : s.call sp p context =
      if p ≠ .connect ∧ s.state = .ready then (s.arrive p context).proceed sp s.tasks.length (newTask p context) none
      else (s.arrive p context).connect sp s.tasks.length (newTask p context) := rfl
  rw [hcall]
  split_ifs with hp
  · exact .ready hp.2 fun h => absurd h hp.1
  have hconnect : (s.arrive p context).connect sp s.tasks.length (newTask p context) =
      if s.shutdown then (s.arrive p context).finish s.tasks.length (.failed ⟨.cancelled, "client shut down"⟩)
      else if s.state = .ready then (s.arrive p context).proceed sp s.tasks.length (newTask p context) none
      else if (s.arrive p context).fresh.state = .connecting then (s.arrive p context).fresh.awaitConnect s.tasks.length
      else (s.arrive p context).fresh.startConnect sp s.tasks.length (newTask p context) := rfl
  rw [hconnect]
  split_ifs with hsd hr hc
  · exact .refused hsd fun h h' => hp ⟨h, h'⟩
  · exact .ready hr fun _ => by simpa using hsd
  · -- a broken transport that was dropped is idle
    have hfresh : (s.arrive p context).fresh = s.arrive p context := by
      unfold State.fresh at hc ⊢
      split_ifs at hc ⊢
      · simp [State.shutdownInternal, State.setState] at hc
      · rfl
    rw [hfresh] at hc ⊢
    exact .waits (by simpa using hsd) hc
  · refine .starts (by simpa using hsd) hr fun h => hc ?_
    have hst : (s.arrive p context).state = .connecting := h
    simp [State.fresh, hst]

theorem did_of_step {c : Choice} (h : step sp c s = some s') : Did sp s c s' := by
  cases c with
  | call p context =>
    obtain rfl : s.call sp p context = s' := by simpa [step] using h
    exact did_of_call sp s p context
  | resume t =>
    simp only [step, State.resume] at h
    split at h
    · rename_i k hk
      split_ifs at h with hpc
      · obtain rfl := Option.some.inj h
        have : Did sp s (.resume t) _ := .woken hk hpc
        simpa [*] using this
      · obtain rfl := Option.some.inj h
        have : Did sp s (.resume t) _ := .woken hk hpc
        simpa [*] using this
    · simp at h
  | postDone t head body =>
    simp only [step, State.postCompletes] at h
    split at h
    · simp at h
    · rename_i k hk
      split at h
      · rename_i id hpc
        obtain rfl := Option.some.inj h
        exact .initDone hk hpc
      · rename_i assigned hpc
        obtain rfl := Option.some.inj h
        exact .ackDone hk hpc
      · rename_i id hpc
        obtain rfl := Option.some.inj h
        exact .toolDone hk hpc
      · simp at h
  | runReader r =>
    obtain ⟨rd, hrd, rfl⟩ := Option.map_eq_some_iff.mp h
    exact .readerLoops (State.readerAt_eq_some.mp hrd).1 (Or.inl rfl) (Or.inl rfl)
  | event r ev =>
    obtain ⟨rd, hrd, rfl⟩ := Option.map_eq_some_iff.mp h
    exact .received (State.readerAt_eq_some.mp hrd).1 (State.readerAt_eq_some.mp hrd).2
  | getDone r statusCode status =>
    obtain ⟨rd, hrd, rfl⟩ := Option.map_eq_some_iff.mp h
    exact .getDone (State.readerAt_eq_some.mp hrd).1 (State.readerAt_eq_some.mp hrd).2
  | timerDone r =>
    obtain ⟨rd, hrd, rfl⟩ := Option.map_eq_some_iff.mp h
    exact .readerLoops (State.readerAt_eq_some.mp hrd).1 (Or.inr rfl) (Or.inr rfl)
  | setInboundEventHandler b =>
    obtain rfl := Option.some.inj h
    exact .handlerSet
  | shutdown =>
    obtain rfl := Option.some.inj h
    exact .shutDown

/-- An invariant from the list of what a step can do. -/
theorem Reaches.invariant {ok : State → Choice → Prop} {I : State → Prop} {cs : List Choice}
    (hstep : ∀ s c s', I s → ok s c → Did sp s c s' → I s') (h : Reaches sp ok cs s) (h0 : I {}) : I s :=
  Stepping.Run.invariant (fun x c y hx hok hst => hstep x c y hx hok (did_of_step hst)) h h0

/-! ### Waiters -/

/-- The tasks after the calls `ws` are woken. -/
def wake (ws : List ℕ) (tasks : List Task) : List Task :=
  ws.foldl (fun ts t => ts.modify t fun k => { k with pc := .waiting true }) tasks

theorem State.notifyConnectWaiters_eq (s : State) :
    s.notifyConnectWaiters = { s with tasks := wake s.connectWaiters s.tasks, connectWaiters := [] } := by
  have h : ∀ (ws : List ℕ) (s : State),
      ws.foldl (fun s t => s.setPc t (.waiting true)) s = { s with tasks := wake ws s.tasks } := by
    intro ws
    induction ws with
    | nil => exact fun s => rfl
    | cons t ws ih =>
      intro s
      rw [List.foldl_cons, ih]
      rfl
  unfold State.notifyConnectWaiters
  rw [h]

/-- Only the calls that are woken change. -/
theorem getElem?_wake {ws : List ℕ} {tasks : List Task} {i : ℕ} (h : i ∉ ws) : (wake ws tasks)[i]? = tasks[i]? := by
  induction ws generalizing tasks with
  | nil => rfl
  | cons t ws ih =>
    rw [List.mem_cons, not_or] at h
    rw [wake, List.foldl_cons]
    refine (ih h.2).trans ?_
    rw [List.getElem?_modify_ne _ _ (Ne.symm h.1)]

theorem getElem?_wake_of_mem {ws : List ℕ} {tasks : List Task} {i : ℕ} {k : Task} (h : i ∈ ws)
    (hk : (wake ws tasks)[i]? = some k) : k.pc = .waiting true := by
  induction ws generalizing tasks with
  | nil => simp at h
  | cons t ws ih =>
    rw [wake, List.foldl_cons] at hk
    by_cases hi : i ∈ ws
    · exact ih hi hk
    · obtain rfl : i = t := by simpa [hi] using h
      have hk' : (tasks.modify i fun k => { k with pc := .waiting true })[i]? = some k := by
        rw [← getElem?_wake hi]
        exact hk
      rw [List.getElem?_modify_eq] at hk'
      obtain ⟨k', -, rfl⟩ := Option.map_eq_some_iff.mp hk'
      rfl

end Http
end Mcp
end AgentFlow
