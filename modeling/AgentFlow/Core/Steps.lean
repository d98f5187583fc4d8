/-
# The steps of the scheduler

`Moves` is `step`, one constructor for each thing that can happen
(`step_eq_some`): every invariant below is proved by cases on it. The first
one, `Tasks`, is the bookkeeping of node coroutines: a node has at most one,
its `in_flight` flag says whether it has one, `in_flight_count_` counts them,
and the main loop, when it waits, has a coroutine or a token to wait for. So
a run that is not over can go on (`exists_step`), and when it is over nothing
is in flight (`Tasks.idle`).

Key definitions: `Moves`, `Tasks`, `Idle`.
-/
import AgentFlow.Core.Effects

namespace AgentFlow

variable {L : Libs}

open Stepping

/-- What each choice does, by cases. -/
inductive Moves (S : Setup) (loop : Loop) : Choice L → Exec L → Exec L → Prop
  | launch {x : Exec L} {n : Id} {rest : List Id} {last : Option Id} (hpc : x.pc = .launching (n :: rest) last) :
      Moves S loop .main x { launch x n with pc := .launching rest (some n) }
  | batchDone {x : Exec L} {last : Option Id} (hpc : x.pc = .launching [] last) :
      Moves S loop .main x { x with pc := .scan }
  | drained {x : Exec L} (hpc : x.pc = .scan) (hr : ready S x.impl = []) :
      Moves S loop .main x { x with pc := .check }
  | batch {x : Exec L} (hpc : x.pc = .scan) (hr : ready S x.impl ≠ []) :
      Moves S loop .main x { x with pc := .launching (ready S x.impl) none }
  | leave {x : Exec L} (hpc : x.pc = .check) (h0 : x.impl.inFlightCount = 0) :
      Moves S loop .main x (leave x)
  | wait {x : Exec L} (hpc : x.pc = .check) (h0 : x.impl.inFlightCount ≠ 0) :
      Moves S loop .main x { x with pc := .receive }
  | receive {x : Exec L} (hpc : x.pc = .receive) (hd : x.done ≠ 0) :
      Moves S loop .main x (received { x with done := x.done - 1 })
  | start {x : Exec L} {t : Task L} {ts : List (Task L)} (hq : x.queued = t :: ts)
      (hrun : x.pc.mayRun t.node = true) :
      Moves S loop .start x
        { x with queued := ts, running := x.running ++ [t], log := x.log ++ [.nodeStart t.node t.input] }
  | finish {x : Exec L} {k : ℕ} {t : Task L} {res : Except L.Exception (State L)} {cut : Option CancelPoint}
      (hk : x.running[k]? = some t) (hrun : x.pc.mayRun t.node = true) :
      Moves S loop (.finish k res cut) x
        (complete S loop t.node res cut { x with running := x.running.eraseIdx k })
  | cancel {x : Exec L} (hpc : x.pc.finished = false) : Moves S loop .cancel x (x.cancelIf true)

/-- A coroutine runs between two steps of the loop, not in its test or after its end. -/
theorem Pc.of_mayRun {p : Pc L} {n : Id} (h : p.mayRun n = true) : p.finished = false ∧ p ≠ .check := by
  cases p with
  | launching b last => exact ⟨rfl, by simp⟩
  | receive => exact ⟨rfl, by simp⟩
  | _ => cases h

theorem step_eq_some {S : Setup} {loop : Loop} {c : Choice L} {x y : Exec L} :
    step S loop c x = some y ↔ Moves S loop c x y := by
  constructor
  · intro h
    cases c with
    | main =>
      simp only [step, mainStep] at h
      split at h
      · rename_i hpc; cases h; exact .launch hpc
      · rename_i hpc; cases h; exact .batchDone hpc
      · rename_i hpc
        split at h
        · rename_i hr; cases h; exact .drained hpc hr
        · rename_i hr; cases h; exact .batch hpc fun h => hr h
      · rename_i hpc
        split_ifs at h with h0
        · cases h; exact .leave hpc h0
        · cases h; exact .wait hpc h0
      · rename_i hpc
        split_ifs at h with hd
        cases h
        exact .receive hpc hd
      · cases h
      · cases h
    | start =>
      simp only [step] at h
      split at h
      · cases h
      · rename_i hq
        split_ifs at h with hrun
        cases h
        exact .start hq hrun
    | finish k res cut =>
      simp only [step] at h
      split at h
      · cases h
      · rename_i hk
        split_ifs at h with hrun
        cases h
        exact .finish hk hrun
    | cancel =>
      simp only [step] at h
      split_ifs at h with hf
      cases h
      exact .cancel (by simpa using hf)
  · intro h
    cases h with
    | launch hpc => simp [step, mainStep, hpc]
    | batchDone hpc => simp [step, mainStep, hpc]
    | drained hpc hr => simp [step, mainStep, hpc, hr]
    | batch hpc hr =>
      simp only [step, mainStep, hpc]
    | leave hpc h0 => simp [step, mainStep, hpc, h0]
    | wait hpc h0 => simp [step, mainStep, hpc, h0]
    | receive hpc hd => simp [step, mainStep, hpc, hd]
    | start hq hrun => simp [step, hq, hrun]
    | finish hk hrun => simp [step, hk, hrun]
    | cancel hpc => simp [step, hpc]

/-! ### What the exits do -/

theorem leave_impl (x : Exec L) : (leave x).impl.activations = x.impl.activations ∧
    (leave x).impl.baseline = x.impl.baseline ∧ (leave x).impl.inFlightCount = x.impl.inFlightCount ∧
    (leave x).impl.firstError = x.impl.firstError ∧
    (leave x).impl.completedNodeIds = x.impl.completedNodeIds := by
  unfold leave
  split
  · exact ⟨rfl, rfl, rfl, rfl, rfl⟩
  · split <;> exact ⟨rfl, rfl, rfl, rfl, rfl⟩

theorem leave_rest (x : Exec L) : (leave x).queued = x.queued ∧ (leave x).running = x.running ∧
    (leave x).done = x.done ∧ (leave x).cancelled = x.cancelled ∧
    (leave x).log = x.log ++ [.graphDone x.impl.firstError.isSome] ∧ (leave x).pc.finished = true := by
  unfold leave
  split
  · rename_i e he; simp [he, Pc.finished]
  · rename_i he; split <;> simp [he, Pc.finished]

theorem received_impl (x : Exec L) : (received x).impl = x.impl := by
  unfold received
  split
  · split_ifs <;> rfl
  · rfl

/-- After a token: the run ends, with nothing in flight, or the loop scans. -/
theorem received_cases (x : Exec L) :
    (∃ e, x.impl.firstError = some e ∧ x.impl.inFlightCount = 0 ∧
      received x = { x with pc := .thrown e, log := x.log ++ [.graphDone true] }) ∨
    ((x.impl.firstError = none ∨ x.impl.inFlightCount ≠ 0) ∧ received x = { x with pc := .scan }) := by
  unfold received
  split
  · rename_i e he
    split_ifs with h
    · exact Or.inl ⟨e, he, h, rfl⟩
    · exact Or.inr ⟨Or.inr h, rfl⟩
  · rename_i he; exact Or.inr ⟨Or.inl he, rfl⟩

theorem received_rest (x : Exec L) : (received x).queued = x.queued ∧ (received x).running = x.running ∧
    (received x).done = x.done ∧ (received x).cancelled = x.cancelled := by
  rcases received_cases x with ⟨e, -, -, h⟩ | ⟨-, h⟩ <;> rw [h] <;> exact ⟨rfl, rfl, rfl, rfl⟩

/-! ### The node coroutines -/

/-- Nothing is in flight. -/
structure Idle (m : Impl L) : Prop where
  flag : ∀ n, (m.activations n).inFlight = false
  count : m.inFlightCount = 0

/-- The nodes that have a coroutine. -/
def Exec.tasks (x : Exec L) : List Id := (x.queued ++ x.running).map (·.node)

/-- The bookkeeping of node coroutines. -/
structure Tasks (x : Exec L) : Prop where
  nodup : x.tasks.Nodup
  flag : ∀ n, (x.impl.activations n).inFlight = true ↔ n ∈ x.tasks
  count : x.impl.inFlightCount = x.tasks.length
  batch : ∀ b last, x.pc = .launching b last → b.Nodup ∧ ∀ n ∈ b, n ∉ x.tasks
  /-- The main loop does not wait for nothing. -/
  awaits : x.pc = .receive → 0 < x.done + x.tasks.length
  ended : x.pc.finished = true → x.tasks = []

theorem Tasks.idle {x : Exec L} (h : Tasks x) (hf : x.pc.finished = true) : Idle x.impl := by
  have ht := h.ended hf
  refine ⟨fun n => ?_, by rw [h.count, ht]; rfl⟩
  have := (h.flag n).not
  rw [ht] at this
  simpa using this

/-- What a scan finds. -/
theorem mem_ready {S : Setup} {m : Impl L} {n : Id} : n ∈ ready S m ↔ n ∈ S.graph.nodes ∧
    (m.activations n).inFlight = false ∧ (m.activations n).pendingInputs ≠ [] ∧
    nodeReady (m.activations n) = true := by
  simp only [ready, List.mem_filter, S.order_perm.mem_iff, Bool.and_eq_true, Bool.not_eq_true',
    List.isEmpty_eq_false_iff, and_assoc]

/-- A scan finds each node once. -/
theorem ready_nodup (S : Setup) (m : Impl L) : (ready S m).Nodup :=
  (S.order_perm.nodup_iff.mpr S.graph.nodes_nodup).filter _

theorem Tasks.begin {m : Impl L} (hm : Idle m) {batch : List Id} (hb : batch.Nodup) :
    Tasks (Exec.begin m batch) where
  nodup := by simp [Exec.begin, Exec.tasks]
  flag n := by simp [Exec.begin, Exec.tasks, hm.flag n]
  count := by simp [Exec.begin, Exec.tasks, hm.count]
  batch b last h := by
    simp only [Exec.begin, Pc.launching.injEq] at h
    obtain ⟨rfl, -⟩ := h
    exact ⟨hb, by simp [Exec.begin, Exec.tasks]⟩
  awaits h := by simp [Exec.begin] at h
  ended h := by simp [Exec.begin, Pc.finished] at h

theorem finish_inFlight (g : Graph) (n : Id) (res : Except L.Exception (State L)) (a b : Bool) (m : Impl L)
    (v : Id) : ((m.finish g n res a b).activations v).inFlight =
      if v = n then false else (m.activations v).inFlight := by
  cases res with
  | error e =>
    simp only [Impl.finish, Impl.retire_activations, Impl.fail]
    split_ifs <;> rfl
  | ok out =>
    simp only [Impl.finish, Impl.retire_activations]
    by_cases hv : v = n
    · simp [hv]
    · simp only [hv, if_false]
      split_ifs <;>
        simp [Impl.setTerminal, Impl.fires_activations, deliverAll_inFlight, Impl.track]

theorem finish_inFlightCount (g : Graph) (n : Id) (res : Except L.Exception (State L)) (a b : Bool)
    (m : Impl L) : (m.finish g n res a b).inFlightCount = m.inFlightCount - 1 := by
  have hf := fun out es (m : Impl L) => congrArg Impl.inFlightCount (Impl.fires_eq out es m)
  cases res with
  | error e => rfl
  | ok out =>
    simp only [Impl.finish, Impl.retire]
    split_ifs <;> simp [Impl.setTerminal, Impl.track, hf]

/-- Taking coroutine `k` out of those running. -/
theorem tasks_perm {x : Exec L} {k : ℕ} {t : Task L} (hk : x.running[k]? = some t) :
    x.tasks.Perm (t.node :: (x.queued ++ x.running.eraseIdx k).map (·.node)) := by
  obtain ⟨hlt, rfl⟩ := List.getElem?_eq_some_iff.mp hk
  have hp : (x.queued ++ x.running).Perm (x.running[k] :: (x.queued ++ x.running.eraseIdx k)) :=
    ((List.getElem_cons_eraseIdx_perm hlt).symm.append_left x.queued).trans List.perm_middle
  exact hp.map (·.node)

/-- The oldest spawned coroutine begins. -/
theorem tasks_start {x : Exec L} {t : Task L} {ts : List (Task L)} (hq : x.queued = t :: ts) (l : List (Event L)) :
    (Exec.tasks { x with queued := ts, running := x.running ++ [t], log := l }).Perm x.tasks := by
  simp only [Exec.tasks, hq]
  refine List.Perm.map _ ?_
  rw [← List.append_assoc, List.cons_append]
  exact List.perm_append_singleton _ _

theorem Tasks.step {S : Setup} {loop : Loop} {c : Choice L} {x y : Exec L} (h : Tasks x)
    (hs : Moves S loop c x y) : Tasks y := by
  cases hs with
  | @launch _ n rest last hpc =>
    obtain ⟨hnd, hout⟩ := h.batch _ _ hpc
    obtain ⟨hn, hnd'⟩ := List.nodup_cons.mp hnd
    have htn : n ∉ x.tasks := hout n List.mem_cons_self
    have hp : (Exec.tasks { AgentFlow.launch x n with pc := Pc.launching rest (some n) }).Perm (n :: x.tasks) := by
      simp only [Exec.tasks, AgentFlow.launch, List.map_append, List.map_cons, List.map_nil, List.append_assoc]
      exact List.perm_middle
    refine ⟨?_, fun v => ?_, ?_, fun b l hb => ?_, fun hr => by simp at hr, fun hf => by simp [Pc.finished] at hf⟩
    · exact hp.nodup_iff.mpr (List.nodup_cons.mpr ⟨htn, h.nodup⟩)
    · rw [hp.mem_iff, List.mem_cons, ← h.flag v]
      simp only [AgentFlow.launch, Impl.launch_activations]
      split_ifs with hv <;> simp [activate, hv]
    · rw [hp.length_eq]
      simp [AgentFlow.launch, Impl.launch, h.count]
    · simp only [Pc.launching.injEq] at hb
      obtain ⟨rfl, -⟩ := hb
      refine ⟨hnd', fun v hv => ?_⟩
      rw [hp.mem_iff, List.mem_cons, not_or]
      exact ⟨fun he => hn (he ▸ hv), hout v (List.mem_cons_of_mem _ hv)⟩
  | batchDone hpc =>
    exact ⟨h.nodup, h.flag, h.count, fun b l hb => by simp at hb, fun hr => by simp at hr,
      fun hf => by simp [Pc.finished] at hf⟩
  | drained hpc hr =>
    exact ⟨h.nodup, h.flag, h.count, fun b l hb => by simp at hb, fun hr => by simp at hr,
      fun hf => by simp [Pc.finished] at hf⟩
  | batch hpc hr =>
    refine ⟨h.nodup, h.flag, h.count, fun b l hb => ?_, fun hr => by simp at hr,
      fun hf => by simp [Pc.finished] at hf⟩
    simp only [Pc.launching.injEq] at hb
    obtain ⟨rfl, -⟩ := hb
    refine ⟨ready_nodup S x.impl, fun n hn => ?_⟩
    obtain ⟨-, hfl, -, -⟩ := mem_ready.mp hn
    show n ∉ x.tasks
    rw [← h.flag n, hfl]
    simp
  | leave hpc h0 =>
    obtain ⟨e1, -, e3, -, -⟩ := leave_impl x
    obtain ⟨f1, f2, f3, -, -, f6⟩ := leave_rest x
    have ht : (AgentFlow.leave x).tasks = x.tasks := by simp [Exec.tasks, f1, f2]
    refine ⟨ht ▸ h.nodup, fun n => by rw [e1, ht]; exact h.flag n, by rw [e3, ht, h.count], fun b l hb => ?_,
      fun hr => ?_, fun _ => ?_⟩
    · rw [hb] at f6; simp [Pc.finished] at f6
    · rw [hr] at f6; simp [Pc.finished] at f6
    · rw [ht]
      exact List.length_eq_zero_iff.mp (h.count ▸ h0)
  | wait hpc h0 =>
    exact ⟨h.nodup, h.flag, h.count, fun b l hb => by simp at hb,
      fun _ => by
        have := h.count
        show 0 < x.done + x.tasks.length
        omega,
      fun hf => by simp [Pc.finished] at hf⟩
  | receive hpc hd =>
    have ht : ∀ z : Exec L, (received z).tasks = z.tasks := fun z => by
      obtain ⟨f1, f2, -, -⟩ := received_rest z
      simp [Exec.tasks, f1, f2]
    have hi := received_impl { x with done := x.done - 1 }
    refine ⟨by rw [ht]; exact h.nodup, fun n => by rw [ht, hi]; exact h.flag n, by rw [ht, hi]; exact h.count,
      fun b l hb => ?_, fun hr => ?_, fun hf => ?_⟩
    · rcases received_cases { x with done := x.done - 1 } with ⟨e, -, -, he⟩ | ⟨-, he⟩ <;>
        rw [he] at hb <;> simp at hb
    · rcases received_cases { x with done := x.done - 1 } with ⟨e, -, -, he⟩ | ⟨-, he⟩ <;>
        rw [he] at hr <;> simp at hr
    · rcases received_cases { x with done := x.done - 1 } with ⟨e, -, h0, he⟩ | ⟨-, he⟩
      · rw [ht]
        exact List.length_eq_zero_iff.mp (h.count ▸ h0)
      · rw [he] at hf; simp [Pc.finished] at hf
  | @start _ t ts hq hrun =>
    have hp := tasks_start hq (x.log ++ [.nodeStart t.node t.input])
    refine ⟨hp.nodup_iff.mpr h.nodup, fun n => by rw [hp.mem_iff]; exact h.flag n, by rw [hp.length_eq]; exact h.count,
      fun b l hb => ?_, fun hr => by rw [hp.length_eq]; exact h.awaits hr, fun hf => ?_⟩
    · obtain ⟨h1, h2⟩ := h.batch b l hb
      exact ⟨h1, fun n hn => by rw [hp.mem_iff]; exact h2 n hn⟩
    · have := h.ended hf
      rw [this] at hp
      exact hp.eq_nil
  | @finish _ k t res cut hk hrun =>
    obtain ⟨e1, e2, e3, e4⟩ := complete_keeps S loop t.node res cut { x with running := x.running.eraseIdx k }
    have hi := complete_impl S loop t.node res cut { x with running := x.running.eraseIdx k }
    have hp := tasks_perm hk
    have ht : (complete S loop t.node res cut { x with running := x.running.eraseIdx k }).tasks =
        (x.queued ++ x.running.eraseIdx k).map (·.node) := by simp only [Exec.tasks, e2, e3]
    rw [← ht] at hp
    have hnd := hp.nodup_iff.mp h.nodup
    obtain ⟨hnot, hnd'⟩ := List.nodup_cons.mp hnd
    refine ⟨hnd', fun v => ?_, ?_, fun b l hb => ?_, fun hr => ?_, fun hf => ?_⟩
    · rw [hi, finish_inFlight]
      have hv := (h.flag v).trans hp.mem_iff
      rw [List.mem_cons] at hv
      split_ifs with he
      · subst he; simpa using hnot
      · simpa [he] using hv
    · have := h.count
      rw [hi, finish_inFlightCount, show x.impl.inFlightCount = _ from h.count, hp.length_eq]
      rfl
    · rw [e1] at hb
      obtain ⟨h1, h2⟩ := h.batch b l hb
      exact ⟨h1, fun n hn hm => h2 n hn (hp.mem_iff.mpr (List.mem_cons_of_mem _ hm))⟩
    · rw [e4]
      show 0 < x.done + 1 + _
      omega
    · rw [e1] at hf
      have := h.ended hf
      rw [this] at hp
      exact absurd hp.symm.eq_nil (by simp)
  | cancel hpc =>
    obtain ⟨e1, e2, e3, e4⟩ := Exec.cancelIf_keeps x true
    have ht : (x.cancelIf true).tasks = x.tasks := by simp [Exec.tasks, e2, e3]
    refine ⟨ht ▸ h.nodup, fun n => by rw [Exec.cancelIf_impl, ht]; exact h.flag n,
      by rw [Exec.cancelIf_impl, ht]; exact h.count, fun b l hb => ?_, fun hr => ?_, fun hf => ?_⟩
    · rw [ht]; exact h.batch b l (e1 ▸ hb)
    · rw [ht, e4]; exact h.awaits (e1 ▸ hr)
    · rw [ht]; exact h.ended (e1 ▸ hf)

/-- What every state of every run satisfies. -/
theorem Tasks.run {S : Setup} {loop : Loop} {ok : Exec L → Choice L → Prop} {x y : Exec L} {cs : List (Choice L)}
    (h : Run (AgentFlow.step S loop) ok x cs y) (hx : Tasks x) : Tasks y :=
  h.invariant (fun _ _ _ hI _ hs => hI.step (step_eq_some.mp hs)) hx

/-- A run that is not over can go on: the main loop moves, or a node
coroutine does, whatever result the node then has. -/
theorem exists_step (S : Setup) (loop : Loop) {x : Exec L} (h : Tasks x) (hf : x.pc.finished = false)
    (res : Except L.Exception (State L)) :
    ∃ c y, (c = .main ∨ c = .start ∨ c = .finish 0 res none) ∧ step S loop c x = some y := by
  cases hpc : x.pc with
  | launching b last =>
    cases b with
    | nil => exact ⟨.main, _, Or.inl rfl, step_eq_some.mpr (.batchDone hpc)⟩
    | cons n rest => exact ⟨.main, _, Or.inl rfl, step_eq_some.mpr (.launch hpc)⟩
  | scan =>
    by_cases hr : ready S x.impl = []
    · exact ⟨.main, _, Or.inl rfl, step_eq_some.mpr (.drained hpc hr)⟩
    · exact ⟨.main, _, Or.inl rfl, step_eq_some.mpr (.batch hpc hr)⟩
  | check =>
    by_cases h0 : x.impl.inFlightCount = 0
    · exact ⟨.main, _, Or.inl rfl, step_eq_some.mpr (.leave hpc h0)⟩
    · exact ⟨.main, _, Or.inl rfl, step_eq_some.mpr (.wait hpc h0)⟩
  | receive =>
    have hrun : ∀ n, x.pc.mayRun n = true := fun n => by rw [hpc]; rfl
    by_cases hd : x.done = 0
    · have hpos := h.awaits hpc
      cases hq : x.queued with
      | cons t ts => exact ⟨.start, _, Or.inr (Or.inl rfl), step_eq_some.mpr (.start hq (hrun _))⟩
      | nil =>
        cases hr : x.running with
        | nil => simp [Exec.tasks, hq, hr, hd] at hpos
        | cons t ts =>
          exact ⟨_, _, Or.inr (Or.inr rfl), step_eq_some.mpr (.finish (by rw [hr]; rfl) (hrun _))⟩
    · exact ⟨.main, _, Or.inl rfl, step_eq_some.mpr (.receive hpc hd)⟩
  | returned s => simp [hpc, Pc.finished] at hf
  | thrown e => simp [hpc, Pc.finished] at hf

/-! ### How long a run goes on without a launch -/

/-- How far the main loop is from its next wait. -/
def Pc.rank : Pc L → ℕ
  | .launching [] _ => 3
  | .launching (_ :: _) _ => 1
  | .scan => 2
  | .check => 1
  | _ => 0

/-- A bound on the steps before the next launch: a coroutine has still to
start, to end and to be received, each token costs a scan. -/
def load (x : Exec L) : ℕ := 5 * x.queued.length + 4 * x.running.length + 3 * x.done + x.pc.rank

/-- The step launches a node. -/
def launches (x : Exec L) : Choice L → Bool
  | .main =>
    match x.pc with
    | .launching (_ :: _) _ => true
    | _ => false
  | _ => false

/-- Any step but a launch and a cancellation lowers the load. -/
theorem load_lt {S : Setup} {loop : Loop} {c : Choice L} {x y : Exec L} (hs : Moves S loop c x y)
    (hl : launches x c = false) (hc : c ≠ .cancel) : load y < load x := by
  cases hs with
  | launch hpc => simp [launches, hpc] at hl
  | batchDone hpc => simp [load, hpc, Pc.rank]
  | drained hpc hr => simp [load, hpc, Pc.rank]
  | batch hpc hr =>
    obtain ⟨n, l, hl⟩ := List.exists_cons_of_ne_nil hr
    simp [load, hpc, Pc.rank, hl]
  | leave hpc h0 =>
    obtain ⟨f1, f2, f3, -, -, f6⟩ := leave_rest x
    have hr : (AgentFlow.leave x).pc.rank = 0 := by
      cases hp : (AgentFlow.leave x).pc <;> simp [hp, Pc.finished, Pc.rank] at f6 ⊢
    have hc : x.pc.rank = 1 := by rw [hpc]; rfl
    simp [load, f1, f2, f3, hr, hc]
  | wait hpc h0 => simp [load, hpc, Pc.rank]
  | receive hpc hd =>
    rcases received_cases { x with done := x.done - 1 } with ⟨e, -, -, hr⟩ | ⟨-, hr⟩ <;> rw [hr]
    · simp only [load, hpc, Pc.rank]; omega
    · simp only [load, hpc, Pc.rank]; omega
  | start hq hrun =>
    simp only [load, hq, List.length_append, List.length_cons, List.length_nil]
    omega
  | @finish _ k t res cut hk hrun =>
    obtain ⟨e1, e2, e3, e4⟩ := complete_keeps S loop t.node res cut { x with running := x.running.eraseIdx k }
    obtain ⟨hlt, -⟩ := List.getElem?_eq_some_iff.mp hk
    have hlen := List.length_eraseIdx_of_lt hlt
    simp only [load, e1, e2, e3, e4, hlen]
    omega
  | cancel hpc => exact absurd rfl hc

end AgentFlow
