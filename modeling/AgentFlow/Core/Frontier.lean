/-
# Runs in which every node succeeds

`Plan` carried along whole executions. `Frontier` adds the main loop: the
batch it launches is due, it waits and leaves only when nothing is ready, and
a coroutine's input is what its predecessors sent. Every step of a successful
run keeps it (`Frontier.step`) and lowers `budget`, so such a run ends after
boundedly many steps, and it ends with every node completed that could be fed
(`Frontier.all_completed`).

A run may start from any `Base`: `Run` starts from nothing, `Resume` from
the nodes of a checkpoint.

Key definitions: `Due`, `Frontier`, `budget`.
-/
import AgentFlow.Core.Plan

namespace AgentFlow

variable {L : Libs}

open History Precedence Stepping

/-- The input of a node once its predecessors have returned `outs`. -/
def inputOf (g : Graph) (B : Base L) (v : Id) (outs : List (Id × State L)) : State L :=
  mergeInputs (B.seed v ++ delivered g v outs)

/-- The node can be launched: all its predecessors have completed and
something was sent to it. -/
structure Due (g : Graph) (B : Base L) (completed : List Id) (outs : List (Id × State L)) (n : Id) : Prop where
  known : n ∈ g.nodes
  apart : n ∉ completed
  preds : ∀ a, g.Pred a n → a ∈ completed
  fed : B.seed n ++ delivered g n outs ≠ []

/-- The base feeds every node all whose predecessors are in it. -/
def Base.Feeds (B : Base L) (g : Graph) : Prop :=
  ∀ v ∈ g.nodes, v ∉ B.pre → (∀ a, g.Pred a v → a ∈ B.pre) → B.seed v ≠ []

/-- The state of a successful run. -/
structure Frontier (S : Setup) (B : Base L) (x : Exec L) : Prop where
  tasks : Tasks x
  plan : Plan S.graph B x.impl x.tasks (outputs x.log)
  cancelled : x.cancelled = false
  firstError : x.impl.firstError = none
  batch : ∀ b last, x.pc = .launching b last → ∀ n ∈ b, Due S.graph B x.impl.completedNodeIds (outputs x.log) n
  drained : x.pc = .check ∨ x.pc.finished = true → ready S x.impl = []
  inputs : ∀ t ∈ x.queued ++ x.running, B.seed t.node ++ delivered S.graph t.node (outputs x.log) ≠ [] ∧
    t.input = inputOf S.graph B t.node (outputs x.log)
  unthrown : ∀ e, x.pc ≠ .thrown e

/-- A completion of a node that is no predecessor brings nothing. -/
theorem delivered_snoc_of_not_pred {g : Graph} {v n : Id} (h : ¬ g.Pred n v) (outs : List (Id × State L))
    (out : State L) : delivered g v (outs ++ [(n, out)]) = delivered g v outs := by
  rw [delivered_snoc, edgesBetween_eq_nil h]; simp

/-- A predecessor that returned sent something. -/
theorem delivered_ne_nil {g : Graph} {a v : Id} (h : g.Pred a v) {outs : List (Id × State L)}
    (ha : a ∈ outs.map (·.1)) : delivered g v outs ≠ [] := by
  obtain ⟨p, hp, rfl⟩ := List.mem_map.mp ha
  obtain ⟨e, he, hs, hd⟩ := h
  have hmem : e ∈ edgesBetween g p.1 v := mem_edgesBetween.mpr ⟨he, hs, hd⟩
  have hc : p.2.clone ∈ delivered g v outs :=
    List.mem_flatMap.mpr ⟨p, hp, List.mem_replicate.mpr ⟨(List.length_pos_of_mem hmem).ne', rfl⟩⟩
  exact List.ne_nil_of_mem hc

/-- What the drain loop finds is due, and all that is due. -/
theorem Plan.mem_ready_iff {S : Setup} {B : Base L} {m : Impl L} {tasks : List Id} {outs : List (Id × State L)}
    (h : Plan S.graph B m tasks outs) (hfl : ∀ n, (m.activations n).inFlight = true ↔ n ∈ tasks)
    (hw : S.graph.WaitsForAll) (n : Id) :
    n ∈ ready S m ↔ n ∉ tasks ∧ Due S.graph B m.completedNodeIds outs n := by
  rw [mem_ready]
  constructor
  · rintro ⟨hn, hf, hp, hr⟩
    have ht : n ∉ tasks := fun hm => by rw [(hfl n).mpr hm] at hf; cases hf
    have hc : n ∉ m.completedNodeIds := fun hm => hp (h.spent n (Or.inl hm))
    refine ⟨ht, hn, hc, (h.nodeReady_iff hw hc ht).mp hr, ?_⟩
    rw [← h.pending n hc ht]; exact hp
  · rintro ⟨ht, hd⟩
    refine ⟨hd.known, ?_, ?_, (h.nodeReady_iff hw hd.apart ht).mpr hd.preds⟩
    · rw [← Bool.not_eq_true, hfl n]; exact ht
    · rw [h.pending n hd.apart ht]; exact hd.fed

namespace Frontier

variable {S : Setup} {B : Base L} {x y : Exec L}

/-- The nodes that have a coroutine or have completed are different nodes of the graph. -/
theorem length_le (h : Frontier S B x) :
    x.impl.completedNodeIds.length + x.tasks.length ≤ S.graph.nodes.length := by
  have hnd : (x.impl.completedNodeIds ++ x.tasks).Nodup :=
    List.nodup_append.mpr ⟨h.plan.nodup, h.tasks.nodup, fun a ha b hb he => h.plan.apart b hb (he ▸ ha)⟩
  have hsub : ∀ v ∈ x.impl.completedNodeIds ++ x.tasks, v ∈ S.graph.nodes := fun v hv =>
    h.plan.known v (List.mem_append.mp hv)
  have := (List.subperm_of_subset hnd hsub).length_le
  rwa [List.length_append] at this

/-! ### One step -/

theorem launch (h : Frontier S B x) {n : Id} {rest : List Id} {last : Option Id}
    (hpc : x.pc = .launching (n :: rest) last) (ht : Tasks { launch x n with pc := .launching rest (some n) }) :
    Frontier S B { launch x n with pc := .launching rest (some n) } := by
  have hd := h.batch _ _ hpc
  have hdn := hd n List.mem_cons_self
  have htn : n ∉ x.tasks := (h.tasks.batch _ _ hpc).2 n List.mem_cons_self
  have hout : outputs (x.log ++ [Event.launch n]) = outputs x.log := by simp [outputs, Event.output?]
  have hpend := h.plan.pending n hdn.apart htn
  refine
    { tasks := ht
      plan := ?_
      cancelled := h.cancelled
      firstError := h.firstError
      batch := fun b l hb v hv => ?_
      drained := fun hf => by simp [Pc.finished] at hf
      inputs := fun t ht' => ?_
      unthrown := fun e he => by cases he }
  · show Plan S.graph B (x.impl.launch n) _ (outputs (x.log ++ [Event.launch n]))
    rw [hout]
    refine h.plan.launch hdn.known hdn.apart htn hdn.preds fun v => ?_
    simp only [Exec.tasks, AgentFlow.launch, List.map_append, List.mem_append, List.map_cons, List.map_nil,
      List.mem_singleton]
    tauto
  · cases hb
    show Due S.graph B x.impl.completedNodeIds (outputs (x.log ++ [Event.launch n])) v
    rw [hout]; exact hd v (List.mem_cons_of_mem _ hv)
  · show _ ∧ t.input = inputOf S.graph B t.node (outputs (x.log ++ [Event.launch n]))
    simp only [AgentFlow.launch, List.mem_append, List.mem_singleton] at ht' ⊢
    rw [hout]
    rcases ht' with (hq | rfl) | hr
    · exact h.inputs t (List.mem_append_left _ hq)
    · exact ⟨hdn.fed, by simp only [inputOf, hpend]⟩
    · exact h.inputs t (List.mem_append_right _ hr)

theorem start (h : Frontier S B x) {t : Task L} {ts : List (Task L)} (hq : x.queued = t :: ts)
    (ht : Tasks { x with
      queued := ts, running := x.running ++ [t], log := x.log ++ [.nodeStart t.node t.input] }) :
    Frontier S B { x with
      queued := ts, running := x.running ++ [t], log := x.log ++ [.nodeStart t.node t.input] } := by
  have hout : outputs (x.log ++ [Event.nodeStart t.node t.input]) = outputs x.log := by
    simp [outputs, Event.output?]
  refine
    { tasks := ht
      plan := ?_
      cancelled := h.cancelled
      firstError := h.firstError
      batch := ?_
      drained := h.drained
      inputs := fun u hu => ?_
      unthrown := h.unthrown }
  · show Plan S.graph B x.impl _ (outputs (x.log ++ [Event.nodeStart t.node t.input]))
    rw [hout]
    refine h.plan.congr fun v => ?_
    simp only [Exec.tasks, hq, List.map_append, List.map_cons, List.map_nil, List.mem_append, List.mem_cons,
      List.not_mem_nil, or_false]
    tauto
  · show ∀ b last, x.pc = .launching b last →
      ∀ n ∈ b, Due S.graph B x.impl.completedNodeIds (outputs (x.log ++ [Event.nodeStart t.node t.input])) n
    rw [hout]; exact h.batch
  · show _ ∧ u.input = inputOf S.graph B u.node (outputs (x.log ++ [Event.nodeStart t.node t.input]))
    rw [hout]
    refine h.inputs u ?_
    simp only [hq, List.mem_append, List.mem_cons, List.not_mem_nil, or_false] at hu ⊢
    tauto

/-- A node completes: of those that started or are due nothing changes, as
their predecessors have all completed before. -/
theorem finish (h : Frontier S B x) (hw : S.graph.WaitsForAll) (loop : Loop) {k : ℕ} {t : Task L}
    (hk : x.running[k]? = some t) (hrun : x.pc.mayRun t.node = true) (out : State L)
    (ht : Tasks (complete S loop t.node (.ok out) none { x with running := x.running.eraseIdx k })) :
    Frontier S B (complete S loop t.node (.ok out) none { x with running := x.running.eraseIdx k }) := by
  set x' : Exec L := { x with running := x.running.eraseIdx k } with hx'
  have hcan : x'.cancelled = false := h.cancelled
  obtain ⟨e1, e2, e3, -⟩ := complete_keeps S loop t.node (.ok out) none x'
  have hi := complete_quiet_impl S loop t.node out hcan
  have hl : outputs (complete S loop t.node (.ok out) none x').log = outputs x.log ++ [(t.node, out)] := by
    rw [complete_quiet_log S loop t.node out hcan, outputs_append,
      show ∀ l, outputs (Event.output t.node out :: l) = (t.node, out) :: outputs l from fun _ => rfl,
      outputs_quietTail]
  have hp := tasks_perm hk
  have htasks : (complete S loop t.node (.ok out) none x').tasks =
      (x.queued ++ x.running.eraseIdx k).map (·.node) := by rw [Exec.tasks, e2, e3]
  rw [← htasks] at hp
  have hnd := List.nodup_cons.mp (hp.nodup_iff.mp h.tasks.nodup)
  have hmem : t.node ∈ x.tasks := hp.mem_iff.mpr List.mem_cons_self
  have hnc := h.plan.apart _ hmem
  have hcomp : (complete S loop t.node (.ok out) none x').impl.completedNodeIds =
      x.impl.completedNodeIds ++ [t.node] := by rw [hi, finish_completed]; rfl
  refine
    { tasks := ht
      plan := ?_
      cancelled := complete_quiet_cancelled S loop t.node out hcan
      firstError := ?_
      batch := fun b l hb n hn => ?_
      drained := fun hf => ?_
      inputs := fun u hu => ?_
      unthrown := fun e => by rw [e1]; exact h.unthrown e }
  · rw [hi, hl]
    exact h.plan.finish hw hmem out (fun v => hp.mem_iff.trans List.mem_cons) hnd.1
  · rw [hi, finish_firstError, show x'.impl.firstError = none from h.firstError]; rfl
  · rw [e1] at hb
    have hd := h.batch b l hb n hn
    have hnt := (h.tasks.batch b l hb).2 n hn
    rw [hcomp, hl]
    refine ⟨hd.known, ?_, fun a ha => List.mem_append_left _ (hd.preds a ha), ?_⟩
    · simp only [List.mem_append, List.mem_singleton, not_or]
      exact ⟨hd.apart, fun he => hnt (he ▸ hmem)⟩
    · rw [delivered_snoc_of_not_pred fun hpr => hnc (hd.preds _ hpr)]
      exact hd.fed
  · rw [e1] at hf
    rcases hf with hc | hf
    · rw [show x.pc = .check from hc] at hrun; cases hrun
    · exact absurd (h.tasks.ended hf) (List.ne_nil_of_mem hmem)
  · rw [e2, e3] at hu
    have hu' : u ∈ x.queued ++ x.running := by
      rcases List.mem_append.mp hu with hu | hu
      · exact List.mem_append_left _ hu
      · exact List.mem_append_right _ (List.mem_of_mem_eraseIdx hu)
    have hut : u.node ∈ x.tasks := List.mem_map_of_mem hu'
    have hnp : ¬ S.graph.Pred t.node u.node := fun hpr => hnc (h.plan.preds _ hut _ hpr)
    rw [hl]
    simp only [inputOf]
    rw [delivered_snoc_of_not_pred hnp]
    exact h.inputs u hu'

/-- Every step of a successful run keeps it. -/
theorem step (hw : S.graph.WaitsForAll) {Out : Id → State L → State L → Prop} {loop : Loop} {c : Choice L}
    (h : Frontier S B x) (hok : Succeeds Out x c) (hs : Moves S loop c x y) : Frontier S B y := by
  have ht := h.tasks.step hs
  cases hs with
  | launch hpc => exact h.launch hpc ht
  | batchDone hpc =>
    exact ⟨ht, h.plan, h.cancelled, h.firstError, fun b l hb => by simp at hb,
      fun hf => by simp [Pc.finished] at hf, h.inputs, fun e he => by simp at he⟩
  | drained hpc hr =>
    exact ⟨ht, h.plan, h.cancelled, h.firstError, fun b l hb => by simp at hb, fun _ => hr, h.inputs,
      fun e he => by simp at he⟩
  | batch hpc hr =>
    refine ⟨ht, h.plan, h.cancelled, h.firstError, fun b l hb n hn => ?_,
      fun hf => by simp [Pc.finished] at hf, h.inputs, fun e he => by simp at he⟩
    cases hb
    exact ((h.plan.mem_ready_iff h.tasks.flag hw n).mp hn).2
  | leave hpc h0 =>
    have hl : outputs (x.log ++ [Event.graphDone x.impl.firstError.isSome]) = outputs x.log := by
      simp [outputs, Event.output?]
    obtain ⟨i1, i2, -, i4, i5⟩ := leave_impl x
    obtain ⟨f1, f2, -, f4, f5, f6⟩ := leave_rest x
    have htk : (AgentFlow.leave x).tasks = x.tasks := by simp [Exec.tasks, f1, f2]
    refine ⟨ht, ?_, f4.trans h.cancelled, i4.trans h.firstError, fun b l hb => ?_, fun _ => ?_, ?_, fun e he => ?_⟩
    · rw [f5, hl, htk]; exact h.plan.of_impl i1 i5
    · rw [hb] at f6; cases f6
    · have hr : ready S (AgentFlow.leave x).impl = ready S x.impl := by simp only [ready, i1]
      rw [hr]; exact h.drained (Or.inl hpc)
    · rw [f1, f2, f5, hl]; exact h.inputs
    · rw [AgentFlow.leave, h.firstError] at he
      simp only at he
      split at he <;> cases he
  | wait hpc h0 =>
    exact ⟨ht, h.plan, h.cancelled, h.firstError, fun b l hb => by simp at hb,
      fun hf => by simp [Pc.finished] at hf, h.inputs, fun e he => by simp at he⟩
  | receive hpc hd =>
    have hr : received { x with done := x.done - 1 } = { x with done := x.done - 1, pc := .scan } := by
      simp [received, h.firstError]
    rw [hr] at ht ⊢
    exact ⟨ht, h.plan, h.cancelled, h.firstError, fun b l hb => by simp at hb,
      fun hf => by simp [Pc.finished] at hf, h.inputs, fun e he => by simp at he⟩
  | start hq hrun => exact h.start hq ht
  | @finish _ k t res cut hk hrun =>
    obtain ⟨rfl, out, rfl, -⟩ := hok
    exact h.finish hw loop hk hrun out ht
  | cancel hpc => exact hok.elim

/-! ### The end of a run -/

/-- When the run is over, every node has completed. -/
theorem all_completed (h : Frontier S B x) (hw : S.graph.WaitsForAll) (hdag : S.graph.IsDag)
    (hB : B.Feeds S.graph) (hf : x.pc.finished = true) : x.impl.completedNodeIds.Perm S.graph.nodes := by
  have ht := h.tasks.ended hf
  have hr := h.drained (Or.inr hf)
  have hall : ∀ v, v ∈ S.graph.nodes → v ∈ x.impl.completedNodeIds := fun v => by
    induction v using hdag.wellFounded.induction with
    | _ v ih =>
      intro hv
      by_contra hc
      have hpreds : ∀ a, S.graph.Pred a v → a ∈ x.impl.completedNodeIds := fun a ha =>
        ih a ha (Graph.pred_mem ha).1
      have hdue : Due S.graph B x.impl.completedNodeIds (outputs x.log) v := by
        refine ⟨hv, hc, hpreds, fun hnil => ?_⟩
        obtain ⟨hs, hd⟩ := List.append_eq_nil_iff.mp hnil
        rw [h.plan.completed] at hc hpreds
        refine hB v hv (fun hm => hc (List.mem_append_left _ hm)) (fun a ha => ?_) hs
        rcases List.mem_append.mp (hpreds a ha) with hm | hm
        · exact hm
        · exact absurd hd (delivered_ne_nil ha hm)
      have := (h.plan.mem_ready_iff h.tasks.flag hw v).mpr ⟨by rw [ht]; simp, hdue⟩
      rw [hr] at this
      cases this
  exact (List.perm_ext_iff_of_nodup h.plan.nodup S.graph.nodes_nodup).mpr fun v =>
    ⟨fun hv => h.plan.known v (Or.inl hv), hall v⟩

end Frontier

/-- A bound on the steps still to come: a node not yet launched will cost a
launch and its share of the load. -/
def budget (S : Setup) (x : Exec L) : ℕ :=
  8 * (S.graph.nodes.length - x.impl.completedNodeIds.length - x.tasks.length) + load x

namespace Frontier

variable {S : Setup} {B : Base L} {x y : Exec L}

/-- Every step of a successful run is paid for. -/
theorem budget_lt {Out : Id → State L → State L → Prop} {loop : Loop} {c : Choice L}
    (h : Frontier S B x) (h' : Frontier S B y) (hok : Succeeds Out x c) (hs : Moves S loop c x y) :
    budget S y < budget S x := by
  have hle := h.length_le
  have hle' := h'.length_le
  have hload : launches x c = false → load y < load x := fun hl => load_lt hs hl (by rintro rfl; exact hok)
  cases hs with
  | @launch _ n rest last hpc =>
    have hr : Pc.rank (.launching rest (some n) : Pc L) ≤ 3 := by cases rest <;> simp [Pc.rank]
    simp only [budget, load, AgentFlow.launch, Impl.launch, Impl.modify, Exec.tasks, hpc, List.length_append,
      List.length_map, List.length_cons, List.length_nil, Pc.rank] at hle' hr ⊢
    simp only [Exec.tasks, List.length_append, List.length_map] at hle
    omega
  | @finish _ k t res cut hk hrun =>
    obtain ⟨rfl, out, rfl, -⟩ := hok
    have hcan : ({ x with running := x.running.eraseIdx k } : Exec L).cancelled = false := h.cancelled
    have hi := complete_quiet_impl S loop t.node out hcan
    obtain ⟨-, e2, e3, -⟩ := complete_keeps S loop t.node (.ok out) none { x with running := x.running.eraseIdx k }
    have ht := (tasks_perm hk).length_eq
    have hlt := hload rfl
    simp only [budget, hi, finish_completed, if_true, Exec.tasks, e2, e3, List.length_append, List.length_nil,
      List.length_cons, List.length_map] at hle hle' ht ⊢
    omega
  | leave hpc h0 =>
    obtain ⟨f1, f2, -⟩ := leave_rest x
    have hlt := hload (by simp [launches, hpc])
    simp only [budget, Exec.tasks, (leave_impl x).2.2.2.2, f1, f2]
    omega
  | receive hpc hd =>
    obtain ⟨f1, f2, -⟩ := received_rest { x with done := x.done - 1 }
    have hlt := hload (by simp [launches, hpc])
    simp only [budget, Exec.tasks, received_impl, f1, f2]
    omega
  | start hq hrun =>
    have hlt := hload rfl
    simp only [budget, Exec.tasks, hq, List.length_append, List.length_map, List.length_cons, List.length_nil]
    omega
  | cancel hpc => exact hok.elim
  | batchDone hpc | drained hpc | batch hpc | wait hpc =>
    have hlt := hload (by simp [launches, hpc])
    simp only [budget, Exec.tasks]
    omega

variable {Out : Id → State L → State L → Prop} {loop : Loop} {cs : List (Choice L)}

theorem run (hw : S.graph.WaitsForAll) (hr : Run (AgentFlow.step S loop) (Succeeds Out) x cs y)
    (h : Frontier S B x) : Frontier S B y :=
  hr.invariant (fun _ _ _ hI hok hs => hI.step hw hok (step_eq_some.mp hs)) h

/-- A successful run is at most as long as its budget. -/
theorem run_length_le (hw : S.graph.WaitsForAll) (hr : Run (AgentFlow.step S loop) (Succeeds Out) x cs y)
    (h : Frontier S B x) : cs.length + budget S y ≤ budget S x :=
  hr.length_le (fun _ _ _ hI hok hs => hI.step hw hok (step_eq_some.mp hs))
    (fun _ _ _ hI hok hs => hI.budget_lt (hI.step hw hok (step_eq_some.mp hs)) hok (step_eq_some.mp hs)) h

/-- Every successful run can be taken to its end. -/
theorem exists_finished (hw : S.graph.WaitsForAll) (loop : Loop) (h : Frontier S B x) :
    ∃ cs y, Run (AgentFlow.step S loop) (Succeeds fun _ _ _ => True) x cs y ∧ y.pc.finished = true := by
  refine Run.exists_final (I := Frontier S B) (fun _ _ _ hI hok hs => hI.step hw hok (step_eq_some.mp hs))
    (fun _ _ _ hI hok hs => hI.budget_lt (hI.step hw hok (step_eq_some.mp hs)) hok (step_eq_some.mp hs))
    (fun z hz hf => ?_) (budget S x) x le_rfl h
  obtain ⟨c, w, hc, hs⟩ := exists_step S loop hz.tasks (by simpa using hf) (.ok .null)
  refine ⟨c, w, ?_, hs⟩
  rcases hc with rfl | rfl | rfl
  · trivial
  · trivial
  · exact ⟨rfl, .null, rfl, fun _ _ => trivial⟩

end Frontier

end AgentFlow
