/-
# Stalls

A run ends when no node is in flight and none is ready. `Build` does not ask
that every node then has run: the user tags the back edges of a cycle with a
group above 0, and a cycle of group-0 edges waits for itself. `Live` are the
nodes that group-0 edges do bring to fire, whatever the schedule: an entry
node, a node with an ANY edge from a live node, a node whose ALL edges all
come from live nodes. `Supplied` is what the counters say of them in a
successful run, and a run that is over has fired every live node
(`fired_of_live`).

Key definitions: `Live`, `Supplied`, `Opened`, `Progress`, `NoStall`.
-/
import AgentFlow.Core.FanIn
import AgentFlow.Core.Ledger

namespace AgentFlow

variable {L : Libs}

open Stepping

/-- Group-0 edges bring the node to fire. -/
inductive Live (g : Graph) : Id → Prop
  | entry {v : Id} (hv : v ∈ g.entryNodeIds) : Live g v
  | any {e : Edge} (he : e ∈ g.edges) (hg : e.activationGroup = 0) (hc : e.condition = .any) (h : Live g e.src) :
      Live g e.dst
  | all {e : Edge} (he : e ∈ g.edges) (hg : e.activationGroup = 0) (hc : e.condition = .all)
      (h : ∀ a ∈ g.edges, a.dst = e.dst → a.activationGroup = 0 → Live g a.src) : Live g e.dst

/-! ### What the group-0 counters say -/

/-- The edge comes from a completed node. -/
def spent (m : Impl L) (e : Edge) : Bool := decide (e.src ∈ m.completedNodeIds)

/-- What the completed nodes have sent. -/
structure Supplied (g : Graph) (m : Impl L) : Prop where
  keyed : Keyed g m
  remaining : ∀ e ∈ g.edges, e.activationGroup = 0 → e.condition = .all →
    (m.activations e.dst).remainingAll 0 ≤ unfired g (spent m) e.dst
  anyFired : ∀ e ∈ g.edges, e.activationGroup = 0 → e.condition = .any → spent m e = true →
    (m.activations e.dst).anyFired 0 = true
  fed : ∀ e ∈ g.edges, spent m e = true →
    (m.activations e.dst).timesFired ≠ 0 ∨ (m.activations e.dst).pendingInputs ≠ []

/-- The group-0 edges of the node let it fire. -/
def Opened (g : Graph) (m : Impl L) (v : Id) : Prop :=
  ∀ e ∈ g.edges, e.dst = v → e.activationGroup = 0 → groupReady (m.activations v) 0 e.condition = true

theorem opened_of_ready {g : Graph} {m : Impl L} (h : Keyed g m) {v : Id} (hr : nodeReady (m.activations v) = true) :
    Opened g m v := fun e he hd hg => hg ▸ (nodeReady_iff h v).mp hr e he hd

/-- A node that never fired is ready once its group-0 edges let it fire. -/
theorem nodeReady_of_opened {g : Graph} {m : Impl L} (h : Keyed g m) {v : Id}
    (ht : (m.activations v).timesFired = 0) (ho : Opened g m v) : nodeReady (m.activations v) = true := by
  rw [nodeReady_iff h]
  intro e he hd
  rcases (g.group_nonneg e he).eq_or_lt with h0 | hpos
  · rw [← h0]
    exact ho e he hd h0.symm
  · simp [groupReady, hpos, ht]

section fields

variable {g : Graph} {m : Impl L}

theorem Supplied.launch (h : Supplied g m) (n : Id) : Supplied g (m.launch n) := by
  refine ⟨h.keyed.of_conditions (m.launch_conditions n), fun e he hg hc => ?_, fun e he hg hc hs => ?_,
    fun e he hs => ?_⟩
  · rw [m.launch_remainingAll_zero]
    exact h.remaining e he hg hc
  · rw [m.launch_anyFired_zero]
    exact h.anyFired e he hg hc hs
  · rw [m.launch_activations n]
    split_ifs with hv
    · exact Or.inl (Nat.succ_ne_zero _)
    · exact h.fed e he hs

theorem Opened.launch {v : Id} (h : Opened g m v) (n : Id) : Opened g (m.launch n) v := by
  intro e he hd hg
  simpa [groupReady] using h e he hd hg

theorem spent_finish (n : Id) (out : State L) (e : Edge) :
    spent (m.finish g n (.ok out) true true) e = (spent m e || decide (e.src = n)) := by
  simp [spent, finish_completed]

/-- The edges of a node that completes deliver its output, for the first time or again. -/
theorem Supplied.finish (h : Supplied g m) (n : Id) (out : State L) :
    Supplied g (m.finish g n (.ok out) true true) := by
  have hact := finish_activations g n out true true m
  simp only [if_true] at hact
  have hsp := fun e => spent_finish (g := g) (m := m) n out e
  have hmem : ∀ e ∈ g.edges, e.src = n → e ∈ edgesBetween g n e.dst := fun e he hs => by
    simp [edgesBetween, he, hs]
  refine ⟨h.keyed.of_conditions fun v => (finish_rest g n _ true true m v).1, fun e he hg hc => ?_,
    fun e he hg hc hs => ?_, fun e he hs => ?_⟩
  · have hrem := h.remaining e he hg hc
    rw [hact]
    simp only [deliverAll_remainingAll, countP_edgesBetween he hg hc]
    by_cases hn : n ∈ m.completedNodeIds
    · have hsame : unfired g (spent (m.finish g n (.ok out) true true)) e.dst = unfired g (spent m) e.dst :=
        unfired_congr (fun a _ => by
          rw [hsp]
          by_cases ha : a.src = n <;> simp [spent, ha, hn]) _
      omega
    · have hfirst : unfired g (spent m) e.dst =
          unfired g (spent (m.finish g n (.ok out) true true)) e.dst + between g n e.dst :=
        unfired_first (fun a _ ha => by simp [spent, ha, hn]) (fun a _ => hsp a) e.dst
      omega
  · rw [hsp, Bool.or_eq_true, decide_eq_true_eq] at hs
    rw [hact]
    simp only [deliverAll_anyFired, Bool.or_eq_true]
    rcases hs with hs | hs
    · exact Or.inl (h.anyFired e he hg hc hs)
    · exact Or.inr (List.any_eq_true.mpr ⟨e, hmem e he hs, by simp [hg, hc]⟩)
  · rw [hsp, Bool.or_eq_true, decide_eq_true_eq] at hs
    rw [hact]
    simp only [deliverAll_timesFired, deliverAll_pendingInputs]
    rcases hs with hs | hs
    · exact (h.fed e he hs).imp id fun hp => by simp [hp]
    · have hne := List.ne_nil_of_mem (hmem e he hs)
      exact Or.inr (by simp [hne])

theorem Opened.finish {v : Id} (h : Opened g m v) (n : Id) (out : State L) :
    Opened g (m.finish g n (.ok out) true true) v := by
  intro e he hd hg
  have hr := h e he hd hg
  rw [finish_activations]
  cases hc : e.condition with
  | all =>
    simp only [groupReady, hc] at hr ⊢
    simp only [deliverAll_remainingAll]
    simp at hr ⊢
    omega
  | any =>
    simp only [groupReady, hc] at hr ⊢
    simp only [deliverAll_anyFired]
    simp at hr ⊢
    exact Or.inl hr

end fields

/-- In the end, when nothing is ready, every live node has fired. -/
theorem fired_of_live {S : Setup} {m : Impl L} (h : Supplied S.graph m) (hready : ready S m = [])
    (hidle : ∀ v, (m.activations v).inFlight = false)
    (hdone : ∀ v, (m.activations v).timesFired ≠ 0 → v ∈ m.completedNodeIds)
    (hentry : ∀ v ∈ S.graph.entryNodeIds, (m.activations v).timesFired ≠ 0) {v : Id} (hv : Live S.graph v) :
    (m.activations v).timesFired ≠ 0 := by
  -- a node that never fired, has an input and may fire would be ready
  have hstuck : ∀ e ∈ S.graph.edges, spent m e = true → Opened S.graph m e.dst →
      (m.activations e.dst).timesFired ≠ 0 := by
    intro e he hs ho ht
    have hp := (h.fed e he hs).resolve_left (not_not.mpr ht)
    have hm : e.dst ∈ ready S m :=
      mem_ready.mpr ⟨(S.graph.edges_known e he).2, hidle _, hp, nodeReady_of_opened h.keyed ht ho⟩
    rw [hready] at hm
    cases hm
  induction hv with
  | entry hv => exact hentry _ hv
  | @any e he hg hc _ ih =>
    have hs : spent m e = true := decide_eq_true (hdone _ ih)
    refine hstuck e he hs fun a ha hd hg' => ?_
    have := S.graph.consistent a ha e he hd (hg'.trans hg.symm)
    simp [groupReady, this, hc, h.anyFired e he hg hc hs]
  | @all e he hg hc _ ih =>
    have hs : ∀ a ∈ S.graph.edges, a.dst = e.dst → a.activationGroup = 0 → spent m a = true := fun a ha hd hg' =>
      decide_eq_true (hdone _ (ih a ha hd hg'))
    refine hstuck e he (hs e he rfl hg) fun a ha hd hg' => ?_
    have hcond := S.graph.consistent a ha e he hd (hg'.trans hg.symm)
    have hrem := h.remaining e he hg hc
    rw [unfired_eq_zero.mpr hs] at hrem
    simpa [groupReady, hcond, hc] using hrem

/-! ### Along a run -/

/-- What every state of a successful run satisfies. -/
structure Progress (S : Setup) (x : Exec L) : Prop where
  tasks : Tasks x
  cancelled : x.cancelled = false
  firstError : x.impl.firstError = none
  supplied : Supplied S.graph x.impl
  fired : ∀ v, (x.impl.activations v).timesFired ≠ 0 → v ∈ x.tasks ∨ v ∈ x.impl.completedNodeIds
  entries : ∀ v ∈ S.graph.entryNodeIds, (x.impl.activations v).timesFired ≠ 0 ∨
    ∃ b last, x.pc = .launching b last ∧ v ∈ b
  opened : ∀ v, (x.impl.activations v).timesFired ≠ 0 → Opened S.graph x.impl v
  batch : ∀ b last, x.pc = .launching b last → ∀ v ∈ b, Opened S.graph x.impl v
  drained : x.pc = .check ∨ x.pc.finished = true → ready S x.impl = []

namespace Progress

variable {S : Setup} {loop : Loop} {c : Choice L} {x y : Exec L}

/-- A step that touches no bookkeeping. -/
theorem other (h : Progress S x) (ht : Tasks y) (ha : y.impl.activations = x.impl.activations)
    (hc : y.impl.completedNodeIds = x.impl.completedNodeIds) (he : y.impl.firstError = none)
    (hcan : y.cancelled = false) (htasks : ∀ v, v ∈ x.tasks → v ∈ y.tasks)
    (hpc : ∀ b last, x.pc = .launching b last → b = [] ∨ y.pc = x.pc)
    (hb : ∀ b last, y.pc = .launching b last → y.pc = x.pc ∨ b = ready S x.impl)
    (hd : y.pc = .check ∨ y.pc.finished = true → ready S x.impl = []) : Progress S y := by
  have hsp : spent y.impl = spent x.impl := funext fun e => by simp [spent, hc]
  have hop : ∀ v, Opened S.graph y.impl v ↔ Opened S.graph x.impl v := fun v => by simp only [Opened, ha]
  have hrd : ready S y.impl = ready S x.impl := by simp only [ready, ha]
  refine
    { tasks := ht
      cancelled := hcan
      firstError := he
      supplied := ⟨?_, ?_, ?_, ?_⟩
      fired := fun v hv => ?_
      entries := fun v hv => ?_
      opened := fun v hv => (hop v).mpr (h.opened v (ha ▸ hv))
      batch := fun b last hp v hv => ?_
      drained := fun hp => hrd.trans (hd hp) }
  · exact h.supplied.keyed.of_conditions fun v => by rw [ha]
  · rw [ha, hsp]; exact h.supplied.remaining
  · rw [ha, hsp]; exact h.supplied.anyFired
  · rw [ha, hsp]; exact h.supplied.fed
  · rw [hc]
    exact (h.fired v (ha ▸ hv)).imp (htasks v) id
  · rw [ha]
    rcases h.entries v hv with hf | ⟨b, last, hp, hm⟩
    · exact Or.inl hf
    · rcases hpc b last hp with rfl | hy
      · cases hm
      · exact Or.inr ⟨b, last, hy.trans hp, hm⟩
  · rw [hop]
    rcases hb b last hp with hy | rfl
    · exact h.batch b last (hy ▸ hp) v hv
    · exact opened_of_ready h.supplied.keyed (mem_ready.mp hv).2.2.2

theorem launch (h : Progress S x) {n : Id} {rest : List Id} {last : Option Id}
    (hpc : x.pc = .launching (n :: rest) last)
    (ht : Tasks { AgentFlow.launch x n with pc := .launching rest (some n) }) :
    Progress S { AgentFlow.launch x n with pc := .launching rest (some n) } := by
  have hact := x.impl.launch_activations n
  have hmono : ∀ v, v ∈ x.tasks → v ∈ Exec.tasks { AgentFlow.launch x n with pc := .launching rest (some n) } :=
    fun v hv => by
      simp only [Exec.tasks, AgentFlow.launch, List.map_append, List.mem_append] at hv ⊢
      tauto
  refine
    { tasks := ht
      cancelled := h.cancelled
      firstError := h.firstError
      supplied := h.supplied.launch n
      fired := fun v hv => ?_
      entries := fun v hv => ?_
      opened := fun v hv => ?_
      batch := fun b l hb v hv => ?_
      drained := fun hp => by rcases hp with hp | hp <;> cases hp }
  · change ((x.impl.launch n).activations v).timesFired ≠ 0 at hv
    rw [hact] at hv
    split_ifs at hv with he
    · left
      simp [he, Exec.tasks, AgentFlow.launch]
    · exact (h.fired v hv).imp (hmono v) id
  · show ((x.impl.launch n).activations v).timesFired ≠ 0 ∨ _
    rw [hact]
    split_ifs with he
    · exact Or.inl (Nat.succ_ne_zero _)
    · rcases h.entries v hv with hf | ⟨b, l, hp, hm⟩
      · exact Or.inl hf
      · rw [hpc] at hp
        cases hp
        exact Or.inr ⟨rest, some n, rfl, (List.mem_cons.mp hm).resolve_left he⟩
  · refine Opened.launch ?_ n
    change ((x.impl.launch n).activations v).timesFired ≠ 0 at hv
    rw [hact] at hv
    split_ifs at hv with he
    · exact he ▸ h.batch _ _ hpc n List.mem_cons_self
    · exact h.opened v hv
  · cases hb
    exact (h.batch _ _ hpc v (List.mem_cons_of_mem _ hv)).launch n

theorem finish (h : Progress S x) {k : ℕ} {t : Task L} {out : State L} (hk : x.running[k]? = some t)
    (hrun : x.pc.mayRun t.node = true)
    (ht : Tasks (complete S loop t.node (.ok out) none { x with running := x.running.eraseIdx k })) :
    Progress S (complete S loop t.node (.ok out) none { x with running := x.running.eraseIdx k }) := by
  set x' : Exec L := { x with running := x.running.eraseIdx k } with hx'
  have hcan : x'.cancelled = false := h.cancelled
  obtain ⟨e1, e2, e3, -⟩ := complete_keeps S loop t.node (.ok out) none x'
  have hi : (complete S loop t.node (.ok out) none x').impl = x.impl.finish S.graph t.node (.ok out) true true :=
    complete_quiet_impl S loop t.node out hcan
  have hfired : ∀ v, ((complete S loop t.node (.ok out) none x').impl.activations v).timesFired =
      (x.impl.activations v).timesFired := fun v => by
    rw [hi, finish_activations]; exact deliverAll_timesFired _ _ _
  have hp := tasks_perm hk
  refine
    { tasks := ht
      cancelled := complete_quiet_cancelled S loop t.node out hcan
      firstError := ?_
      supplied := by rw [hi]; exact h.supplied.finish t.node out
      fired := fun v hv => ?_
      entries := fun v hv => by rw [hfired, e1]; exact h.entries v hv
      opened := fun v hv => by rw [hi]; exact (h.opened v (hfired v ▸ hv)).finish t.node out
      batch := fun b l hb v hv => by rw [hi]; exact (h.batch b l (e1 ▸ hb) v hv).finish t.node out
      drained := fun hpc => ?_ }
  · rw [hi, finish_firstError, h.firstError]; rfl
  · rw [hfired] at hv
    rw [hi, finish_completed]
    rcases h.fired v hv with hm | hm
    · rcases List.mem_cons.mp (hp.mem_iff.mp hm) with rfl | hm
      · exact Or.inr (by simp)
      · left
        rw [Exec.tasks, e2, e3]
        exact hm
    · exact Or.inr (List.mem_append_left _ hm)
  · rw [e1] at hpc
    obtain ⟨h1, h2⟩ := Pc.of_mayRun hrun
    rcases hpc with hpc | hpc
    · exact absurd hpc h2
    · rw [show x.pc.finished = true from hpc] at h1
      cases h1

theorem step (h : Progress S x) (hok : Succeeds (fun _ _ _ => True) x c) (hs : Moves S loop c x y) :
    Progress S y := by
  have ht := h.tasks.step hs
  rcases hs.split with ⟨n, rest, last, rfl, hpc, rfl⟩ | ⟨k, t, res, cut, rfl, hk, hrun, rfl⟩ | hp
  · exact h.launch hpc ht
  · obtain ⟨rfl, out, rfl, -⟩ := hok
    exact h.finish hk hrun ht
  · have hc : c ≠ .cancel := by
      rintro rfl
      exact hok
    refine h.other ht hp.activations hp.completed (hp.firstError.trans h.firstError)
      ((hp.uncancelled hc).trans h.cancelled) (fun v hv => hp.tasks.mem_iff.mpr hv) hp.launched hp.batch fun hd => ?_
    rcases hp.drained hd with hr | hpc | he
    · exact hr
    · exact h.drained (Or.inl hpc)
    · rw [h.firstError] at he
      cases he

theorem runStart (S : Setup) (s : State L) : Progress S (runStart S .fresh s) := by
  rw [runStart_fresh]
  obtain ⟨he, -, hc⟩ := seeded_rest S.graph s
  have hns : ∀ e, spent (seeded S.graph s) e = false := fun e => by simp [spent, hc]
  have h0 : ∀ v, ((seeded S.graph s).activations v).timesFired = 0 := fun v => (seeded_activation S.graph s v).1
  refine
    { tasks := Tasks.begin (seeded_idle S.graph s) Graph.entryNodeIds_nodup
      cancelled := rfl
      firstError := he
      supplied := ⟨seeded_keyed S.graph s, fun e hm hg hcd => ?_, fun e hm hg hcd hs => ?_, fun e hm hs => ?_⟩
      fired := fun v hv => absurd (h0 v) hv
      entries := fun v hv => Or.inr ⟨_, _, rfl, hv⟩
      opened := fun v hv => absurd (h0 v) hv
      batch := fun b l hb v hv e hm hd hg => ?_
      drained := fun hp => by rcases hp with hp | hp <;> cases hp }
  · show ((seeded S.graph s).activations e.dst).remainingAll 0 ≤ unfired S.graph (spent (seeded S.graph s)) e.dst
    rw [(seeded_activation S.graph s e.dst).2.2.2.1, unfired, inEdges, ← List.countP_eq_length_filter]
    refine Int.ofNat_le.mpr (le_of_eq (List.countP_congr fun a _ => ?_))
    simp [hns a]
  · rw [show spent (Exec.begin (seeded S.graph s) _).impl e = false from hns e] at hs
    cases hs
  · rw [show spent (Exec.begin (seeded S.graph s) _).impl e = false from hns e] at hs
    cases hs
  · -- an entry node has no group-0 edge
    cases hb
    exact absurd hd ((Graph.mem_entryNodeIds.mp hv).2 e hm hg)

theorem run {cs : List (Choice L)} (hr : Run (AgentFlow.step S loop) (Succeeds fun _ _ _ => True) x cs y)
    (hx : Progress S x) : Progress S y :=
  hr.invariant (fun _ _ _ hI hok hs => hI.step hok (step_eq_some.mp hs)) hx

/-! When the run is over: -/

/-- What fired has completed. -/
theorem completed_of_fired (h : Progress S y) (hf : y.pc.finished = true) {v : Id}
    (hv : (y.impl.activations v).timesFired ≠ 0) : v ∈ y.impl.completedNodeIds := by
  rcases h.fired v hv with hm | hm
  · rw [h.tasks.ended hf] at hm
    cases hm
  · exact hm

theorem entry_fired (h : Progress S y) (hf : y.pc.finished = true) {v : Id} (hv : v ∈ S.graph.entryNodeIds) :
    (y.impl.activations v).timesFired ≠ 0 := by
  rcases h.entries v hv with hm | ⟨b, last, hpc, -⟩
  · exact hm
  · rw [hpc] at hf
    cases hf

/-- An input that is left at a node that has fired is not held up by group 0. -/
theorem waits (h : Progress S y) (hf : y.pc.finished = true) {v : Id} (hv : v ∈ S.graph.nodes)
    (hfired : (y.impl.activations v).timesFired ≠ 0) (hpend : (y.impl.activations v).pendingInputs ≠ []) :
    ∃ e ∈ S.graph.edges, e.dst = v ∧ 0 < e.activationGroup ∧
      groupReady (y.impl.activations v) e.activationGroup e.condition = false := by
  have hnr : ¬ nodeReady (y.impl.activations v) = true := fun hr => by
    have hm : v ∈ ready S y.impl := mem_ready.mpr ⟨hv, (h.tasks.idle hf).flag v, hpend, hr⟩
    rw [h.drained (Or.inr hf)] at hm
    cases hm
  rw [nodeReady_iff h.supplied.keyed] at hnr
  push Not at hnr
  obtain ⟨e, he, hd, hgr⟩ := hnr
  refine ⟨e, he, hd, lt_of_le_of_ne (S.graph.group_nonneg e he) fun h0 => hgr ?_, by simpa using hgr⟩
  rw [← h0]
  exact h.opened v hfired e he hd h0.symm

end Progress

/-- What a successful run has put out. -/
structure Tally (g : Graph) (x : Exec L) : Prop where
  completed : x.impl.completedNodeIds = (outputs x.log).map (·.1)
  terminal : x.pc.finished = false → x.impl.terminalState = (lastTerminal g (outputs x.log)).map State.clone
  returned : ∀ r, x.pc = .returned r → r = ((lastTerminal g (outputs x.log)).map State.clone).getD .null

namespace Tally

variable {S : Setup} {loop : Loop} {c : Choice L} {x y : Exec L}

theorem runStart (S : Setup) (s : State L) : Tally S.graph (runStart S .fresh s) := by
  rw [runStart_fresh]
  obtain ⟨-, ht, hc⟩ := seeded_rest S.graph s
  exact ⟨hc, fun _ => ht, fun r hr => by cases hr⟩

/-- A step in which no node completes, and the run does not end. -/
theorem other (h : Tally S.graph x) (hf : x.pc.finished = false) (hf' : y.pc.finished = false)
    (ho : outputs y.log = outputs x.log) (hc : y.impl.completedNodeIds = x.impl.completedNodeIds)
    (ht : y.impl.terminalState = x.impl.terminalState) : Tally S.graph y := by
  refine ⟨by rw [hc, ho]; exact h.completed, fun _ => by rw [ht, ho]; exact h.terminal hf, fun r hr => ?_⟩
  rw [hr] at hf'
  cases hf'

theorem step (h : Tally S.graph x) (hP : Progress S x) (hok : Succeeds (fun _ _ _ => True) x c)
    (hs : Moves S loop c x y) : Tally S.graph y := by
  have hf := hs.not_finished
  cases hs with
  | leave hpc h0 =>
    obtain ⟨-, -, -, -, i5⟩ := leave_impl x
    obtain ⟨-, -, -, -, f5, f6⟩ := leave_rest x
    have ho : outputs (AgentFlow.leave x).log = outputs x.log := by
      rw [f5, outputs_append]; exact List.append_nil _
    refine ⟨by rw [i5, ho]; exact h.completed, fun hf' => ?_, fun r hr => ?_⟩
    · rw [f6] at hf'; cases hf'
    rw [ho, ← h.terminal hf]
    rw [AgentFlow.leave, hP.firstError] at hr
    simp only at hr
    split at hr <;> rename_i hts <;> cases hr <;> rw [hts] <;> rfl
  | receive hpc hd =>
    have hr : received { x with done := x.done - 1 } = { x with done := x.done - 1, pc := .scan } := by
      simp only [received, hP.firstError]
    rw [hr]
    exact h.other hf rfl rfl rfl rfl
  | @finish _ k t res cut hk hrun =>
    obtain ⟨rfl, out, rfl, -⟩ := hok
    set x' : Exec L := { x with running := x.running.eraseIdx k } with hx'
    have hcan : x'.cancelled = false := hP.cancelled
    have ho : outputs (complete S loop t.node (.ok out) none x').log = outputs x.log ++ [(t.node, out)] := by
      rw [complete_quiet_log S loop t.node out hcan, outputs_append,
        show ∀ l, outputs (Event.output t.node out :: l) = (t.node, out) :: outputs l from fun _ => rfl,
        outputs_quietTail]
    have hi := complete_quiet_impl S loop t.node out hcan
    have hfires := fun es (m : Impl L) => congrArg Impl.terminalState (Impl.fires_eq out es m)
    refine ⟨?_, fun _ => ?_, fun r hr => ?_⟩
    · rw [hi, finish_completed, ho, List.map_append, ← h.completed]; rfl
    · rw [hi, ho, lastTerminal_snoc]
      simp only [Impl.finish, Impl.retire, Impl.modify, if_true]
      split_ifs
      · simp [hfires, Impl.track, h.terminal hf, hx']
      · simp [Impl.setTerminal]
    · rw [(complete_keeps S loop t.node (.ok out) none x').1] at hr
      rw [show x.pc = _ from hr] at hf
      cases hf
  | cancel hpc => cases hok
  | launch hpc | start hq =>
    refine h.other hf ?_ ?_ rfl rfl
    · first | rfl | exact hf
    · exact (outputs_append _ _).trans (List.append_nil _)
  | batchDone | drained | batch | wait => exact h.other hf rfl rfl rfl rfl

theorem run {cs : List (Choice L)} (hr : Run (AgentFlow.step S loop) (Succeeds fun _ _ _ => True) x cs y)
    (hP : Progress S x) (hx : Tally S.graph x) : Tally S.graph y :=
  (hr.invariant (I := fun z => Progress S z ∧ Tally S.graph z)
    (fun _ _ _ hI hok hs => ⟨hI.1.step hok (step_eq_some.mp hs), hI.2.step hI.1 hok (step_eq_some.mp hs)⟩)
    ⟨hP, hx⟩).2

end Tally

/-- The end of a successful run in which nothing stalled. -/
structure NoStall (g : Graph) (y : Exec L) : Prop where
  /-- Every node has run. -/
  fired : ∀ v ∈ g.nodes, (y.impl.activations v).timesFired ≠ 0 ∧ ∃ out, .output v out ∈ y.log
  /-- An input that is left waits for a group above 0. -/
  waiting : ∀ v ∈ g.nodes, (y.impl.activations v).pendingInputs ≠ [] → ∃ e ∈ g.edges, e.dst = v ∧
    0 < e.activationGroup ∧ groupReady (y.impl.activations v) e.activationGroup e.condition = false
  /-- A graph with terminal nodes returns the output of the one that completed last. -/
  result : (∃ v ∈ g.nodes, g.Terminal v) → ∃ n out, g.Terminal n ∧ .output n out ∈ y.log ∧
    lastTerminal g (outputs y.log) = some out ∧ y.pc = .returned out.clone

theorem hasOutgoing_eq_false {g : Graph} {n : Id} : hasOutgoing g n = false ↔ g.Terminal n := by
  simp [hasOutgoing, Graph.Terminal]

/-- A terminal node among those that returned. -/
theorem exists_lastTerminal {g : Graph} {outs : List (Id × State L)} {p : Id × State L} (hp : p ∈ outs)
    (ht : g.Terminal p.1) : ∃ n out, lastTerminal g outs = some out ∧ (n, out) ∈ outs ∧ g.Terminal n := by
  have hm : p ∈ outs.filter fun p => !hasOutgoing g p.1 :=
    List.mem_filter.mpr ⟨hp, by simp [hasOutgoing_eq_false.mpr ht]⟩
  obtain ⟨q, hq⟩ := Option.ne_none_iff_exists'.mp fun hn => List.ne_nil_of_mem hm (List.getLast?_eq_none_iff.mp hn)
  obtain ⟨hq1, hq2⟩ := List.mem_filter.mp (List.mem_of_getLast? hq)
  refine ⟨q.1, q.2, by rw [lastTerminal, hq]; rfl, hq1, hasOutgoing_eq_false.mp (by simpa using hq2)⟩

/-- **No silent stall, where every node is live.** -/
theorem no_silent_stall (S : Setup) (hlive : ∀ v ∈ S.graph.nodes, Live S.graph v) (s : State L) (cs : List (Choice L))
    (y : Exec L) (hr : Run (step S .run) (Succeeds fun _ _ _ => True) (runStart S .fresh s) cs y)
    (hf : y.pc.finished = true) : NoStall S.graph y := by
  have hP := Progress.run hr (Progress.runStart S s)
  have hT := Tally.run hr (Progress.runStart S s) (Tally.runStart S s)
  have hexit : Exits y := by
    refine Exits.run hr ?_
    rw [runStart_fresh]
    exact Exits.begin _ _
  have hfired : ∀ v ∈ S.graph.nodes, (y.impl.activations v).timesFired ≠ 0 := fun v hv =>
    fired_of_live hP.supplied (hP.drained (Or.inr hf)) (hP.tasks.idle hf).flag (fun v => hP.completed_of_fired hf)
      (fun v => hP.entry_fired hf) (hlive v hv)
  have hout : ∀ v ∈ S.graph.nodes, ∃ out, (v, out) ∈ outputs y.log := fun v hv => by
    have hm := hP.completed_of_fired hf (hfired v hv)
    rw [hT.completed] at hm
    obtain ⟨p, hp, rfl⟩ := List.mem_map.mp hm
    exact ⟨p.2, hp⟩
  refine ⟨fun v hv => ?_, fun v hv => hP.waits hf hv (hfired v hv), fun ⟨v, hv, ht⟩ => ?_⟩
  · obtain ⟨out, ho⟩ := hout v hv
    exact ⟨hfired v hv, out, mem_outputs.mp ho⟩
  · obtain ⟨out, ho⟩ := hout v hv
    obtain ⟨n, out', hlast, hmem, hn⟩ := exists_lastTerminal ho ht
    obtain ⟨r, hpc⟩ := hexit.returned hP.firstError hf
    have hret := hT.returned r hpc
    rw [hlast] at hret
    exact ⟨n, out', hn, mem_outputs.mp hmem, hlast, by rw [hpc, hret]; rfl⟩

/-- The chain of an ALL and an ANY edge. -/
theorem no_silent_stall_line : ∃ y : Exec Libs.text, y.pc.finished = true ∧ NoStall Graph.line y := by
  have h : (check (step (Setup.plain .line) .run) (fun _ c => c.succeeds)
      [.main, .main, .main, .main, .start, .finish 0 (.ok (Libs.text.state [1])) none, .main, .main, .main, .main,
        .main, .main, .start, .finish 0 (.ok (Libs.text.state [2])) none, .main, .main, .main, .main, .main, .main,
        .start, .finish 0 (.ok (Libs.text.state [3])) none, .main, .main, .main]
      (runStart (Setup.plain .line) .fresh (Libs.text.state [0]))).any (fun y => y.pc.finished) = true := by
    decide
  obtain ⟨y, hr, hf⟩ := Run.exists_of_check _ h fun x c hc => Succeeds.of_succeeds hc x
  have ha : Live .line "a" := .entry (by decide)
  have hsrc : ∀ a ∈ Graph.line.edges, a.dst = "b" → a.src = "a" := by decide
  have hb : Live .line "b" :=
    .all (e := ⟨"a", "b", 0, .all⟩) (by decide) rfl rfl fun a hm hd _ => hsrc a hm hd ▸ ha
  have hc : Live .line "c" := .any (e := ⟨"b", "c", 0, .any⟩) (by decide) rfl rfl hb
  refine ⟨y, hf, no_silent_stall (Setup.plain .line) (fun v hv => ?_) _ _ y hr hf⟩
  simp only [Setup.plain, Graph.line, List.mem_cons, List.not_mem_nil, or_false] at hv
  rcases hv with rfl | rfl | rfl
  · exact ha
  · exact hb
  · exact hc

/-- A path of edges leads to the node from an entry node. -/
def Graph.Reachable (g : Graph) (v : Id) : Prop := ∃ u ∈ g.entryNodeIds, Relation.ReflTransGen g.Pred u v

/-- A cycle of group-0 edges behind an entry node: `a` waits for `b`. -/
def Graph.knot : Graph where
  nodes := ["e", "a", "b", "t"]
  edges := [⟨"e", "a", 0, .all⟩, ⟨"a", "b", 0, .all⟩, ⟨"b", "a", 0, .all⟩, ⟨"a", "t", 0, .all⟩]
  entryNodeIds := ["e"]
  group_nonneg := by decide
  nodes_nodup := by decide
  edges_known := by decide
  consistent := by decide
  entryNodeIds_eq := by decide
  entryNodeIds_ne := by decide

theorem Graph.knot_reachable : ∀ v ∈ Graph.knot.nodes, Graph.knot.Reachable v := by
  have hea : Graph.knot.Pred "e" "a" := by decide
  have hab : Graph.knot.Pred "a" "b" := by decide
  have hat : Graph.knot.Pred "a" "t" := by decide
  intro v hv
  refine ⟨"e", by decide, ?_⟩
  simp only [knot, List.mem_cons, List.not_mem_nil, or_false] at hv
  rcases hv with rfl | rfl | rfl | rfl
  · exact .refl
  · exact .single hea
  · exact .tail (.single hea) hab
  · exact .tail (.single hea) hat

/-- After `e` nothing is ready: `a` keeps its input, no other node fires, and
the empty state is returned though `t` has no outgoing edge. -/
theorem knot_stalls : (∀ v ∈ Graph.knot.nodes, Graph.knot.Reachable v) ∧ Graph.knot.Terminal "t" ∧
    ∃ cs y, Run (step (Setup.plain .knot) .run) (Succeeds fun _ _ _ => True)
      (runStart (Setup.plain .knot) .fresh (Libs.text.state [0])) cs y ∧ y.pc.outcome = some (.ok .null) ∧
      (∀ v ∈ ["a", "b", "t"], (y.impl.activations v).timesFired = 0) ∧
      (y.impl.activations "a").pendingInputs ≠ [] := by
  refine ⟨Graph.knot_reachable, by unfold Graph.Terminal; decide, ?_⟩
  have h : (check (step (Setup.plain .knot) .run) (fun _ c => c.succeeds)
      [.main, .main, .main, .main, .start, .finish 0 (.ok (Libs.text.state [1])) none, .main, .main, .main]
      (runStart (Setup.plain .knot) .fresh (Libs.text.state [0]))).any
      (fun y => decide (y.pc.outcome = some (.ok .null)) &&
        decide (∀ v ∈ ["a", "b", "t"], (y.impl.activations v).timesFired = 0) &&
        !(y.impl.activations "a").pendingInputs.isEmpty) = true := by
    decide
  obtain ⟨y, hr, hy⟩ := Run.exists_of_check _ h fun x c hc => Succeeds.of_succeeds hc x
  simp only [Bool.and_eq_true, decide_eq_true_eq, Bool.not_eq_true', List.isEmpty_eq_false_iff] at hy
  obtain ⟨⟨hpc, hfired⟩, hpend⟩ := hy
  exact ⟨_, y, hr, hpc, hfired, hpend⟩

end AgentFlow
