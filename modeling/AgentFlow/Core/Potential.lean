/-
# Acyclic runs end

A node may fire several times: once for the initial state, and again for what
its predecessors send. A launch takes at least one input, and a predecessor
sends one over each edge at most once per launch; while it is in flight it has
still to send it. So inputs taken, inputs pending and inputs that may still
come from nodes in flight never exceed the inputs that came in (`Supply`).
Where the edges are acyclic this bounds every node by the number of paths that
lead to it (`Graph.fireBound`), whatever the nodes return and whenever the run
is cancelled; and a run with boundedly many launches is bounded.

Key definitions: `Graph.inflow`, `Graph.fireBound`, `Supply`, `remaining`, `AcyclicRun`.
Key theorems: `Supply.fired_le`, `acyclic_runs_end`.
-/
import AgentFlow.Core.ColdStart
import AgentFlow.Core.FailStop

namespace AgentFlow

variable {L : Libs}

open Precedence Stepping

/-! ### Sums over the edges into a node -/

namespace Graph

variable (g : Graph)

/-- The sum of `f` over the edges into the node, at their sources. -/
def inflow (f : Id → ℕ) (v : Id) : ℕ := ((g.edges.filter fun e => e.dst = v).map fun e => f e.src).sum

variable {g}

theorem inflow_add (f f' : Id → ℕ) (v : Id) : g.inflow (fun m => f m + f' m) v = g.inflow f v + g.inflow f' v :=
  List.sum_map_add

theorem inflow_congr {f f' : Id → ℕ} (h : ∀ m, f m = f' m) (v : Id) : g.inflow f v = g.inflow f' v := by
  rw [funext h]

theorem inflow_le {f f' : Id → ℕ} {v : Id} (h : ∀ m, g.Pred m v → f m ≤ f' m) : g.inflow f v ≤ g.inflow f' v := by
  refine List.sum_le_sum fun e he => ?_
  obtain ⟨he, hd⟩ := List.mem_filter.mp he
  exact h e.src ⟨e, he, rfl, by simpa using hd⟩

/-- The edges from one node to another, counted. -/
theorem inflow_indicator (n v : Id) : g.inflow (fun m => if m = n then 1 else 0) v =
    ((g.edges.filter fun e => e.src = n).filter fun e => e.dst = v).length := by
  rw [inflow, List.filter_filter]
  induction g.edges with
  | nil => rfl
  | cons e es ih =>
    by_cases hd : e.dst = v
    · by_cases hs : e.src = n
      · simp [hd, hs, ih, Nat.add_comm]
      · simp [hd, hs, ih]
    · simp [hd, ih]

theorem inflow_eq_zero {v : Id} (hv : v ∉ g.nodes) (f : Id → ℕ) : g.inflow f v = 0 := by
  have hnil : (g.edges.filter fun e => e.dst = v) = [] := by
    refine List.filter_eq_nil_iff.mpr fun e he => ?_
    rw [decide_eq_true_eq]
    rintro rfl
    exact hv (g.edges_known e he).2
  rw [inflow, hnil]
  rfl

/-- Whether the node gets the initial state. -/
def entry (g : Graph) (v : Id) : ℕ := if v ∈ g.entryNodeIds then 1 else 0

/-- The paths that lead to the node from an entry node, by recursion along the edges. -/
noncomputable def fireBound (g : Graph) (h : g.IsDag) : Id → ℕ :=
  (wellFounded_of_acyclic (fun _ _ => pred_mem) h).fix fun v P =>
    g.entry v + ((g.edges.filter fun e => e.dst = v).attach.map fun e =>
      P e.1.src ⟨e.1, List.mem_of_mem_filter e.2, rfl, by simpa using (List.mem_filter.mp e.2).2⟩).sum

theorem fireBound_eq (h : g.IsDag) (v : Id) : g.fireBound h v = g.entry v + g.inflow (g.fireBound h) v := by
  rw [fireBound, WellFounded.fix_eq, inflow]
  congr 2
  exact List.attach_map_val (f := fun e : Edge => g.fireBound h e.src)

end Graph

/-! ### What a completion sends -/

/-- The inputs that a completion adds to a node, one for each edge at most. -/
theorem finish_pending (g : Graph) (n : Id) (res : Except L.Exception (State L)) (a b : Bool) (m : Impl L) (v : Id) :
    ∃ sent : List (State L), ((m.finish g n res a b).activations v).pendingInputs =
        (m.activations v).pendingInputs ++ sent ∧
      sent.length ≤ g.inflow (fun m => if m = n then 1 else 0) v ∧
      ((m.finish g n res a b).activations v).timesFired = (m.activations v).timesFired := by
  have hretire : ∀ m' : Impl L, ((m'.retire n).activations v).pendingInputs = (m'.activations v).pendingInputs ∧
      ((m'.retire n).activations v).timesFired = (m'.activations v).timesFired := by
    intro m'
    rw [Impl.retire_activations]
    split_ifs with hv
    · rw [hv]
      exact ⟨rfl, rfl⟩
    · exact ⟨rfl, rfl⟩
  cases res with
  | error e =>
    obtain ⟨h1, h2⟩ := hretire (m.fail e)
    exact ⟨[], h1.trans (List.append_nil _).symm, Nat.zero_le _, h2⟩
  | ok out =>
    rw [Graph.inflow_indicator]
    set es := g.edges.filter fun e => e.src = n with hes
    have hfires : ∀ m' : Impl L, m'.activations = m.activations →
        ((Impl.fires out es m').activations v).pendingInputs = (m.activations v).pendingInputs ++
            List.replicate (es.filter fun e => e.dst = v).length out.clone ∧
          ((Impl.fires out es m').activations v).timesFired = (m.activations v).timesFired := by
      intro m' hm
      rw [Impl.fires_activations, hm, deliverAll_pendingInputs, deliverAll_timesFired]
      exact ⟨rfl, rfl⟩
    have hblock : ∀ m' : Impl L, m'.activations = m.activations → ∃ sent : List (State L),
        ((if b then (if hasOutgoing g n then Impl.fires out es m' else (Impl.fires out es m').setTerminal out)
            else m').activations v).pendingInputs = (m.activations v).pendingInputs ++ sent ∧
          sent.length ≤ (es.filter fun e => e.dst = v).length ∧
          ((if b then (if hasOutgoing g n then Impl.fires out es m' else (Impl.fires out es m').setTerminal out)
            else m').activations v).timesFired = (m.activations v).timesFired := by
      intro m' hm
      cases b with
      | false => exact ⟨[], by rw [List.append_nil, ← hm]; rfl, Nat.zero_le _, by rw [← hm]; rfl⟩
      | true =>
        obtain ⟨h1, h2⟩ := hfires m' hm
        refine ⟨List.replicate (es.filter fun e => e.dst = v).length out.clone, ?_, List.length_replicate.le, ?_⟩
        · simp only [if_true]
          split_ifs <;> exact h1
        · simp only [if_true]
          split_ifs <;> exact h2
    have htrack : (if a then m.track n else m).activations = m.activations := by
      split_ifs <;> rfl
    obtain ⟨sent, h1, h2, h3⟩ := hblock _ htrack
    exact ⟨sent, (hretire _).1.trans h1, h2, (hretire _).2.trans h3⟩

/-! ### The invariant -/

def Exec.fired (x : Exec L) (v : Id) : ℕ := (x.impl.activations v).timesFired

def Exec.pending (x : Exec L) (v : Id) : ℕ := (x.impl.activations v).pendingInputs.length

/-- Whether the node has a coroutine, which may still send its output. -/
def Exec.busy (x : Exec L) (v : Id) : ℕ := if v ∈ x.tasks then 1 else 0

/-- Inputs taken, pending, and still to come from nodes in flight are no more
than came in. -/
structure Supply (S : Setup) (x : Exec L) : Prop where
  tasks : Tasks x
  batch : ∀ b last, x.pc = .launching b last → ∀ n ∈ b, n ∈ S.graph.nodes ∧ (x.impl.activations n).pendingInputs ≠ []
  balance : ∀ v, x.fired v + x.pending v + S.graph.inflow x.busy v ≤ S.graph.entry v + S.graph.inflow x.fired v
  logged : ∀ v, (launched x.log).count v = x.fired v

namespace Supply

variable {S : Setup} {loop : Loop} {c : Choice L} {x y : Exec L}

theorem runStart (S : Setup) (s : State L) : Supply S (runStart S .fresh s) := by
  rw [runStart_fresh]
  have ha := seeded_activation S.graph s
  refine ⟨Tasks.begin (seeded_idle _ s) Graph.entryNodeIds_nodup, fun b last hb n hn => ?_, fun v => ?_, fun v => ?_⟩
  · cases hb
    refine ⟨Graph.entryNodeIds_sub hn, ?_⟩
    have hp := (ha n).2.2.2.2
    rw [if_pos hn] at hp
    intro hnil
    rw [show ((seeded S.graph s).activations n).pendingInputs = [] from hnil] at hp
    cases hp
  · have hpending : (Exec.begin (seeded S.graph s) S.graph.entryNodeIds).pending v = S.graph.entry v := by
      rw [Exec.pending, show (Exec.begin (seeded S.graph s) S.graph.entryNodeIds).impl = seeded S.graph s from rfl,
        (ha v).2.2.2.2, Graph.entry]
      split_ifs <;> rfl
    have hbusy : S.graph.inflow (Exec.begin (seeded S.graph s) S.graph.entryNodeIds).busy v =
        S.graph.inflow (Exec.begin (seeded S.graph s) S.graph.entryNodeIds).fired v :=
      Graph.inflow_congr (fun m => by
        rw [Exec.fired, show (Exec.begin (seeded S.graph s) S.graph.entryNodeIds).impl = seeded S.graph s from rfl,
          (ha m).1]
        rfl) v
    rw [hpending, hbusy, show (Exec.begin (seeded S.graph s) S.graph.entryNodeIds).fired v = 0 from (ha v).1, Nat.zero_add]
  · exact (ha v).1.symm

/-- A launch takes an input, and the node may send once more. -/
theorem launch (h : Supply S x) {n : Id} {rest : List Id} {last : Option Id} (hpc : x.pc = .launching (n :: rest) last)
    (ht : Tasks { AgentFlow.launch x n with pc := Pc.launching rest (some n) }) :
    Supply S { AgentFlow.launch x n with pc := Pc.launching rest (some n) } := by
  obtain ⟨hnd, hout⟩ := h.tasks.batch _ _ hpc
  obtain ⟨hrest, -⟩ := List.nodup_cons.mp hnd
  have hn : n ∉ x.tasks := hout n List.mem_cons_self
  set y : Exec L := { AgentFlow.launch x n with pc := Pc.launching rest (some n) } with hy
  have hfired : ∀ v, y.fired v = x.fired v + if v = n then 1 else 0 := fun v => Impl.launch_timesFired x.impl n v
  have hpending : ∀ v, (y.impl.activations v).pendingInputs =
      if v = n then [] else (x.impl.activations v).pendingInputs := by
    intro v
    show ((x.impl.launch n).activations v).pendingInputs = _
    rw [Impl.launch_activations]
    split_ifs <;> rfl
  have hbusy : ∀ v, y.busy v = x.busy v + if v = n then 1 else 0 := by
    have hmem : ∀ v, v ∈ y.tasks ↔ v ∈ x.tasks ∨ v = n := by
      intro v
      simp only [hy, Exec.tasks, AgentFlow.launch, List.map_append, List.map_cons, List.map_nil, List.mem_append,
        List.mem_singleton]
      tauto
    intro v
    simp only [Exec.busy, hmem]
    by_cases hv : v = n
    · rw [hv, if_pos (Or.inr rfl), if_neg hn, if_pos rfl]
    · simp [hv]
  refine ⟨ht, fun b l hb v hv => ?_, fun v => ?_, fun v => ?_⟩
  · cases hb
    obtain ⟨hnode, hp⟩ := h.batch _ _ hpc v (List.mem_cons_of_mem _ hv)
    refine ⟨hnode, ?_⟩
    rw [hpending, if_neg fun he : v = n => hrest (he ▸ hv)]
    exact hp
  · have hb := h.balance v
    rw [Graph.inflow_congr hbusy, Graph.inflow_congr hfired, Graph.inflow_add, Graph.inflow_add, hfired, Exec.pending,
      hpending]
    by_cases hv : v = n
    · -- the launch takes at least one input
      have hpos := List.length_pos_of_ne_nil (h.batch _ _ hpc n List.mem_cons_self).2
      subst hv
      simp only [if_true, List.length_nil]
      simp only [Exec.pending] at hb
      omega
    · simp only [hv, if_false, Nat.add_zero]
      simp only [Exec.pending] at hb
      omega
  · rw [hfired, ← h.logged v]
    show (launched (x.log ++ [Event.launch n])).count v = _
    have hone : launched [(Event.launch n : Event L)] = [n] := rfl
    rw [launched_append, hone, List.count_append, List.count_singleton]
    by_cases hv : v = n
    · simp [hv]
    · simp [hv, Ne.symm hv]

/-- A node that ends sends what it had to send, or less. -/
theorem finish (h : Supply S x) {k : ℕ} {t : Task L} {res : Except L.Exception (State L)} {cut : Option CancelPoint}
    (hk : x.running[k]? = some t) (ht : Tasks (complete S loop t.node res cut { x with running := x.running.eraseIdx k })) :
    Supply S (complete S loop t.node res cut { x with running := x.running.eraseIdx k }) := by
  obtain ⟨e1, e2, e3, -⟩ := complete_keeps S loop t.node res cut { x with running := x.running.eraseIdx k }
  have hi := complete_impl S loop t.node res cut { x with running := x.running.eraseIdx k }
  have hlog := complete_log S loop t.node res cut { x with running := x.running.eraseIdx k }
  have hperm := tasks_perm hk
  set y := complete S loop t.node res cut { x with running := x.running.eraseIdx k } with hy
  have htasks : x.tasks.Perm (t.node :: y.tasks) := by
    have hy : y.tasks = (x.queued ++ x.running.eraseIdx k).map (·.node) := by
      simp only [Exec.tasks, e2, e3]
    rw [hy]
    exact hperm
  have hnot : t.node ∉ y.tasks := (List.nodup_cons.mp (htasks.nodup_iff.mp h.tasks.nodup)).1
  have hbusy : ∀ v, x.busy v = y.busy v + if v = t.node then 1 else 0 := by
    intro v
    simp only [Exec.busy, htasks.mem_iff, List.mem_cons]
    by_cases hv : v = t.node
    · rw [hv, if_pos (Or.inl rfl), if_neg hnot, if_pos rfl]
    · simp [hv]
  have hact : ∀ v, ∃ sent : List (State L), (y.impl.activations v).pendingInputs =
      (x.impl.activations v).pendingInputs ++ sent ∧
        sent.length ≤ S.graph.inflow (fun m => if m = t.node then 1 else 0) v ∧ y.fired v = x.fired v := by
    intro v
    rw [Exec.fired, hi]
    exact finish_pending S.graph t.node res _ _ x.impl v
  refine ⟨ht, fun b l hb v hv => ?_, fun v => ?_, fun v => ?_⟩
  · obtain ⟨hnode, hp⟩ := h.batch b l (e1 ▸ hb) v hv
    obtain ⟨sent, hsent, -⟩ := hact v
    refine ⟨hnode, ?_⟩
    rw [hsent]
    exact List.append_ne_nil_of_left_ne_nil hp _
  · have hb := h.balance v
    obtain ⟨sent, hsent, hlen, hfired⟩ := hact v
    have hallfired : S.graph.inflow y.fired v = S.graph.inflow x.fired v :=
      Graph.inflow_congr (fun m => (hact m).choose_spec.2.2) v
    rw [Graph.inflow_congr hbusy, Graph.inflow_add] at hb
    rw [hallfired, hfired, Exec.pending, hsent, List.length_append]
    simp only [Exec.pending] at hb
    omega
  · obtain ⟨-, -, -, hfired⟩ := hact v
    rw [hfired, ← h.logged v, hlog, launched_append,
      (Lined.completion_silent S loop t.node res cut x.cancelled x.impl.completedNodeIds).1, List.append_nil]

theorem passes (h : Supply S x) {evs : List (Event L)} (hp : Passes S c x y evs) (ht : Tasks y) : Supply S y := by
  have hfired : y.fired = x.fired := by
    funext v
    rw [Exec.fired, hp.activations]
    rfl
  have hbusy : y.busy = x.busy := by
    funext v
    simp only [Exec.busy, hp.tasks.mem_iff]
  refine ⟨ht, fun b l hb n hn => ?_, fun v => ?_, fun v => ?_⟩
  · rw [hp.activations]
    rcases hp.batch b l hb with hpc | rfl
    · exact h.batch b l (hpc ▸ hb) n hn
    · obtain ⟨hnode, -, hpending, -⟩ := mem_ready.mp hn
      exact ⟨hnode, hpending⟩
  · rw [hfired, hbusy, Exec.pending, hp.activations]
    exact h.balance v
  · have hsilent : launched evs = [] := by
      refine List.filterMap_eq_nil_iff.mpr fun ev hev => ?_
      rcases hp.events ev hev with ⟨n, i, rfl⟩ | rfl | ⟨b, rfl⟩ <;> rfl
    rw [hp.log, launched_append, hsilent, List.append_nil, hfired]
    exact h.logged v

theorem step (h : Supply S x) (hs : Moves S loop c x y) : Supply S y := by
  have ht := h.tasks.step hs
  rcases hs.split with ⟨n, rest, last, -, hpc, rfl⟩ | ⟨k, t, res, cut, -, hk, -, rfl⟩ | hp
  · exact h.launch hpc ht
  · exact h.finish hk ht
  · exact h.passes hp ht

theorem run {ok : Exec L → Choice L → Prop} {cs : List (Choice L)} (hr : Run (AgentFlow.step S loop) ok x cs y)
    (hx : Supply S x) : Supply S y :=
  hr.invariant (fun _ _ _ hI _ hs => hI.step (step_eq_some.mp hs)) hx

/-- **No node fires more often than paths lead to it.** -/
theorem fired_le (h : Supply S x) (hdag : S.graph.IsDag) (v : Id) : x.fired v ≤ S.graph.fireBound hdag v := by
  induction v using (wellFounded_of_acyclic (fun _ _ => Graph.pred_mem) hdag).induction with
  | _ v ih =>
    rw [Graph.fireBound_eq]
    have hb := h.balance v
    have hi : S.graph.inflow x.fired v ≤ S.graph.inflow (S.graph.fireBound hdag) v := Graph.inflow_le ih
    omega

/-- Nodes outside the graph never fire. -/
theorem fired_eq_zero (h : Supply S x) {v : Id} (hv : v ∉ S.graph.nodes) : x.fired v = 0 := by
  have hb := h.balance v
  have hentry : S.graph.entry v = 0 := if_neg fun hm => hv (Graph.entryNodeIds_sub hm)
  rw [hentry, Graph.inflow_eq_zero hv x.fired] at hb
  omega

/-- What is left to fire, in all. -/
theorem sum_fired_le (h : Supply S x) (hdag : S.graph.IsDag) :
    (S.graph.nodes.map x.fired).sum ≤ (S.graph.nodes.map (S.graph.fireBound hdag)).sum :=
  List.sum_le_sum fun v _ => h.fired_le hdag v

end Supply

/-! ### How long a run takes -/

/-- A bound on the steps still to come, cancellations apart: each firing that
may still come costs a launch and its share of the load. -/
noncomputable def remaining (S : Setup) (hdag : S.graph.IsDag) (x : Exec L) : ℕ :=
  8 * ((S.graph.nodes.map (S.graph.fireBound hdag)).sum - (S.graph.nodes.map x.fired).sum) + load x

section remaining

variable {S : Setup} {loop : Loop} {c : Choice L} {x y : Exec L}

/-- Only a launch fires a node. -/
theorem fired_step (hs : Moves S loop c x y) (hl : launches x c = false) : y.fired = x.fired := by
  funext v
  rcases hs.split with ⟨n, rest, last, rfl, hpc, -⟩ | ⟨k, t, res, cut, -, -, -, rfl⟩ | hp
  · simp [launches, hpc] at hl
  · obtain ⟨-, -, -, h⟩ := finish_pending S.graph t.node res (tracked x.cancelled cut) (fired x.cancelled cut) x.impl v
    rw [Exec.fired, complete_impl]
    exact h
  · rw [Exec.fired, hp.activations]
    rfl

theorem exists_launch (hs : Moves S loop c x y) (hl : launches x c = true) : ∃ n rest last,
    x.pc = .launching (n :: rest) last ∧ y = { launch x n with pc := .launching rest (some n) } := by
  cases hs with
  | @launch _ n rest last hpc => exact ⟨n, rest, last, hpc, rfl⟩
  | start | finish | cancel => cases hl
  | batchDone hpc | drained hpc | batch hpc | leave hpc | wait hpc | receive hpc => simp [launches, hpc] at hl

/-- A launch fires one node of the graph once more. -/
theorem sum_fired_launch (h : Supply S x) {n : Id} {rest : List Id} {last : Option Id}
    (hpc : x.pc = .launching (n :: rest) last) (hy : y.impl = x.impl.launch n) :
    (S.graph.nodes.map y.fired).sum = (S.graph.nodes.map x.fired).sum + 1 := by
  have hn : n ∈ S.graph.nodes := (h.batch _ _ hpc n List.mem_cons_self).1
  have hfired : y.fired = fun v => x.fired v + if v = n then 1 else 0 := by
    funext v
    rw [Exec.fired, hy]
    exact Impl.launch_timesFired x.impl n v
  have hone : (S.graph.nodes.map fun v => if v = n then 1 else 0).sum = 1 := by
    rw [List.sum_map_eq_nsmul_single n _ fun v hv _ => if_neg hv, if_pos rfl,
      List.count_eq_one_of_mem S.graph.nodes_nodup hn]
    rfl
  rw [hfired, List.sum_map_add, hone]

/-- Every step but a cancellation is paid for. -/
theorem remaining_step (hdag : S.graph.IsDag) (h : Supply S x) (hs : Moves S loop c x y) :
    remaining S hdag y + (if !c.isCancel then 1 else 0) ≤ remaining S hdag x := by
  have hy := (h.step hs).sum_fired_le hdag
  cases hl : launches x c with
  | true =>
    obtain ⟨n, rest, last, hpc, rfl⟩ := exists_launch hs hl
    have hr : Pc.rank (.launching rest (some n) : Pc L) ≤ 3 := by cases rest <;> simp [Pc.rank]
    have hsum := sum_fired_launch h hpc (y := { launch x n with pc := .launching rest (some n) }) rfl
    have hone : (if !c.isCancel then 1 else 0) ≤ 1 := by split_ifs <;> omega
    have hload : load { launch x n with pc := .launching rest (some n) } ≤ load x + 7 := by
      simp only [load, launch, hpc, List.length_append, List.length_cons, List.length_nil, Pc.rank] at hr ⊢
      omega
    rw [remaining, remaining]
    omega
  | false =>
    have hfired := fired_step hs hl
    by_cases hc : c = .cancel
    · subst hc
      cases hs with
      | cancel hpc =>
        obtain ⟨e1, e2, e3, e4⟩ := Exec.cancelIf_keeps x true
        have hload : load (x.cancelIf true) = load x := by simp only [load, e1, e2, e3, e4]
        rw [remaining, hfired, hload]
        exact le_rfl
    · have hlt := load_lt hs hl hc
      have hone : (if !c.isCancel then 1 else 0) ≤ 1 := by split_ifs <;> omega
      rw [remaining, hfired, remaining]
      omega

end remaining

/-- A run on an acyclic graph: what has fired so far, how long it has taken,
and that it goes on until nothing is in flight. -/
structure AcyclicRun (S : Setup) (P : Id → ℕ) (cs : List (Choice L)) (y : Exec L) : Prop where
  /-- A node has fired as often as it was launched, and no more often than paths lead to it. -/
  fired : ∀ v, (y.impl.activations v).timesFired = (launched y.log).count v ∧ (launched y.log).count v ≤ P v
  /-- So the run has fired finitely often, and it is finite: only cancelling takes no step of it. -/
  firings : (launched y.log).length ≤ (S.graph.nodes.map P).sum
  steps : (cs.countP fun c => !c.isCancel) ≤ 8 * (S.graph.nodes.map P).sum + 3
  /-- While it is not over it goes on, whatever the nodes in flight return. -/
  goesOn : y.pc.finished = false → ∀ res, ∃ c z,
    (c = .main ∨ c = .start ∨ c = .finish 0 res none) ∧ step S .run c y = some z
  /-- With nothing in flight the loop itself goes on. -/
  loops : y.pc.finished = false → y.tasks = [] → ∃ z, step S .run .main y = some z
  /-- Whatever the nodes return, the run can be taken to its end. -/
  ends : ∀ results : Exec L → Except L.Exception (State L), ∃ cs' z,
    Run (step S .run) (fun x c => c = .main ∨ c = .start ∨ c = .finish 0 (results x) none) y cs' z ∧
      z.pc.finished = true
  idle : y.pc.finished = true → y.tasks = []

/-- Every launch is of a node of the graph. -/
theorem Supply.length_launched {S : Setup} {x : Exec L} (h : Supply S x) :
    (launched x.log).length = (S.graph.nodes.map x.fired).sum := by
  have hsub : ∀ v ∈ launched x.log, v ∈ S.graph.nodes.toFinset := by
    intro v hv
    rw [List.mem_toFinset]
    by_contra hn
    have hcount := List.count_pos_iff.mpr hv
    rw [h.logged v, h.fired_eq_zero hn] at hcount
    exact absurd hcount (lt_irrefl 0)
  calc (launched x.log).length = ∑ v ∈ S.graph.nodes.toFinset, (launched x.log).count v :=
        by simpa using (Multiset.sum_count_eq_card (m := (launched x.log : Multiset Id)) hsub).symm
    _ = (S.graph.nodes.map fun v => (launched x.log).count v).sum := List.sum_toFinset _ S.graph.nodes_nodup
    _ = (S.graph.nodes.map x.fired).sum := by simp only [h.logged]

/-- With nothing in flight there is no other step. -/
theorem exists_main {S : Setup} {x : Exec L} (h : Tasks x) (hf : x.pc.finished = false) (ht : x.tasks = []) :
    ∃ z, step S .run .main x = some z := by
  obtain ⟨hq, hr⟩ := List.append_eq_nil_iff.mp (List.map_eq_nil_iff.mp ht)
  obtain ⟨c, z, hc, hs⟩ := exists_step S .run h hf (.ok .null)
  rcases hc with rfl | rfl | rfl
  · exact ⟨z, hs⟩
  · simp [step, hq] at hs
  · simp [step, hr] at hs

/-- **Acyclic runs end.** On a graph whose edges, of all groups and
conditions, are acyclic, with `P` the number of paths from the entry nodes. -/
theorem acyclic_runs_end (S : Setup) (hdag : S.graph.IsDag) (s : State L) (cs : List (Choice L)) (y : Exec L)
    (hr : Run (step S .run) (fun _ _ => True) (runStart S .fresh s) cs y) :
    (∀ v, S.graph.fireBound hdag v = (if v ∈ S.graph.entryNodeIds then 1 else 0) +
        ((S.graph.edges.filter fun e => e.dst = v).map fun e => S.graph.fireBound hdag e.src).sum) ∧
      AcyclicRun S (S.graph.fireBound hdag) cs y := by
  have h := Supply.run hr (Supply.runStart S s)
  refine ⟨Graph.fireBound_eq hdag,
    { fired := fun v => ⟨(h.logged v).symm, h.logged v ▸ h.fired_le hdag v⟩
      firings := h.length_launched.trans_le (h.sum_fired_le hdag)
      steps := ?_
      goesOn := exists_step S .run h.tasks
      loops := exists_main h.tasks
      ends := fun results => ?_
      idle := h.tasks.ended }⟩
  · have hle := hr.countP_le (p := fun c => !c.isCancel) (fun _ _ _ hI _ hs => Supply.step hI (step_eq_some.mp hs))
      (fun _ _ _ hI _ hs => remaining_step hdag hI (step_eq_some.mp hs)) (Supply.runStart S s)
    have hstart : remaining S hdag (runStart S .fresh s) ≤ 8 * (S.graph.nodes.map (S.graph.fireBound hdag)).sum + 3 := by
      rw [remaining, runStart_fresh]
      have hrank : (Exec.begin (seeded S.graph s) S.graph.entryNodeIds).pc.rank ≤ 3 := by
        cases hb : S.graph.entryNodeIds <;> simp [Exec.begin, Pc.rank]
      simp only [load, Exec.begin, List.length_nil] at hrank ⊢
      omega
    omega
  · refine Run.exists_final (I := Supply S) (fun _ _ _ hI _ hs => hI.step (step_eq_some.mp hs))
      (fun x c z hI hc hs => ?_) (fun x hI hf => ?_) (remaining S hdag y) y le_rfl h
    · have hstep := remaining_step hdag hI (step_eq_some.mp hs)
      rcases hc with rfl | rfl | rfl <;> exact hstep
    · obtain ⟨c, z, hc, hs⟩ := exists_step S .run hI.tasks (by simpa using hf) (results x)
      exact ⟨c, z, hc, hs⟩

/-- The diamond, with `b` failing and the run cancelled. -/
theorem acyclic_runs_end_diamond : ∃ cs y, Run (step (Setup.plain .diamond) .run) (fun _ _ => True)
      (runStart (Setup.plain .diamond) .fresh (Libs.text.state [0])) cs y ∧ y.pc.finished = true ∧
    AcyclicRun (Setup.plain .diamond) ((Setup.plain .diamond).graph.fireBound diamond_isDag) cs y := by
  have h : (check (step (Setup.plain .diamond) .run) (fun _ _ => true)
      [.main, .main, .main, .main, .start, .finish 0 (.ok (Libs.text.state [1])) none, .main,
        .main, .main, .main, .main, .main, .main, .start, .start,
        .finish 0 (.error "boom") none, .cancel, .finish 0 (.ok (Libs.text.state [3])) none, .main]
      (runStart (Setup.plain .diamond) .fresh (Libs.text.state [0]))).any (fun y => y.pc.finished) = true := by
    decide
  obtain ⟨y, hr, hf⟩ := Run.exists_of_check (fun _ _ => True) h fun _ _ _ => trivial
  exact ⟨_, y, hr, hf, (acyclic_runs_end _ diamond_isDag _ _ y hr).2⟩

end AgentFlow
