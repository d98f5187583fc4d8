/-
# The counters follow the edges

In a graph whose nodes wait for all their predecessors (`WaitsForAll`), with
every node run at most once, the bookkeeping says how far the run is: of a
node that has not started, the counter is the number of incoming edges whose
source has not completed, and its pending inputs are what the completed ones
sent. `Plan` is that, over the runner's fields, the nodes that have a
coroutine and the outputs so far. A launch of a node whose predecessors have
all completed keeps it (`Plan.launch`), and so does a completion
(`Plan.finish`); under it a node is ready exactly when its predecessors have
completed (`Plan.nodeReady_iff`).

The run may start in the middle: `Base` is what completed before and what
inputs it left.

Key definitions: `WaitsForAll`, `Base`, `Plan`.
-/
import AgentFlow.Core.Log

namespace AgentFlow

variable {L : Libs}

open Precedence

/-- Every edge is of group 0, and a node waits for all its predecessors: its
condition is ALL, or it has only one. -/
def Graph.WaitsForAll (g : Graph) : Prop :=
  ∀ e ∈ g.edges, e.activationGroup = 0 ∧
    (e.condition = .all ∨ ∀ e' ∈ g.edges, e'.dst = e.dst → e'.src = e.src)

theorem Graph.PlainFanIn.waitsForAll {g : Graph} (h : g.PlainFanIn) : g.WaitsForAll :=
  fun e he => ⟨(h e he).1, Or.inl (h e he).2⟩

/-- The edges from `a` to `b`. -/
def edgesBetween (g : Graph) (a b : Id) : List Edge := (g.edges.filter fun e => e.src = a).filter fun e => e.dst = b

theorem mem_edgesBetween {g : Graph} {a b : Id} {e : Edge} :
    e ∈ edgesBetween g a b ↔ e ∈ g.edges ∧ e.src = a ∧ e.dst = b := by
  simp only [edgesBetween, List.mem_filter, decide_eq_true_eq, and_assoc]

theorem edgesBetween_eq_nil {g : Graph} {a b : Id} (h : ¬ g.Pred a b) : edgesBetween g a b = [] := by
  rw [List.eq_nil_iff_forall_not_mem]
  intro e he
  obtain ⟨h1, h2, h3⟩ := mem_edgesBetween.mp he
  exact h ⟨e, h1, h2, h3⟩

/-- The inputs the outputs bring to `v`, in order: one over each edge. -/
def delivered (g : Graph) (v : Id) (outs : List (Id × State L)) : List (State L) :=
  outs.flatMap fun p => List.replicate (edgesBetween g p.1 v).length p.2.clone

theorem delivered_snoc (g : Graph) (v : Id) (outs : List (Id × State L)) (p : Id × State L) :
    delivered g v (outs ++ [p]) =
      delivered g v outs ++ List.replicate (edgesBetween g p.1 v).length p.2.clone := by
  simp [delivered]

/-- The last predecessor of `v` that returned, and what it returned. -/
def lastFrom (g : Graph) (v : Id) (outs : List (Id × State L)) : Option (Id × State L) :=
  (outs.filter fun p => g.Pred p.1 v).getLast?

/-- The last input delivered is the output of the last predecessor that returned. -/
theorem delivered_getLast? (g : Graph) (v : Id) (outs : List (Id × State L)) :
    (delivered g v outs).getLast? = (lastFrom g v outs).map fun p => p.2.clone := by
  induction outs using List.reverseRecOn with
  | nil => rfl
  | append_singleton outs p ih =>
    rw [delivered_snoc, lastFrom, List.filter_append]
    by_cases hp : g.Pred p.1 v
    · obtain ⟨e, he, hs, hd⟩ := hp
      have hpos := List.length_pos_of_mem (mem_edgesBetween.mpr ⟨he, hs, hd⟩)
      have hp : g.Pred p.1 v := ⟨e, he, hs, hd⟩
      rw [List.getLast?_append_of_ne_nil _ (by simpa using List.ne_nil_of_length_pos hpos),
        List.getLast?_replicate]
      simp [hp, hpos.ne']
    · rw [edgesBetween_eq_nil hp]
      simpa [hp, lastFrom] using ih

/-- The number of edges into `v` whose source is not done. -/
def waiting (g : Graph) (v : Id) (done : List Id) : ℕ := g.edges.countP fun e => e.dst = v ∧ e.src ∉ done

theorem waiting_eq_zero {g : Graph} {v : Id} {done : List Id} :
    waiting g v done = 0 ↔ ∀ a, g.Pred a v → a ∈ done := by
  rw [waiting, List.countP_eq_zero]
  constructor
  · rintro h a ⟨e, he, rfl, rfl⟩
    simpa using h e he
  · intro h e he
    simp only [decide_eq_true_eq, not_and, not_not]
    rintro rfl
    exact h e.src ⟨e, he, rfl, rfl⟩

/-- When one more source is done, its edges no longer count. -/
theorem waiting_snoc (g : Graph) (v : Id) {done : List Id} {n : Id} (hn : n ∉ done) :
    waiting g v done = waiting g v (done ++ [n]) + (edgesBetween g n v).length := by
  have hlen : (edgesBetween g n v).length = g.edges.countP fun e => e.dst = v ∧ e.src = n := by
    rw [edgesBetween, List.filter_filter, List.countP_eq_length_filter]
    congr 1
    exact List.filter_congr fun e _ => by simp
  rw [hlen, waiting, waiting]
  induction g.edges with
  | nil => rfl
  | cons e es ih =>
    simp only [List.countP_cons, ih]
    by_cases hv : e.dst = v <;> by_cases hs : e.src = n
    · simp [hv, hs, hn]; omega
    · simp [hv, hs]; omega
    · simp [hv]
    · simp [hv]

/-- What a run starts from: the nodes completed before, the inputs they left,
and the terminal state. -/
structure Base (L : Libs) where
  pre : List Id
  seed : Id → List (State L)
  terminal : Option (State L)

/-- The bookkeeping of the nodes, given which have a coroutine and what the
completed ones returned. -/
structure Plan (g : Graph) (B : Base L) (m : Impl L) (tasks : List Id) (outs : List (Id × State L)) : Prop where
  keyed : Keyed g m
  completed : m.completedNodeIds = B.pre ++ outs.map (·.1)
  nodup : m.completedNodeIds.Nodup
  inOrder : InOrder g.Pred m.completedNodeIds
  known : ∀ v, v ∈ m.completedNodeIds ∨ v ∈ tasks → v ∈ g.nodes
  apart : ∀ v ∈ tasks, v ∉ m.completedNodeIds
  preds : ∀ v ∈ tasks, ∀ a, g.Pred a v → a ∈ m.completedNodeIds
  timesFired : ∀ v, (m.activations v).timesFired = if v ∈ m.completedNodeIds ∨ v ∈ tasks then 1 else 0
  /-- A node that started has no input left. -/
  spent : ∀ v, v ∈ m.completedNodeIds ∨ v ∈ tasks → (m.activations v).pendingInputs = []
  pending : ∀ v, v ∉ m.completedNodeIds → v ∉ tasks →
    (m.activations v).pendingInputs = B.seed v ++ delivered g v outs
  remaining : ∀ e ∈ g.edges, e.condition = .all → e.dst ∉ m.completedNodeIds → e.dst ∉ tasks →
    (m.activations e.dst).remainingAll 0 = waiting g e.dst m.completedNodeIds
  any : ∀ e ∈ g.edges, e.condition = .any → e.dst ∉ m.completedNodeIds → e.dst ∉ tasks →
    ((m.activations e.dst).anyFired 0 = true ↔ e.src ∈ m.completedNodeIds)

namespace Plan

variable {g : Graph} {B : Base L} {m : Impl L} {tasks : List Id} {outs : List (Id × State L)}

/-- Only membership of the coroutines' list matters. -/
theorem congr (h : Plan g B m tasks outs) {tasks' : List Id} (ht : ∀ v, v ∈ tasks' ↔ v ∈ tasks) :
    Plan g B m tasks' outs where
  keyed := h.keyed
  completed := h.completed
  nodup := h.nodup
  inOrder := h.inOrder
  known v hv := h.known v (by rwa [ht] at hv)
  apart v hv := h.apart v ((ht v).mp hv)
  preds v hv := h.preds v ((ht v).mp hv)
  timesFired v := by rw [h.timesFired]; simp only [ht]
  spent v hv := h.spent v (by rwa [ht] at hv)
  pending v h1 h2 := h.pending v h1 (by rwa [ht] at h2)
  remaining e he hc h1 h2 := h.remaining e he hc h1 (by rwa [ht] at h2)
  any e he hc h1 h2 := h.any e he hc h1 (by rwa [ht] at h2)

/-- Only the nodes' bookkeeping and the completed ids matter. -/
theorem of_impl (h : Plan g B m tasks outs) {m' : Impl L} (ha : m'.activations = m.activations)
    (hc : m'.completedNodeIds = m.completedNodeIds) : Plan g B m' tasks outs where
  keyed := by rw [Keyed, ha]; exact h.keyed
  completed := hc ▸ h.completed
  nodup := hc ▸ h.nodup
  inOrder := hc ▸ h.inOrder
  known := hc ▸ h.known
  apart := hc ▸ h.apart
  preds := hc ▸ h.preds
  timesFired := by rw [ha, hc]; exact h.timesFired
  spent := by rw [ha, hc]; exact h.spent
  pending := by rw [ha, hc]; exact h.pending
  remaining := by rw [ha, hc]; exact h.remaining
  any := by rw [ha, hc]; exact h.any

/-- A node that has not started is ready when its predecessors have completed. -/
theorem nodeReady_iff (h : Plan g B m tasks outs) (hw : g.WaitsForAll) {v : Id}
    (h1 : v ∉ m.completedNodeIds) (h2 : v ∉ tasks) :
    nodeReady (m.activations v) = true ↔ ∀ a, g.Pred a v → a ∈ m.completedNodeIds := by
  rw [AgentFlow.nodeReady_iff h.keyed]
  have hall : ∀ e ∈ g.edges, e.dst = v → e.condition = .all →
      (groupReady (m.activations v) e.activationGroup e.condition = true ↔ waiting g v m.completedNodeIds = 0) := by
    rintro e he rfl hc
    have := h.remaining e he hc h1 h2
    simp only [groupReady, (hw e he).1, this, hc]
    simp
  have hany : ∀ e ∈ g.edges, e.dst = v → e.condition = .any →
      (groupReady (m.activations v) e.activationGroup e.condition = true ↔ e.src ∈ m.completedNodeIds) := by
    rintro e he rfl hc
    have := h.any e he hc h1 h2
    simp only [groupReady, (hw e he).1, hc]
    simpa using this
  constructor
  · rintro hr a ⟨e, he, rfl, rfl⟩
    have hready := hr e he rfl
    cases hc : e.condition with
    | all => exact waiting_eq_zero.mp ((hall e he rfl hc).mp hready) _ ⟨e, he, rfl, rfl⟩
    | any => exact (hany e he rfl hc).mp hready
  · rintro hp e he rfl
    cases hc : e.condition with
    | all => exact hc ▸ (hall e he rfl hc).mpr (waiting_eq_zero.mpr hp)
    | any => exact hc ▸ (hany e he rfl hc).mpr (hp _ ⟨e, he, rfl, rfl⟩)

/-- A node is launched after all its predecessors completed. -/
theorem launch (h : Plan g B m tasks outs) {n : Id} (hn : n ∈ g.nodes) (h1 : n ∉ m.completedNodeIds)
    (h2 : n ∉ tasks) (hp : ∀ a, g.Pred a n → a ∈ m.completedNodeIds) {tasks' : List Id}
    (ht : ∀ v, v ∈ tasks' ↔ v = n ∨ v ∈ tasks) : Plan g B (m.launch n) tasks' outs := by
  have hact := m.launch_activations n
  have hne : ∀ v, v ∉ tasks' → v ≠ n ∧ v ∉ tasks := fun v hv => not_or.mp ((ht v).not.mp hv)
  refine
    { keyed := h.keyed.of_conditions (m.launch_conditions n)
      completed := h.completed
      nodup := h.nodup
      inOrder := h.inOrder
      known := fun v hv => ?_
      apart := fun v hv => ?_
      preds := fun v hv => ?_
      timesFired := fun v => ?_
      spent := fun v hv => ?_
      pending := fun v h3 h4 => ?_
      remaining := fun e he hc h3 h4 => ?_
      any := fun e he hc h3 h4 => ?_ }
  · rw [ht] at hv
    rcases hv with hv | rfl | hv
    · exact h.known v (Or.inl hv)
    · exact hn
    · exact h.known v (Or.inr hv)
  · rcases (ht v).mp hv with rfl | hv
    · exact h1
    · exact h.apart v hv
  · rcases (ht v).mp hv with rfl | hv
    · exact hp
    · exact h.preds v hv
  · rw [m.launch_timesFired, h.timesFired v]
    show _ = if v ∈ m.completedNodeIds ∨ v ∈ tasks' then 1 else 0
    simp only [ht]
    by_cases hv : v = n
    · subst hv; simp [h1, h2]
    · simp [hv]
  · rw [hact]
    by_cases he : v = n
    · simp [he, activate]
    · rw [if_neg he]
      have hv' : v ∈ m.completedNodeIds ∨ v = n ∨ v ∈ tasks := by rwa [← ht]
      exact h.spent v (by simpa [he] using hv')
  · obtain ⟨e1, e2⟩ := hne v h4
    rw [hact, if_neg e1]
    exact h.pending v h3 e2
  · obtain ⟨e1, e2⟩ := hne _ h4
    rw [hact, if_neg e1]
    exact h.remaining e he hc h3 e2
  · obtain ⟨e1, e2⟩ := hne _ h4
    rw [hact, if_neg e1]
    exact h.any e he hc h3 e2

end Plan

/-- The bookkeeping of a node after a completion of `n` that did not throw. -/
theorem finish_activations (g : Graph) (n : Id) (out : State L) (tracked fired : Bool) (m : Impl L) (v : Id) :
    ((m.finish g n (.ok out) tracked fired).activations v) =
      { deliverAll out (if fired then edgesBetween g n v else []) (m.activations v) with
        inFlight := if v = n then false else (m.activations v).inFlight } := by
  have hin := finish_inFlight g n (.ok out) tracked fired m v
  simp only [Impl.finish, Impl.retire_activations] at hin ⊢
  rw [← hin]
  by_cases hv : v = n
  · subst hv
    simp only [if_true]
    split_ifs <;> simp [Impl.fires_activations, Impl.setTerminal, Impl.track, edgesBetween, deliverAll]
  · simp only [hv, if_false]
    split_ifs <;> simp [Impl.fires_activations, Impl.setTerminal, Impl.track, edgesBetween, deliverAll]

/-- No completion changes what a node waits for, or fires one. -/
theorem finish_rest (g : Graph) (n : Id) (res : Except L.Exception (State L)) (tracked fired : Bool) (m : Impl L)
    (v : Id) : ((m.finish g n res tracked fired).activations v).conditions = (m.activations v).conditions ∧
      ((m.finish g n res tracked fired).activations v).timesFired = (m.activations v).timesFired := by
  cases res with
  | ok out =>
    rw [finish_activations]
    exact ⟨deliverAll_conditions _ _ _, deliverAll_timesFired _ _ _⟩
  | error e =>
    simp only [Impl.finish, Impl.retire_activations]
    split_ifs with hv
    · rw [hv]; exact ⟨rfl, rfl⟩
    · exact ⟨rfl, rfl⟩

theorem finish_completed (g : Graph) (n : Id) (out : State L) (tracked fired : Bool) (m : Impl L) :
    (m.finish g n (.ok out) tracked fired).completedNodeIds =
      m.completedNodeIds ++ if tracked then [n] else [] := by
  have hf := fun out es (m : Impl L) => congrArg Impl.completedNodeIds (Impl.fires_eq out es m)
  simp only [Impl.finish, Impl.retire, Impl.modify]
  split_ifs <;> simp [Impl.setTerminal, Impl.track, hf]

namespace Plan

variable {g : Graph} {B : Base L} {m : Impl L} {tasks : List Id} {outs : List (Id × State L)}

/-- A running node completes. -/
theorem finish (h : Plan g B m tasks outs) (hw : g.WaitsForAll) {n : Id} (hn : n ∈ tasks) (out : State L)
    {tasks' : List Id} (ht : ∀ v, v ∈ tasks ↔ v = n ∨ v ∈ tasks') (hn' : n ∉ tasks') :
    Plan g B (m.finish g n (.ok out) true true) tasks' (outs ++ [(n, out)]) := by
  have hact := finish_activations g n out true true m
  have hcomp : (m.finish g n (.ok out) true true).completedNodeIds = m.completedNodeIds ++ [n] :=
    finish_completed g n out true true m
  simp only [if_true] at hact
  have hnc := h.apart n hn
  have hstarted : ∀ v, (v ∈ m.completedNodeIds ++ [n] ∨ v ∈ tasks') ↔ (v ∈ m.completedNodeIds ∨ v ∈ tasks) :=
    fun v => by rw [ht v]; simp; tauto
  have hwait : ∀ v, v ∉ m.completedNodeIds ++ [n] → v ∉ tasks' → v ∉ m.completedNodeIds ∧ v ∉ tasks :=
    fun v h1 h2 => not_or.mp ((hstarted v).not.mp (not_or.mpr ⟨h1, h2⟩))
  -- nothing is sent to a node that started: all its predecessors had completed
  have hnone : ∀ v, v ∈ m.completedNodeIds ∨ v ∈ tasks → edgesBetween g n v = [] := fun v hv =>
    edgesBetween_eq_nil fun hp => hnc (hv.elim (h.inOrder.closed hp) fun hv => h.preds v hv n hp)
  refine
    { keyed := h.keyed.of_conditions fun v => (finish_rest g n _ true true m v).1
      completed := by rw [hcomp, h.completed]; simp
      nodup := ?_
      inOrder := ?_
      known := fun v hv => ?_
      apart := fun v hv => ?_
      preds := fun v hv a ha => ?_
      timesFired := fun v => ?_
      spent := fun v hv => ?_
      pending := fun v h3 h4 => ?_
      remaining := fun e he hc h3 h4 => ?_
      any := fun e he hc h3 h4 => ?_ }
  · rw [hcomp]
    exact List.nodup_append.mpr ⟨h.nodup, by simp, by simp; exact fun a ha he => hnc (he ▸ ha)⟩
  · rw [hcomp]; exact h.inOrder.snoc (h.preds n hn)
  · rw [hcomp] at hv; exact h.known v ((hstarted v).mp hv)
  · rw [hcomp]
    have hvt := (ht v).mpr (Or.inr hv)
    simp only [List.mem_append, List.mem_singleton, not_or]
    exact ⟨h.apart v hvt, fun he => hn' (he ▸ hv)⟩
  · rw [hcomp]
    exact List.mem_append_left _ (h.preds v ((ht v).mpr (Or.inr hv)) a ha)
  · rw [hact, hcomp]
    simp only [deliverAll_timesFired, hstarted v]
    exact h.timesFired v
  · rw [hcomp, hstarted] at hv
    rw [hact, hnone v hv]
    exact h.spent v hv
  · rw [hcomp] at h3
    obtain ⟨e1, e2⟩ := hwait v h3 h4
    rw [hact]
    simp only [deliverAll_pendingInputs]
    rw [h.pending v e1 e2, delivered_snoc, List.append_assoc]
  · rw [hcomp] at h3
    obtain ⟨e1, e2⟩ := hwait _ h3 h4
    rw [hact, hcomp]
    simp only [deliverAll_remainingAll]
    have hcount : (edgesBetween g n e.dst).countP (fun a => a.activationGroup = 0 ∧ a.condition = .all) =
        (edgesBetween g n e.dst).length := by
      rw [List.countP_eq_length]
      intro a ha
      obtain ⟨a1, -, a3⟩ := mem_edgesBetween.mp ha
      have hg : a.activationGroup = e.activationGroup := (hw a a1).1.trans (hw e he).1.symm
      simp [(hw a a1).1, g.consistent a a1 e he a3 hg, hc]
    rw [h.remaining e he hc e1 e2, hcount, waiting_snoc g e.dst hnc]
    omega
  · rw [hcomp] at h3
    obtain ⟨e1, e2⟩ := hwait _ h3 h4
    rw [hact, hcomp]
    simp only [deliverAll_anyFired, Bool.or_eq_true, h.any e he hc e1 e2, List.mem_append, List.mem_singleton]
    refine or_congr_right ?_
    rw [List.any_eq_true]
    constructor
    · rintro ⟨a, ha, -⟩
      obtain ⟨a1, a2, a3⟩ := mem_edgesBetween.mp ha
      rcases (hw e he).2 with hall | hsole
      · rw [hc] at hall; cases hall
      · rw [← hsole a a1 a3, a2]
    · intro hs
      exact ⟨e, mem_edgesBetween.mpr ⟨he, hs, rfl⟩, by simp [(hw e he).1, hc]⟩

end Plan

end AgentFlow
