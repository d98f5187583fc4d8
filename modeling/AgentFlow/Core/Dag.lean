/-
# Run on a DAG

A graph of plain fan-in edges (group 0, ALL) without cycles, run on a fresh
runner: `DagRun` is what every state of every successful run satisfies, in
whatever order the nodes in flight complete. It is `Frontier` and `Ledger`
read at the base `Base.ofRun`.

Key definitions: `Base.ofRun`, `DagRun`.
-/
import AgentFlow.Core.Ledger

namespace AgentFlow

variable {L : Libs}

open History Precedence Stepping

/-- `Run` starts with nothing completed and the initial state at the entry nodes. -/
def Base.ofRun (g : Graph) (s : State L) : Base L where
  pre := []
  seed v := if v ∈ g.entryNodeIds then [s.clone] else []
  terminal := none

namespace Graph.WaitsForAll

variable {g : Graph}

/-- Without other groups the entry nodes are the nodes without predecessor. -/
theorem mem_entryNodeIds (hw : g.WaitsForAll) {v : Id} :
    v ∈ g.entryNodeIds ↔ v ∈ g.nodes ∧ ∀ a, ¬ g.Pred a v := by
  rw [Graph.mem_entryNodeIds]
  refine and_congr_right fun _ => ⟨?_, ?_⟩
  · rintro h a ⟨e, he, -, hd⟩
    exact h e he (hw e he).1 hd
  · intro h e he _ hd
    exact h e.src ⟨e, he, rfl, hd⟩

/-- The counter of a node starts at the number of its incoming edges. -/
theorem length_inEdges (hw : g.WaitsForAll) (v : Id) : (inEdges g v 0).length = waiting g v [] := by
  rw [inEdges, waiting, List.countP_eq_length_filter]
  congr 1
  refine List.filter_congr fun e he => ?_
  simp [(hw e he).1]

theorem feeds_ofRun (hw : g.WaitsForAll) (s : State L) : (Base.ofRun g s).Feeds g := by
  intro v hv _ hp
  have : v ∈ g.entryNodeIds := hw.mem_entryNodeIds.mpr ⟨hv, fun a ha => by cases hp a ha⟩
  simp [Base.ofRun, this]

theorem plan_seeded (hw : g.WaitsForAll) (s : State L) : Plan g (Base.ofRun g s) (seeded g s) [] [] := by
  obtain ⟨-, -, hc⟩ := seeded_rest g s
  have ha := seeded_activation g s
  refine
    { keyed := seeded_keyed g s
      completed := hc
      nodup := by rw [hc]; exact List.nodup_nil
      inOrder := by rw [hc]; exact inOrder_nil
      known := fun v hv => by rw [hc] at hv; simp at hv
      apart := fun v hv => by cases hv
      preds := fun v hv => by cases hv
      timesFired := fun v => by rw [hc]; simp [(ha v).1]
      spent := fun v hv => by rw [hc] at hv; simp at hv
      pending := fun v _ _ => by simp [(ha v).2.2.2.2, Base.ofRun, delivered]
      remaining := fun e _ _ _ _ => by rw [hc, (ha e.dst).2.2.2.1, hw.length_inEdges]
      any := fun e _ _ _ _ => by rw [hc, (ha e.dst).2.2.1]; simp }

theorem frontier_runStart {S : Setup} (hw : S.graph.WaitsForAll) (s : State L) :
    Frontier S (Base.ofRun S.graph s) (runStart S .fresh s) := by
  rw [runStart_fresh]
  obtain ⟨he, -, hc⟩ := seeded_rest S.graph s
  refine Frontier.begin (seeded_idle _ s) (hw.plan_seeded s) he Graph.entryNodeIds_nodup fun n hn => ?_
  obtain ⟨hk, hp⟩ := hw.mem_entryNodeIds.mp hn
  exact ⟨hk, by rw [hc]; simp, fun a ha => absurd ha (hp a), by simp [Base.ofRun, hn]⟩

end Graph.WaitsForAll

theorem ledger_runStart (S : Setup) (s : State L) (Out : Id → State L → State L → Prop) :
    Ledger S (Base.ofRun S.graph s) Out (runStart S .fresh s) := by
  rw [runStart_fresh]
  exact Ledger.begin Out (seeded_rest S.graph s).2.1 inOrder_nil

theorem budget_runStart_le (S : Setup) (s : State L) :
    budget S (runStart S .fresh s) ≤ 8 * S.graph.nodes.length + 3 := by
  rw [runStart_fresh]; exact budget_begin_le S _ _

/-! ### The inputs -/

theorem delivered_eq_nil {g : Graph} {v : Id} (h : ∀ a, ¬ g.Pred a v) (outs : List (Id × State L)) :
    delivered g v outs = [] := by
  simp only [delivered, List.flatMap_eq_nil_iff]
  intro p _
  simp [edgesBetween_eq_nil (h p.1)]

/-- An entry node gets the initial state. -/
theorem inputOf_entry {g : Graph} (hw : g.WaitsForAll) (s : State L) {v : Id} (hv : v ∈ g.entryNodeIds)
    (outs : List (Id × State L)) : inputOf g (Base.ofRun g s) v outs = s.clone := by
  rw [inputOf, delivered_eq_nil (hw.mem_entryNodeIds.mp hv).2]
  simp [Base.ofRun, hv, mergeInputs]

/-- Any other node gets the output of the predecessor that completed last. -/
theorem inputOf_of_fed {g : Graph} {B : Base L} {v : Id} {outs : List (Id × State L)} (hs : B.seed v = [])
    (hf : B.seed v ++ delivered g v outs ≠ []) :
    ∃ a out, lastFrom g v outs = some (a, out) ∧ inputOf g B v outs = out.clone := by
  rw [hs, List.nil_append] at hf
  have hl := delivered_getLast? g v outs
  cases hlast : lastFrom g v outs with
  | none =>
    rw [hlast] at hl
    exact absurd (List.getLast?_eq_none_iff.mp hl) hf
  | some p =>
    rw [hlast] at hl
    refine ⟨p.1, p.2, rfl, ?_⟩
    rw [inputOf, hs, List.nil_append, mergeInputs, hl]
    rfl

/-! ### Every successful run -/

/-- What holds at every moment of a successful run on a DAG. -/
structure DagRun (S : Setup) (s : State L) (y : Exec L) : Prop where
  /-- No node starts twice. -/
  once : (starts y.log).Nodup
  /-- A node starts after all its predecessors have completed. -/
  after : ∀ p n input q, y.log = p ++ .nodeStart n input :: q → n ∈ S.graph.nodes ∧
    ∀ a, S.graph.Pred a n → a ∈ completions p
  /-- An entry node receives the initial state. -/
  entry : ∀ p n input q, y.log = p ++ .nodeStart n input :: q → n ∈ S.graph.entryNodeIds → input = s.clone
  /-- Any other node receives the output of the predecessor that completed last. -/
  others : ∀ p n input q, y.log = p ++ .nodeStart n input :: q → n ∉ S.graph.entryNodeIds →
    ∃ a out, lastFrom S.graph n (outputs p) = some (a, out) ∧ input = out.clone
  /-- Every checkpoint lists the predecessors of what it lists. -/
  closed : S.opts.checkpointPolicy = .afterEachNode → ∀ cp ∈ checkpoints y.log,
    ∀ a b, S.graph.Pred a b → b ∈ cp.completedNodes → a ∈ cp.completedNodes
  /-- The run goes on until it returns, whatever the node that ends next returns. -/
  goesOn : y.pc.finished = false → ∀ out : State L, ∃ c z,
    (c = .main ∨ c = .start ∨ c = .finish 0 (.ok out) none) ∧ step S .run c y = some z
  /-- In the end every node has started, and completed in topological order. -/
  topological : y.pc.finished = true → (starts y.log).Perm S.graph.nodes ∧
    y.impl.completedNodeIds.Perm S.graph.nodes ∧ InOrder S.graph.Pred y.impl.completedNodeIds
  /-- It returns the output of the terminal node that completed last. -/
  returns : y.pc.finished = true → ∃ out, lastTerminal S.graph (outputs y.log) = some out ∧ y.pc = .returned out.clone
  /-- No input is left. -/
  delivered : y.pc.finished = true → ∀ v, (y.impl.activations v).pendingInputs = []

/-- A checkpoint of the log was written after some node, and lists what had
completed by then. -/
theorem mem_written {pre : List Id} {cp : Checkpoint} : ∀ {outs : List (Id × State L)},
    cp ∈ written pre outs → ∃ outs' p, (outs' ++ [p]) <+: outs ∧
      cp = makeCheckpoint (pre ++ (outs' ++ [p]).map (·.1)) p.2 := by
  intro outs h
  induction outs using List.reverseRecOn with
  | nil => cases h
  | append_singleton outs p ih =>
    rw [written_snoc] at h
    rcases List.mem_append.mp h with h | h
    · obtain ⟨outs', q, hp, hcp⟩ := ih h
      exact ⟨outs', q, hp.trans (List.prefix_append _ _), hcp⟩
    · refine ⟨outs, p, List.prefix_refl _, ?_⟩
      rw [List.mem_singleton.mp h, List.map_append, List.append_assoc]
      rfl

namespace Frontier

variable {S : Setup} {B : Base L} {Out : Id → State L → State L → Prop} {y : Exec L}

/-- A checkpoint lists what had completed when it was written. -/
theorem checkpoint_completed (hF : Frontier S B y) (hL : Ledger S B Out y)
    (hp : S.opts.checkpointPolicy = .afterEachNode) {cp : Checkpoint} (hcp : cp ∈ checkpoints y.log) :
    cp.completedNodes ≠ [] ∧ cp.completedNodes <+: y.impl.completedNodeIds := by
  rw [hL.written hp] at hcp
  obtain ⟨outs', p, hpre, rfl⟩ := mem_written hcp
  refine ⟨by simp [makeCheckpoint], ?_⟩
  rw [hF.plan.completed]
  exact (List.prefix_append_right_inj _).mpr (hpre.map _)

/-- No node starts twice, and those that started belong to the graph. -/
theorem starts_nodup (hF : Frontier S B y) (hL : Ledger S B Out y) :
    (starts y.log).Nodup ∧ ∀ n ∈ starts y.log, n ∈ S.graph.nodes ∧ n ∉ B.pre := by
  have hc := hF.plan.completed
  have hnd := hF.plan.nodup
  rw [hc] at hnd
  obtain ⟨-, h2, h3⟩ := List.nodup_append.mp hnd
  have hrun : ∀ n ∈ y.running.map (·.node), n ∈ y.tasks := fun n hn => by
    rw [Exec.tasks, List.map_append]; exact List.mem_append_right _ hn
  have hrn : (y.running.map (·.node)).Nodup := by
    have := hF.tasks.nodup
    rw [Exec.tasks, List.map_append] at this
    exact (List.nodup_append.mp this).2.1
  refine ⟨hL.started.nodup_iff.mpr (List.nodup_append.mpr ⟨hrn, h2, fun a ha b hb he => ?_⟩), fun n hn => ?_⟩
  · exact hF.plan.apart a (hrun a ha) (by rw [hc, he]; exact List.mem_append_right _ hb)
  · rcases List.mem_append.mp (hL.started.mem_iff.mp hn) with hn | hn
    · refine ⟨hF.plan.known n (Or.inr (hrun n hn)), fun hp => hF.plan.apart n (hrun n hn) ?_⟩
      rw [hc]; exact List.mem_append_left _ hp
    · refine ⟨hF.plan.known n (Or.inl ?_), fun hp => h3 n hp n hn rfl⟩
      rw [hc]; exact List.mem_append_right _ hn

/-- When the run is over, what started is what completed in it. -/
theorem starts_perm (hF : Frontier S B y) (hL : Ledger S B Out y) (hf : y.pc.finished = true) :
    (starts y.log).Perm ((outputs y.log).map (·.1)) := by
  have ht := hF.tasks.ended hf
  rw [Exec.tasks, List.map_append, List.append_eq_nil_iff] at ht
  simpa [ht.2] using hL.started

/-- A successful run that is over has returned, and what it says. -/
theorem returned (hF : Frontier S B y) (hL : Ledger S B Out y) (hf : y.pc.finished = true) :
    y.pc = .returned ((resultOf S.graph B (outputs y.log)).getD .null) := by
  cases hp : y.pc with
  | returned r => rw [hL.returned r hp]
  | thrown e => exact absurd hp (hF.unthrown e)
  | _ => rw [hp] at hf; cases hf

end Frontier

theorem hasOutgoing_iff {g : Graph} {n : Id} : hasOutgoing g n = true ↔ ∃ b, g.Pred n b := by
  simp only [hasOutgoing, List.any_eq_true, decide_eq_true_eq]
  constructor
  · rintro ⟨e, he, hs⟩
    exact ⟨e.dst, e, he, hs, rfl⟩
  · rintro ⟨b, e, he, hs, -⟩
    exact ⟨e, he, hs⟩

/-- When all nodes have completed in order, the last of them is terminal. -/
theorem lastTerminal_of_inOrder {g : Graph} {outs : List (Id × State L)} (ho : InOrder g.Pred (outs.map (·.1)))
    (hp : (outs.map (·.1)).Perm g.nodes) : ∃ out, lastTerminal g outs = some out := by
  have hne : outs ≠ [] := by
    rintro rfl
    refine g.entryNodeIds_ne (List.eq_nil_iff_forall_not_mem.mpr fun v hv => ?_)
    exact absurd (hp.mem_iff.mpr (Graph.entryNodeIds_sub hv)) (by simp)
  rcases List.eq_nil_or_concat outs with rfl | ⟨outs', p, rfl⟩
  · exact absurd rfl hne
  refine ⟨p.2, ?_⟩
  rw [List.concat_eq_append] at ho hp ⊢
  rw [lastTerminal_snoc, if_neg]
  rw [hasOutgoing_iff]
  rintro ⟨b, hb⟩
  rw [List.map_append] at ho hp
  exact ho.last_maximal (hp.nodup_iff.mpr g.nodes_nodup) (hp.mem_iff.mpr (Graph.pred_mem hb).2) hb

theorem mem_starts {log p q : List (Event L)} {n : Id} {input : State L}
    (h : log = p ++ .nodeStart n input :: q) : n ∈ starts log := by
  rw [h, starts_append, show starts (Event.nodeStart n input :: q) = n :: starts q from rfl]
  simp

/-- **Run on a DAG.** Every successful run, in whatever order the nodes
complete; it takes at most `8 * N + 3` steps. -/
theorem run_dag (S : Setup) (hdag : S.graph.IsDag) (hplain : S.graph.PlainFanIn) (s : State L)
    (Out : Id → State L → State L → Prop) (cs : List (Choice L)) (y : Exec L)
    (hr : Run (step S .run) (Succeeds Out) (runStart S .fresh s) cs y) :
    DagRun S s y ∧ cs.length ≤ 8 * S.graph.nodes.length + 3 := by
  have hw := hplain.waitsForAll
  have hF := Frontier.run hw hr (hw.frontier_runStart s)
  have hL := Ledger.run hw hr (hw.frontier_runStart s) (ledger_runStart S s Out)
  have hall := hF.all_completed hw hdag (hw.feeds_ofRun s)
  obtain ⟨hnd, hsub⟩ := hF.starts_nodup hL
  have hcomp : y.impl.completedNodeIds = (outputs y.log).map (·.1) := hF.plan.completed
  refine ⟨
    { once := hnd
      after := fun p n input q hlog => ?_
      entry := fun p n input q hlog hn => ?_
      others := fun p n input q hlog hn => ?_
      closed := fun hp cp hcp a b =>
        (hF.plan.inOrder.of_isPrefix (hF.checkpoint_completed hL hp hcp).2).closed
      goesOn := fun hf out => exists_step S .run hF.tasks hf (.ok out)
      topological := fun hf => ?_
      returns := fun hf => ?_
      delivered := fun hf v => ?_ }, ?_⟩
  · exact ⟨(hsub n (mem_starts hlog)).1, (hL.startOk p _ q hlog n input rfl).1⟩
  · rw [(hL.startOk p _ q hlog n input rfl).2.2, inputOf_entry hw s hn]
  · obtain ⟨-, hfed, rfl⟩ := hL.startOk p _ q hlog n input rfl
    exact inputOf_of_fed (by simp [Base.ofRun, hn]) hfed
  · refine ⟨(hF.starts_perm hL hf).trans ?_, hall hf, hF.plan.inOrder⟩
    rw [← hcomp]; exact hall hf
  · have hord := hF.plan.inOrder
    have hperm := hall hf
    rw [hcomp] at hord hperm
    obtain ⟨out, hout⟩ := lastTerminal_of_inOrder hord hperm
    refine ⟨out, hout, ?_⟩
    rw [hF.returned hL hf, resultOf, hout]
    rfl
  · by_cases hv : v ∈ y.impl.completedNodeIds
    · exact hF.plan.spent v (Or.inl hv)
    · have hvn : v ∉ S.graph.nodes := fun hm => hv ((hall hf).mem_iff.mpr hm)
      rw [hF.plan.pending v hv (by rw [hF.tasks.ended hf]; simp)]
      have : v ∉ S.graph.entryNodeIds := fun hm => hvn (Graph.entryNodeIds_sub hm)
      rw [delivered_eq_nil fun a ha => hvn (Graph.pred_mem ha).2]
      simp [Base.ofRun, this]
  · have := Frontier.run_length_le hw hr (hw.frontier_runStart s)
    have := budget_runStart_le S s
    omega

theorem diamond_isDag : Graph.diamond.IsDag :=
  Acyclic.of_rank (fun n => if n = "a" then 0 else if n = "d" then 2 else 1) (by
    rintro a b ⟨e, he, rfl, rfl⟩
    revert e
    decide)

/-- The diamond, with `c` done before `b`. -/
theorem run_dag_diamond : ∃ cs y, Run (step (Setup.plain .diamond) .run) (Succeeds fun _ _ _ => True)
      (runStart (Setup.plain .diamond) .fresh (Libs.text.state [0])) cs y ∧ y.pc.finished = true ∧
    DagRun (Setup.plain .diamond) (Libs.text.state [0]) y := by
  have h : (check (step (Setup.plain .diamond) .run) (fun _ c => c.succeeds)
      [.main, .main, .main, .main, .start, .finish 0 (.ok (Libs.text.state [1])) none, .main,
        .main, .main, .main, .main, .main, .main, .start, .start,
        .finish 1 (.ok (Libs.text.state [2])) none, .finish 0 (.ok (Libs.text.state [3])) none, .main,
        .main, .main, .main, .main, .main, .start, .finish 0 (.ok (Libs.text.state [4])) none, .main,
        .main, .main]
      (runStart (Setup.plain .diamond) .fresh (Libs.text.state [0]))).any (fun y => y.pc.finished) = true := by
    decide
  obtain ⟨y, hr, hf⟩ := Run.exists_of_check _ h fun x c hc => Succeeds.of_succeeds hc x
  exact ⟨_, y, hr, hf, (run_dag _ diamond_isDag (by unfold Graph.PlainFanIn; decide) _ _ _ y hr).1⟩

end AgentFlow
