/-
# A Runner that is used again

`Run` and `Resume` begin with `InitActivations`, which takes the snapshot of
the counters anew and adds the edges to whatever an earlier call has left:
counters, inputs, flags, the first error, the terminal state and the completed
nodes stay (`Past`). A call that gets as far leaves a mark (`Touched`): it
fires a node, or counts the edges a second time. So a further `Run` is that of
a fresh runner exactly when every earlier call was a `Resume` that threw before
it touched anything (`reusable_iff`).

Key definitions: `Call`, `Past`, `Call.harmless`, `Reusable`, `Touched`.
-/
import AgentFlow.Core.ColdStart

namespace AgentFlow

variable {L : Libs}

open Stepping

/-- A call on a `Runner`. -/
inductive Call (L : Libs)
  | run (initial : State L)
  | resume (cp : Checkpoint) (target : State L)

/-- The calls made on a runner, each of which has returned or thrown, and the
fields they leave. -/
inductive Past (S : Setup) : List (Call L) → Impl L → Prop
  | fresh : Past S [] .fresh
  | run {calls : List (Call L)} {m : Impl L} {s : State L} {cs : List (Choice L)} {y : Exec L} (h : Past S calls m)
      (hr : Run (step S .run) (fun _ _ => True) (runStart S m s) cs y) (hf : y.pc.finished = true) :
      Past S (calls ++ [.run s]) y.impl
  | rejected {calls : List (Call L)} {m m' : Impl L} {cp : Checkpoint} {target : State L} {msg : String}
      (h : Past S calls m) (hres : resume S m cp target = (m', .error msg)) : Past S (calls ++ [.resume cp target]) m'
  | resumed {calls : List (Call L)} {m m' : Impl L} {cp : Checkpoint} {target : State L} {x y : Exec L}
      {cs : List (Choice L)} (h : Past S calls m) (hres : resume S m cp target = (m', .ok x))
      (hr : Run (step S .runInner) (fun _ _ => True) x cs y) (hf : y.pc.finished = true) :
      Past S (calls ++ [.resume cp target]) y.impl

/-- A further `Run` is one on a fresh runner: the same executions, and nothing
survives in the fields it starts from. -/
def Reusable (S : Setup) (m : Impl L) (s : State L) : Prop :=
  executions S .run (fun _ _ => True) (runStart S m s) =
      executions S .run (fun _ _ => True) (runStart S .fresh s) ∧
    (runStart S m s).impl = (runStart S .fresh s).impl

/-- The call throws and leaves the runner as it was: the target is refused, or
a listed node is unknown and there are no edges to count. -/
def Call.harmless (S : Setup) : Call L → Bool
  | .run _ => false
  | .resume cp target =>
    match resumeTarget cp target with
    | .error _ => true
    | .ok _ => S.graph.edges.isEmpty && cp.completedNodes.any fun id => !S.graph.hasNode id

/-! ### What stays -/

/-- Some node has fired. -/
def Fired (m : Impl L) : Prop := ∃ v, (m.activations v).timesFired ≠ 0

/-- A node has fired, or an edge is counted. -/
def Touched (g : Graph) (m : Impl L) : Prop :=
  Fired m ∨ ∃ e ∈ g.edges, 0 < (m.activations e.dst).remainingAll e.activationGroup

/-- The conditions of a node are those of edges into it. -/
def Rooted (g : Graph) (m : Impl L) : Prop :=
  ∀ v p, p ∈ (m.activations v).conditions → ∃ e ∈ g.edges, e.dst = v ∧ (e.activationGroup, e.condition) = p

/-- No step takes a node's conditions or firings back. -/
structure Marks (m m' : Impl L) : Prop where
  conditions : ∀ v, (m'.activations v).conditions = (m.activations v).conditions
  timesFired : ∀ v, (m.activations v).timesFired ≤ (m'.activations v).timesFired

theorem Rooted.of_marks {g : Graph} {m m' : Impl L} (h : Rooted g m) (hm : Marks m m') : Rooted g m' :=
  fun v p hp => h v p (hm.conditions v ▸ hp)

theorem Fired.of_marks {m m' : Impl L} (h : Fired m) (hm : Marks m m') : Fired m' := by
  obtain ⟨v, hv⟩ := h
  refine ⟨v, ?_⟩
  have := hm.timesFired v
  omega

theorem Marks.of_eq {m m' : Impl L} (h : m'.activations = m.activations) : Marks m m' :=
  ⟨fun v => by rw [h], fun v => by rw [h]⟩

theorem finish_marks (g : Graph) (n : Id) (res : Except L.Exception (State L)) (a b : Bool) (m : Impl L) :
    Marks m (m.finish g n res a b) :=
  ⟨fun v => (finish_rest g n res a b m v).1, fun v => (finish_rest g n res a b m v).2.ge⟩

theorem launch_marks (m : Impl L) (n : Id) : Marks m (m.launch n) :=
  ⟨m.launch_conditions n, fun v => by rw [m.launch_timesFired]; exact Nat.le_add_right _ _⟩

section loop

variable {S : Setup} {loop : Loop} {c : Choice L} {x y : Exec L}

theorem step_marks (hs : Moves S loop c x y) : Marks x.impl y.impl := by
  cases hs with
  | launch hpc => exact launch_marks x.impl _
  | leave hpc h0 => exact .of_eq (leave_impl x).1
  | receive hpc hd => exact .of_eq (by rw [received_impl])
  | @finish _ k t res cut hk hrun =>
    have := finish_marks S.graph t.node res (tracked x.cancelled cut) (fired x.cancelled cut) x.impl
    rwa [complete_impl]
  | cancel hpc => exact .of_eq (by rw [Exec.cancelIf_impl])
  | _ => exact .of_eq rfl

theorem run_marks {ok : Exec L → Choice L → Prop} {cs : List (Choice L)} (hr : Run (step S loop) ok x cs y) :
    Marks x.impl y.impl := by
  refine hr.relates (R := fun x y => Marks x.impl y.impl) (fun x => .of_eq rfl) (fun x y z h h' => ?_)
    fun x c y _ hs => step_marks (step_eq_some.mp hs)
  exact ⟨fun v => (h'.conditions v).trans (h.conditions v), fun v => (h.timesFired v).trans (h'.timesFired v)⟩

/-- The first batch of a loop that is over has been launched. -/
theorem fired_of_batch {ok : Exec L → Choice L → Prop} {m : Impl L} {batch : List Id} {cs : List (Choice L)}
    (hr : Run (step S loop) ok (.begin m batch) cs y) (hf : y.pc.finished = true) {v : Id} (hv : v ∈ batch) :
    (y.impl.activations v).timesFired ≠ 0 := by
  have hI : (y.impl.activations v).timesFired ≠ 0 ∨ ∃ b last, y.pc = .launching b last ∧ v ∈ b := by
    refine hr.invariant (I := fun x => (x.impl.activations v).timesFired ≠ 0 ∨
      ∃ b last, x.pc = .launching b last ∧ v ∈ b) (fun x c y hI _ hs => ?_) (Or.inr ⟨batch, none, rfl, hv⟩)
    have hm := step_eq_some.mp hs
    have hmono := (step_marks hm).timesFired v
    rcases hI with hI | ⟨b, last, hpc, hb⟩
    · exact Or.inl (by omega)
    · cases hm with
      | @launch _ n rest last' hpc' =>
        rw [hpc] at hpc'
        cases hpc'
        rcases List.mem_cons.mp hb with rfl | hb
        · left
          show ((x.impl.launch v).activations v).timesFired ≠ 0
          rw [x.impl.launch_timesFired, if_pos rfl]
          exact Nat.succ_ne_zero _
        · exact Or.inr ⟨rest, _, rfl, hb⟩
      | batchDone hpc' =>
        rw [hpc] at hpc'
        cases hpc'
        cases hb
      | start hq hrun => exact Or.inr ⟨b, last, hpc, hb⟩
      | @finish _ k t res cut hk hrun =>
        exact Or.inr ⟨b, last, (complete_keeps S loop t.node res cut _).1.trans hpc, hb⟩
      | cancel hf => exact Or.inr ⟨b, last, (Exec.cancelIf_keeps x true).pc.trans hpc, hb⟩
      | drained hpc' | batch hpc' | leave hpc' | wait hpc' | receive hpc' => rw [hpc] at hpc'; cases hpc'
  refine hI.resolve_right ?_
  rintro ⟨b, last, hpc, -⟩
  rw [hpc] at hf
  cases hf

/-- What a loop that is over leaves. -/
theorem loop_over {m : Impl L} {batch : List Id} {cs : List (Choice L)}
    (hr : Run (step S loop) (fun _ _ => True) (.begin m batch) cs y) (hf : y.pc.finished = true) (hi : Idle m)
    (hroot : Rooted S.graph m) (hnd : batch.Nodup) (hfire : Fired m ∨ batch ≠ []) :
    Idle y.impl ∧ Rooted S.graph y.impl ∧ Fired y.impl := by
  have hmarks : Marks m y.impl := run_marks hr
  refine ⟨(Tasks.run hr (Tasks.begin hi hnd)).idle hf, hroot.of_marks hmarks, ?_⟩
  rcases hfire with h | h
  · exact h.of_marks hmarks
  · obtain ⟨v, hv⟩ := List.exists_mem_of_ne_nil _ h
    exact ⟨v, fired_of_batch hr hf hv⟩

end loop

/-! ### What a call begins with -/

section begin

variable {g : Graph} {m : Impl L}

theorem registerEdges_rooted : ∀ (es : List Edge) (acts : Id → NodeActivation L), (∀ e ∈ es, e ∈ g.edges) →
    (∀ v p, p ∈ (acts v).conditions → ∃ e ∈ g.edges, e.dst = v ∧ (e.activationGroup, e.condition) = p) →
    ∀ v p, p ∈ ((es.foldl registerEdge acts) v).conditions →
      ∃ e ∈ g.edges, e.dst = v ∧ (e.activationGroup, e.condition) = p
  | [], _, _, h => h
  | e :: es, acts, hes, h => by
    refine registerEdges_rooted es _ (fun a ha => hes a (List.mem_cons_of_mem _ ha)) fun v p hp => ?_
    rw [registerEdge_apply] at hp
    split_ifs at hp with hv
    · exact h v p hp
    · rcases List.mem_append.mp hp with hp | hp
      · exact h v p hp
      · exact ⟨e, hes e List.mem_cons_self, hv.symm, (List.mem_singleton.mp hp).symm⟩
    · exact h v p hp

theorem Rooted.init (h : Rooted g m) : Rooted g (initActivations g m) :=
  registerEdges_rooted g.edges m.activations (fun _ he => he) h

theorem Rooted.seed (h : Rooted g m) (s : State L) : Rooted g (seedEntries g s m) := fun v p hp =>
  h v p ((seedEntries_rest g s m v).1 ▸ hp)

theorem Rooted.replay (h : Rooted g m) (completed : List Id) (t : State L) : Rooted g (replay g completed t m) := by
  by_cases hne : completed = []
  · subst hne
    exact h.seed t
  · intro v p hp
    rw [replay_activations g t m hne] at hp
    split_ifs at hp
    · exact h v p hp
    · rw [deliverAll_conditions] at hp
      exact h v p hp

/-- An entry node that has not fired is ready. -/
theorem Rooted.entry_ready (h : Rooted g m) {v : Id} (hv : v ∈ g.entryNodeIds)
    (ht : (m.activations v).timesFired = 0) : nodeReady (m.activations v) = true := by
  rw [nodeReady, List.all_eq_true]
  intro p hp
  obtain ⟨e, he, hd, rfl⟩ := h v p hp
  have hne : e.activationGroup ≠ 0 := fun h0 => (Graph.mem_entryNodeIds.mp hv).2 e he h0 hd
  have hpos : e.activationGroup > 0 := lt_of_le_of_ne (g.group_nonneg e he) (Ne.symm hne)
  simp [groupReady, hpos, ht]

theorem Fired.init (h : Fired m) (g : Graph) : Fired (initActivations g m) := by
  obtain ⟨v, hv⟩ := h
  exact ⟨v, by rw [(init_rest g m v).1]; exact hv⟩

theorem Touched.init (h : Touched g m) : Touched g (initActivations g m) := by
  rcases h with h | ⟨e, he, hpos⟩
  · exact Or.inl (h.init g)
  · refine Or.inr ⟨e, he, ?_⟩
    rw [init_remainingAll]
    omega

/-- The edges are counted. -/
theorem touched_init (hn : Fired m ∨ ∀ v k, 0 ≤ (m.activations v).remainingAll k) (he : g.edges ≠ []) :
    Touched g (initActivations g m) := by
  rcases hn with h | h
  · exact Or.inl (h.init g)
  · obtain ⟨e, hm⟩ := List.exists_mem_of_ne_nil _ he
    refine Or.inr ⟨e, hm, ?_⟩
    have hlen : 0 < (inEdges g e.dst e.activationGroup).length := List.length_pos_of_mem (mem_inEdges.mpr ⟨hm, rfl, rfl⟩)
    have := h e.dst e.activationGroup
    rw [init_remainingAll]
    omega

end begin

/-! ### Along the calls -/

/-- What the calls so far have left. -/
structure Legacy (S : Setup) (calls : List (Call L)) (m : Impl L) : Prop where
  idle : Idle m
  rooted : Rooted S.graph m
  nonneg : Fired m ∨ ∀ v k, 0 ≤ (m.activations v).remainingAll k
  clean : (∀ c ∈ calls, c.harmless S = true) → m = .fresh
  touched : (∃ c ∈ calls, c.harmless S = false) → Touched S.graph m

namespace Legacy

variable {S : Setup} {calls : List (Call L)} {m : Impl L}

/-- After a call that ran the loop. -/
theorem fired {m' : Impl L} (hi : Idle m') (hroot : Rooted S.graph m') (hfire : Fired m') {c : Call L}
    (hc : c.harmless S = false) : Legacy S (calls ++ [c]) m' where
  idle := hi
  rooted := hroot
  nonneg := Or.inl hfire
  clean h := by
    rw [h c (by simp)] at hc
    cases hc
  touched _ := Or.inl hfire

theorem run (h : Legacy S calls m) {s : State L} {cs : List (Choice L)} {y : Exec L}
    (hr : Run (step S .run) (fun _ _ => True) (runStart S m s) cs y) (hf : y.pc.finished = true) :
    Legacy S (calls ++ [.run s]) y.impl := by
  obtain ⟨v, hv⟩ := List.exists_mem_of_ne_nil _ S.graph.entryNodeIds_ne
  have hroot := (h.rooted.init).seed s
  have hfire : Fired (seedEntries S.graph s (initActivations S.graph m)) ∨ (S.graph.entryNodeIds.filter fun id =>
      nodeReady ((seedEntries S.graph s (initActivations S.graph m)).activations id)) ≠ [] := by
    by_cases ht : ((seedEntries S.graph s (initActivations S.graph m)).activations v).timesFired = 0
    · exact Or.inr (List.ne_nil_of_mem (List.mem_filter.mpr ⟨hv, hroot.entry_ready hv ht⟩))
    · exact Or.inl ⟨v, ht⟩
  obtain ⟨h1, h2, h3⟩ := loop_over hr hf ((h.idle.init _).seed _ s) hroot (Graph.entryNodeIds_nodup.filter _) hfire
  exact fired h1 h2 h3 rfl

/-- A replay fires a node, or the loop does. -/
theorem replay_fires (h : Legacy S calls m) (completed : List Id) (t : State L) :
    Fired (replay S.graph completed t (initActivations S.graph m)) ∨
      ready S (replay S.graph completed t (initActivations S.graph m)) ≠ [] := by
  by_cases hne : completed = []
  · subst hne
    rw [show replay S.graph [] t (initActivations S.graph m) = seedEntries S.graph t (initActivations S.graph m) from
      rfl]
    obtain ⟨v, hv⟩ := List.exists_mem_of_ne_nil _ S.graph.entryNodeIds_ne
    by_cases ht : ((seedEntries S.graph t (initActivations S.graph m)).activations v).timesFired = 0
    · have hidle := ((h.idle.init S.graph).seed S.graph t).flag v
      have hpend : ((seedEntries S.graph t (initActivations S.graph m)).activations v).pendingInputs ≠ [] := by
        rw [seedEntries_activations, if_pos hv]
        simp
      exact Or.inr (List.ne_nil_of_mem
        (mem_ready.mpr ⟨Graph.entryNodeIds_sub hv, hidle, hpend, (h.rooted.init.seed t).entry_ready hv ht⟩))
    · exact Or.inl ⟨v, ht⟩
  · obtain ⟨v, hv⟩ := List.exists_mem_of_ne_nil _ hne
    refine Or.inl ⟨v, ?_⟩
    rw [replay_activations S.graph t _ hne, if_pos hv]
    exact Nat.one_ne_zero

theorem init_fresh_of_nil {g : Graph} (h : g.edges = []) : initActivations g (.fresh : Impl L) = .fresh := by
  simp only [initActivations, h, List.foldl_nil]
  rfl

theorem resume (h : Legacy S calls m) (cp : Checkpoint) (target : State L) :
    (∀ m' msg, resume S m cp target = (m', .error msg) → Legacy S (calls ++ [.resume cp target]) m') ∧
      ∀ m' x, resume S m cp target = (m', .ok x) → ∀ cs y, Run (step S .runInner) (fun _ _ => True) x cs y →
        y.pc.finished = true → Legacy S (calls ++ [.resume cp target]) y.impl := by
  have hsnoc : ∀ P : Call L → Prop, (∀ c ∈ calls ++ [Call.resume cp target], P c) →
      (∀ c ∈ calls, P c) ∧ P (.resume cp target) := fun P hP =>
    ⟨fun c hc => hP c (List.mem_append_left _ hc), hP _ (by simp)⟩
  have hsome : (∃ c ∈ calls ++ [Call.resume cp target], c.harmless S = false) →
      (Call.resume cp target).harmless S = true → ∃ c ∈ calls, c.harmless S = false := by
    rintro ⟨c, hc, hno⟩ hyes
    rcases List.mem_append.mp hc with hc | hc
    · exact ⟨c, hc, hno⟩
    · rw [List.mem_singleton.mp hc, hyes] at hno
      cases hno
  rcases resume_cases S m cp target with ⟨msg, ht, hr⟩ | ⟨t, msg, ht, ⟨v, hv, hno⟩, hr⟩ | ⟨t, ht, hk, hr⟩ <;> rw [hr]
  · -- refused: the runner is as before
    have hc : (Call.resume cp target).harmless S = true := by simp only [Call.harmless, ht]
    refine ⟨fun m' msg' he => ?_, fun m' x he => by cases he⟩
    cases he
    exact ⟨h.idle, h.rooted, h.nonneg, fun hall => h.clean (hsnoc _ hall).1, fun hex => h.touched (hsome hex hc)⟩
  · -- an unknown node: the edges have been counted
    have hany : (cp.completedNodes.any fun id => !S.graph.hasNode id) = true :=
      List.any_eq_true.mpr ⟨v, hv, by simpa [Graph.hasNode] using hno⟩
    have hc : (Call.resume cp target).harmless S = S.graph.edges.isEmpty := by
      simp only [Call.harmless, ht, hany, Bool.and_true]
    refine ⟨fun m' msg' he => ?_, fun m' x he => by cases he⟩
    cases he
    refine ⟨h.idle.init _, h.rooted.init, ?_, fun hall => ?_, fun hex => ?_⟩
    · refine h.nonneg.imp (fun hf => hf.init _) fun hn v k => ?_
      have := hn v k
      rw [init_remainingAll]
      omega
    · have hnil := (hsnoc _ hall).2
      rw [hc, List.isEmpty_iff] at hnil
      rw [h.clean (hsnoc _ hall).1]
      exact init_fresh_of_nil hnil
    · by_cases hnil : S.graph.edges = []
      · exact (h.touched (hsome hex (by rw [hc, hnil]; rfl))).init
      · exact touched_init h.nonneg hnil
  · have hall : (cp.completedNodes.any fun id => !S.graph.hasNode id) = false := by
      rw [List.any_eq_false]
      intro v hv
      simp [Graph.hasNode, hk v hv]
    have hc : (Call.resume cp target).harmless S = false := by simp only [Call.harmless, ht, hall, Bool.and_false]
    refine ⟨fun m' msg he => ?_, fun m' x he cs y hrun hf => ?_⟩ <;> cases he
    obtain ⟨h1, h2, h3⟩ := loop_over hrun hf ((h.idle.init _).replay _ _ t) (h.rooted.init.replay _ t)
      (ready_nodup S _) (h.replay_fires cp.completedNodes t)
    exact fired h1 h2 h3 hc

theorem of_past (h : Past S calls m) : Legacy S calls m := by
  induction h with
  | fresh =>
    refine ⟨.fresh, fun v p hp => ?_, Or.inr fun _ _ => le_rfl, fun _ => rfl, fun ⟨c, hc, _⟩ => by cases hc⟩
    cases hp
  | run _ hr hf ih => exact ih.run hr hf
  | rejected _ hres ih => exact (ih.resume _ _).1 _ _ hres
  | resumed _ hres hr hf ih => exact (ih.resume _ _).2 _ _ hres _ _ hr hf

end Legacy

/-- What is left shows in the fields a further `Run` starts from. -/
theorem touched_survives (S : Setup) {m : Impl L} (h : Touched S.graph m) (s : State L) :
    (runStart S m s).impl ≠ (runStart S .fresh s).impl := by
  intro heq
  have hact : ∀ v, (seedEntries S.graph s (initActivations S.graph m)).activations v =
      (seeded S.graph s).activations v := fun v => congrArg (fun m : Impl L => m.activations v) heq
  rcases h with ⟨v, hv⟩ | ⟨e, he, hpos⟩
  · have := congrArg NodeActivation.timesFired (hact v)
    rw [(seedEntries_rest S.graph s _ v).2.2.2.1, (init_rest S.graph m v).1, (seeded_activation S.graph s v).1] at this
    exact hv this
  · have := congrFun (congrArg NodeActivation.remainingAll (hact e.dst)) e.activationGroup
    rw [(seedEntries_rest S.graph s _ e.dst).2.1, init_remainingAll,
      (seeded_activation S.graph s e.dst).2.2.2.1] at this
    omega

/-- **A runner can be used again exactly when no earlier call got as far as
`InitActivations`**, or counted no edge there before it threw. -/
theorem reusable_iff (S : Setup) (calls : List (Call L)) (m : Impl L) (h : Past S calls m) (s : State L) :
    Reusable S m s ↔ ∀ c ∈ calls, c.harmless S = true := by
  have hleg := Legacy.of_past h
  constructor
  · intro hre c hc
    by_contra hno
    exact touched_survives S (hleg.touched ⟨c, hc, by simpa using hno⟩) s hre.2
  · intro hall
    rw [hleg.clean hall]
    exact ⟨rfl, rfl⟩

/-- After a `Resume` without a target a runner is fresh; after a `Run` it is not. -/
theorem reusable_line : (∃ m, Past (Setup.plain .line) [Call.resume ⟨[], "", [], 1⟩ (.null : State Libs.text)] m ∧
      Reusable (Setup.plain .line) m (Libs.text.state [0])) ∧
    ∃ m, Past (Setup.plain .line) [Call.run (Libs.text.state [0])] m ∧
      ¬ Reusable (Setup.plain .line) m (Libs.text.state [0]) := by
  constructor
  · have hp : Past (Setup.plain .line) [Call.resume ⟨[], "", [], 1⟩ (.null : State Libs.text)] .fresh :=
      .rejected .fresh rfl
    exact ⟨_, hp, (reusable_iff _ _ _ hp _).mpr (by decide)⟩
  · have h : (check (step (Setup.plain .line) .run) (fun _ _ => true)
        [.main, .main, .main, .main, .start, .finish 0 (.error "boom") none, .main]
        (runStart (Setup.plain .line) .fresh (Libs.text.state [0]))).any (fun y => y.pc.finished) = true := by
      decide
    obtain ⟨y, hr, hf⟩ := Run.exists_of_check (fun _ _ => True) h fun _ _ _ => trivial
    have hp : Past (Setup.plain .line) [Call.run (Libs.text.state [0])] y.impl := .run .fresh hr hf
    refine ⟨_, hp, fun hre => ?_⟩
    have := (reusable_iff _ _ _ hp _).mp hre (.run (Libs.text.state [0])) (by simp)
    cases this

/-- A `Run` on a fresh runner throws only if one of its nodes failed. -/
theorem nodeFailed_of_thrown {S : Setup} {ok : Exec L → Choice L → Prop} {s : State L} {cs : List (Choice L)}
    {y : Exec L} (hr : Run (step S .run) ok (runStart S .fresh s) cs y) (hout : y.pc.outcome.any isFailed = true) :
    ∃ n, .nodeFailed n ∈ y.log := by
  rw [runStart_fresh] at hr
  have hexit := Exits.run hr (Exits.begin _ _)
  have hf : y.pc.finished = true := by
    cases hpc : y.pc with
    | returned s => rfl
    | thrown e => rfl
    | _ => rw [hpc] at hout; cases hout
  have herr : y.impl.firstError = firstThrown cs := by
    rw [run_firstError hr, show (Exec.begin (seeded S.graph s) _).impl.firstError = none from
      (seeded_rest S.graph s).1, Option.none_or]
  rw [run_nodeFailed hr rfl, ← herr]
  by_contra hnone
  simp only [Bool.not_eq_true, Option.isSome_eq_false_iff, Option.isNone_iff_eq_none] at hnone
  obtain ⟨r, hpc⟩ := hexit.returned hnone hf
  rw [hpc] at hout
  cases hout

/-- The first `Run` fails; in the second every node succeeds, and it throws
the first one's exception. -/
theorem stale_error : ∃ m, Past (Setup.plain .line) [Call.run (Libs.text.state [0])] m ∧
    executions (Setup.plain .line) .run (fun _ _ => True)
        (runStart (Setup.plain .line) m (Libs.text.state [0])) ≠
      executions (Setup.plain .line) .run (fun _ _ => True)
        (runStart (Setup.plain .line) .fresh (Libs.text.state [0])) := by
  have h : (check (step (Setup.plain .line) .run) (fun _ _ => true)
      [.main, .main, .main, .main, .start, .finish 0 (.error "boom") none, .main]
      (runStart (Setup.plain .line) .fresh (Libs.text.state [0]))).any
      (fun y => y.pc.finished && (check (step (Setup.plain .line) .run) (fun _ _ => true)
        [.main, .main, .main, .main, .start, .finish 0 (.ok (Libs.text.state [1])) none, .main]
        (runStart (Setup.plain .line) y.impl (Libs.text.state [0]))).any
        (fun z => z.pc.outcome.any isFailed && (failures z.log).isEmpty)) = true := by
    decide
  obtain ⟨y, hr, hy⟩ := Run.exists_of_check (fun _ _ => True) h fun _ _ _ => trivial
  rw [Bool.and_eq_true] at hy
  obtain ⟨z, hrz, hz⟩ := Run.exists_of_check (fun _ _ => True) hy.2 fun _ _ _ => trivial
  simp only [Bool.and_eq_true, List.isEmpty_iff] at hz
  obtain ⟨hout, hnone⟩ := hz
  refine ⟨y.impl, .run .fresh hr hy.1, fun heq => ?_⟩
  obtain ⟨cs, w, hrw, hobs⟩ := heq.subset ⟨_, z, hrz, rfl⟩
  obtain ⟨hlog, hpc⟩ := Prod.mk.inj hobs
  rw [← hpc] at hout
  obtain ⟨n, hn⟩ := nodeFailed_of_thrown hrw hout
  have hmem : .nodeFailed n ∈ w.log.filter Event.visible := List.mem_filter.mpr ⟨hn, rfl⟩
  rw [hlog] at hmem
  have := mem_failures.mpr (List.mem_of_mem_filter hmem)
  rw [hnone] at this
  cases this

end AgentFlow
