/-
# Resume from a checkpoint

`Resume` marks the checkpoint's nodes as fired and replays their fan-out with
the checkpointed state, over the edges whose target is not listed. For a list
that is an execution order this is the bookkeeping of a run in which these
nodes have completed and each returned that state: `Plan` holds at the base
`Base.ofCheckpoint` (`plan_replay`), and the resumed run is one of those
`Frontier` and `Ledger` speak of.

What `Resume` does not replay is the initial state: an entry node that is not
listed has no input and never runs. So a resumed run completes the graph
exactly when every entry node is listed.

Key definitions: `Base.ofCheckpoint`, `Origin`, `ResumesCompletely`.
-/
import AgentFlow.Core.Dag

namespace AgentFlow

variable {L : Libs}

open History Precedence Stepping

/-! ### What the replay does -/

theorem markAll_activations : ∀ (ids : List Id) (m : Impl L) (v : Id),
    (ids.foldl markCompleted m).activations v =
      if v ∈ ids then { m.activations v with timesFired := 1, inFlight := false } else m.activations v
  | [], _, _ => by simp
  | id :: ids, m, v => by
    rw [List.foldl_cons, markAll_activations ids, markCompleted]
    simp only [Impl.modify_activations]
    by_cases h1 : v ∈ ids <;> by_cases h2 : v = id <;> simp [h1, h2]

theorem markAll_eq : ∀ (ids : List Id) (m : Impl L), ids.foldl markCompleted m =
    { m with
      activations := (ids.foldl markCompleted m).activations
      completedNodeIds := m.completedNodeIds ++ ids }
  | [], m => by simp
  | id :: ids, m => by
    rw [List.foldl_cons, markAll_eq ids]
    simp [markCompleted, Impl.modify]

theorem seedSuccessors_eq (g : Graph) (completed : List Id) (t : State L) (m : Impl L) (id : Id) :
    seedSuccessors g completed t m id = Impl.fires t (aliveEdges g completed id) m := rfl

theorem aliveEdges_filter (g : Graph) (completed : List Id) (id v : Id) :
    ((aliveEdges g completed id).filter fun e => e.dst = v) =
      if v ∈ completed then [] else edgesBetween g id v := by
  rw [aliveEdges, edgesBetween, List.filter_filter]
  split_ifs with hv
  · rw [List.filter_eq_nil_iff]
    intro e _
    simp only [Bool.and_eq_true, decide_eq_true_eq, not_and]
    rintro rfl _
    exact not_not.mpr hv
  · rw [List.filter_filter]
    refine List.filter_congr fun e _ => ?_
    by_cases h : e.dst = v
    · simp [h, hv]
    · simp [h]

/-- A node that is not listed gets the state over each edge from a listed one. -/
theorem seedAll_activations (g : Graph) (completed : List Id) (t : State L) : ∀ (ids : List Id) (m : Impl L) (v : Id),
    (ids.foldl (seedSuccessors g completed t) m).activations v =
      if v ∈ completed then m.activations v
      else deliverAll t (ids.flatMap fun id => edgesBetween g id v) (m.activations v)
  | [], _, _ => by simp [deliverAll]
  | id :: ids, m, v => by
    rw [List.foldl_cons, seedAll_activations g completed t ids, seedSuccessors_eq, Impl.fires_activations,
      aliveEdges_filter]
    split_ifs
    · rfl
    · simp [deliverAll, List.foldl_append]

theorem seedAll_eq (g : Graph) (completed : List Id) (t : State L) : ∀ (ids : List Id) (m : Impl L),
    ids.foldl (seedSuccessors g completed t) m =
      { m with activations := (ids.foldl (seedSuccessors g completed t) m).activations }
  | [], _ => rfl
  | id :: ids, m => by
    rw [List.foldl_cons, seedAll_eq g completed t ids, seedSuccessors_eq, Impl.fires_eq]

/-- The listed nodes have completed, and sent the checkpointed state. -/
def Base.ofCheckpoint (g : Graph) (completed : List Id) (t : State L) : Base L where
  pre := completed
  seed v := delivered g v (completed.map fun id => (id, t))
  terminal :=
    if !(completed.any fun id => hasOutgoing g id) || completed.dedup.length == g.nodes.length then some t.clone
    else none

section replay

variable (g : Graph) {completed : List Id} (t : State L) (m : Impl L)

/-- A listed node has fired; any other gets the state over its edges. -/
theorem replay_activations (hne : completed ≠ []) (v : Id) : (replay g completed t m).activations v =
    if v ∈ completed then { m.activations v with timesFired := 1, inFlight := false }
    else deliverAll t (completed.flatMap fun id => edgesBetween g id v) (m.activations v) := by
  have hemp : completed.isEmpty = false := by simpa using hne
  have h : ∀ m : Impl L, (m.setTerminal t).activations = m.activations := fun _ => rfl
  simp only [replay, hemp, Bool.false_eq_true, if_false]
  rw [apply_ite Impl.activations, h, ite_self, seedAll_activations, markAll_activations]
  split_ifs <;> rfl

theorem replay_rest (hne : completed ≠ []) :
    (replay g completed t m).completedNodeIds = m.completedNodeIds ++ completed ∧
      (replay g completed t m).firstError = m.firstError ∧
      (replay g completed t m).inFlightCount = m.inFlightCount ∧
      (replay g completed t m).terminalState = ((Base.ofCheckpoint g completed t).terminal).or m.terminalState := by
  have hemp : completed.isEmpty = false := by simpa using hne
  simp only [replay, hemp, Bool.false_eq_true, if_false]
  rw [seedAll_eq, markAll_eq, Base.ofCheckpoint]
  split_ifs <;> exact ⟨rfl, rfl, rfl, rfl⟩

/-- Nothing is in flight after a replay either. -/
theorem Idle.replay {m : Impl L} (h : Idle m) (g : Graph) (completed : List Id) (t : State L) :
    Idle (replay g completed t m) := by
  by_cases hne : completed = []
  · subst hne
    exact h.seed g t
  · obtain ⟨-, -, hc, -⟩ := replay_rest g t m hne
    refine ⟨fun n => ?_, hc.trans h.count⟩
    rw [replay_activations g t m hne]
    split_ifs
    · rfl
    · rw [deliverAll_inFlight]; exact h.flag n

end replay

/-- The runner's fields after the replay of a checkpoint, on a fresh runner. -/
def replayed (g : Graph) (completed : List Id) (t : State L) : Impl L :=
  replay g completed t (initActivations g .fresh)

section replayed

variable (g : Graph) {completed : List Id} (hne : completed ≠ []) (t : State L)

include hne

theorem replayed_activations (v : Id) : (replayed g completed t).activations v =
    if v ∈ completed then
      { (initActivations g (.fresh : Impl L)).activations v with timesFired := 1, inFlight := false }
    else deliverAll t (completed.flatMap fun id => edgesBetween g id v)
      ((initActivations g (.fresh : Impl L)).activations v) :=
  replay_activations g t _ hne v

theorem replayed_rest : (replayed g completed t).completedNodeIds = completed ∧
    (replayed g completed t).firstError = none ∧ (replayed g completed t).inFlightCount = 0 ∧
    (replayed g completed t).terminalState = (Base.ofCheckpoint g completed t).terminal := by
  obtain ⟨h1, h2, h3, h4⟩ := replay_rest g t (initActivations g (.fresh : Impl L)) hne
  exact ⟨h1, h2, h3, h4.trans Option.or_none⟩

end replayed

/-! ### The counters after the replay -/

/-- The edges from distinct nodes are those no longer waited for. -/
theorem waiting_nil (g : Graph) (v : Id) {done : List Id} (hn : done.Nodup) :
    waiting g v [] = waiting g v done + (done.flatMap fun id => edgesBetween g id v).length := by
  induction done using List.reverseRecOn with
  | nil => simp
  | append_singleton done n ih =>
    obtain ⟨h1, -, h3⟩ := List.nodup_append.mp hn
    have hnd : n ∉ done := fun hm => h3 n hm n (by simp) rfl
    rw [ih h1, waiting_snoc g v hnd, List.flatMap_append, List.length_append]
    simp only [List.flatMap_cons, List.flatMap_nil, List.append_nil]
    omega

theorem mem_flatMap_edges {g : Graph} {v : Id} {done : List Id} {e : Edge} :
    e ∈ done.flatMap (fun id => edgesBetween g id v) ↔ e ∈ g.edges ∧ e.src ∈ done ∧ e.dst = v := by
  simp only [List.mem_flatMap, mem_edgesBetween]
  constructor
  · rintro ⟨id, hid, he, rfl, rfl⟩
    exact ⟨he, hid, rfl⟩
  · rintro ⟨he, hs, hd⟩
    exact ⟨e.src, hs, he, rfl, hd⟩

theorem delivered_replay (g : Graph) (v : Id) (t : State L) (completed : List Id) :
    delivered g v (completed.map fun id => (id, t)) =
      List.replicate (completed.flatMap fun id => edgesBetween g id v).length t.clone := by
  induction completed with
  | nil => rfl
  | cons id ids ih =>
    rw [List.map_cons, show (id, t) :: ids.map (fun id => (id, t)) = [(id, t)] ++ ids.map fun id => (id, t) from rfl,
      delivered, List.flatMap_append, ← delivered, ← delivered, ih, List.flatMap_cons, List.length_append,
      List.replicate_add]
    simp [delivered]

/-- The replay of an execution order leaves the bookkeeping of a run in which
its nodes have completed. -/
theorem plan_replay {g : Graph} (hw : g.WaitsForAll) {completed : List Id} (hne : completed ≠ [])
    (hn : completed.Nodup) (ho : InOrder g.Pred completed) (hk : ∀ v ∈ completed, v ∈ g.nodes) (t : State L) :
    Plan g (Base.ofCheckpoint g completed t) (replayed g completed t) [] [] := by
  obtain ⟨hc, -⟩ := replayed_rest g hne t
  have ha := replayed_activations g hne t
  have hi := init_rest g (.fresh : Impl L)
  refine
    { keyed := fun v p => ?_
      completed := by rw [hc]; simp [Base.ofCheckpoint]
      nodup := by rw [hc]; exact hn
      inOrder := by rw [hc]; exact ho
      known := fun v hv => by rw [hc] at hv; exact hk v (by simpa using hv)
      apart := fun v hv => by cases hv
      preds := fun v hv => by cases hv
      timesFired := fun v => ?_
      spent := fun v hv => ?_
      pending := fun v h1 _ => ?_
      remaining := fun e he hcond h1 _ => ?_
      any := fun e he hcond h1 _ => ?_ }
  · rw [← init_keyed_fresh g v p, ha]
    split_ifs
    · rfl
    · rw [deliverAll_conditions]
  · rw [hc, ha]
    by_cases hv : v ∈ completed
    · simp [hv]
    · simp only [hv, if_false, List.not_mem_nil, or_false, deliverAll_timesFired]
      exact (hi v).1
  · rw [hc] at hv
    have hv : v ∈ completed := by simpa using hv
    rw [ha, if_pos hv]
    exact (hi v).2.2.1
  · rw [hc] at h1
    rw [ha, if_neg h1, deliverAll_pendingInputs, (hi v).2.2.1]
    simp only [Base.ofCheckpoint]
    rw [delivered_replay]
    simp [Impl.fresh, NodeActivation.fresh, delivered]
  · rw [hc] at h1
    rw [hc, ha, if_neg h1, deliverAll_remainingAll, init_remainingAll, hw.length_inEdges, waiting_nil g e.dst hn]
    have hcount : (completed.flatMap fun id => edgesBetween g id e.dst).countP
        (fun a => a.activationGroup = 0 ∧ a.condition = .all) =
        (completed.flatMap fun id => edgesBetween g id e.dst).length := by
      rw [List.countP_eq_length]
      intro a ha
      obtain ⟨a1, -, a3⟩ := mem_flatMap_edges.mp ha
      have hg : a.activationGroup = e.activationGroup := (hw a a1).1.trans (hw e he).1.symm
      simp [(hw a a1).1, g.consistent a a1 e he a3 hg, hcond]
    rw [hcount]
    simp [Impl.fresh, NodeActivation.fresh]
  · rw [hc] at h1
    rw [hc, ha, if_neg h1, deliverAll_anyFired, (hi e.dst).2.2.2]
    simp only [Impl.fresh, NodeActivation.fresh, Bool.false_or, List.any_eq_true]
    constructor
    · rintro ⟨a, hm, -⟩
      obtain ⟨a1, a2, a3⟩ := mem_flatMap_edges.mp hm
      rcases (hw e he).2 with hall | hsole
      · rw [hcond] at hall; cases hall
      · rw [← hsole a a1 a3]; exact a2
    · intro hs
      exact ⟨e, mem_flatMap_edges.mpr ⟨he, hs, rfl⟩, by simp [(hw e he).1, hcond]⟩

/-! ### The resumed run -/

/-- The bytes of a protobuf-backed state are loaded into a target of its
message type. -/
theorem resumeTarget_of_message (hL : L.ProtoRoundTrip) {cp : Checkpoint} {s target : State L} {m m' : Message L}
    (hs : s.unsafeMessage = some m) (ht : target.unsafeMessage = some m') (hd : m.descriptor = m'.descriptor)
    (hb : cp.stateBytes = s.serializeAsString) (hc : cp.stateType = "" ∨ cp.stateType = m.getTypeName) :
    resumeTarget cp target = .ok ⟨target.pool, .proto (some m)⟩ := by
  have hname : m.getTypeName = m'.getTypeName := by rw [Message.getTypeName, hd]; rfl
  have hok : ¬ (cp.stateType ≠ "" ∧ cp.stateType ≠ m'.getTypeName) := by
    rintro ⟨h1, h2⟩
    rcases hc with hc | hc
    · exact h1 hc
    · exact h2 (hc.trans hname)
  simp only [resumeTarget, ht, if_neg hok, hb, State.parse_serialize_message hL hs ht hd]

/-- A target of the same kind then is that state. -/
theorem resumeTarget_of_bytes (hL : L.ProtoRoundTrip) {cp : Checkpoint} {s target : State L}
    (h : State.SameType s target) (hb : cp.stateBytes = s.serializeAsString)
    (ht : cp.stateType = "" ∨ s.unsafeMessage.map Message.getTypeName = some cp.stateType) :
    resumeTarget cp target = .ok s := by
  obtain ⟨m, m', hs, hm', hd⟩ := h.descriptor
  rw [State.eq_of_kind hs hm' h.kind]
  refine resumeTarget_of_message hL hs hm' hd hb (ht.imp id fun ht => ?_)
  rw [hs, Option.map_some, Option.some.injEq] at ht
  exact ht.symm

/-- A checkpoint of a protobuf-backed state is restored into a state of its type. -/
theorem resumeTarget_makeCheckpoint (hL : L.ProtoRoundTrip) (ids : List Id) {s target : State L}
    (h : State.SameType s target) : resumeTarget (makeCheckpoint ids s) target = .ok s := by
  obtain ⟨m, -, hs, -⟩ := h.descriptor
  refine resumeTarget_of_bytes hL h rfl (Or.inr ?_)
  simp [makeCheckpoint, hs]

/-- The three ways `Resume` can go: the target is refused, a listed node is
unknown, or the checkpoint is replayed and the loop begins. -/
theorem resume_cases (S : Setup) (m : Impl L) (cp : Checkpoint) (target : State L) :
    (∃ msg, resumeTarget cp target = .error msg ∧ resume S m cp target = (m, .error msg)) ∨
    (∃ t msg, resumeTarget cp target = .ok t ∧ (∃ v ∈ cp.completedNodes, v ∉ S.graph.nodes) ∧
      resume S m cp target = (initActivations S.graph m, .error msg)) ∨
    (∃ t, resumeTarget cp target = .ok t ∧ (∀ v ∈ cp.completedNodes, v ∈ S.graph.nodes) ∧
      resume S m cp target = (replay S.graph cp.completedNodes t (initActivations S.graph m),
        .ok (.begin (replay S.graph cp.completedNodes t (initActivations S.graph m))
          (ready S (replay S.graph cp.completedNodes t (initActivations S.graph m)))))) := by
  cases ht : resumeTarget cp target with
  | error msg => exact Or.inl ⟨msg, rfl, by simp only [resume, ht]⟩
  | ok t =>
    right
    cases hf : cp.completedNodes.find? fun id => !S.graph.hasNode id with
    | some id =>
      refine Or.inl ⟨t, "Runner::Resume: unknown node id in checkpoint: " ++ id, rfl,
        ⟨id, List.mem_of_find?_eq_some hf, ?_⟩, by simp only [resume, ht, hf]⟩
      simpa [Graph.hasNode] using List.find?_some hf
    | none =>
      refine Or.inr ⟨t, rfl, fun v hv => ?_, by simp only [resume, ht, hf]⟩
      simpa [Graph.hasNode] using List.find?_eq_none.mp hf v hv

/-- `Resume` on a fresh runner, of a checkpoint that it accepts. -/
theorem resume_fresh (S : Setup) {cp : Checkpoint} {target t : State L} (ht : resumeTarget cp target = .ok t)
    (hk : ∀ v ∈ cp.completedNodes, v ∈ S.graph.nodes) :
    resume S .fresh cp target = (replayed S.graph cp.completedNodes t,
      .ok (.begin (replayed S.graph cp.completedNodes t) (ready S (replayed S.graph cp.completedNodes t)))) := by
  rcases resume_cases S .fresh cp target with ⟨msg, he, -⟩ | ⟨t', msg, -, ⟨v, hv, hno⟩, -⟩ | ⟨t', ht', -, h⟩
  · rw [ht] at he; cases he
  · exact absurd (hk v hv) hno
  · rw [ht] at ht'
    cases ht'
    exact h

/-! ### Where runs start -/

/-- The first state of a `Run` or of an accepted `Resume` on a fresh runner. -/
inductive Origin (S : Setup) : Loop → Exec L → Prop
  | run (s : State L) : Origin S .run (runStart S .fresh s)
  | resume {cp : Checkpoint} {target : State L} {m : Impl L} {x : Exec L}
      (h : resume S .fresh cp target = (m, .ok x)) : Origin S .runInner x

theorem replayed_firstError (g : Graph) (completed : List Id) (t : State L) :
    (replayed g completed t).firstError = none := by
  by_cases hne : completed = []
  · subst hne
    exact (seeded_rest g t).1
  · exact (replayed_rest g hne t).2.1

/-- What all of them have in common. -/
theorem Origin.begin {S : Setup} {loop : Loop} {x : Exec L} (h : Origin S loop x) :
    ∃ m batch, x = .begin m batch ∧ Idle m ∧ m.firstError = none ∧ batch.Nodup := by
  cases h with
  | run s =>
    obtain ⟨he, -, -⟩ := seeded_rest S.graph s
    exact ⟨_, _, runStart_fresh S s, seeded_idle _ s, he, Graph.entryNodeIds_nodup⟩
  | @resume cp target m _ h =>
    rcases resume_cases S .fresh cp target with ⟨msg, -, hr⟩ | ⟨t, msg, -, -, hr⟩ | ⟨t, -, -, hr⟩ <;> rw [hr] at h <;>
      cases h
    exact ⟨_, _, rfl, (Idle.fresh.init _).replay _ _ t, replayed_firstError S.graph _ t, ready_nodup S _⟩

/-! ### On a DAG -/

/-- What a resumed run starts from. -/
theorem frontier_replay {S : Setup} (hw : S.graph.WaitsForAll) {completed : List Id} (hne : completed ≠ [])
    (hn : completed.Nodup) (ho : InOrder S.graph.Pred completed) (hk : ∀ v ∈ completed, v ∈ S.graph.nodes)
    (t : State L) : Frontier S (Base.ofCheckpoint S.graph completed t)
      (.begin (replayed S.graph completed t) (ready S (replayed S.graph completed t))) := by
  have hp := plan_replay hw hne hn ho hk t
  have hidle : Idle (replayed S.graph completed t) := (Idle.fresh.init _).replay _ _ t
  refine Frontier.begin hidle hp (replayed_firstError _ _ t) (ready_nodup S _) fun n hr => ?_
  exact ((hp.mem_ready_iff (fun n => by simp [hidle.flag n]) hw n).mp hr).2

theorem ledger_replay {S : Setup} {completed : List Id} (hne : completed ≠ [])
    (ho : InOrder S.graph.Pred completed) (t : State L)
    (Out : Id → State L → State L → Prop) : Ledger S (Base.ofCheckpoint S.graph completed t) Out
      (.begin (replayed S.graph completed t) (ready S (replayed S.graph completed t))) :=
  Ledger.begin Out (replayed_rest S.graph hne t).2.2.2 ho

/-- What a complete resumption is, in every successful run of the resumed
loop: exactly the nodes not listed run, each once and after all its
predecessors, and the run ends. -/
structure Resumed (S : Setup) (completed : List Id) (cs : List (Choice L)) (y : Exec L) : Prop where
  once : (starts y.log).Nodup
  others : ∀ n ∈ starts y.log, n ∈ S.graph.nodes ∧ n ∉ completed
  after : ∀ p n input q, y.log = p ++ .nodeStart n input :: q →
    ∀ a, S.graph.Pred a n → a ∈ completed ++ completions p
  bounded : cs.length ≤ 8 * S.graph.nodes.length + 3
  goesOn : y.pc.finished = false → ∀ out : State L, ∃ c z,
    (c = .main ∨ c = .start ∨ c = .finish 0 (.ok out) none) ∧ step S .runInner c y = some z
  all : y.pc.finished = true → ∀ n ∈ S.graph.nodes, n ∉ completed → n ∈ starts y.log

/-- `Resume` of the checkpoint on a fresh runner completes the graph. -/
def ResumesCompletely (S : Setup) (cp : Checkpoint) (target : State L) : Prop :=
  ∃ m x, resume S .fresh cp target = (m, .ok x) ∧ ∀ cs y,
    Run (step S .runInner) (Succeeds fun _ _ _ => True) x cs y → Resumed S cp.completedNodes cs y

section resumed

variable {S : Setup} {completed : List Id} {t : State L} {Out : Id → State L → State L → Prop} {y : Exec L}

/-- An entry node that is not listed is never fed, so it never starts. -/
theorem entry_not_started (hw : S.graph.WaitsForAll) {v : Id} (hv : v ∈ S.graph.entryNodeIds)
    (hL : Ledger S (Base.ofCheckpoint S.graph completed t) Out y) : v ∉ starts y.log := by
  intro hs
  obtain ⟨ev, hev, hst⟩ := List.mem_filterMap.mp hs
  obtain ⟨p, q, hlog⟩ := List.append_of_mem hev
  cases ev with
  | nodeStart n input =>
    obtain rfl : n = v := by simpa [Event.start?] using hst
    have hnone := (hw.mem_entryNodeIds.mp hv).2
    refine (hL.startOk p _ q hlog n input rfl).2.1 ?_
    simp only [Base.ofCheckpoint]
    rw [delivered_eq_nil hnone, delivered_eq_nil hnone]
    rfl
  | _ => cases hst

/-- When every entry node is listed, the replay feeds whatever can run. -/
theorem feeds_ofCheckpoint (hw : S.graph.WaitsForAll) (hent : ∀ v ∈ S.graph.entryNodeIds, v ∈ completed) :
    (Base.ofCheckpoint S.graph completed t).Feeds S.graph := by
  intro v hv hnc hpre
  by_cases hp : ∃ a, S.graph.Pred a v
  · obtain ⟨a, ha⟩ := hp
    have hm : a ∈ completed := hpre a ha
    exact delivered_ne_nil ha (by simpa [List.map_map, Function.comp_def] using hm)
  · exact absurd (hent v (hw.mem_entryNodeIds.mpr ⟨hv, fun a ha => hp ⟨a, ha⟩⟩)) hnc

end resumed

/-- **Resume completes the graph exactly when every entry node is listed**,
for every checkpoint of a successful run on a DAG. -/
theorem resumesCompletely_iff (S₀ S : Setup) (hg : S₀.graph = S.graph) (hdag : S.graph.IsDag)
    (hplain : S.graph.PlainFanIn) (hpol : S₀.opts.checkpointPolicy = .afterEachNode) (s : State L)
    (cs₀ : List (Choice L)) (y₀ : Exec L)
    (hr₀ : Run (step S₀ .run) (Succeeds fun _ _ _ => True) (runStart S₀ .fresh s) cs₀ y₀)
    (cp : Checkpoint) (hcp : cp ∈ checkpoints y₀.log) (target t : State L) (ht : resumeTarget cp target = .ok t) :
    ResumesCompletely S cp target ↔ ∀ v ∈ S.graph.entryNodeIds, v ∈ cp.completedNodes := by
  have hw := hplain.waitsForAll
  have hw₀ : S₀.graph.WaitsForAll := hg ▸ hw
  have hF₀ := Frontier.run hw₀ hr₀ (hw₀.frontier_runStart s)
  have hL₀ := Ledger.run hw₀ hr₀ (hw₀.frontier_runStart s) (ledger_runStart S₀ s _)
  obtain ⟨hne, hpre⟩ := hF₀.checkpoint_completed hL₀ hpol hcp
  have hnd := hF₀.plan.nodup.sublist hpre.sublist
  have hord : InOrder S.graph.Pred cp.completedNodes := hg ▸ hF₀.plan.inOrder.of_isPrefix hpre
  have hk : ∀ v ∈ cp.completedNodes, v ∈ S.graph.nodes := fun v hv =>
    hg ▸ hF₀.plan.known v (Or.inl (hpre.subset hv))
  have hres := resume_fresh S ht hk
  have hF := frontier_replay hw hne hnd hord hk t
  have hL := ledger_replay hne hord t fun _ _ _ => True
  constructor
  · rintro ⟨m, x, hx, hall⟩ v hv
    rw [hres] at hx
    obtain rfl : _ = x := by simpa using (Prod.mk.inj hx).2
    by_contra hnot
    obtain ⟨cs, y, hr, hf⟩ := hF.exists_finished hw .runInner
    exact entry_not_started hw hv (Ledger.run hw hr hF hL)
      ((hall cs y hr).all hf v (Graph.entryNodeIds_sub hv) hnot)
  · intro hent
    refine ⟨_, _, hres, fun cs y hr => ?_⟩
    have hF' := Frontier.run hw hr hF
    have hL' := Ledger.run hw hr hF hL
    obtain ⟨h1, h2⟩ := hF'.starts_nodup hL'
    refine
      { once := h1
        others := h2
        after := fun p n input q hlog => (hL'.startOk p _ q hlog n input rfl).1
        bounded := ?_
        goesOn := fun hf out => exists_step S .runInner hF'.tasks hf (.ok out)
        all := fun hf n hn hnc => ?_ }
    · have := Frontier.run_length_le hw hr hF
      have := budget_begin_le S (replayed S.graph cp.completedNodes t) (ready S (replayed S.graph cp.completedNodes t))
      omega
    · have hmem := (hF'.all_completed hw hdag (feeds_ofCheckpoint hw hent) hf).mem_iff.mpr hn
      rw [hF'.plan.completed] at hmem
      rcases List.mem_append.mp hmem with hm | hm
      · exact absurd hm hnc
      · exact (hF'.starts_perm hL' hf).mem_iff.mpr hm

/-- The diamond, resumed after its entry node. -/
theorem resumesCompletely_diamond : ResumesCompletely (Setup.plain .diamond)
    (makeCheckpoint ["a"] (Libs.text.state [1])) (Libs.text.state [0]) := by
  have h : (check (step (Setup.plain .diamond) .run) (fun _ c => c.succeeds)
      [.main, .main, .main, .main, .start, .finish 0 (.ok (Libs.text.state [1])) none]
      (runStart (Setup.plain .diamond) .fresh (Libs.text.state [0]))).any
      (fun y => decide (makeCheckpoint ["a"] (Libs.text.state [1]) ∈ checkpoints y.log)) = true := by
    decide
  obtain ⟨y, hr, hcp⟩ := Run.exists_of_check _ h fun x c hc => Succeeds.of_succeeds hc x
  exact (resumesCompletely_iff (Setup.plain .diamond) (Setup.plain .diamond) rfl diamond_isDag
    (by unfold Graph.PlainFanIn; decide) rfl _ _ y hr _ (of_decide_eq_true hcp) _ (Libs.text.state [1]) rfl).mpr
    (by decide)

/-- Two entry nodes `a` and `b` of a join: the checkpoint written after `a`
while `b` still runs is accepted, and the resumed run ends without `b`. -/
theorem resume_skips_entry :
    (∃ cs y, Run (step (Setup.plain .join) .run) (Succeeds fun _ _ _ => True)
      (runStart (Setup.plain .join) .fresh (Libs.text.state [0])) cs y ∧
      makeCheckpoint ["a"] (Libs.text.state [1]) ∈ checkpoints y.log) ∧
    ¬ ResumesCompletely (Setup.plain .join) (makeCheckpoint ["a"] (Libs.text.state [1])) (Libs.text.state [0]) := by
  constructor
  · have h : (check (step (Setup.plain .join) .run) (fun _ c => c.succeeds)
        [.main, .main, .main, .main, .main, .start, .start, .finish 0 (.ok (Libs.text.state [1])) none]
        (runStart (Setup.plain .join) .fresh (Libs.text.state [0]))).any
        (fun y => decide (makeCheckpoint ["a"] (Libs.text.state [1]) ∈ checkpoints y.log)) = true := by
      decide
    obtain ⟨y, hr, hcp⟩ := Run.exists_of_check _ h fun x c hc => Succeeds.of_succeeds hc x
    exact ⟨_, y, hr, of_decide_eq_true hcp⟩
  · rintro ⟨m, x, hx, hall⟩
    have h : ((resume (Setup.plain .join) .fresh (makeCheckpoint ["a"] (Libs.text.state [1]))
        (Libs.text.state [0])).2.toOption.bind
        (check (step (Setup.plain .join) .runInner) (fun _ c => c.succeeds) [.main, .main, .main])).any
        (fun y => y.pc.finished && !decide ("b" ∈ starts y.log)) = true := by
      decide
    rw [hx] at h
    obtain ⟨y, hr, hy⟩ := Run.exists_of_check _ h fun x c hc => Succeeds.of_succeeds hc x
    simp only [Bool.and_eq_true, Bool.not_eq_true', decide_eq_false_iff_not] at hy
    exact hy.2 ((hall _ y hr).all hy.1 "b" (by decide) (by decide))

end AgentFlow
