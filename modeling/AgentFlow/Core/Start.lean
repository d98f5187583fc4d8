/-
# What a run starts from

`initActivations` counts the incoming edges of every node and group
(`init_remainingAll`) and notes each group's condition (`Keyed`); the entry
nodes then get the initial state (`seedEntries_activations`). On a fresh
runner every entry node is ready, so `Run` begins with all of them
(`runStart_fresh`).

Key definitions: `Keyed`, `inEdges`.
-/
import AgentFlow.Core.Steps

namespace AgentFlow

variable {L : Libs}

/-- The edges of a group into a node. -/
def inEdges (g : Graph) (v : Id) (k : ℤ) : List Edge :=
  g.edges.filter fun e => e.dst = v ∧ e.activationGroup = k

theorem mem_inEdges {g : Graph} {v : Id} {k : ℤ} {e : Edge} :
    e ∈ inEdges g v k ↔ e ∈ g.edges ∧ e.dst = v ∧ e.activationGroup = k := by
  simp [inEdges]

/-- The conditions of every node are those of its incoming edges. -/
def Keyed (g : Graph) (m : Impl L) : Prop :=
  ∀ v p, p ∈ (m.activations v).conditions ↔
    ∃ e ∈ g.edges, e.dst = v ∧ (e.activationGroup, e.condition) = p

theorem Keyed.of_conditions {g : Graph} {m m' : Impl L} (h : Keyed g m)
    (hc : ∀ v, (m'.activations v).conditions = (m.activations v).conditions) : Keyed g m' := fun v p => by
  rw [hc]; exact h v p

/-- A node is ready when each of its incoming edges' groups is. -/
theorem nodeReady_iff {g : Graph} {m : Impl L} (h : Keyed g m) (v : Id) :
    nodeReady (m.activations v) = true ↔
      ∀ e ∈ g.edges, e.dst = v → groupReady (m.activations v) e.activationGroup e.condition = true := by
  simp only [nodeReady, List.all_eq_true]
  constructor
  · intro hr e he hd
    exact hr (e.activationGroup, e.condition) ((h v _).mpr ⟨e, he, hd, rfl⟩)
  · intro hr p hp
    obtain ⟨e, he, hd, rfl⟩ := (h v p).mp hp
    exact hr e he hd

/-! ### Registering the edges -/

/-- Registering an edge changes its target's conditions and one counter. -/
theorem registerEdge_apply (acts : Id → NodeActivation L) (e : Edge) (v : Id) :
    registerEdge acts e v =
      if v = e.dst then
        { acts v with
          conditions :=
            if (acts v).conditions.any fun p => p.1 = e.activationGroup then (acts v).conditions
            else (acts v).conditions ++ [(e.activationGroup, e.condition)]
          remainingAll := Function.update (acts v).remainingAll e.activationGroup
            ((acts v).remainingAll e.activationGroup + 1) }
      else acts v := by
  by_cases h : v = e.dst
  · subst h; simp [registerEdge]
  · simp [registerEdge, h]

/-- The fields that registering edges does not touch. -/
theorem registerEdges_rest : ∀ (es : List Edge) (acts : Id → NodeActivation L) (v : Id),
    ((es.foldl registerEdge acts) v).timesFired = (acts v).timesFired ∧
      ((es.foldl registerEdge acts) v).inFlight = (acts v).inFlight ∧
      ((es.foldl registerEdge acts) v).pendingInputs = (acts v).pendingInputs ∧
      ((es.foldl registerEdge acts) v).anyFired = (acts v).anyFired
  | [], _, _ => ⟨rfl, rfl, rfl, rfl⟩
  | e :: es, acts, v => by
    obtain ⟨h1, h2, h3, h4⟩ := registerEdges_rest es (registerEdge acts e) v
    have he := registerEdge_apply acts e v
    rw [List.foldl_cons, h1, h2, h3, h4, he]
    split_ifs <;> exact ⟨rfl, rfl, rfl, rfl⟩

theorem registerEdges_remainingAll (k : ℤ) : ∀ (es : List Edge) (acts : Id → NodeActivation L) (v : Id),
    ((es.foldl registerEdge acts) v).remainingAll k =
      (acts v).remainingAll k + (es.filter fun e => e.dst = v ∧ e.activationGroup = k).length
  | [], _, _ => by simp
  | e :: es, acts, v => by
    rw [List.foldl_cons, registerEdges_remainingAll k es, registerEdge_apply, List.filter_cons]
    by_cases hv : v = e.dst
    · by_cases hk : e.activationGroup = k
      · subst hv hk; simp; omega
      · simp [hv, hk, Function.update, Ne.symm hk]
    · simp [hv, Ne.symm hv]

/-- After the edges, each condition is that of an edge, and every group has one. -/
theorem registerEdges_conditions (g : Graph) : ∀ (es seen : List Edge) (acts : Id → NodeActivation L),
    (∀ e ∈ seen ++ es, e ∈ g.edges) →
    (∀ v p, p ∈ (acts v).conditions ↔ ∃ e ∈ seen, e.dst = v ∧ (e.activationGroup, e.condition) = p) →
    ∀ v p, p ∈ ((es.foldl registerEdge acts) v).conditions ↔
      ∃ e ∈ seen ++ es, e.dst = v ∧ (e.activationGroup, e.condition) = p
  | [], seen, acts, _, h => by simpa using h
  | e :: es, seen, acts, hg, h => by
    have happ : seen ++ e :: es = (seen ++ [e]) ++ es := by simp
    rw [List.foldl_cons, happ]
    refine registerEdges_conditions g es (seen ++ [e]) _ (by rw [← happ]; exact hg) fun v p => ?_
    rw [registerEdge_apply]
    have hrest : (∃ a ∈ seen ++ [e], a.dst = v ∧ (a.activationGroup, a.condition) = p) ↔
        p ∈ (acts v).conditions ∨ (e.dst = v ∧ (e.activationGroup, e.condition) = p) := by
      rw [h v p]; simp [or_and_right, exists_or]
    rw [hrest]
    by_cases hv : v = e.dst
    · simp only [hv, if_true, true_and]
      split_ifs with hany
      · -- the group is there already, with the same condition
        obtain ⟨q, hq, hq1⟩ := List.any_eq_true.mp hany
        obtain ⟨a, ha, had, rfl⟩ := (h e.dst q).mp hq
        have hc := g.consistent a (hg a (List.mem_append_left _ ha)) e (hg e (by simp)) had (by simpa using hq1)
        simp only [decide_eq_true_eq] at hq1
        constructor
        · exact Or.inl
        · rintro (hp | rfl)
          · exact hp
          · rw [← hq1, ← hc]; exact hq
      · simp [eq_comm]
    · simp [hv, Ne.symm hv]

theorem init_keyed_fresh (g : Graph) : Keyed g (initActivations g (Impl.fresh : Impl L)) := by
  have := registerEdges_conditions (L := L) g g.edges [] (fun _ => .fresh) (by simp)
    (by simp [NodeActivation.fresh])
  simpa [Keyed, initActivations, Impl.fresh] using this

theorem init_remainingAll (g : Graph) (m : Impl L) (v : Id) (k : ℤ) :
    ((initActivations g m).activations v).remainingAll k =
      (m.activations v).remainingAll k + (inEdges g v k).length :=
  registerEdges_remainingAll k g.edges m.activations v

theorem init_rest (g : Graph) (m : Impl L) (v : Id) :
    ((initActivations g m).activations v).timesFired = (m.activations v).timesFired ∧
      ((initActivations g m).activations v).inFlight = (m.activations v).inFlight ∧
      ((initActivations g m).activations v).pendingInputs = (m.activations v).pendingInputs ∧
      ((initActivations g m).activations v).anyFired = (m.activations v).anyFired :=
  registerEdges_rest g.edges m.activations v

/-! ### Seeding the entry nodes -/

/-- The list of nodes each get one more input. -/
theorem seed_activations (s : State L) : ∀ (ids : List Id) (m : Impl L), ids.Nodup → ∀ v,
    ((ids.foldl (fun m id => m.modify id fun na =>
      { na with pendingInputs := na.pendingInputs ++ [s.clone] }) m).activations v) =
      if v ∈ ids then { m.activations v with pendingInputs := (m.activations v).pendingInputs ++ [s.clone] }
      else m.activations v
  | [], _, _, _ => by simp
  | id :: ids, m, hn, v => by
    obtain ⟨hid, hn'⟩ := List.nodup_cons.mp hn
    rw [List.foldl_cons, seed_activations s ids _ hn' v, Impl.modify_activations]
    by_cases hv : v = id
    · subst hv; simp [hid]
    · simp [hv]

theorem seedEntries_activations (g : Graph) (s : State L) (m : Impl L) (v : Id) :
    (seedEntries g s m).activations v =
      if v ∈ g.entryNodeIds then
        { m.activations v with pendingInputs := (m.activations v).pendingInputs ++ [s.clone] }
      else m.activations v :=
  seed_activations s g.entryNodeIds m Graph.entryNodeIds_nodup v

theorem seed_eq (s : State L) : ∀ (ids : List Id) (m : Impl L),
    ids.foldl (fun m id => m.modify id fun na => { na with pendingInputs := na.pendingInputs ++ [s.clone] }) m =
      { m with
        activations := (ids.foldl (fun m id => m.modify id fun na =>
          { na with pendingInputs := na.pendingInputs ++ [s.clone] }) m).activations }
  | [], _ => rfl
  | id :: ids, m => by
    rw [List.foldl_cons, seed_eq s ids]
    rfl

/-- Seeding changes the bookkeeping of nodes only. -/
theorem seedEntries_eq (g : Graph) (s : State L) (m : Impl L) :
    seedEntries g s m = { m with activations := (seedEntries g s m).activations } :=
  seed_eq s g.entryNodeIds m

/-- A change of the inputs of some nodes leaves the conditions, the counters
and the flags. -/
theorem seedEntries_rest (g : Graph) (s : State L) (m : Impl L) (v : Id) :
    ((seedEntries g s m).activations v).conditions = (m.activations v).conditions ∧
      ((seedEntries g s m).activations v).remainingAll = (m.activations v).remainingAll ∧
      ((seedEntries g s m).activations v).anyFired = (m.activations v).anyFired ∧
      ((seedEntries g s m).activations v).timesFired = (m.activations v).timesFired ∧
      ((seedEntries g s m).activations v).inFlight = (m.activations v).inFlight := by
  rw [seedEntries_activations]; split_ifs <;> exact ⟨rfl, rfl, rfl, rfl, rfl⟩

/-- The state of a fresh runner once the entry nodes are seeded. -/
def seeded (g : Graph) (s : State L) : Impl L := seedEntries g s (initActivations g .fresh)

theorem seeded_keyed (g : Graph) (s : State L) : Keyed g (seeded g s) := by
  intro v p
  rw [seeded, (seedEntries_rest g s _ v).1]
  exact init_keyed_fresh g v p

theorem seeded_activation (g : Graph) (s : State L) (v : Id) :
    ((seeded g s).activations v).timesFired = 0 ∧ ((seeded g s).activations v).inFlight = false ∧
      (∀ k, ((seeded g s).activations v).anyFired k = false) ∧
      (∀ k, ((seeded g s).activations v).remainingAll k = (inEdges g v k).length) ∧
      ((seeded g s).activations v).pendingInputs = if v ∈ g.entryNodeIds then [s.clone] else [] := by
  obtain ⟨-, h2, h3, h4, h5⟩ := seedEntries_rest g s (initActivations g (Impl.fresh : Impl L)) v
  obtain ⟨i1, i2, i3, i4⟩ := init_rest g (Impl.fresh : Impl L) v
  refine ⟨h4.trans i1, h5.trans i2, fun k => ?_, fun k => ?_, ?_⟩
  · exact congrFun (h3.trans i4) k
  · rw [seeded, h2, init_remainingAll]
    simp [Impl.fresh, NodeActivation.fresh]
  · rw [seeded, seedEntries_activations]
    split_ifs
    · show _ ++ [s.clone] = _
      rw [i3]; rfl
    · rw [i3]; rfl

theorem Idle.init {m : Impl L} (h : Idle m) (g : Graph) : Idle (initActivations g m) :=
  ⟨fun n => (init_rest g m n).2.1.trans (h.flag n), h.count⟩

theorem Idle.seed {m : Impl L} (h : Idle m) (g : Graph) (s : State L) : Idle (seedEntries g s m) := by
  refine ⟨fun n => (seedEntries_rest g s m n).2.2.2.2.trans (h.flag n), ?_⟩
  rw [seedEntries_eq]; exact h.count

theorem Idle.fresh : Idle (.fresh : Impl L) := ⟨fun _ => rfl, rfl⟩

theorem seeded_idle (g : Graph) (s : State L) : Idle (seeded g s) := (Idle.fresh.init g).seed g s

theorem seeded_rest (g : Graph) (s : State L) :
    (seeded g s).firstError = none ∧ (seeded g s).terminalState = none ∧ (seeded g s).completedNodeIds = [] := by
  rw [seeded, seedEntries_eq]; exact ⟨rfl, rfl, rfl⟩

/-- An entry node of a fresh runner is ready: it has only groups above 0. -/
theorem seeded_entry_ready (g : Graph) (s : State L) {v : Id} (h : v ∈ g.entryNodeIds) :
    nodeReady ((seeded g s).activations v) = true := by
  rw [nodeReady_iff (seeded_keyed g s)]
  intro e he hd
  have hne : e.activationGroup ≠ 0 := fun h0 => (Graph.mem_entryNodeIds.mp h).2 e he h0 hd
  have hpos : e.activationGroup > 0 := lt_of_le_of_ne (g.group_nonneg e he) (Ne.symm hne)
  simp [groupReady, hpos, (seeded_activation g s v).1]

/-- `Run` on a fresh runner begins by launching every entry node. -/
theorem runStart_fresh (S : Setup) (s : State L) :
    runStart S .fresh s = .begin (seeded S.graph s) S.graph.entryNodeIds := by
  have : S.graph.entryNodeIds.filter (fun id => nodeReady ((seeded S.graph s).activations id)) =
      S.graph.entryNodeIds := List.filter_eq_self.mpr fun v hv => seeded_entry_ready S.graph s hv
  exact congrArg (Exec.begin (seeded S.graph s)) this

end AgentFlow
