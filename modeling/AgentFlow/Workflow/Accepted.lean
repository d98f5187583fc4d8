/-
# What a loaded workflow has passed

The loader's steps as equivalences: a text is accepted if and only if it
parses, its specification passes each check, and its descriptors are built.
From the checks: the agents of all rosters are declared, no agent delegates
to itself in any number of steps, and no depth is above eight.

Key definitions: `Accepted`.
Key theorems: `load_eq_ok`, `accepted_of_load`.
-/
import AgentFlow.Lib.Fallible
import AgentFlow.Workflow.WorkflowLoader

namespace AgentFlow.Workflow

open Json Fallible

namespace WorkflowLoader

theorem require_eq_ok {p : Prop} [Decidable p] {e : Status.Error} : require p e = .ok () ↔ p := by
  rw [require]
  split_ifs with h
  · exact iff_of_true rfl h
  · exact iff_of_false (by simp) h

/-! ### Members of an object -/

section

variable {ν : Type} {f : String → Value → Except Status.Error ν}

theorem lookup_foldlM : ∀ {ms : List (String × Value)} {acc m : List (String × ν)}, (ms.map Prod.fst).Nodup →
    ms.foldlM (fun m b => (f b.1 b.2).map fun v => OrderedMap.insert b.1 v m) acc = .ok m →
    (∀ k v, ms.lookup k = some v → ∃ x, f k v = .ok x ∧ m.lookup k = some x) ∧
      ∀ k, ms.lookup k = none → m.lookup k = acc.lookup k
  | [], acc, m, _, h => by
    obtain rfl := Except.ok.inj h
    exact ⟨nofun, fun _ _ => rfl⟩
  | (k₀, v₀) :: ms, acc, m, hn, h => by
    rw [List.map_cons, List.nodup_cons] at hn
    rw [List.foldlM_cons, bind_eq_ok] at h
    obtain ⟨acc', hacc, h⟩ := h
    obtain ⟨x₀, hx₀, rfl⟩ : ∃ x, f k₀ v₀ = .ok x ∧ OrderedMap.insert k₀ x acc = acc' := by
      cases hx : f k₀ v₀ with
      | error e => simp [hx, Except.map] at hacc
      | ok x => exact ⟨x, rfl, by simpa [hx, Except.map] using hacc⟩
    obtain ⟨hbound, hfree⟩ := lookup_foldlM hn.2 h
    refine ⟨fun k v hk => ?_, fun k hk => ?_⟩
    · rw [OrderedMap.lookup_cons] at hk
      split_ifs at hk with heq
      · obtain rfl := Option.some.inj hk
        refine ⟨x₀, heq ▸ hx₀, ?_⟩
        rw [hfree k (heq ▸ OrderedMap.lookup_eq_none_of_notMem hn.1), OrderedMap.lookup_insert, if_pos heq]
      · exact hbound k v hk
    · rw [OrderedMap.lookup_cons] at hk
      split_ifs at hk with heq
      rw [hfree k hk, OrderedMap.lookup_insert, if_neg heq]

/-- **What is parsed** from the members of an object that has no key twice. -/
theorem lookup_parseMembers {ms : List (String × Value)} {m : List (String × ν)} (hn : (ms.map Prod.fst).Nodup)
    (h : parseMembers f ms = .ok m) (k : String) :
    (∀ v, ms.lookup k = some v → ∃ x, f k v = .ok x ∧ m.lookup k = some x) ∧
      (ms.lookup k = none → m.lookup k = none) := by
  obtain ⟨hbound, hfree⟩ := lookup_foldlM hn h
  exact ⟨hbound k, hfree k⟩

end

variable {L : LoaderHost} {opts : LoaderOptions} {text : String} {root : Value} {spec : WorkflowSpec}
  {w : LoadedWorkflow}

theorem agents_of_parseRoot (h : parseRoot L.ordered root = .ok spec) : parseAgents root = .ok spec.agents := by
  unfold parseRoot at h
  split_ifs at h
  simp only [bind_eq_ok] at h
  obtain ⟨state, -, agents, ha, signing, -, h⟩ := h
  rw [← Except.ok.inj h]
  exact ha

theorem keyed_members {k : String} {ms : List (String × Value)} (hroot : root.Keyed)
    (h : root.find? k = some (.obj ms)) : (ms.map Prod.fst).Nodup := by
  cases root with
  | obj rms =>
    obtain ⟨l, r, rfl, -⟩ := List.lookup_eq_some_iff.mp h
    have hm := membersKeyed_iff.mp hroot.2 (k, .obj ms) (by simp)
    exact hm.1
  | _ => cases h

/-- The agents of a document, by name. -/
theorem findAgent_of_parseRoot (hroot : root.Keyed) (h : parseRoot L.ordered root = .ok spec) (name : String)
    (agent : AgentDef) : spec.findAgent name = some agent ↔ ∃ ms v, root.find? "agents" = some (.obj ms) ∧
      ms.lookup name = some v ∧ parseAgentDef name v = .ok agent := by
  have hagents := agents_of_parseRoot h
  unfold parseAgents at hagents
  split at hagents
  · next hno =>
    rw [WorkflowSpec.findAgent, ← Except.ok.inj hagents, hno]
    exact iff_of_false nofun fun ⟨_, _, h, _⟩ => by cases h
  · next ms hms =>
    obtain ⟨hbound, hfree⟩ := lookup_parseMembers (keyed_members hroot hms) hagents name
    rw [WorkflowSpec.findAgent]
    constructor
    · intro ha
      cases hv : ms.lookup name with
      | none =>
        rw [hfree hv] at ha
        cases ha
      | some v =>
        obtain ⟨x, hx, hm⟩ := hbound v hv
        rw [hm] at ha
        exact ⟨ms, v, hms, hv, by rw [hx, Option.some.inj ha]⟩
    · rintro ⟨ms', v, hms', hv, hp⟩
      rw [hms] at hms'
      obtain rfl : ms = ms' := Value.obj.inj (Option.some.inj hms')
      obtain ⟨x, hx, hm⟩ := hbound v hv
      rw [hx] at hp
      rw [hm, Except.ok.inj hp]
  · cases hagents

/-! ### The checks -/

theorem checkSpec_eq_ok {jsonBytes : ℕ} : checkSpec L opts jsonBytes root spec = .ok () ↔
    spec.schemaVersion ≤ kCurrentWorkflowSchemaVersion ∧
      checkResourceLimits L spec jsonBytes opts.maxJsonBytes = .ok () ∧ checkReferences L spec = .ok () ∧
        checkAcyclic L spec = .ok () ∧ checkTemplates L spec = .ok () ∧ checkSigning L opts root spec = .ok () := by
  simp only [checkSpec, seq_eq_ok, require_eq_ok]

/-- **What is loaded.** -/
theorem load_eq_ok : load L opts text = .ok w ↔ text.utf8ByteSize ≤ opts.maxJsonBytes ∧
    ∃ root spec, L.ordered.parse text = some root ∧ parseRoot L.ordered root = .ok spec ∧
      checkSpec L opts text.utf8ByteSize root (versioned spec) = .ok () ∧
        buildStatePool L (versioned spec).state = .ok w.statePool ∧ w.spec = versioned spec := by
  unfold load
  rw [seq_eq_ok, checkSize, require_eq_ok]
  refine and_congr_right fun _ => ?_
  cases hroot : L.ordered.parse text with
  | none => exact iff_of_false nofun fun ⟨_, _, h, _⟩ => by cases h
  | some root =>
    simp only [bind_eq_ok, Option.some.injEq]
    constructor
    · rintro ⟨spec, hspec, _, hcheck, pool, hpool, hw⟩
      obtain rfl := Except.ok.inj hw
      exact ⟨root, spec, rfl, hspec, hcheck, hpool, rfl⟩
    · rintro ⟨_, spec, rfl, hspec, hcheck, hpool, hw⟩
      exact ⟨spec, hspec, (), hcheck, w.statePool, hpool, by rw [← hw]; rfl⟩

/-- A specification that has passed the checks of its agents. -/
structure Accepted (spec : WorkflowSpec) : Prop where
  agents : spec.agents.length ≤ kMaxAgents
  main : spec.findAgent spec.main ≠ none
  targets : ∀ parent child, spec.Delegates parent child → spec.findAgent child ≠ none
  depth : ∀ name agent d, spec.findAgent name = some agent → agent.delegates = some d → d.maxDepth ≤ kMaxDelegateDepth
  acyclic : ∀ x, Acc (fun x y => x ∈ spec.children y) x

theorem mem_children {parent child : String} : child ∈ spec.children parent ↔ spec.Delegates parent child := by
  rw [WorkflowSpec.children, WorkflowSpec.Delegates]
  cases spec.findAgent parent with
  | none => simp
  | some agent => cases hd : agent.delegates <;> simp [hd]

theorem mem_agents_of_findAgent {name : String} {agent : AgentDef} (h : spec.findAgent name = some agent) :
    (name, agent) ∈ spec.agents := by
  obtain ⟨l, r, hl, -⟩ := List.lookup_eq_some_iff.mp h
  rw [hl]
  simp

theorem lookup_white (name : String) : ∀ agents : List (String × AgentDef),
    (agents.map fun b => (b.1, DepthFirst.Color.white)).lookup name = (agents.lookup name).map fun _ => .white
  | [] => rfl
  | (k, agent) :: agents => by
    rw [List.map_cons, OrderedMap.lookup_cons, OrderedMap.lookup_cons, lookup_white name agents]
    split_ifs <;> rfl

/-- The agents that the search starts from, in the order of the map. -/
def starts (L : LoaderHost) (spec : WorkflowSpec) : List String := (L.agentOrder.order spec.agents).map Prod.fst

/-- All agents white. -/
def unvisited (spec : WorkflowSpec) : DepthFirst.Colors String := spec.agents.map fun b => (b.1, .white)

theorem white_of_unvisited {x : String} {c : DepthFirst.Color} (h : (unvisited spec).lookup x = some c) :
    c = .white := by
  rw [unvisited, lookup_white] at h
  obtain ⟨-, -, hc⟩ := Option.map_eq_some_iff.mp h
  exact hc.symm

theorem children_of_unvisited {x : String} (h : (unvisited spec).lookup x = none) : spec.children x = [] := by
  rw [unvisited, lookup_white, Option.map_eq_none_iff] at h
  rw [WorkflowSpec.children, WorkflowSpec.findAgent, h]
  rfl

theorem mem_starts_of_unvisited {x : String} (h : (unvisited spec).lookup x ≠ none) : x ∈ starts L spec := by
  rw [unvisited, lookup_white] at h
  cases ha : spec.findAgent x with
  | none => exact absurd (Option.map_eq_none_iff.mpr ha) h
  | some agent => exact List.mem_map.mpr ⟨(x, agent), L.agentOrder.mem_order.mpr (mem_agents_of_findAgent ha), rfl⟩

theorem checkAcyclic_eq_ok : checkAcyclic L spec = .ok () ↔
    ∃ color, DepthFirst.search spec.children (starts L spec) (unvisited spec) = .ok color := by
  rw [checkAcyclic, starts, unvisited]
  split
  · next color hs => simp [hs]
  · next child hs => simp [hs]

/-- **No cycle of delegation is accepted.** -/
theorem acc_of_checkAcyclic (h : checkAcyclic L spec = .ok ()) (x : String) :
    Acc (fun x y => x ∈ spec.children y) x := by
  obtain ⟨color, hs⟩ := checkAcyclic_eq_ok.mp h
  exact DepthFirst.acc_of_search (fun _ _ => white_of_unvisited) (fun _ => children_of_unvisited)
    (fun _ => mem_starts_of_unvisited) hs x

/-- **The search for cycles of delegation ends**, in whatever order the map of
agents is walked, and refuses exactly the specifications that have one. -/
theorem checkAcyclic_decides (L : LoaderHost) (spec : WorkflowSpec) :
    (∃ r, DepthFirst.Searches spec.children (unvisited spec) (starts L spec) r ∧
      (checkAcyclic L spec = .ok () ↔ ∃ color, r = .ok color)) ∧
    (checkAcyclic L spec = .ok () ↔ ∀ agent, ¬ Relation.TransGen spec.Delegates agent agent) := by
  refine ⟨⟨_, DepthFirst.searches_search _ _, checkAcyclic_eq_ok⟩, ?_⟩
  rw [checkAcyclic_eq_ok, DepthFirst.search_ok_iff (fun _ _ => white_of_unvisited) (fun _ => children_of_unvisited)
    fun _ => mem_starts_of_unvisited]
  refine forall_congr' fun agent => not_congr ?_
  rw [Relation.transGen_swap.symm]
  have hrel : Function.swap (fun x y => x ∈ spec.children y) = spec.Delegates := by
    funext parent child
    exact propext mem_children
  rw [hrel]

theorem accepted_of_checkSpec {jsonBytes : ℕ} (h : checkSpec L opts jsonBytes root spec = .ok ()) : Accepted spec := by
  obtain ⟨-, hlimits, hrefs, hacyclic, -, -⟩ := checkSpec_eq_ok.mp h
  simp only [checkResourceLimits, seq_eq_ok, require_eq_ok, forM_eq_ok, checkAgentLimits, option_forM_eq_ok,
    checkDelegateLimits] at hlimits
  simp only [checkReferences, seq_eq_ok, require_eq_ok, forM_eq_ok, checkAgentReferences, option_forM_eq_ok,
    checkTarget] at hrefs
  refine ⟨hlimits.2.1, hrefs.2.1, ?_, fun name agent d ha hd => ?_, acc_of_checkAcyclic hacyclic⟩
  · rintro parent child ⟨agent, d, ha, hd, hc⟩
    exact (hrefs.2.2 (parent, agent) (L.agentOrder.mem_order.mpr (mem_agents_of_findAgent ha))).2 d hd child hc
  · exact ((hlimits.2.2 (name, agent) (L.agentOrder.mem_order.mpr (mem_agents_of_findAgent ha))).2 d hd).2

theorem accepted_of_load (h : load L opts text = .ok w) : Accepted w.spec := by
  obtain ⟨-, root, spec, -, -, hcheck, -, hw⟩ := load_eq_ok.mp h
  rw [hw]
  exact accepted_of_checkSpec hcheck

end WorkflowLoader

end AgentFlow.Workflow
