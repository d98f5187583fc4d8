/-
# The integers of a workflow document

A document gives a schema version, depths of delegation and limits of output
tokens. The loader reads them into fields of 32 bits before it checks them, so
the checks hold of what is left of an integer. What is loaded is as written if
and only if each of these integers fits its field (`asWritten_iff_inRange`):
`uint32_t` for the version and the depths, `int32_t` for the tokens.

Key definitions: `maxDepthAt`, `maxOutputTokensAt`, `AsWritten`, `InRange`.
Key theorems: `asWritten_iff_inRange`, `not_asWritten_wrapped`.
-/
import AgentFlow.Lib.JsonInteger
import AgentFlow.Workflow.Delegation

namespace AgentFlow.Workflow

open Json Fallible

namespace WorkflowLoader

/-- What a document has under an agent's name. -/
def agentAt (doc : Value) (name : String) : Option Value := (doc.find? "agents").bind fun agents => agents.find? name

/-- The integer `k` in a part of an agent. -/
def agentIntAt (doc : Value) (name part k : String) : Option ℤ :=
  (agentAt doc name).bind fun agent => (agent.find? part).bind fun v => v.intAt? k

def maxDepthAt (doc : Value) (name : String) : Option ℤ := agentIntAt doc name "delegates" "max_depth"

def maxOutputTokensAt (doc : Value) (name : String) : Option ℤ := agentIntAt doc name "model" "max_output_tokens"

/-- The integers of the document are inside the limits, and are what is loaded. -/
structure AsWritten (doc : Value) (spec : WorkflowSpec) : Prop where
  schemaVersion : ∀ n, doc.intAt? "schema_version" = some n → 0 ≤ n ∧ n ≤ kCurrentWorkflowSchemaVersion ∧
    (spec.schemaVersion : ℤ) = if n = 0 then 1 else n
  maxDepth : ∀ name n, maxDepthAt doc name = some n → 0 ≤ n ∧ n ≤ kMaxDelegateDepth ∧
    ∃ agent d, spec.findAgent name = some agent ∧ agent.delegates = some d ∧ (d.maxDepth : ℤ) = n
  maxOutputTokens : ∀ name n, maxOutputTokensAt doc name = some n →
    ∃ agent, spec.findAgent name = some agent ∧ agent.model.maxOutputTokens = n

/-- The integers of the document fit their fields. -/
structure InRange (doc : Value) : Prop where
  schemaVersion : ∀ n, doc.intAt? "schema_version" = some n → 0 ≤ n ∧ n < 2 ^ 32
  maxDepth : ∀ name n, maxDepthAt doc name = some n → 0 ≤ n ∧ n < 2 ^ 32
  maxOutputTokens : ∀ name n, maxOutputTokensAt doc name = some n → -2 ^ 31 ≤ n ∧ n < 2 ^ 31

/-! ### Reading a field -/

theorem uint32At_eq (j : Value) (k : String) : uint32At j k = ((j.intAt? k).getD 0 % 2 ^ 32).toNat := rfl

theorem int32At_eq (j : Value) (k : String) : int32At j k = ((j.intAt? k).getD 0).bmod (2 ^ 32) := rfl

section

variable {j : Value} {k : String} {n : ℤ}

/-- An integer that fits its field fits 64 bits. -/
theorem fits_of_uint32 (hn : 0 ≤ n ∧ n < 2 ^ 32) : intFits n := ⟨by omega, by omega⟩

theorem fits_of_int32 (hn : -2 ^ 31 ≤ n ∧ n < 2 ^ 31) : intFits n := ⟨by omega, by omega⟩

theorem uint32At_of_fits (h : j.intAt? k = some n) (hn : 0 ≤ n ∧ n < 2 ^ 32) : (uint32At j k : ℤ) = n := by
  rw [uint32At_eq, h]
  simp only [Option.getD_some]
  omega

theorem int32At_of_fits (h : j.intAt? k = some n) (hn : -2 ^ 31 ≤ n ∧ n < 2 ^ 31) : int32At j k = n := by
  rw [int32At_eq, h]
  simp only [Option.getD_some]
  exact Int.bmod_eq_of_le (by omega) (by omega)

/-- A field of 32 bits holds no other integers. -/
theorem int32At_fits (j : Value) (k : String) : -2 ^ 31 ≤ int32At j k ∧ int32At j k < 2 ^ 31 := by
  rw [int32At_eq]
  have hlow := Int.le_bmod (x := (j.intAt? k).getD 0) (m := 2 ^ 32) (by omega)
  have hhigh := Int.bmod_lt (x := (j.intAt? k).getD 0) (m := 2 ^ 32) (by omega)
  omega

end

/-! ### What is read of an agent -/

section

variable {name : String} {j : Value} {agent : AgentDef}

theorem maxDepth_of_parseDelegateSpec {d : DelegateSpec} (h : parseDelegateSpec j = .ok d) :
    d.maxDepth = uint32At j "max_depth" := by
  unfold parseDelegateSpec at h
  split_ifs at h
  · obtain ⟨agents, -, h⟩ := bind_eq_ok.mp h
    cases h
  · obtain ⟨agents, -, h⟩ := bind_eq_ok.mp h
    obtain ⟨inputTemplate, -, h⟩ := bind_eq_ok.mp h
    rw [← Except.ok.inj h]

theorem parts_of_parseAgentDef (h : parseAgentDef name j = .ok agent) :
    parseModel name j = .ok agent.model ∧ parseDelegates name j = .ok agent.delegates := by
  unfold parseAgentDef at h
  split_ifs at h
  simp only [bind_eq_ok] at h
  obtain ⟨model, hmodel, tools, -, delegates, hdelegates, h⟩ := h
  obtain rfl := Except.ok.inj h
  exact ⟨hmodel, hdelegates⟩

theorem delegates_of_parseAgentDef {v : Value} (h : parseAgentDef name j = .ok agent)
    (hv : j.find? "delegates" = some v) :
    ∃ d, agent.delegates = some d ∧ d.maxDepth = uint32At v "max_depth" := by
  have hd := (parts_of_parseAgentDef h).2
  rw [parseDelegates, hv] at hd
  simp only at hd
  split at hd
  · next d hspec => exact ⟨d, (Except.ok.inj hd).symm, maxDepth_of_parseDelegateSpec hspec⟩
  · cases hd

theorem maxOutputTokens_of_parseAgentDef {v : Value} (h : parseAgentDef name j = .ok agent)
    (hv : j.find? "model" = some v) : agent.model.maxOutputTokens = int32At v "max_output_tokens" := by
  have hm := (parts_of_parseAgentDef h).1
  rw [parseModel, hv] at hm
  simp only at hm
  split_ifs at hm
  rw [bind_eq_ok] at hm
  obtain ⟨backend, -, hm⟩ := hm
  rw [← Except.ok.inj hm]

end

/-- The tokens of an agent are a number of 32 bits. -/
theorem maxOutputTokens_fits {name : String} {j : Value} {agent : AgentDef} (h : parseAgentDef name j = .ok agent) :
    -2 ^ 31 ≤ agent.model.maxOutputTokens ∧ agent.model.maxOutputTokens < 2 ^ 31 := by
  cases hv : j.find? "model" with
  | none =>
    have hm := (parts_of_parseAgentDef h).1
    rw [parseModel, hv] at hm
    rw [← Except.ok.inj hm]
    exact ⟨by decide, by decide⟩
  | some v =>
    rw [maxOutputTokens_of_parseAgentDef h hv]
    exact int32At_fits v _

/-! ### What is kept of the document -/

section

variable (round : ℤ → BitVec 64) (doc : Value)

theorem agentAt_kept (name : String) : agentAt (doc.kept round) name = (agentAt doc name).map (Value.kept round) := by
  rw [agentAt, agentAt, Value.find?_kept]
  cases doc.find? "agents" with
  | none => rfl
  | some agents => exact agents.find?_kept round name

theorem agentIntAt_kept (name part k : String) :
    agentIntAt (doc.kept round) name part k = (agentIntAt doc name part k).filter fun i => intFits i := by
  rw [agentIntAt, agentIntAt, agentAt_kept]
  cases agentAt doc name with
  | none => rfl
  | some agent =>
    simp only [Option.map_some, Option.bind_some, Value.find?_kept]
    cases agent.find? part with
    | none => rfl
    | some v => exact v.intAt?_kept round k

end

/-! ### What is loaded -/

section

variable {L : LoaderHost} {opts : LoaderOptions} {text : String} {root : Value} {w : LoadedWorkflow}

theorem schemaVersion_of_parseRoot {spec : WorkflowSpec} (h : parseRoot L.ordered root = .ok spec) :
    spec.schemaVersion = uint32At root "schema_version" := by
  unfold parseRoot at h
  split_ifs at h
  simp only [bind_eq_ok] at h
  obtain ⟨state, -, agents, -, signing, -, h⟩ := h
  rw [← Except.ok.inj h]

/-- An agent of the document is loaded. -/
theorem exists_agent {spec : WorkflowSpec} {name : String} {v : Value} (hroot : root.Keyed)
    (h : parseRoot L.ordered root = .ok spec) (hv : agentAt root name = some v) :
    ∃ agent, spec.findAgent name = some agent ∧ parseAgentDef name v = .ok agent := by
  obtain ⟨agents, hagents, hv⟩ := Option.bind_eq_some_iff.mp hv
  cases agents with
  | obj ms =>
    have hparsed := agents_of_parseRoot h
    rw [parseAgents, hagents] at hparsed
    obtain ⟨agent, hagent, hfound⟩ := (lookup_parseMembers (keyed_members hroot hagents) hparsed name).1 v hv
    exact ⟨agent, hfound, hagent⟩
  | _ => cases hv

theorem findAgent_versioned (spec : WorkflowSpec) (name : String) :
    (versioned spec).findAgent name = spec.findAgent name := by
  rw [versioned]
  split_ifs <;> rfl

theorem schemaVersion_versioned (spec : WorkflowSpec) :
    (versioned spec).schemaVersion = if spec.schemaVersion = 0 then 1 else spec.schemaVersion := by
  rw [versioned]
  split_ifs <;> rfl

/-- What an integer of the document is loaded as. -/
theorem loaded_maxDepth {spec : WorkflowSpec} {name : String} {n : ℤ} (hroot : root.Keyed)
    (h : parseRoot L.ordered root = .ok spec) (hn : maxDepthAt root name = some n) :
    ∃ agent d v, spec.findAgent name = some agent ∧ agent.delegates = some d ∧ v.intAt? "max_depth" = some n ∧
      d.maxDepth = uint32At v "max_depth" := by
  obtain ⟨j, hj, hn⟩ := Option.bind_eq_some_iff.mp hn
  obtain ⟨v, hv, hn⟩ := Option.bind_eq_some_iff.mp hn
  obtain ⟨agent, hfound, hagent⟩ := exists_agent hroot h hj
  obtain ⟨d, hd, hdepth⟩ := delegates_of_parseAgentDef hagent hv
  exact ⟨agent, d, v, hfound, hd, hn, hdepth⟩

theorem loaded_maxOutputTokens {spec : WorkflowSpec} {name : String} {n : ℤ} (hroot : root.Keyed)
    (h : parseRoot L.ordered root = .ok spec) (hn : maxOutputTokensAt root name = some n) :
    ∃ agent v, spec.findAgent name = some agent ∧ v.intAt? "max_output_tokens" = some n ∧
      agent.model.maxOutputTokens = int32At v "max_output_tokens" := by
  obtain ⟨j, hj, hn⟩ := Option.bind_eq_some_iff.mp hn
  obtain ⟨v, hv, hn⟩ := Option.bind_eq_some_iff.mp hn
  obtain ⟨agent, hfound, hagent⟩ := exists_agent hroot h hj
  exact ⟨agent, v, hfound, hn, maxOutputTokens_of_parseAgentDef hagent hv⟩

variable {round : ℤ → BitVec 64} {doc : Value}

theorem inRange_of_asWritten (hkeyed : root.Keyed) (hload : load L opts text = .ok w)
    (hparse : L.ordered.parse text = some root) (h : AsWritten doc w.spec) : InRange doc := by
  refine ⟨fun n hn => ?_, fun name n hn => ?_, fun name n hn => ?_⟩
  · obtain ⟨hlow, hhigh, -⟩ := h.schemaVersion n hn
    exact ⟨hlow, lt_of_le_of_lt hhigh (by decide)⟩
  · obtain ⟨hlow, hhigh, -⟩ := h.maxDepth name n hn
    exact ⟨hlow, lt_of_le_of_lt hhigh (by decide)⟩
  · obtain ⟨agent, hfound, rfl⟩ := h.maxOutputTokens name n hn
    obtain ⟨-, root', spec, hparse', hroot, -, -, hspec⟩ := load_eq_ok.mp hload
    cases hparse.symm.trans hparse'
    rw [hspec, findAgent_versioned] at hfound
    obtain ⟨ms, v, -, -, hagent⟩ := (findAgent_of_parseRoot hkeyed hroot name agent).mp hfound
    exact maxOutputTokens_fits hagent

theorem asWritten_of_inRange (hkeyed : (doc.kept round).Keyed) (hload : load L opts text = .ok w)
    (hparse : L.ordered.parse text = some (doc.kept round)) (h : InRange doc) : AsWritten doc w.spec := by
  obtain ⟨-, root, spec, hparse', hroot, hcheck, -, hspec⟩ := load_eq_ok.mp hload
  cases hparse.symm.trans hparse'
  have haccepted := accepted_of_load hload
  refine ⟨fun n hn => ?_, fun name n hn => ?_, fun name n hn => ?_⟩
  · have hfits := h.schemaVersion n hn
    have hn' : (doc.kept round).intAt? "schema_version" = some n := by
      rw [Value.intAt?_kept, hn, Option.filter_some_pos (by simpa using fits_of_uint32 hfits)]
    have hread : (spec.schemaVersion : ℤ) = n := by
      rw [schemaVersion_of_parseRoot hroot]
      exact uint32At_of_fits hn' hfits
    have hlimit := (checkSpec_eq_ok.mp hcheck).1
    rw [schemaVersion_versioned, kCurrentWorkflowSchemaVersion] at hlimit
    rw [hspec, schemaVersion_versioned, kCurrentWorkflowSchemaVersion]
    by_cases hzero : spec.schemaVersion = 0
    · simp only [if_pos hzero] at hlimit ⊢
      omega
    · simp only [if_neg hzero] at hlimit ⊢
      omega
  · have hfits := h.maxDepth name n hn
    have hn' : maxDepthAt (doc.kept round) name = some n := by
      rw [maxDepthAt] at hn ⊢
      rw [agentIntAt_kept, hn, Option.filter_some_pos (by simpa using fits_of_uint32 hfits)]
    obtain ⟨agent, d, v, hfound, hd, hv, hdepth⟩ := loaded_maxDepth hkeyed hroot hn'
    have hread : (d.maxDepth : ℤ) = n := hdepth ▸ uint32At_of_fits hv hfits
    have hagent : w.spec.findAgent name = some agent := by rw [hspec, findAgent_versioned, hfound]
    have hlimit := haccepted.depth name agent d hagent hd
    exact ⟨hfits.1, by omega, agent, d, hagent, hd, hread⟩
  · have hfits := h.maxOutputTokens name n hn
    have hn' : maxOutputTokensAt (doc.kept round) name = some n := by
      rw [maxOutputTokensAt] at hn ⊢
      rw [agentIntAt_kept, hn, Option.filter_some_pos (by simpa using fits_of_int32 hfits)]
    obtain ⟨agent, v, hfound, hv, htokens⟩ := loaded_maxOutputTokens hkeyed hroot hn'
    exact ⟨agent, by rw [hspec, findAgent_versioned, hfound], htokens.trans (int32At_of_fits hv hfits)⟩

/-- **When what is loaded is as written**: when the integers fit their fields. -/
theorem asWritten_iff_inRange (hkeyed : (doc.kept round).Keyed) (hparse : L.ordered.parse text = some (doc.kept round))
    (hload : load L opts text = .ok w) : AsWritten doc w.spec ↔ InRange doc :=
  ⟨inRange_of_asWritten hkeyed hload hparse, asWritten_of_inRange hkeyed hload hparse⟩

end

/-! ### Documents -/

/-- A desk where the clerk may delegate to the given depth. -/
def depthDocument (depth : ℤ) : Value :=
  .obj [("schema_version", .int 1), ("main", .str "clerk"), ("agents", .obj [
    ("clerk", .obj [("delegates", .obj [("agents", .arr [.str "editor"]), ("max_depth", .int depth)])]),
    ("editor", .obj [("model", .obj [("max_output_tokens", .int 256)])])])]

def depthLoader : LoaderHost :=
  { studioLoader with
    ordered := .ofTable [("two.json", depthDocument 2), ("wrapped.json", depthDocument (2 ^ 32 + 1))] }

/-- What is loaded. -/
def loadedDepth (maxDepth : ℕ) : LoadedWorkflow where
  spec :=
    { schemaVersion := 1
      agents := [("clerk", { delegates := some { agents := ["editor"], maxDepth := maxDepth } }),
        ("editor", { model := { maxOutputTokens := 256 } })]
      main := "clerk" }

theorem asWritten_two : AsWritten (depthDocument 2) (loadedDepth 2).spec := by
  have hparse : depthLoader.ordered.parse "two.json" = some ((depthDocument 2).kept fun _ => 0) := by decide
  have hload : load depthLoader {} "two.json" = .ok (loadedDepth 2) := by decide
  have hkeyed : ((depthDocument 2).kept fun _ => 0).Keyed := by
    have hkept : ((depthDocument 2).kept fun _ => 0) = depthDocument 2 := by decide
    rw [hkept]
    simp [depthDocument, Value.Keyed, membersKeyed, itemsKeyed]
  refine (asWritten_iff_inRange hkeyed hparse hload).mpr ⟨fun n hn => ?_, fun name n hn => ?_, fun name n hn => ?_⟩
  · cases hn
    decide
  · obtain ⟨v, hv, hn⟩ := Option.bind_eq_some_iff.mp hn
    have hm := mem_of_lookup (show List.lookup name _ = some v from hv)
    simp only [List.mem_cons, Prod.mk.injEq, List.not_mem_nil, or_false] at hm
    rcases hm with ⟨-, rfl⟩ | ⟨-, rfl⟩
    · cases hn
      decide
    · cases hn
  · obtain ⟨v, hv, hn⟩ := Option.bind_eq_some_iff.mp hn
    have hm := mem_of_lookup (show List.lookup name _ = some v from hv)
    simp only [List.mem_cons, Prod.mk.injEq, List.not_mem_nil, or_false] at hm
    rcases hm with ⟨-, rfl⟩ | ⟨-, rfl⟩
    · cases hn
    · cases hn
      decide

/-- A depth above the limit, and above 32 bits, is loaded as another one. -/
theorem not_asWritten_wrapped : ∃ w, load depthLoader {} "wrapped.json" = .ok w ∧
    depthLoader.ordered.parse "wrapped.json" = some (depthDocument (2 ^ 32 + 1)) ∧
      ¬ AsWritten (depthDocument (2 ^ 32 + 1)) w.spec := by
  refine ⟨loadedDepth 1, by decide, by decide, fun h => ?_⟩
  have hn : maxDepthAt (depthDocument (2 ^ 32 + 1)) "clerk" = some (2 ^ 32 + 1) := by decide
  obtain ⟨-, hlimit, -⟩ := h.maxDepth "clerk" _ hn
  exact absurd hlimit (by decide)

end WorkflowLoader

end AgentFlow.Workflow
