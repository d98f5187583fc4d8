/-
# System prompts

The loader checks the templates of `delegates`, and not those of the prompts:
a workflow whose prompts are no templates is loaded, and a delegation to such
an agent fails. The prompt is a template for a sub-agent only: at the top
level an agent is told the source of the template as it stands.

Key definitions: `PromptSound`, `TemplatesSound`, `OneMeaning`, `Reproduced`,
`Plain`.
Key theorems: `templatesSound_iff`, `not_templatesSound`, `reproduced_of_plain`,
`oneMeaning_iff_reproduced`, `not_oneMeaning`.
-/
import AgentFlow.Workflow.CancelReport
import AgentFlow.Workflow.Delegation

namespace AgentFlow.Workflow

open Json Fallible
open SubAgentRuntime
open WorkflowLoader

/-! ### The templates of a workflow -/

/-- The prompt is a template, and reads nothing but the workflow. -/
def PromptSound (prompt : String) : Prop :=
  ∃ template, TemplateString.parse prompt = .ok template ∧ ∀ parts ∈ template.paths, parts.head? = some "workflow"

/-- The prompts are sound, no delegation returns `bad_template`, and the other
templates can be parsed. -/
structure TemplatesSound (spec : WorkflowSpec) : Prop where
  prompts : ∀ name agent, spec.findAgent name = some agent → PromptSound agent.systemPrompt
  delegations : ∀ (H : Host) (c : RunArgs) (l : Hist) (v : Value), H.workflow = spec →
    Runs (runAsync H) (runAsync H c) l (some (.ok v)) → v ≠ errorValue .badTemplate []
  others : ∀ name agent d, spec.findAgent name = some agent → agent.delegates = some d →
    (∃ template, TemplateString.parse d.goalTemplate = .ok template) ∧
      ∀ b ∈ d.inputTemplate, ∃ template, TemplateString.parse b.2 = .ok template

section

variable {L : LoaderHost} {opts : LoaderOptions} {text : String} {spec : WorkflowSpec} {w : LoadedWorkflow}

theorem parse_of_checkOneTemplate {agentName location source : String} {fields : List String}
    (h : checkOneTemplate agentName location source fields = .ok ()) :
    ∃ template, TemplateString.parse source = .ok template := by
  unfold checkOneTemplate at h
  split at h
  · cases h
  · next template ht => exact ⟨template, ht⟩

/-- The templates of `delegates` are checked. -/
theorem parse_of_checkTemplates (h : checkTemplates L spec = .ok ()) {name : String} {agent : AgentDef}
    {d : DelegateSpec} (ha : spec.findAgent name = some agent) (hd : agent.delegates = some d) :
    (∃ template, TemplateString.parse d.goalTemplate = .ok template) ∧
      ∀ b ∈ d.inputTemplate, ∃ template, TemplateString.parse b.2 = .ok template := by
  have hcheck := option_forM_eq_ok.mp (forM_eq_ok.mp h (name, agent)
    (L.agentOrder.mem_order.mpr (mem_agents_of_findAgent ha))) d hd
  rw [checkDelegateTemplates, seq_eq_ok] at hcheck
  obtain ⟨hgoal, hinput⟩ := hcheck
  refine ⟨?_, fun b hb => parse_of_checkOneTemplate (forM_eq_ok.mp hinput b (L.templateOrder.mem_order.mpr hb))⟩
  unfold checkGoalTemplate at hgoal
  split_ifs at hgoal with hempty
  · rw [hempty]
    exact ⟨⟨"", []⟩, by decide⟩
  · exact parse_of_checkOneTemplate hgoal

/-- A delegation returns `bad_template` only for a prompt that does not parse. -/
theorem ne_badTemplate {H : Host} {c : RunArgs} {l : Hist} {v : Value}
    (hp : ∀ name agent, H.workflow.findAgent name = some agent → PromptSound agent.systemPrompt)
    (h : Runs (runAsync H) (runAsync H c) l (some (.ok v))) : v ≠ errorValue .badTemplate [] := by
  have hran : Ran (freely fun _ _ _ => True) H c l (.ok v) := ran_of_runs (fun _ _ _ _ => trivial) h
  have hother : ∀ {kind more}, kind ≠ .badTemplate → errorValue kind more ≠ errorValue .badTemplate [] := by
    intro kind more hk heq
    have htext := congrArg (Value.stringAt? · "error") heq
    cases kind <;> simp [errorValue, Value.stringAt?, ErrorKind.text] at htext hk
  generalize hr : (.ok v : Except Thrown Value) = r at hran
  cases hran with
  | unexported | uncreated | thrown => cases hr
  | badTemplate _ _ hchild _ he =>
    obtain ⟨template, ht, -⟩ := hp _ _ hchild
    cases he.symm.trans ht
  | unknownAgent | maxDepthExceeded | unknownBackend | noConversation =>
    cases hr
    exact hother (by simp)
  | failed _ _ _ hl =>
    cases hr
    rcases hl.failed_cases with ⟨rfl, -⟩ | ⟨rfl, -⟩
    · exact hother (by simp)
    · exact hother (by simp)
  | extracted | unextracted =>
    cases hr
    simp [errorValue]

theorem systemPrompt_of_parseAgentDef {name : String} {j : Value} {agent : AgentDef}
    (h : parseAgentDef name j = .ok agent) : agent.systemPrompt = textAt j "system_prompt" := by
  unfold parseAgentDef at h
  split_ifs at h
  simp only [bind_eq_ok] at h
  obtain ⟨model, -, tools, -, delegates, -, h⟩ := h
  rw [← Except.ok.inj h]

/-- **When the templates of what is loaded are sound**: another check rejects
the document, or its prompts are sound. -/
theorem templatesSound_iff (hkeyed : ∀ root, L.ordered.parse text = some root → root.Keyed) :
    (∀ w, WorkflowLoader.load L opts text = .ok w → TemplatesSound w.spec) ↔ (∀ w, WorkflowLoader.load L opts text ≠ .ok w) ∨
      ∀ root ms name v, L.ordered.parse text = some root → root.find? "agents" = some (.obj ms) →
        ms.lookup name = some v → PromptSound (textAt v "system_prompt") := by
  have hversioned : ∀ spec : WorkflowSpec, (versioned spec).agents = spec.agents := fun spec => by
    unfold versioned
    split_ifs <;> rfl
  constructor
  · intro hs
    by_cases hload : ∃ w, WorkflowLoader.load L opts text = .ok w
    · obtain ⟨w, hw⟩ := hload
      obtain ⟨-, root, spec, hparse, hroot, -, -, hspec⟩ := load_eq_ok.mp hw
      refine Or.inr fun root' ms name v hparse' hms hv => ?_
      cases hparse.symm.trans hparse'
      have hagents : parseAgents root = .ok spec.agents := agents_of_parseRoot hroot
      rw [parseAgents, hms] at hagents
      obtain ⟨agent, hagent, hm⟩ := (lookup_parseMembers (keyed_members (hkeyed root hparse) hms) hagents name).1 v hv
      rw [← systemPrompt_of_parseAgentDef hagent]
      refine (hs w hw).prompts name agent ?_
      rw [hspec, WorkflowSpec.findAgent, hversioned]
      exact hm
    · exact Or.inl fun w hw => hload ⟨w, hw⟩
  · rintro (hno | hp) w hw
    · exact absurd hw (hno w)
    · obtain ⟨-, root, spec, hparse, hroot, hcheck, -, hspec⟩ := load_eq_ok.mp hw
      have hprompts : ∀ name agent, w.spec.findAgent name = some agent → PromptSound agent.systemPrompt := by
        intro name agent ha
        rw [hspec, WorkflowSpec.findAgent, hversioned] at ha
        obtain ⟨ms, v, hms, hv, hagent⟩ := (findAgent_of_parseRoot (hkeyed root hparse) hroot name agent).mp ha
        rw [systemPrompt_of_parseAgentDef hagent]
        exact hp root ms name v hparse hms hv
      refine ⟨hprompts, fun H c l v hH hr => ne_badTemplate (hH ▸ hprompts) hr, fun name agent d ha hd => ?_⟩
      rw [hspec] at ha
      exact parse_of_checkTemplates (checkSpec_eq_ok.mp hcheck).2.2.2.2.1 ha hd

end

/-! ### What an agent is told -/

/-- The system message of a sub-agent. -/
def systemMessage (H : Host) (system : String) : String :=
  if system = "" then "" else H.ordered.dump (textContent system)

/-- The agent is told its prompt evaluated, and the same at the top level and
as a sub-agent. -/
structure OneMeaning (H : Host) (name : String) (agent : AgentDef) : Prop where
  top : ∀ B cfg, B.agentName = name → buildAgentNode H B = .ok cfg →
    ∀ time, evaluated H agent time = some cfg.systemPrompt
  child : ∀ c l o, c.child = name → Runs (runAsync H) (runAsync H c) l o →
    ∀ backend agentName options r, .did (.createConversation backend agentName options) r ∈ l →
      ∃ time system, evaluated H agent time = some system ∧ options.systemMessageJson = systemMessage H system
  same : ∀ B cfg c l o, B.agentName = name → buildAgentNode H B = .ok cfg → c.child = name →
    Runs (runAsync H) (runAsync H c) l o → ∀ backend agentName options r,
      .did (.createConversation backend agentName options) r ∈ l →
        options.systemMessageJson = systemMessage H cfg.systemPrompt

/-- Evaluating the prompt gives the prompt. -/
def Reproduced (H : Host) (agent : AgentDef) : Prop := ∀ time, evaluated H agent time = some agent.systemPrompt

/-- No braces that a template reads. -/
def Plain (prompt : String) : Prop :=
  ∀ pair ∈ [['{', '{'], ['}', '}'], ['\\', '{']], ¬ pair <:+: prompt.toList

section

variable {H : Host} {name : String} {agent : AgentDef}

theorem parseFrom_plain : ∀ {rest lit : List Char},
    (∀ pair ∈ [['{', '{'], ['}', '}'], ['\\', '{']], ¬ pair <:+: rest) →
    TemplateString.parseFrom (.literal lit) rest = .ok (TemplateString.flush (lit ++ rest))
  | [], lit, _ => by rw [TemplateString.parseFrom, List.append_nil]
  | c :: rest, lit, h => by
    have hrest : ∀ pair ∈ [['{', '{'], ['}', '}'], ['\\', '{']], ¬ pair <:+: rest := fun pair hp hi =>
      h pair hp (hi.trans (List.suffix_cons c rest).isInfix)
    rw [TemplateString.parseFrom]
    · rw [parseFrom_plain hrest, List.append_assoc]
      rfl
    · rintro u rfl hu
      exact h ['\\', '{'] (by simp) ⟨[], u, by simp [hu]⟩
    · rintro u rfl hu
      exact h ['{', '{'] (by simp) ⟨[], u, by simp [hu]⟩
    · rintro u rfl hu
      exact h ['}', '}'] (by simp) ⟨[], u, by simp [hu]⟩

/-- **A plain prompt is evaluated to itself.** -/
theorem reproduced_of_plain (h : Plain agent.systemPrompt) : Reproduced H agent := by
  intro time
  rw [evaluated]
  by_cases hp : agent.systemPrompt = ""
  · rw [if_pos hp, hp]
  · have hne : agent.systemPrompt.toList ≠ [] := fun hnil => hp (String.toList_eq_nil_iff.mp hnil)
    have hparse : TemplateString.parse agent.systemPrompt =
        .ok ⟨agent.systemPrompt, [.literal agent.systemPrompt]⟩ := by
      rw [TemplateString.parse, parseFrom_plain h, List.nil_append, TemplateString.flush, if_neg hne,
        String.ofList_toList]
      rfl
    rw [if_neg hp, hparse]
    simp [TemplateString.evaluate, promptText, String.join]

/-- What a conversation of the agent is told. -/
def Told (H : Host) (agent : AgentDef) : Deed effects → Prop
  | .effect (.createConversation _ _ options) =>
    ∃ time system, evaluated H agent time = some system ∧ options.systemMessageJson = systemMessage H system
  | _ => True

/-- **A sub-agent is told its prompt evaluated.** -/
theorem told_runAsync {c : RunArgs} (ha : H.workflow.findAgent c.child = some agent) :
    (runAsync H c).Only (Told H agent) := by
  refine only_runAsync (fun e he => ?_) (fun child time system rootId tools hchild he _ => ?_) fun _ _ _ _ _ _ => trivial
  · cases e with
    | createConversation => exact he.elim
    | _ => trivial
  · cases ha.symm.trans hchild
    exact ⟨time, system, he, rfl⟩

/-- An agent at the top level is told the source of its prompt. -/
theorem systemPrompt_of_buildAgentNode {B : AgentNodeBuildSpec} {cfg : AgentNodeConfig}
    (ha : H.workflow.findAgent B.agentName = some agent) (h : buildAgentNode H B = .ok cfg) :
    cfg.systemPrompt = agent.systemPrompt := by
  unfold buildAgentNode at h
  simp only [ha] at h
  split at h
  · cases h
  · split at h
    · cases h
    · cases h
      rfl

/-- The node of any agent can be built. -/
theorem exists_buildAgentNode (ha : H.workflow.findAgent name = some agent) : ∃ B cfg, B.agentName = name ∧
    buildAgentNode H B = .ok cfg := by
  let B : AgentNodeBuildSpec := { agentName := name, backend := some 0, backends := [(agent.model.backend, some 0)] }
  have hbackend : resolveNamedBackend agent.model.backend name (some 0) [(agent.model.backend, some 0)] =
      .ok (some 0) := by
    unfold resolveNamedBackend
    split_ifs
    · rfl
    · simp
  cases hb : buildAgentNode H B with
  | ok cfg => exact ⟨B, cfg, rfl, hb⟩
  | error x =>
    simp [buildAgentNode, B, ha, hbackend] at hb

/-- **When a prompt has one meaning**: evaluating it gives the prompt. -/
theorem oneMeaning_iff_reproduced (ha : H.workflow.findAgent name = some agent) :
    OneMeaning H name agent ↔ Reproduced H agent := by
  constructor
  · intro hone time
    obtain ⟨B, cfg, rfl, hb⟩ := exists_buildAgentNode ha
    rw [hone.top B cfg rfl hb time, systemPrompt_of_buildAgentNode ha hb]
  · intro hr
    have hchild : ∀ c l o, c.child = name → Runs (runAsync H) (runAsync H c) l o →
        ∀ backend agentName options r, .did (.createConversation backend agentName options) r ∈ l →
          ∃ time system, evaluated H agent time = some system ∧ options.systemMessageJson = systemMessage H system := by
      rintro c l o rfl h backend agentName options r hm
      exact h.only (told_runAsync ha) _ hm
    refine ⟨fun B cfg hB hb time => ?_, hchild, fun B cfg c l o hB hb hc h backend agentName options r hm => ?_⟩
    · subst hB
      rw [hr time, systemPrompt_of_buildAgentNode ha hb]
    · subst hB
      obtain ⟨time, system, he, hmessage⟩ := hchild c l o hc h backend agentName options r hm
      rw [hmessage, systemPrompt_of_buildAgentNode ha hb, ← Option.some.inj ((hr time).symm.trans he)]

end

/-! ### Documents -/

/-- A clerk who delegates to an editor with a prompt. -/
def deskDocument (prompt : String) : Value :=
  .obj [("name", .str "desk"), ("main", .str "clerk"), ("agents", .obj [
    ("clerk", .obj [("delegates", .obj [("agents", .arr [.str "editor"]), ("max_depth", .int 2)])]),
    ("editor", .obj [("system_prompt", .str prompt)])])]

def deskLoader : LoaderHost :=
  { studioLoader with
    ordered := .ofTable [("plain.json", deskDocument "You edit texts."),
      ("named.json", deskDocument "You work on {{workflow.name}}."),
      ("bad.json", deskDocument "Answer with \x7b\"text\":\x7b\x7d\x7d.")] }

/-- What is loaded from the document. -/
def desk (prompt : String) : WorkflowSpec where
  schemaVersion := 1
  name := "desk"
  agents := [("clerk", { delegates := some { agents := ["editor"], maxDepth := 2 } }), ("editor", { systemPrompt := prompt })]
  main := "clerk"

theorem templatesSound_iff_named :
    ∃ w, WorkflowLoader.load deskLoader {} "named.json" = .ok w ∧ TemplatesSound w.spec := by
  have hload : WorkflowLoader.load deskLoader {} "named.json" = .ok ⟨desk "You work on {{workflow.name}}.", none⟩ := by
    decide
  have hparse : deskLoader.ordered.parse "named.json" =
      some (deskDocument "You work on {{workflow.name}}.") := by decide
  have hkeyed : ∀ root, deskLoader.ordered.parse "named.json" = some root → root.Keyed := by
    intro root hroot
    cases hparse.symm.trans hroot
    simp [deskDocument, Value.Keyed, membersKeyed, itemsKeyed]
  refine ⟨_, hload, (templatesSound_iff hkeyed).mpr (Or.inr fun root ms name v hroot hms hv => ?_) _ hload⟩
  cases hparse.symm.trans hroot
  cases hms
  have hm := mem_of_lookup hv
  simp only [List.mem_cons, Prod.mk.injEq, List.not_mem_nil, or_false] at hm
  rcases hm with ⟨-, rfl⟩ | ⟨-, rfl⟩
  · exact ⟨⟨"", []⟩, by decide, by simp [TemplateString.paths]⟩
  · exact ⟨⟨"You work on \x7b\x7bworkflow.name\x7d\x7d.", [.literal "You work on ", .path ["workflow", "name"],
      .literal "."]⟩, by decide, by simp [TemplateString.paths]⟩

/-- A prompt that shows some JSON is loaded, and is no template. -/
theorem not_templatesSound :
    ∃ w, WorkflowLoader.load deskLoader {} "bad.json" = .ok w ∧ ¬ TemplatesSound w.spec := by
  have hload : WorkflowLoader.load deskLoader {} "bad.json" =
      .ok ⟨desk "Answer with \x7b\"text\":\x7b\x7d\x7d.", none⟩ := by decide
  have hparse : TemplateString.parse "Answer with \x7b\"text\":\x7b\x7d\x7d." = .error "unmatched '\x7d\x7d'" := by
    decide
  refine ⟨_, hload, fun hs => ?_⟩
  obtain ⟨template, ht, -⟩ := hs.prompts "editor" { systemPrompt := "Answer with \x7b\"text\":\x7b\x7d\x7d." } rfl
  cases hparse.symm.trans ht

def deskHost (prompt : String) : Host := { studioHost with workflow := desk prompt }

theorem oneMeaning_iff_reproduced_plain :
    OneMeaning (deskHost "You edit texts.") "editor" { systemPrompt := "You edit texts." } :=
  (oneMeaning_iff_reproduced rfl).mpr (reproduced_of_plain (by unfold Plain; decide))

/-- At the top level the name is not filled in. -/
theorem not_oneMeaning : ∃ prompt, WorkflowLoader.load deskLoader {} "named.json" = .ok ⟨desk prompt, none⟩ ∧
    ¬ OneMeaning (deskHost prompt) "editor" { systemPrompt := prompt } := by
  refine ⟨"You work on {{workflow.name}}.", by decide, fun hone => ?_⟩
  obtain ⟨B, cfg, hB, hb⟩ := @exists_buildAgentNode (deskHost "You work on {{workflow.name}}.") "editor"
    { systemPrompt := "You work on {{workflow.name}}." } rfl
  have htop := hone.top B cfg hB hb ⟨"", 0, 0⟩
  rw [systemPrompt_of_buildAgentNode (by rw [hB]; rfl) hb] at htop
  exact absurd htop (by decide)

end AgentFlow.Workflow
