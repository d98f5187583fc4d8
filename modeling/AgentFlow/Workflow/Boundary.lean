/-
# The tool boundary

An agent of a workflow, at the top level or reached by delegating, invokes the
host tools that it declares and no others: each is registered, is not blocked,
was asked for by the model of that agent, and, where its tier asks for the
gate and there is one, was approved by the gate just before. The context of
every call of `RunAsync` carries the tiers and the gate of the run
(`contract`), so the boundary holds at each depth.

Key definitions: `Declared`, `Permitted`, `ExportsOnly`, `Boundary`.
Key theorems: `wp_runAsync_boundary`, `tool_boundary`.
-/
import AgentFlow.Workflow.ToolCalls
import AgentFlow.Workflow.WorkflowRunner

namespace AgentFlow.Workflow

open Json
open Coroutine (wp wp_bind wp_mono wp_attempt afterwards)

/-- The last response of the model asks for the call. -/
def AskedFor (H : Host) (h : Hist) (call : Call) : Prop :=
  ∃ response calls, (responses h).getLast? = some response ∧ SubAgentRuntime.asked H.ordered response = some calls ∧
    call ∈ calls

/-- The tool is one of the agent's, it is registered, and it is not blocked. -/
def Declared (H : Host) (tiers : List (String × ToolTier)) (agentName : String) (tool : HostTool) : Prop :=
  ∃ agent, H.workflow.findAgent agentName = some agent ∧ tool.schema.name ∈ agent.tools ∧
    H.registry.find tool.schema.name = some tool ∧ tiers.lookup tool.schema.name ≠ some .blocked

/-- The last thing done, but for polls of the token, is that the gate approved
the call with these arguments. -/
def Approved (h : Hist) (agentName tool submitted args callId : String) : Prop :=
  ∃ u context decision polls, h = u ++ .did (.decide tool submitted context callId)
      (.ok decision : Except Thrown ToolGateDecision) :: polls ∧
    Polls polls ∧ context.caller = agentName ∧ decision.approved = true ∧
    args = if decision.approvedArgsJson = "" then submitted else decision.approvedArgsJson

/-- The agent may invoke the tool: the model emitted the call, and the
arguments are its own, or those that the gate approved. -/
def Permitted (H : Host) (tiers : List (String × ToolTier)) (gate : Bool) (agentName : String)
    (emitted : Hist → Call → Prop) (h : Hist) (tool : HostTool) (args callId : String) : Prop :=
  Declared H tiers agentName tool ∧ ∃ submitted, emitted h ⟨tool.schema.name, callId, submitted⟩ ∧
    if tiers.lookup tool.schema.name = some .confirm ∧ gate = true then
      Approved h agentName tool.schema.name submitted args callId
    else args = submitted

/-- The schema of the agent's `delegate` tool: the one of a node, or of a
sub-agent. -/
def DelegateSchema (H : Host) (agentName : String) (s : ToolSchema) : Prop :=
  ∃ agent d, H.workflow.findAgent agentName = some agent ∧ agent.delegates = some d ∧
    ((∃ c rootId, s = (SubAgentRuntime.nestedDelegate H c d rootId).schema) ∨
      ∃ runtime parent ctx io topChannel,
        s = (makeDelegateTool H runtime parent d.agents ctx io topChannel).schema)

/-- The exported tools are declared ones, and the `delegate` tool. -/
def ExportsOnly (H : Host) (tiers : List (String × ToolTier)) (agentName text : String) : Prop :=
  text = "[]" ∨ ∃ entries, text = H.sorted.dump (.arr entries) ∧ ∀ e ∈ entries, ∃ s parameters,
    e = InvocationToolView.functionEntry s parameters ∧
      ((∃ tool, Declared H tiers agentName tool ∧ tool.schema = s) ∨ DelegateSchema H agentName s)

/-- What an agent may do after what it did. -/
def Boundary (H : Host) (tiers : List (String × ToolTier)) (gate : Bool) (agentName : String)
    (emitted : Hist → Call → Prop) (h : Hist) : Deed effects → Prop
  | .effect (.invoke tool args callId) => Permitted H tiers gate agentName emitted h tool args callId
  | .effect (.createConversation _ _ options) => ExportsOnly H tiers agentName options.toolsJson
  | _ => True

/-! ### Views -/

/-- The members of a view are declared tools behind their tiers. -/
def ViewOf (R : ToolRegistry) (declared : List String) (tiers : List (String × ToolTier))
    (context : ToolInvocationContext) (gated : Bool) (b : String × ViewTool) : Prop :=
  ∃ tool, b.2 = .gated (InvocationToolView.gate tool tiers context gated b.1) ∧ R.find b.1 = some tool ∧
    b.1 ∈ declared ∧ (tiers.lookup b.1).getD .readonly ≠ .blocked

section

variable {R : ToolRegistry} {declared : List String} {tiers : List (String × ToolTier)}
  {context : ToolInvocationContext} {gated : Bool}

theorem mem_declare {view : InvocationToolView} {name : String} {b : String × ViewTool} (hn : name ∈ declared)
    (hb : b ∈ (InvocationToolView.declare R tiers context gated view name).tools) :
    b ∈ view.tools ∨ ViewOf R declared tiers context gated b := by
  unfold InvocationToolView.declare at hb
  split at hb
  · exact Or.inl hb
  · next tool htool =>
    split_ifs at hb with hblocked hsome
    · exact Or.inl hb
    · exact Or.inl hb
    · rcases OrderedMap.mem_insert hb with rfl | hb
      · exact Or.inr ⟨tool, rfl, htool, hn, hblocked⟩
      · exact Or.inl hb

theorem mem_ofDeclared {b : String × ViewTool}
    (hb : b ∈ (InvocationToolView.ofDeclared R declared tiers context gated).tools) :
    ViewOf R declared tiers context gated b := by
  have key : ∀ (names : List String) (view : InvocationToolView), (∀ name ∈ names, name ∈ declared) →
      (∀ b ∈ view.tools, ViewOf R declared tiers context gated b) →
      ∀ b ∈ (names.foldl (InvocationToolView.declare R tiers context gated) view).tools,
        ViewOf R declared tiers context gated b := by
    intro names
    induction names with
    | nil => exact fun view _ hv => hv
    | cons name names ih =>
      intro view hn hv
      refine ih _ (fun n hm => hn n (List.mem_cons_of_mem _ hm)) fun b hb => ?_
      rcases mem_declare (hn name List.mem_cons_self) hb with hb | hb
      · exact hv b hb
      · exact hb
  exact key declared {} (fun _ hn => hn) (by simp) b hb

theorem mem_of_lookup {α : Type} {m : List (String × α)} {name : String} {a : α} (h : m.lookup name = some a) :
    (name, a) ∈ m := by
  obtain ⟨l, r, rfl, -⟩ := List.lookup_eq_some_iff.mp h
  simp

end

/-- A member of the view of a sub-agent is a declared tool or its `delegate`
tool. -/
theorem mem_toolView {H : Host} {c : RunArgs} {child : AgentDef} {rootId : String} {b : String × ViewTool}
    (hb : b ∈ (SubAgentRuntime.toolView H c child rootId).tools) :
    ViewOf H.registry child.tools c.ctx.toolTiers (SubAgentRuntime.toolContext c rootId) c.ctx.gate b ∨
      ∃ d, child.delegates = some d ∧ b = ("delegate", .delegate (SubAgentRuntime.nestedDelegate H c d rootId)) := by
  unfold SubAgentRuntime.toolView at hb
  split at hb
  · exact Or.inl (mem_ofDeclared hb)
  · next d hd =>
    rcases OrderedMap.mem_insert hb with hb | hb
    · exact Or.inr ⟨d, hd, hb⟩
    · exact Or.inl (mem_ofDeclared hb)

section

variable {H : Host} {tiers : List (String × ToolTier)} {gate : Bool} {agentName : String} {agent : AgentDef}
  {context : ToolInvocationContext}

/-- A context without a session leaves the tool as it is registered. -/
theorem gate_inner {tool : HostTool} {name : String} (hs : context.sessionId = "") :
    (InvocationToolView.gate tool tiers context gate name).inner = tool := by
  simp [InvocationToolView.gate, hs]

/-- A gated tool of the view is a declared one, under its own name. -/
theorem ViewOf.declared {b : String × ViewTool} (ha : H.workflow.findAgent agentName = some agent)
    (hb : ViewOf H.registry agent.tools tiers context gate b) :
    ∃ tool, b.2 = .gated (InvocationToolView.gate tool tiers context gate b.1) ∧ tool.schema.name = b.1 ∧
      Declared H tiers agentName tool := by
  obtain ⟨tool, hb2, hfind, hmem, htier⟩ := hb
  have hname := H.registry.named _ _ hfind
  refine ⟨tool, hb2, hname, agent, ha, ?_, ?_, ?_⟩
  · rwa [hname]
  · rwa [hname]
  · rw [hname]
    intro hblocked
    rw [hblocked] at htier
    exact htier rfl

/-- What is granted to a gated tool of the view is permitted. -/
theorem Permitted.of_grants {emitted : Hist → Call → Prop} {g : GatedTool} {name args callId args' : String}
    {h l : Hist} (ha : H.workflow.findAgent agentName = some agent) (hs : context.sessionId = "")
    (hcaller : context.caller = agentName)
    (hb : ViewOf H.registry agent.tools tiers context gate (name, .gated g))
    (hem : emitted (h ++ l) ⟨name, callId, args⟩) (hg : g.Grants args callId args' l) :
    Permitted H tiers gate agentName emitted (h ++ l) g.inner args' callId := by
  obtain ⟨tool, hb2, hname, hdecl⟩ := hb.declared ha
  obtain rfl : g = InvocationToolView.gate tool tiers context gate name := by simpa using hb2
  rw [gate_inner hs]
  have hname : tool.schema.name = name := hname
  refine ⟨hdecl, args, by rwa [hname], ?_⟩
  rw [hname]
  have htier : (InvocationToolView.gate tool tiers context gate name).tier = .confirm ∧
      (InvocationToolView.gate tool tiers context gate name).gate = true ↔
        tiers.lookup name = some .confirm ∧ gate = true := by
    simp only [InvocationToolView.gate]
    cases tiers.lookup name <;> simp
  obtain ⟨-, hg⟩ := hg
  by_cases hc : tiers.lookup name = some .confirm ∧ gate = true
  · rw [if_pos (htier.mpr hc)] at hg
    rw [if_pos hc]
    obtain ⟨u, decision, polls, rfl, hp, happroved, rfl⟩ := hg
    refine ⟨h ++ u, (InvocationToolView.gate tool tiers context gate name).rooted callId, decision, polls, ?_, hp,
      ?_, happroved, rfl⟩
    · rw [gate_inner hs, hname, List.append_assoc]
    · unfold GatedTool.rooted
      split_ifs <;> exact hcaller
  · rw [if_neg (mt htier.mp hc)] at hg
    rwa [if_neg hc]

theorem mem_of_mapM {α β : Type} {f : α → Except Thrown β} : ∀ {xs : List α} {ys : List β}, xs.mapM f = .ok ys →
    ∀ y ∈ ys, ∃ x ∈ xs, f x = .ok y
  | [], ys, h, y, hy => by
    cases h
    cases hy
  | x :: xs, ys, h, y, hy => by
    rw [List.mapM_cons] at h
    cases hx : f x with
    | error e => rw [hx] at h; cases h
    | ok y' =>
      cases hxs : xs.mapM f with
      | error e => rw [hx, hxs] at h; cases h
      | ok ys' =>
        rw [hx, hxs] at h
        cases h
        rcases List.mem_cons.mp hy with rfl | hy
        · exact ⟨x, List.mem_cons_self, hx⟩
        · obtain ⟨x', hx', hfx⟩ := mem_of_mapM hxs y hy
          exact ⟨x', List.mem_cons_of_mem _ hx', hfx⟩

theorem schemaEntry_eq {s : ToolSchema} {e : Value} (h : InvocationToolView.schemaEntry H s = .ok e) :
    ∃ parameters, e = InvocationToolView.functionEntry s parameters := by
  unfold InvocationToolView.schemaEntry at h
  split at h
  · cases h
    exact ⟨_, rfl⟩
  · cases h

theorem exported_of_exportToolsJson {view : InvocationToolView} {text : String}
    (h : view.exportToolsJson H = .ok text) :
    ∃ entries, view.exported H = .ok entries ∧ text = H.sorted.dump (.arr entries) := by
  unfold InvocationToolView.exportToolsJson at h
  cases hx : view.exported H with
  | error x => rw [hx] at h; cases h
  | ok entries => rw [hx] at h; cases h; exact ⟨entries, rfl, rfl⟩

/-- An exported entry is that of a tool of the view. -/
theorem mem_exported {view : InvocationToolView} {entries : List Value} (h : view.exported H = .ok entries) {e : Value}
    (he : e ∈ entries) : ∃ b ∈ view.tools, ∃ parameters, e = InvocationToolView.functionEntry b.2.schema parameters := by
  obtain ⟨b, hb, hbe⟩ := mem_of_mapM h e he
  exact ⟨b, H.toolOrder.mem_order.mp hb, schemaEntry_eq hbe⟩

end

/-! ### Sub-agents -/

/-- Every call carries the tiers and the gate of the run. -/
def contract (H : Host) (tiers : List (String × ToolTier)) (gate : Bool) : Contract effects where
  calls c := c.ctx.toolTiers = tiers ∧ c.ctx.gate = gate
  allows c := Boundary H tiers gate c.child (AskedFor H)
  gives _ _ _ := True

section

variable {H : Host} {tiers : List (String × ToolTier)} {gate : Bool} {agentName : String}
  {emitted : Hist → Call → Prop} {h : Hist} {c : RunArgs} {child : AgentDef}

theorem boundary_of_asks {a : Deed effects} (ha : Asks a) : Boundary H tiers gate agentName emitted h a := by
  cases a with
  | effect e => cases e <;> trivial
  | call c => trivial

theorem calls_nested {rootId agent goal : String} {d : DelegateSpec} {cancel : CancelToken}
    (hc : (contract H tiers gate).calls c) : (contract H tiers gate).calls
      ⟨(SubAgentRuntime.nestedDelegate H c d rootId).parent, agent, goal,
        { (SubAgentRuntime.nestedDelegate H c d rootId).ctx with parentCancel := some cancel }⟩ := hc

/-- A tool call of a sub-agent stays within the boundary. -/
theorem wp_callTools_boundary {rootId response : String} {cancel : CancelToken} {calls : List Call}
    {Q : Hist → Except Thrown (List (Call × String)) → Prop} (hc : (contract H tiers gate).calls c)
    (hchild : H.workflow.findAgent c.child = some child) (hlast : (responses h).getLast? = some response)
    (hasked : SubAgentRuntime.asked H.ordered response = some calls)
    (hQ : ∀ l r, ToolItems (contract H tiers gate) l → Q (h ++ l) r) :
    (SubAgentRuntime.callTools H (SubAgentRuntime.toolView H c child rootId) cancel calls).wp (contract H tiers gate)
      (Boundary H tiers gate c.child (AskedFor H)) Q h := by
  have key : (SubAgentRuntime.callTools H (SubAgentRuntime.toolView H c child rootId) cancel calls).wp
      (contract H tiers gate) (Boundary H tiers gate c.child (AskedFor H)) Q (h ++ []) := by
    refine SubAgentRuntime.wp_callTools (fun l a _ ha => boundary_of_asks ha) (fun name d hd l agent goal _ => ?_)
      calls toolItems_nil (fun call hcall g hg l l' args' hl hl' hgr => ?_) fun l r hl _ _ => ?_
    · -- the only such tool is the one that carries the context on
      rcases mem_toolView (mem_of_lookup hd) with ⟨tool, hb, -⟩ | ⟨spec, -, hb⟩
      · cases hb
      · obtain ⟨-, hb⟩ := Prod.mk.inj hb
        cases hb
        exact ⟨trivial, calls_nested hc⟩
    · rcases mem_toolView (mem_of_lookup hg) with hb | ⟨spec, -, hb⟩
      · obtain ⟨rfl, rfl⟩ := hc
        refine Permitted.of_grants hchild rfl rfl hb ⟨response, calls, ?_, hasked, hcall⟩ hgr
        rw [responses_append, responses_append, hl.responses, hl'.responses, List.append_nil, List.append_nil, hlast]
      · obtain ⟨-, hb⟩ := Prod.mk.inj hb
        cases hb
    · rw [List.append_nil]
      exact hQ l r hl
  rwa [List.append_nil] at key

theorem wp_turns_boundary {rootId : String} (hc : (contract H tiers gate).calls c)
    (hchild : H.workflow.findAgent c.child = some child) :
    ∀ (n : ℕ) (message raw : String) (h : Hist) {Q : Hist → Except Thrown (Except ErrorKind String) → Prop},
      (∀ h r, Q h r) → (SubAgentRuntime.turns H (SubAgentRuntime.toolView H c child rootId) c.ctx n message raw).wp
        (contract H tiers gate) (Boundary H tiers gate c.child (AskedFor H)) Q h
  | 0, message, raw, h, Q, hQ => hQ _ _
  | n + 1, message, raw, h, Q, hQ => by
    refine SubAgentRuntime.wp_turns_succ trivial (fun _ _ => hQ _ _) (fun _ _ => trivial) (fun _ _ _ => hQ _ _)
      (fun _ _ _ => hQ _ _) (fun _ _ _ _ => hQ _ _) fun l response calls hl hasked => ?_
    rw [wp_bind]
    refine wp_callTools_boundary hc hchild ?_ hasked fun l' r hl' => ?_
    · rw [responses_append]
      simp [responses, response?]
    · cases r with
      | error x => exact hQ _ _
      | ok results => exact wp_turns_boundary hc hchild n _ _ _ hQ

/-- What a sub-agent tells its model of. -/
theorem exportsOnly_toolView {rootId system tools : String} (hchild : H.workflow.findAgent c.child = some child)
    (hx : (SubAgentRuntime.toolView H c child rootId).exportToolsJson H = .ok tools) :
    ExportsOnly H c.ctx.toolTiers c.child (SubAgentRuntime.conversationOptions H child system tools).toolsJson := by
  unfold SubAgentRuntime.conversationOptions
  dsimp only
  by_cases ht : tools = ""
  · rw [if_pos ht]
    exact Or.inl rfl
  · rw [if_neg ht]
    obtain ⟨entries, hentries, rfl⟩ := exported_of_exportToolsJson hx
    refine Or.inr ⟨entries, rfl, fun e he => ?_⟩
    obtain ⟨b, hb, parameters, rfl⟩ := mem_exported hentries he
    refine ⟨b.2.schema, parameters, rfl, ?_⟩
    rcases mem_toolView hb with hb | ⟨d, hd, rfl⟩
    · obtain ⟨tool, hb2, -, hdecl⟩ := hb.declared hchild
      refine Or.inl ⟨tool, hdecl, ?_⟩
      rw [hb2]
      exact congrArg HostTool.schema (gate_inner rfl).symm
    · exact Or.inr ⟨child, d, hchild, hd, Or.inl ⟨c, rootId, rfl⟩⟩

theorem wp_endWith_boundary {id : String} {kind : ErrorKind} {more : List (String × Value)}
    {Q : Hist → Except Thrown Value → Prop} (hQ : ∀ h r, Q h r) :
    (SubAgentRuntime.endWith id c kind more).wp (contract H tiers gate)
      (Boundary H tiers gate agentName emitted) Q h :=
  ⟨trivial, fun _ => hQ _ _⟩

theorem wp_finish_boundary {d : DelegateSpec} {id raw : String} {Q : Hist → Except Thrown Value → Prop}
    (hQ : ∀ h r, Q h r) : (SubAgentRuntime.finish H d id c raw).wp (contract H tiers gate)
      (Boundary H tiers gate agentName emitted) Q h := by
  unfold SubAgentRuntime.finish
  cases SubAgentRuntime.extracted H.ordered (SubAgentRuntime.extractPath d) raw with
  | some text => exact ⟨trivial, fun _ => hQ _ _⟩
  | none => exact ⟨trivial, fun _ => ⟨trivial, fun _ => hQ _ _⟩⟩

theorem wp_start_boundary {d : DelegateSpec} {id rootId system : String} {Q : Hist → Except Thrown Value → Prop}
    (hc : (contract H tiers gate).calls c) (hchild : H.workflow.findAgent c.child = some child) (hQ : ∀ h r, Q h r) :
    (SubAgentRuntime.start H d id rootId c child system).wp (contract H tiers gate)
      (Boundary H tiers gate c.child (AskedFor H)) Q h := by
  unfold SubAgentRuntime.start
  cases hx : (SubAgentRuntime.toolView H c child rootId).exportToolsJson H with
  | error x => exact hQ _ _
  | ok tools =>
    refine ⟨?_, fun r => ?_⟩
    · have hexports : ExportsOnly H c.ctx.toolTiers c.child
          (SubAgentRuntime.conversationOptions H child system tools).toolsJson := exportsOnly_toolView hchild hx
      rwa [hc.1] at hexports
    · rcases r with (what | what) | created
      · exact wp_endWith_boundary hQ
      · exact hQ _ _
      · exact hQ _ _
      cases created with
      | false => exact wp_endWith_boundary hQ
      | true =>
        simp only [Coroutine.bind, SubAgentRuntime.converse]
        rw [wp_bind]
        refine wp_turns_boundary hc hchild _ _ _ _ fun h r => ?_
        rcases r with x | kind | raw
        · exact hQ _ _
        · exact wp_endWith_boundary hQ
        · exact wp_finish_boundary hQ

/-- **A sub-agent stays within the boundary**, if the calls it makes do. -/
theorem wp_runAsync_boundary (hc : (contract H tiers gate).calls c) :
    (SubAgentRuntime.runAsync H c).wp (contract H tiers gate) ((contract H tiers gate).allows c)
      ((contract H tiers gate).gives c) [] := by
  refine ⟨trivial, fun id => ?_⟩
  simp only [Coroutine.bind]
  cases SubAgentRuntime.admission H.workflow c with
  | unknownAgent => exact ⟨trivial, fun _ => trivial⟩
  | maxDepthExceeded => exact ⟨trivial, fun _ => ⟨trivial, fun _ => trivial⟩⟩
  | admitted d =>
    refine ⟨trivial, fun _ => ?_⟩
    simp only [Coroutine.bind, SubAgentRuntime.proceed]
    cases hchild : H.workflow.findAgent c.child with
    | none => exact ⟨trivial, fun a => a.elim⟩
    | some child =>
      simp only [SubAgentRuntime.systemText]
      split_ifs
      · exact wp_start_boundary hc hchild fun _ _ => trivial
      · cases TemplateString.parse child.systemPrompt with
        | error e => exact wp_endWith_boundary fun _ _ => trivial
        | ok template => exact ⟨trivial, fun time => wp_start_boundary hc hchild fun _ _ => trivial⟩

end

/-! ### Nodes -/

section

variable {H : Host} {B : AgentNodeBuildSpec} {agent : AgentDef} {cfg : AgentNodeConfig}

/-- What is built for an agent of the workflow. -/
theorem buildAgentNode_eq (ha : H.workflow.findAgent B.agentName = some agent) (hb : buildAgentNode H B = .ok cfg) :
    cfg.toolView = some (B.view H agent.tools) ∧ (∃ backend, cfg.extraTools = B.delegateTools H agent backend) ∧
      (B.failClosedConfirm = true → B.toolGate = false → B.confirmTool H = none) := by
  unfold buildAgentNode at hb
  simp only [ha] at hb
  split at hb
  · cases hb
  · next backend _ =>
    split at hb
    · cases hb
    · next hc =>
      cases hb
      refine ⟨rfl, ⟨backend, rfl⟩, fun hf hg => ?_⟩
      rwa [if_pos ⟨hf, by simp [hg]⟩] at hc

theorem mem_delegateTools {backend : Option Backend} {tool : DelegateTool}
    (ht : tool ∈ B.delegateTools H agent backend) : ∃ d, agent.delegates = some d ∧
      tool = makeDelegateTool H true B.agentName d.agents B.subContext B.ioCtx B.tokenChannel := by
  unfold AgentNodeBuildSpec.delegateTools at ht
  split at ht
  · next d hd =>
    split_ifs at ht
    · exact ⟨d, hd, List.mem_singleton.mp ht⟩
    · cases ht
  · cases ht

/-- A confirm tool of any agent is found. -/
theorem confirmTool_ne_none {b : String × AgentDef} {name : String} (hb : b ∈ H.workflow.agents) (hn : name ∈ b.2.tools)
    (ht : B.toolTiers.lookup name = some .confirm) : B.confirmTool H ≠ none := by
  intro hnone
  have hall := List.find?_eq_none.mp hnone name
    (List.mem_flatMap.mpr ⟨b, H.agentOrder.mem_order.mpr hb, hn⟩)
  simp [ht] at hall

theorem wp_delegate_boundary {tool : DelegateTool} {args : String} {emitted : Hist → Call → Prop} {h : Hist}
    {Q : Hist → Except Thrown String → Prop} (htiers : tool.ctx.toolTiers = B.toolTiers)
    (hgate : tool.ctx.gate = B.toolGate) (hQ : ∀ h r, Q h r) :
    (tool.invoke H args .run).wp (contract H B.toolTiers B.toolGate)
      (Boundary H B.toolTiers B.toolGate B.agentName emitted) Q h := by
  unfold DelegateTool.invoke
  cases H.ordered.parse args with
  | none => exact hQ _ _
  | some v =>
    simp only
    cases v.value "agent" "" with
    | error e => exact hQ _ _
    | ok agent =>
      simp only
      cases v.value "goal" "" with
      | error e => exact hQ _ _
      | ok goal =>
        simp only
        refine CancelToken.wp_isCancelled trivial fun l b _ => ?_
        split_ifs
        · exact hQ _ _
        · unfold DelegateTool.run
          split_ifs
          · refine ⟨trivial, fun _ => ⟨trivial, ⟨htiers, hgate⟩, fun sub r _ => ?_⟩⟩
            cases r with
            | ok v => exact ⟨trivial, fun _ => hQ _ _⟩
            | error x => exact hQ _ _
          · exact wp_callRunAsync trivial ⟨htiers, hgate⟩ fun _ _ _ _ => hQ _ _
        · exact hQ _ _

theorem wp_dispatched_boundary {call : Call} {p : Co String} {K : Contract effects} {tiers : List (String × ToolTier)}
    {gate : Bool} {agentName : String} {emitted : Hist → Call → Prop} {h : Hist}
    (hp : ∀ h, p.wp K (Boundary H tiers gate agentName emitted) (fun _ _ => True) h) :
    (AgentNodeConfig.dispatched call p).wp K (Boundary H tiers gate agentName emitted) (fun _ _ => True) h := by
  refine ⟨trivial, fun _ => ?_⟩
  simp only [Coroutine.bind]
  rw [wp_bind, toolResult, wp_bind, wp_attempt]
  refine wp_mono (fun h' r _ => ?_) (hp _)
  cases r with
  | ok result => exact ⟨trivial, fun _ => trivial⟩
  | error x =>
    simp only [afterwards]
    cases x.what? with
    | none => trivial
    | some what => exact ⟨trivial, fun _ => trivial⟩

/-- A tool call of a node stays within the boundary. -/
theorem wp_dispatchTool_boundary (ha : H.workflow.findAgent B.agentName = some agent)
    (hb : buildAgentNode H B = .ok cfg) (call : Call) :
    (cfg.dispatchTool H call).wp (contract H B.toolTiers B.toolGate)
      (Boundary H B.toolTiers B.toolGate B.agentName fun _ emitted => emitted = call) (fun _ _ => True) [] := by
  obtain ⟨hview, ⟨backend, hextra⟩, -⟩ := buildAgentNode_eq ha hb
  unfold AgentNodeConfig.dispatchTool
  split
  · next tool htool =>
    have hmem : tool ∈ B.delegateTools H agent backend := hextra ▸ List.mem_of_find?_eq_some htool
    obtain ⟨d, -, rfl⟩ := mem_delegateTools hmem
    exact wp_dispatched_boundary fun h => wp_delegate_boundary rfl rfl fun _ _ => trivial
  · rw [hview]
    refine wp_dispatched_boundary fun h => ?_
    refine InvocationToolView.wp_invoke (fun l a _ ha => boundary_of_asks ha) (fun g hg l args' hl hgr => ?_)
      (fun d hd => ?_) fun _ _ _ _ => trivial
    · have hpermitted : Permitted H B.toolTiers B.toolGate B.agentName (fun _ emitted => emitted = call) (h ++ l)
          g.inner args' call.callId :=
        Permitted.of_grants ha rfl rfl (mem_ofDeclared (mem_of_lookup hg)) rfl hgr
      exact hpermitted
    · obtain ⟨tool, hb2, -⟩ := mem_ofDeclared (mem_of_lookup hd)
      cases hb2

theorem wf_functionEntry {s : ToolSchema} {parameters : Value} (hp : parameters.WF) :
    (InvocationToolView.functionEntry s parameters).WF := by
  refine wf_object fun b hb => ?_
  rcases List.mem_cons.mp hb with rfl | hb
  · trivial
  rcases List.mem_singleton.mp hb with rfl
  refine wf_object fun b hb => ?_
  simp only [List.mem_cons, List.not_mem_nil, or_false] at hb
  rcases hb with rfl | rfl | rfl
  · trivial
  · trivial
  · exact hp

theorem foldlM_pushBack : ∀ {tools : List DelegateTool} {items : List Value} {v : Value},
    tools.foldlM (AgentNodeConfig.pushBack H) (.arr items) = .ok v → ∃ more, v = .arr (items ++ more) ∧
      ∀ e ∈ more, ∃ tool ∈ tools, ∃ parameters, e = InvocationToolView.functionEntry tool.schema parameters
  | [], items, v, h => by
    cases h
    exact ⟨[], by simp, by simp⟩
  | tool :: tools, items, v, h => by
    rw [List.foldlM_cons] at h
    cases hx : InvocationToolView.schemaEntry H tool.schema with
    | error x =>
      simp only [AgentNodeConfig.pushBack, hx] at h
      cases h
    | ok entry =>
      simp only [AgentNodeConfig.pushBack, hx] at h
      have hrest : tools.foldlM (AgentNodeConfig.pushBack H) (.arr (items ++ [entry])) = .ok v := h
      obtain ⟨more, rfl, hmore⟩ := foldlM_pushBack hrest
      obtain ⟨parameters, rfl⟩ := schemaEntry_eq hx
      refine ⟨InvocationToolView.functionEntry tool.schema parameters :: more, by simp, fun e he => ?_⟩
      rcases List.mem_cons.mp he with rfl | he
      · exact ⟨tool, List.mem_cons_self, parameters, rfl⟩
      · obtain ⟨tool', ht, hp⟩ := hmore e he
        exact ⟨tool', List.mem_cons_of_mem _ ht, hp⟩

/-- The exported tools of a view, read again. -/
theorem viewed_eq (hsound : H.sorted.Sound) (hparsed : ∀ text v, H.sorted.parse text = some v → v.WF)
    {view : InvocationToolView} (hview : cfg.toolView = some view) {v : Value} (hv : cfg.viewed H = .ok v) :
    ∃ entries, view.exported H = .ok entries ∧ v = .arr entries := by
  unfold AgentNodeConfig.viewed at hv
  simp only [hview] at hv
  cases hx : view.exportToolsJson H with
  | error x => rw [hx] at hv; cases hv
  | ok text =>
    rw [hx] at hv
    obtain ⟨entries, hentries, rfl⟩ := exported_of_exportToolsJson hx
    refine ⟨entries, hentries, ?_⟩
    simp only [Except.bind, AgentNodeConfig.viewed.reparse] at hv
    split at hv
    · next w hw =>
      cases hv
      refine hsound _ _ ?_ hw
      refine itemsWF_iff.mpr fun e he => ?_
      obtain ⟨b, -, hbe⟩ := mem_of_mapM hentries e he
      unfold InvocationToolView.schemaEntry at hbe
      split at hbe
      · next parameters hp =>
        cases hbe
        exact wf_functionEntry (hparsed _ _ hp)
      · cases hbe
    · cases hv

/-- What a node tells its model of. -/
theorem exportsOnly_buildToolsJson (hsound : H.sorted.Sound) (hparsed : ∀ text v, H.sorted.parse text = some v → v.WF)
    (ha : H.workflow.findAgent B.agentName = some agent) (hb : buildAgentNode H B = .ok cfg) {text : String}
    (ht : cfg.buildToolsJson H = .ok text) : ExportsOnly H B.toolTiers B.agentName text := by
  obtain ⟨hview, ⟨backend, hextra⟩, -⟩ := buildAgentNode_eq ha hb
  unfold AgentNodeConfig.buildToolsJson at ht
  rw [if_neg (by simp [hview])] at ht
  cases hv : cfg.viewed H with
  | error x => rw [hv] at ht; cases ht
  | ok v =>
    obtain ⟨entries, hentries, rfl⟩ := viewed_eq hsound hparsed hview hv
    cases hw : cfg.extraTools.foldlM (AgentNodeConfig.pushBack H) (.arr entries) with
    | error x =>
      rw [hv] at ht
      change (cfg.extraTools.foldlM (AgentNodeConfig.pushBack H) (.arr entries) >>= _) = _ at ht
      rw [hw] at ht
      cases ht
    | ok w =>
      rw [hv] at ht
      change (cfg.extraTools.foldlM (AgentNodeConfig.pushBack H) (.arr entries) >>= _) = _ at ht
      rw [hw] at ht
      cases ht
      obtain ⟨more, rfl, hmore⟩ := foldlM_pushBack hw
      refine Or.inr ⟨entries ++ more, rfl, fun e he => ?_⟩
      rcases List.mem_append.mp he with he | he
      · obtain ⟨b, hb, parameters, rfl⟩ := mem_exported hentries he
        obtain ⟨tool, hb2, -, hdecl⟩ := (mem_ofDeclared hb).declared ha
        refine ⟨b.2.schema, parameters, rfl, Or.inl ⟨tool, hdecl, ?_⟩⟩
        rw [hb2]
        exact congrArg HostTool.schema (gate_inner rfl).symm
      · obtain ⟨tool, htool, parameters, rfl⟩ := hmore e he
        obtain ⟨d, hd, rfl⟩ := mem_delegateTools (hextra ▸ htool)
        exact ⟨_, parameters, rfl, Or.inr ⟨agent, d, ha, hd, Or.inr ⟨_, _, _, _, _, rfl⟩⟩⟩

/-- **The tool boundary.** A node that is built for an agent of the workflow
tells its model of the agent's tools only, and it and every sub-agent below
it invoke a host tool only if that agent declares it, it is registered and
not blocked, its model asked for the call, and the gate approved it if its
tier is to be confirmed and there is a gate. Without a gate no node is built
that is to fail closed, if any agent declares such a tool. -/
theorem tool_boundary (hsound : H.sorted.Sound) (hparsed : ∀ text v, H.sorted.parse text = some v → v.WF)
    (ha : H.workflow.findAgent B.agentName = some agent) :
    (∀ cfg, buildAgentNode H B = .ok cfg →
      (∀ text, cfg.buildToolsJson H = .ok text → ExportsOnly H B.toolTiers B.agentName text) ∧
      ∀ call l o, Runs (SubAgentRuntime.runAsync H) (cfg.dispatchTool H call) l o →
        Own (Boundary H B.toolTiers B.toolGate B.agentName fun _ emitted => emitted = call) [] l ∧
        ∀ c sub, Within l c sub → Own (Boundary H B.toolTiers B.toolGate c.child (AskedFor H)) [] sub) ∧
    (B.failClosedConfirm = true → B.toolGate = false →
      (∃ b ∈ H.workflow.agents, ∃ name ∈ b.2.tools, B.toolTiers.lookup name = some .confirm) →
      ∀ cfg, buildAgentNode H B ≠ .ok cfg) := by
  refine ⟨fun cfg hb => ⟨fun text ht => exportsOnly_buildToolsJson hsound hparsed ha hb ht, ?_⟩, ?_⟩
  · intro call l o hr
    obtain ⟨hown, -, hin⟩ := hr.sound (fun c hc => wp_runAsync_boundary hc) (wp_dispatchTool_boundary ha hb call)
    exact ⟨hown, fun c sub hw => (hin c sub hw).2⟩
  · rintro hf hg ⟨b, hbm, name, hn, ht⟩ cfg hb
    exact confirmTool_ne_none hbm hn ht ((buildAgentNode_eq ha hb).2.2 hf hg)

end

/-! ### A run -/

/-- A planner that delegates to a worker, whose only tool is to be confirmed. -/
def office : WorkflowSpec where
  agents := [("planner", { delegates := some { agents := ["worker"], maxDepth := 2 } }),
    ("worker", { tools := ["delete_file"] })]
  main := "planner"

def officeTexts : List (String × Value) :=
  [("hand over", .obj [("agent", .str "worker"), ("goal", .str "tidy up")]),
    ("tidy up?", SubAgentRuntime.userMessage "tidy up"),
    ("delete it", .obj [("tool_calls", .arr [.obj [("name", .str "delete_file"), ("id", .str "call-1"),
      ("arguments", .str "all files")]])])]

def officeHost : Host where
  sorted := .ofTable [("schema", .obj [])]
  ordered := .ofTable officeTexts
  parseError := fun _ => "parse error"
  typeError := fun _ => "type error"
  registry := ToolRegistry.empty.register { schema := { name := "delete_file", paramsJsonSchema := "schema" } }
  workflow := office

def officeSpec : AgentNodeBuildSpec where
  agentName := "planner"
  toolTiers := [("delete_file", .confirm)]
  toolGate := true
  backend := some 0
  ioCtx := true

/-- The worker asks to delete all files, and the gate approves one. -/
def officeAnswer (_ : ℕ) : (e : Effect) → Option (Answer e)
  | .uuid => some "id"
  | .isCancelled => some false
  | .createConversation .. => some (.ok true)
  | .send message _ => some (.ok (.ok (if message = "tidy up?" then "delete it" else "done")))
  | .decide .. => some (.ok { approved := true, approvedArgsJson := "one file" })
  | .invoke .. => some (.ok "deleted")
  | .now => none
  | .abort => none
  | .subAgentStart .. | .subAgentEnd .. | .subAgentExtractFailed .. | .toolEvent .. | .toolCall .. | .toolReturn ..
  | .startForwarding | .endOfStream => some ()

/-- The invocations of host tools in a history, with their arguments. -/
def invocations (h : Hist) : List (String × String) :=
  h.filterMap fun
    | .did (.invoke tool args _) _ => some (tool.schema.name, args)
    | _ => none

def calls (h : Hist) : List (RunArgs × Hist) :=
  h.filterMap fun
    | .entered c sub _ => some (c, sub)
    | _ => none

theorem within_of_mem_calls {h : Hist} {c : RunArgs} {sub : Hist} (hm : (c, sub) ∈ calls h) : Within h c sub := by
  obtain ⟨i, hi, hc⟩ := List.mem_filterMap.mp hm
  split at hc
  · cases hc
    exact .here hi
  · cases hc

/-- The planner's node. -/
def officeNode : AgentNodeConfig :=
  { officeSpec.bare with
    toolView := some {}
    extraTools := [makeDelegateTool officeHost true "planner" ["worker"] officeSpec.subContext true false] }

theorem officeHost_parsed (text : String) (v : Value) (h : officeHost.sorted.parse text = some v) : v.WF := by
  have hm := mem_of_lookup h
  simp only [List.mem_singleton, Prod.mk.injEq] at hm
  rw [hm.2]
  exact ⟨OrderedMap.sorted_nil, trivial⟩

theorem tool_boundary_office : ∃ l o c sub, buildAgentNode officeHost officeSpec = .ok officeNode ∧
    Runs (SubAgentRuntime.runAsync officeHost) (officeNode.dispatchTool officeHost ⟨"delegate", "call-0", "hand over"⟩)
      l o ∧ Within l c sub ∧ c.child = "worker" ∧ invocations sub = [("delete_file", "one file")] ∧
    Own (Boundary officeHost officeSpec.toolTiers officeSpec.toolGate c.child (AskedFor officeHost)) [] sub := by
  have hb : buildAgentNode officeHost officeSpec = .ok officeNode := rfl
  have hr := Coroutine.runs_replay (SubAgentRuntime.runAsync officeHost) officeAnswer 40 0
    (officeNode.dispatchTool officeHost ⟨"delegate", "call-0", "hand over"⟩)
  have hcalls : (calls (Coroutine.replay (SubAgentRuntime.runAsync officeHost) officeAnswer 40 0
      (officeNode.dispatchTool officeHost ⟨"delegate", "call-0", "hand over"⟩)).1).map
        (fun p => (p.1.child, invocations p.2)) = [("worker", [("delete_file", "one file")])] := by decide +kernel
  obtain ⟨p, hp, hchild⟩ := List.mem_map.mp (hcalls ▸ List.mem_singleton_self _)
  have hw := within_of_mem_calls hp
  have ha : officeHost.workflow.findAgent officeSpec.agentName = some _ := rfl
  have hbound := ((tool_boundary (Codec.sound_ofTable (by decide) (by decide)) officeHost_parsed ha).1 officeNode hb).2
    _ _ _ hr
  exact ⟨_, _, p.1, p.2, hb, hr, hw, congrArg Prod.fst hchild, congrArg Prod.snd hchild, hbound.2 _ _ hw⟩

end AgentFlow.Workflow
