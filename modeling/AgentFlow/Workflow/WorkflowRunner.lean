/-
# Building an agent node of a workflow

`agentflow/workflow/{delegate_tool,workflow_runner}.cc` and, of
`nodes/agent_node.cc`, what a node tells its model and how it dispatches a
tool call: the `delegate` tool of an agent at the top level, the configuration
of its node, the tools and the system message it exports, and the coroutine
of one tool call.

Key definitions: `DelegateTool.invoke`, `AgentNodeConfig`, `buildAgentNode`,
`AgentNodeConfig.buildToolsJson`, `AgentNodeConfig.dispatchTool`.
-/
import AgentFlow.Workflow.SubAgentRuntime

namespace AgentFlow.Workflow

open Json

/-! ### The delegate tool -/

/-- The `delegate` tool of `MakeDelegateTool`: whether it has its runtime, and
whether it forwards the deltas of its sub-agents. -/
structure DelegateTool where
  schema : ToolSchema
  parentAgent : String
  ctx : SubAgentContext
  runtime : Bool
  forwards : Bool
  deriving DecidableEq, Repr

/-- `BuildSchema`. -/
def buildSchema (H : Host) (allowed : List String) : String :=
  H.ordered.dump (.obj [("type", .str "object"), ("properties", .obj [
    ("agent", .obj [("type", .str "string"), ("enum", .arr (allowed.map Value.str))]),
    ("goal", .obj [("type", .str "string")])]), ("required", .arr [.str "agent", .str "goal"])])

/-- `MakeDelegateTool`. -/
def makeDelegateTool (H : Host) (runtime : Bool) (parentAgent : String) (allowedChildren : List String)
    (ctx : SubAgentContext) (io topChannel : Bool) : DelegateTool where
  schema := ⟨"delegate", "Hand a sub-task to another agent. The chosen agent runs with clean " ++
    "context and returns a result string.", buildSchema H allowedChildren⟩
  parentAgent := parentAgent
  ctx := ctx
  runtime := runtime
  forwards := io && topChannel

namespace DelegateTool

def noRuntime : String := "\x7b\"error\":\"no_runtime\"\x7d"

/-- The call of `RunAsync`; its deltas are forwarded until it returns. -/
def run (H : Host) (tool : DelegateTool) (agent goal : String) (cancel : CancelToken) : Co String :=
  if tool.forwards then do
    emit .startForwarding
    let result ← callRunAsync
      ⟨tool.parentAgent, agent, goal, { tool.ctx with parentCancel := some cancel, tokenChannel := true }⟩
    emit .endOfStream
    return resultText H result
  else do
    let result ← callRunAsync ⟨tool.parentAgent, agent, goal, { tool.ctx with parentCancel := some cancel }⟩
    return resultText H result

/-- The tool is invoked. The members are read without a check. -/
def invoke (H : Host) (tool : DelegateTool) (args : String) (cancel : CancelToken) : Co String :=
  match H.ordered.parse args with
  | none => return badArgs
  | some v =>
    match v.value "agent" "" with
    | .error e => Coroutine.fail (S := effects) (.std (H.typeError e))
    | .ok agent =>
      match v.value "goal" "" with
      | .error e => Coroutine.fail (S := effects) (.std (H.typeError e))
      | .ok goal => do
        if ← cancel.isCancelled then return cancelledResult
        else if tool.runtime then tool.run H agent goal cancel
        else return noRuntime

end DelegateTool

/-! ### The configuration -/

/-- An inference backend, by number. -/
abbrev Backend := ℕ

/-- `ResolveNamedBackend`. -/
def resolveNamedBackend (backendName requestingAgent : String) (default : Option Backend)
    (backends : List (String × Option Backend)) : Except Thrown (Option Backend) :=
  if backendName = "" then .ok default
  else
    match backends.lookup backendName with
    | some backend => .ok backend
    | none => .error (.agentflow ("agent '" ++ requestingAgent ++ "' requests backend '" ++ backendName ++
        "' which the host did not register"))

structure AgentNodeConfig where
  backend : Option Backend
  ioCtx : Bool
  systemPrompt : String := ""
  toolRegistry : Bool
  toolView : Option InvocationToolView := none
  maxIter : ℕ := 8
  maxOutputTokens : ℤ := 512
  streamTokens : Bool := true
  inputField : String
  outputField : String
  toolNames : List String := []
  extraTools : List DelegateTool := []
  constrainedToolCalls : Bool := false
  tokenChannel : Bool := false
  deriving DecidableEq, Repr

/-- `AgentNodeBuildSpec`, but for the workflow and the host's tools. -/
structure AgentNodeBuildSpec where
  agentName : String
  toolTiers : List (String × ToolTier) := []
  toolGate : Bool := false
  failClosedConfirm : Bool := false
  toolEvent : Bool := false
  backend : Option Backend := none
  backends : List (String × Option Backend) := []
  ioCtx : Bool := false
  inputField : String := "user_query"
  outputField : String := "assistant_reply"
  maxIter : ℕ := 8
  tokenChannel : Bool := false
  deriving DecidableEq, Repr

namespace AgentNodeBuildSpec

/-- What is set before the agent is looked up. -/
def bare (B : AgentNodeBuildSpec) : AgentNodeConfig where
  backend := B.backend
  ioCtx := B.ioCtx
  toolRegistry := true
  inputField := B.inputField
  outputField := B.outputField
  maxIter := B.maxIter
  tokenChannel := B.tokenChannel
  streamTokens := B.tokenChannel

/-- The first tool, in the order of the agents, that asks for a gate. -/
def confirmTool (H : Host) (B : AgentNodeBuildSpec) : Option String :=
  ((H.agentOrder.order H.workflow.agents).flatMap fun b => b.2.tools).find?
    fun name => B.toolTiers.lookup name == some .confirm

/-- The view at the top level. -/
def view (H : Host) (B : AgentNodeBuildSpec) (tools : List String) : InvocationToolView :=
  InvocationToolView.ofDeclared H.registry tools B.toolTiers { caller := B.agentName, event := B.toolEvent }
    B.toolGate

/-- The context of the calls of the `delegate` tool. -/
def subContext (B : AgentNodeBuildSpec) : SubAgentContext :=
  { gate := B.toolGate, toolTiers := B.toolTiers, toolEvent := B.toolEvent }

/-- The `delegate` tool, for an agent that delegates and can. -/
def delegateTools (H : Host) (B : AgentNodeBuildSpec) (agent : AgentDef) (backend : Option Backend) :
    List DelegateTool :=
  match agent.delegates with
  | some d =>
    if backend.isSome ∧ B.ioCtx then
      [makeDelegateTool H true B.agentName d.agents B.subContext B.ioCtx B.tokenChannel]
    else []
  | none => []

end AgentNodeBuildSpec

/-- `BuildAgentNode`. An agent that is not declared leaves the configuration
without a view. -/
def buildAgentNode (H : Host) (B : AgentNodeBuildSpec) : Except Thrown AgentNodeConfig :=
  match H.workflow.findAgent B.agentName with
  | none => .ok B.bare
  | some agent =>
    match resolveNamedBackend agent.model.backend B.agentName B.backend B.backends with
    | .error x => .error x
    | .ok backend =>
      match if B.failClosedConfirm ∧ ¬ B.toolGate then B.confirmTool H else none with
      | some name => .error (.agentflow ("confirm tool requires ToolInvocationGate: " ++ name))
      | none =>
        .ok { B.bare with
          backend := backend
          systemPrompt := agent.systemPrompt
          constrainedToolCalls := agent.model.constrainedToolCalls
          maxOutputTokens :=
            if 0 < agent.model.maxOutputTokens then agent.model.maxOutputTokens else B.bare.maxOutputTokens
          toolNames := agent.tools
          toolView := some (B.view H agent.tools)
          extraTools := B.delegateTools H agent backend }

/-! ### The node -/

namespace ToolRegistry

/-- `ToolRegistry::ExportToolsJson`: all tools if none are named. -/
def exported (H : Host) (names : List String) : Except Thrown (List Value) :=
  if names = [] then (H.registryOrder.order H.registry.tools).mapM fun b =>
    InvocationToolView.schemaEntry H b.2.schema
  else (names.filterMap H.registry.find).mapM fun tool => InvocationToolView.schemaEntry H tool.schema

/-- `ToolRegistry::Invoke`. -/
def invoke (R : ToolRegistry) (name args callId : String) : Co String :=
  match R.find name with
  | none => Coroutine.fail (S := effects) (.agentflow ("Tool not found: " ++ name))
  | some tool => do
    match ← invokeTool tool args callId with
    | .ok result => return result
    | .error x => Coroutine.fail x

end ToolRegistry

namespace AgentNodeConfig

/-- `BuildSystemMessageJson`. -/
def buildSystemMessageJson (H : Host) (cfg : AgentNodeConfig) : String :=
  if cfg.systemPrompt = "" then "" else H.sorted.dump (SubAgentRuntime.textContent cfg.systemPrompt).sort

/-- The tools of the view, or of the registry, as they are exported. -/
def viewed (H : Host) (cfg : AgentNodeConfig) : Except Thrown Value :=
  match cfg.toolView with
  | some view => (view.exportToolsJson H).bind reparse
  | none =>
    if cfg.toolRegistry then
      (ToolRegistry.exported H cfg.toolNames).bind fun entries => reparse (H.sorted.dump (.arr entries))
    else .ok (.arr [])
where
  reparse (text : String) : Except Thrown Value :=
    match H.sorted.parse text with
    | some v => .ok v
    | none => .error (.std (H.parseError text))

/-- One extra tool more; null becomes an array first. -/
def pushBack (H : Host) (v : Value) (tool : DelegateTool) : Except Thrown Value :=
  match InvocationToolView.schemaEntry H tool.schema with
  | .error x => .error x
  | .ok entry =>
    match v with
    | .arr items => .ok (.arr (items ++ [entry]))
    | .null => .ok (.arr [entry])
    | _ => .error (.std (H.typeError (.typeError 308)))

/-- `BuildToolsJson`. -/
def buildToolsJson (H : Host) (cfg : AgentNodeConfig) : Except Thrown String :=
  if cfg.toolRegistry = false ∧ cfg.toolView = none ∧ cfg.extraTools = [] then .ok "[]"
  else do
    let v ← cfg.viewed H
    return H.sorted.dump (← cfg.extraTools.foldlM (pushBack H) v)

/-- A tool call, between its two events. -/
def dispatched (call : Call) (p : Co String) : Co String := do
  emit (.toolCall call.name call.args call.callId)
  let result ← toolResult p
  emit (.toolReturn call.name result call.callId)
  return result

/-- `DispatchTool`: the extra tools come first. -/
def dispatchTool (H : Host) (cfg : AgentNodeConfig) (call : Call) : Co String :=
  match cfg.extraTools.find? fun tool => tool.schema.name == call.name with
  | some tool => dispatched call (tool.invoke H call.args .run)
  | none =>
    match cfg.toolView with
    | some view => dispatched call (view.invoke H call.name call.args call.callId .run)
    | none =>
      if cfg.toolRegistry then dispatched call (H.registry.invoke call.name call.args call.callId) else return ""

end AgentNodeConfig

end AgentFlow.Workflow
