/-
# The tools of one invocation

`agentflow/tools/{gated_tool,invocation_tool_view}.{h,cc}`: an agent's tools
are those of the host that it declares, each behind its tier, the gate and the
token, and the `delegate` tool if it has one (here the one that `RunAsync`
builds for a child). A view is built for one invocation, from what that
invocation was given.

Key definitions: `GatedTool.invoke`, `NestedDelegate.invoke`, `ViewTool`,
`Host`, `InvocationToolView`, `InvocationToolView.invoke`,
`InvocationToolView.exportToolsJson`.
-/
import AgentFlow.Lib.JsonSort
import AgentFlow.Workflow.Effects

namespace AgentFlow.Workflow

open Json

def toolNotAllowed : String := "\x7b\"error\":\"tool_not_allowed\"\x7d"

def cancelledResult : String := "\x7b\"error\":\"cancelled\"\x7d"

def badArgs : String := "\x7b\"error\":\"bad_args\"\x7d"

/-! ### A gated tool -/

structure GatedTool where
  inner : HostTool
  tier : ToolTier
  context : ToolInvocationContext
  gate : Bool
  deriving DecidableEq, Repr

namespace GatedTool

/-- A context without a root takes the call for it. -/
def rooted (g : GatedTool) (callId : String) : ToolInvocationContext :=
  if g.context.rootInvocationId = "" then { g.context with rootInvocationId := callId } else g.context

def event (g : GatedTool) (callId : String) (phase : Phase) : Co Unit :=
  if g.context.event then emit (.toolEvent phase (g.rooted callId) g.inner.schema.name callId) else return ()

/-- The tool itself is invoked. -/
def invokeInner (g : GatedTool) (args callId : String) : Co String := do
  match ← invokeTool g.inner args callId with
  | .ok result => do
    g.event callId .completed
    return result
  | .error x => do
    g.event callId .failed
    Coroutine.fail x

/-- What a rejected call returns; the reason is not escaped. -/
def rejection (decision : ToolGateDecision) : String :=
  "\x7b\"error\":\"" ++ (if decision.reason = "" then "rejected_by_user" else decision.reason) ++ "\"\x7d"

/-- The arguments that an approval leaves. -/
def approvedArgs (decision : ToolGateDecision) (args : String) : String :=
  if decision.approvedArgsJson = "" then args else decision.approvedArgsJson

/-- The gate is asked first. -/
def confirm (g : GatedTool) (args callId : String) (cancel : CancelToken) : Co String := do
  match ← gateDecide g.inner.schema.name args (g.rooted callId) callId with
  | .error x => do
    g.event callId .failed
    Coroutine.fail x
  | .ok decision => do
    if ← cancel.isCancelled then do
      g.event callId .cancelled
      return cancelledResult
    else if decision.approved then g.invokeInner (approvedArgs decision args) callId
    else do
      g.event callId .rejected
      return rejection decision

/-- `GatedTool::Invoke`. -/
def invoke (g : GatedTool) (args callId : String) (cancel : CancelToken) : Co String := do
  g.event callId .requested
  if g.tier = .blocked then do
    g.event callId .blocked
    return toolNotAllowed
  else if ← cancel.isCancelled then do
    g.event callId .cancelled
    return cancelledResult
  else if g.tier = .confirm ∧ g.gate then g.confirm args callId cancel
  else g.invokeInner args callId

end GatedTool

/-! ### The view -/

/-- The `delegate` tool that `RunAsync` builds for a child: who calls, and the
context of the nested run. -/
structure NestedDelegate where
  schema : ToolSchema
  parent : String
  ctx : SubAgentContext
  deriving DecidableEq, Repr

inductive ViewTool
  | gated (g : GatedTool)
  | delegate (d : NestedDelegate)
  deriving DecidableEq, Repr

def ViewTool.schema : ViewTool → ToolSchema
  | gated g => g.inner.schema
  | delegate d => d.schema

/-- What an invocation runs in: the JSON of sorted and of ordered objects, the
texts of their exceptions, the registered tools, the workflow, and the orders
of the hash maps of tools and of agents. -/
structure Host where
  sorted : Codec
  ordered : Codec
  parseError : String → String
  typeError : Json.Error → String
  registry : ToolRegistry
  workflow : WorkflowSpec
  toolOrder : Iteration ViewTool := .byKey
  registryOrder : Iteration HostTool := .byKey
  agentOrder : Iteration AgentDef := .byKey

/-- A result as the text of a tool result. -/
def resultText (H : Host) : Value → String
  | .str s => s
  | v => H.sorted.dump v.sort

/-- The `delegate` tool of a child is invoked. -/
def NestedDelegate.invoke (H : Host) (d : NestedDelegate) (args : String) (cancel : CancelToken) : Co String :=
  match H.ordered.parse args with
  | none => return badArgs
  | some v =>
    match v.stringAt? "agent", v.stringAt? "goal" with
    | some agent, some goal => do
      let result ← callRunAsync ⟨d.parent, agent, goal, { d.ctx with parentCancel := some cancel }⟩
      return resultText H result
    | _, _ => return badArgs

/-- The tools of a view, by name. -/
structure InvocationToolView where
  tools : List (String × ViewTool) := []
  deriving DecidableEq, Repr

namespace InvocationToolView

/-- The tool as this invocation may call it. -/
def gate (tool : HostTool) (tiers : List (String × ToolTier)) (context : ToolInvocationContext) (gated : Bool)
    (name : String) : GatedTool where
  inner := if context.sessionId ≠ "" ∧ tool.mcp then { tool with session := some context.sessionId } else tool
  tier := (tiers.lookup name).getD .readonly
  context := context
  gate := gated

/-- One declared tool more. One that is not registered or is blocked is left
out, and the first of a name stays. -/
def declare (R : ToolRegistry) (tiers : List (String × ToolTier)) (context : ToolInvocationContext) (gated : Bool)
    (view : InvocationToolView) (name : String) : InvocationToolView :=
  match R.find name with
  | none => view
  | some tool =>
    if (gate tool tiers context gated name).tier = .blocked then view
    else if (view.tools.lookup name).isSome then view
    else ⟨OrderedMap.insert name (.gated (gate tool tiers context gated name)) view.tools⟩

/-- The constructor. -/
def ofDeclared (R : ToolRegistry) (declared : List String) (tiers : List (String × ToolTier))
    (context : ToolInvocationContext) (gated : Bool) : InvocationToolView :=
  declared.foldl (declare R tiers context gated) {}

/-- `Add`. -/
def add (view : InvocationToolView) (d : NestedDelegate) : InvocationToolView :=
  ⟨OrderedMap.insert d.schema.name (.delegate d) view.tools⟩

/-- A schema as the model is told of it. -/
def functionEntry (s : ToolSchema) (parameters : Value) : Value :=
  .object [("type", .str "function"), ("function",
    .object [("name", .str s.name), ("description", .str s.description), ("parameters", parameters)])]

def schemaEntry (H : Host) (s : ToolSchema) : Except Thrown Value :=
  match H.sorted.parse s.paramsJsonSchema with
  | some parameters => .ok (functionEntry s parameters)
  | none => .error (.std (H.parseError s.paramsJsonSchema))

/-- The exported schemas, in the order of the map. -/
def exported (H : Host) (view : InvocationToolView) : Except Thrown (List Value) :=
  (H.toolOrder.order view.tools).mapM fun b => schemaEntry H b.2.schema

/-- `ExportToolsJson`. -/
def exportToolsJson (H : Host) (view : InvocationToolView) : Except Thrown String :=
  (view.exported H).map fun entries => H.sorted.dump (.arr entries)

/-- `Invoke`. -/
def invoke (H : Host) (view : InvocationToolView) (name args callId : String) (cancel : CancelToken) : Co String :=
  match view.tools.lookup name with
  | none => return toolNotAllowed
  | some (.gated g) => g.invoke args callId cancel
  | some (.delegate d) => d.invoke H args cancel

end InvocationToolView

end AgentFlow.Workflow
