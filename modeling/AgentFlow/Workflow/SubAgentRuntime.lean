/-
# Running a sub-agent

`agentflow/workflow/sub_agent_runtime.{h,cc}`: `RunAsync` checks the call
against the roster and the depth of its parent, prepares the child's prompt,
tools and conversation, takes up to eight turns with the model, running the
tools that each response asks for one after the other, and extracts the
answer. The child's tools may hold a `delegate` tool, which calls `RunAsync`
again.

Key definitions: `SubAgentRuntime.admission`, `SubAgentRuntime.toolView`,
`SubAgentRuntime.turns`, `SubAgentRuntime.runAsync`.
-/
import AgentFlow.Nodes.AgentNode
import AgentFlow.Tools.InvocationToolView
import AgentFlow.Workflow.JsonPath

namespace AgentFlow.Workflow

open Json
open AgentNode (argsText)

namespace SubAgentRuntime

/-- `NestedDelegateSchema`. -/
def nestedDelegateSchema (H : Host) (allowed : List String) : String :=
  H.ordered.dump (.obj [("type", .str "object"), ("properties", .obj [
    ("agent", .obj [("type", .str "string"), ("enum", .arr (allowed.map Value.str))]),
    ("goal", .obj [("type", .str "string")])]), ("required", .arr [.str "agent", .str "goal"])])

/-! ### The checks -/

/-- What the checks of a call come to. -/
inductive Admission
  | unknownAgent
  | maxDepthExceeded
  /-- The call goes on, for a parent that delegates so. -/
  | admitted (d : DelegateSpec)
  deriving DecidableEq, Repr

/-- The parent delegates, its depth is not used up, and the child is in its
roster: in this order. -/
def admission (spec : WorkflowSpec) (c : RunArgs) : Admission :=
  match (spec.findAgent c.parent).bind AgentDef.delegates with
  | none => .unknownAgent
  | some d =>
    if d.maxDepth ≤ c.ctx.depth then .maxDepthExceeded
    else if c.child ∈ d.agents then .admitted d
    else .unknownAgent

/-- The span ends with an error, which is the result. -/
def endWith (id : String) (c : RunArgs) (kind : ErrorKind) (more : List (String × Value)) : Co Value := do
  emit (.subAgentEnd id c.ctx.depth false kind.text 0)
  return .obj (("error", .str kind.text) :: more)

/-! ### The preparation -/

def textContent (text : String) : Value := .arr [.obj [("type", .str "text"), ("text", .str text)]]

/-- The child's prompt, evaluated; nothing if it does not parse. -/
def systemText (H : Host) (child : AgentDef) : Co (Option String) :=
  if child.systemPrompt = "" then return some ""
  else
    match TemplateString.parse child.systemPrompt with
    | .error _ => return none
    | .ok template => do
      let time ← now
      return some (promptText H.ordered (template.evaluate H.ordered
        { workflowName := H.workflow.name, workflowVersion := H.workflow.version, now := time }))

/-- The context of the `delegate` tool of the child. -/
def nestedContext (ctx : SubAgentContext) (rootId : String) : SubAgentContext :=
  { ctx with depth := (ctx.depth + 1) % 2 ^ 32, rootInvocationId := rootId }

def toolContext (c : RunArgs) (rootId : String) : ToolInvocationContext where
  rootInvocationId := rootId
  caller := c.child
  delegateDepth := c.ctx.depth
  event := c.ctx.toolEvent

/-- The `delegate` tool of the child. -/
def nestedDelegate (H : Host) (c : RunArgs) (d : DelegateSpec) (rootId : String) : NestedDelegate where
  schema := ⟨"delegate", "Hand a sub-task to another agent.", nestedDelegateSchema H d.agents⟩
  parent := c.child
  ctx := nestedContext c.ctx rootId

/-- The tools that the child may call. -/
def toolView (H : Host) (c : RunArgs) (child : AgentDef) (rootId : String) : InvocationToolView :=
  let view := InvocationToolView.ofDeclared H.registry child.tools c.ctx.toolTiers (toolContext c rootId) c.ctx.gate
  match child.delegates with
  | none => view
  | some d => view.add (nestedDelegate H c d rootId)

def conversationOptions (H : Host) (child : AgentDef) (system tools : String) : ChatConversationOptions where
  systemMessageJson := if system = "" then "" else H.ordered.dump (textContent system)
  toolsJson := if tools = "" then "[]" else tools
  maxOutputTokens := if 0 < child.model.maxOutputTokens then child.model.maxOutputTokens else 512
  constrainedToolCalls := child.model.constrainedToolCalls

/-! ### The turns -/

/-- An entry of `tool_calls`, as the loop of a sub-agent reads it. -/
def readCall (O : Codec) (tc : Value) : Call where
  name :=
    match tc.stringAt? "name" with
    | some name => name
    | none =>
      match tc.find? "function" with
      | some (.obj fn) => ((Value.obj fn).stringAt? "name").getD ""
      | _ => ""
  callId := (tc.stringAt? "id").getD ""
  args :=
    match tc.find? "arguments" with
    | some args => argsText O args
    | none =>
      match tc.find? "function" with
      | some (.obj fn) => (((Value.obj fn).find? "arguments").map (argsText O)).getD ""
      | _ => ""

/-- The calls that a response asks for, if it asks for any. A response that
is no JSON asks for none. -/
def asked (O : Codec) (response : String) : Option (List Call) :=
  match (O.parse response).bind (·.arrayAt? "tool_calls") with
  | some (tc :: tcs) => some (((tc :: tcs).filter Value.isObject).map (readCall O))
  | _ => none

/-- The calls, one after the other. -/
def callTools (H : Host) (view : InvocationToolView) (cancel : CancelToken) : List Call → Co (List (Call × String))
  | [] => return []
  | call :: calls => do
    let result ← toolResult (view.invoke H call.name call.args call.callId cancel)
    let results ← callTools H view cancel calls
    return (call, result) :: results

def toolEntry (call : Call) (result : String) : Value :=
  .obj ([("name", .str call.name), ("response", .obj [("value", .str result)])] ++
    if call.callId = "" then [] else [("id", .str call.callId)])

def toolMessage (results : List (Call × String)) : Value :=
  .obj [("role", .str "tool"), ("content", .arr (results.map fun r => toolEntry r.1 r.2))]

def userMessage (goal : String) : Value := .obj [("role", .str "user"), ("content", textContent goal)]

/-- The parent's token is polled, if there is one. -/
def cancelled (ctx : SubAgentContext) : Co Bool :=
  match ctx.parentCancel with
  | some cancel => cancel.isCancelled
  | none => return false

/-- The token of the tool calls. -/
def cancelRef (ctx : SubAgentContext) : CancelToken := ctx.parentCancel.getD .unfired

def kSubAgentMaxIter : ℕ := 8

/-- The turns that are left, the next message and the last response: the
response that ends the loop, or the error that does. A loop that has used up
its turns ends with the last response too. -/
def turns (H : Host) (view : InvocationToolView) (ctx : SubAgentContext) : ℕ → String → String →
    Co (Except ErrorKind String)
  | 0, _, raw => return .ok raw
  | n + 1, message, _ => do
    if ← cancelled ctx then return .error .cancelled
    else
      match ← send message ctx.tokenChannel with
      | .error x => Coroutine.fail x
      | .ok (.error _) => return .error .engineError
      | .ok (.ok response) =>
        match asked H.ordered response with
        | none => return .ok response
        | some calls => do
          let results ← callTools H view (cancelRef ctx) calls
          turns H view ctx n (H.sorted.dump (toolMessage results).sort) response

/-! ### The result -/

def extractPath (d : DelegateSpec) : String := if d.outputExtract = "" then "$.content[0].text" else d.outputExtract

/-- The string that the path leads to in the response; nothing if it leads
to none. A path or a response that does not parse leads to the response. -/
def extracted (O : Codec) (path raw : String) : Option String :=
  match JsonPath.parse path with
  | .error _ => some raw
  | .ok p =>
    match O.parse raw with
    | none => some raw
    | some root => (p.resolve root).bind Value.str?

/-- The span ends with the extracted answer, which is the result. -/
def finish (H : Host) (d : DelegateSpec) (id : String) (c : RunArgs) (raw : String) : Co Value :=
  match extracted H.ordered (extractPath d) raw with
  | some text => succeed text
  | none => do
    emit (.subAgentExtractFailed id (extractPath d))
    succeed raw
where
  succeed (text : String) : Co Value := do
    emit (.subAgentEnd id c.ctx.depth true "" (text.utf8ByteSize % 2 ^ 32))
    return .str text

/-- The turns, once there is a conversation. -/
def converse (H : Host) (d : DelegateSpec) (id : String) (c : RunArgs) (view : InvocationToolView) : Co Value := do
  match ← turns H view c.ctx kSubAgentMaxIter (H.ordered.dump (userMessage c.goal)) "" with
  | .error kind => endWith id c kind []
  | .ok raw => finish H d id c raw

/-- The child's tools and its conversation. -/
def start (H : Host) (d : DelegateSpec) (id rootId : String) (c : RunArgs) (child : AgentDef) (system : String) :
    Co Value :=
  match (toolView H c child rootId).exportToolsJson H with
  | .error x => Coroutine.fail x
  | .ok tools => do
    match ← createConversation child.model.backend c.child (conversationOptions H child system tools) with
    | .error (.agentflow _) => endWith id c .unknownBackend [("backend", .str child.model.backend)]
    | .error x => Coroutine.fail x
    | .ok false => endWith id c .engineError []
    | .ok true => converse H d id c (toolView H c child rootId)

/-- A call that has passed its checks. The look-up of the child is one that
may not fail. -/
def proceed (H : Host) (d : DelegateSpec) (id rootId : String) (c : RunArgs) : Co Value :=
  match H.workflow.findAgent c.child with
  | none => Coroutine.await (S := effects) .abort Empty.elim
  | some child => do
    match ← systemText H child with
    | none => endWith id c .badTemplate []
    | some system => start H d id rootId c child system

def rootOf (c : RunArgs) (id : String) : String := if c.ctx.depth = 0 then id else c.ctx.rootInvocationId

/-- `RunAsync`. A call of an agent that is not known has no start event. -/
def runAsync (H : Host) (c : RunArgs) : Co Value := do
  let id ← uuid
  match admission H.workflow c with
  | .unknownAgent => endWith id c .unknownAgent []
  | .maxDepthExceeded => do
    emit (.subAgentStart c.parent c.child id (rootOf c id) c.ctx.depth c.goal)
    endWith id c .maxDepthExceeded [("depth", .int c.ctx.depth)]
  | .admitted d => do
    emit (.subAgentStart c.parent c.child id (rootOf c id) c.ctx.depth c.goal)
    proceed H d id (rootOf c id) c

end SubAgentRuntime

end AgentFlow.Workflow
