/-
# What the tools and the sub-agents of a workflow do outside themselves

The coroutines behind a tool call of the model are those of the invocation
view, of the gate, of the `delegate` tool and of `SubAgentRuntime::RunAsync`.
They emit events, poll the token, ask the gate, run host tools and send
messages to models; what the surroundings answer is free. `RunAsync` is the
procedure: the `delegate` tool calls it, and its body may call it again
through the tools of the child.

`agentflow/tools/{tool,gated_tool,tool_registry}.h`, `workflow/sub_agent_context.h`,
`core/event.h`, `core/errors.h`.

Key definitions: `ToolTier`, `ToolRegistry`, `ToolInvocationContext`,
`SubAgentContext`, `Effect`, `RunArgs`, `effects`.
-/
import AgentFlow.Lib.Coroutine
import AgentFlow.Lib.Json
import AgentFlow.Lib.Status
import AgentFlow.Nodes.AgentNode
import AgentFlow.Workflow.Spec
import AgentFlow.Workflow.Template

namespace AgentFlow.Workflow

open Json

/-- What is thrown: an `AgentflowError`, another `std::exception`, or
something else. -/
inductive Thrown
  | agentflow (what : String)
  | std (what : String)
  | other
  deriving DecidableEq, Repr

/-- `what()` of a standard exception. -/
def Thrown.what? : Thrown → Option String
  | agentflow what | std what => some what
  | other => none

/-! ### Tools -/

/-- A tool call of a response, as the loop of a node reads it. -/
abbrev Call := AgentNode.Call

inductive ToolTier
  | readonly
  | confirm
  | blocked
  deriving DecidableEq, Repr

structure ToolSchema where
  name : String
  description : String := ""
  paramsJsonSchema : String := ""
  deriving DecidableEq, Repr

/-- A tool of the host. The tools of a server are told the session they are
called from. -/
structure HostTool where
  schema : ToolSchema
  mcp : Bool := false
  session : Option String := none
  deriving DecidableEq, Repr

/-- The tools that the host has registered, each under its own name. -/
structure ToolRegistry where
  tools : List (String × HostTool)
  named : ∀ name tool, tools.lookup name = some tool → tool.schema.name = name

namespace ToolRegistry

/-- `ToolRegistry::Find`. -/
def find (R : ToolRegistry) (name : String) : Option HostTool := R.tools.lookup name

/-- `ToolRegistry::Has`. -/
def has (R : ToolRegistry) (name : String) : Bool := (R.find name).isSome

def empty : ToolRegistry := ⟨[], fun _ _ h => by cases h⟩

/-- `ToolRegistry::Register`: a tool takes the place of the one of its name. -/
def register (R : ToolRegistry) (tool : HostTool) : ToolRegistry where
  tools := OrderedMap.insert tool.schema.name tool R.tools
  named := fun name tool' h => by
    rw [OrderedMap.lookup_insert] at h
    split_ifs at h with hn
    · cases h
      exact hn.symm
    · exact R.named name tool' h

end ToolRegistry

structure ToolInvocationContext where
  rootInvocationId : String := ""
  caller : String := ""
  delegateDepth : ℕ := 0
  sessionId : String := ""
  /-- There is a callback for the events. -/
  event : Bool := false
  deriving DecidableEq, Repr

structure ToolGateDecision where
  approved : Bool := false
  reason : String := ""
  approvedArgsJson : String := ""
  deriving DecidableEq, Repr

/-- The phases of an invocation of a gated tool. -/
inductive Phase
  | requested
  | blocked
  | cancelled
  | rejected
  | completed
  | failed
  deriving DecidableEq, Repr

/-- The token of a tool call: the one of the run, or one that never fires. -/
inductive CancelToken
  | run
  | unfired
  deriving DecidableEq, Repr

/-! ### Sub-agents -/

/-- `SubAgentContext`; of the gate, of the callback and of the token channel,
whether there is one. -/
structure SubAgentContext where
  depth : ℕ := 0
  rootInvocationId : String := ""
  parentCancel : Option CancelToken := none
  gate : Bool := false
  toolTiers : List (String × ToolTier) := []
  toolEvent : Bool := false
  tokenChannel : Bool := false
  deriving DecidableEq, Repr

/-- The arguments of `RunAsync`. -/
structure RunArgs where
  parent : String
  child : String
  goal : String
  ctx : SubAgentContext
  deriving DecidableEq, Repr

structure ChatConversationOptions where
  systemMessageJson : String := ""
  toolsJson : String := "[]"
  maxOutputTokens : ℤ := 1024
  constrainedToolCalls : Bool := false
  deriving DecidableEq, Repr

/-- The error kinds of `SUB_AGENT_END`. -/
inductive ErrorKind
  | unknownAgent
  | maxDepthExceeded
  | badTemplate
  | unknownBackend
  | engineError
  | cancelled
  deriving DecidableEq, Repr

def ErrorKind.text : ErrorKind → String
  | unknownAgent => "unknown_agent"
  | maxDepthExceeded => "max_depth_exceeded"
  | badTemplate => "bad_template"
  | unknownBackend => "unknown_backend"
  | engineError => "engine_error"
  | cancelled => "cancelled"

inductive Effect
  /-- `GenUuidLike`. -/
  | uuid
  /-- The clock, which a template may read. -/
  | now
  | subAgentStart (parent child id root : String) (depth : ℕ) (goal : String)
  | subAgentEnd (id : String) (depth : ℕ) (success : Bool) (errorKind : String) (resultBytes : ℕ)
  | subAgentExtractFailed (id extract : String)
  | toolEvent (phase : Phase) (context : ToolInvocationContext) (tool callId : String)
  | toolCall (name args callId : String)
  | toolReturn (name result callId : String)
  /-- `CancelToken::IsCancelled`. -/
  | isCancelled
  /-- The conversation factory is called. -/
  | createConversation (backend agent : String) (options : ChatConversationOptions)
  /-- A turn of the conversation; its deltas are forwarded or not. -/
  | send (message : String) (forwarded : Bool)
  /-- `ToolInvocationGate::Decide`. -/
  | decide (tool args : String) (context : ToolInvocationContext) (callId : String)
  /-- A tool of the host is invoked. -/
  | invoke (tool : HostTool) (args callId : String)
  /-- The forwarding coroutine of a `delegate` call starts, and is told the end. -/
  | startForwarding
  | endOfStream
  /-- A failed check ends the process. -/
  | abort
  deriving DecidableEq, Repr

/-- What the surroundings may answer. A conversation that could not be
created is no conversation; a turn ends with a status, a response or an
exception. -/
@[reducible]
def Answer : Effect → Type
  | .uuid => String
  | .now => Now
  | .isCancelled => Bool
  | .createConversation .. => Except Thrown Bool
  | .send .. => Except Thrown (Except Status.Error String)
  | .decide .. => Except Thrown ToolGateDecision
  | .invoke .. => Except Thrown String
  | .abort => Empty
  | _ => Unit

/-- `RunAsync` is the procedure, and it returns a JSON value. -/
@[reducible]
def effects : Signature where
  Effect := Effect
  Answer := Answer
  Exception := Thrown
  Proc := RunArgs
  Result := Value

/-- A coroutine of the workflow. -/
abbrev Co (α : Type) := Coroutine effects α

abbrev Hist := History effects

/-- An effect, of which the surroundings give the answer. -/
def perform (e : Effect) : Co (Answer e) := Coroutine.perform (S := effects) e

def uuid : Co String := perform .uuid

def now : Co Now := perform .now

def createConversation (backend agent : String) (options : ChatConversationOptions) : Co (Except Thrown Bool) :=
  perform (.createConversation backend agent options)

def send (message : String) (forwarded : Bool) : Co (Except Thrown (Except Status.Error String)) :=
  perform (.send message forwarded)

def gateDecide (tool args : String) (context : ToolInvocationContext) (callId : String) :
    Co (Except Thrown ToolGateDecision) :=
  perform (.decide tool args context callId)

def invokeTool (tool : HostTool) (args callId : String) : Co (Except Thrown String) :=
  perform (.invoke tool args callId)

/-- An event is emitted, or something else that has no answer. -/
def emit (e : Effect) : Co Unit := Coroutine.await (S := effects) e fun _ => Coroutine.ret ()

def poll : Co Bool := perform .isCancelled

/-- The token is polled; the one that never fires needs no answer. -/
def CancelToken.isCancelled : CancelToken → Co Bool
  | run => poll
  | unfired => return false

/-- `SubAgentRuntime::RunAsync` is called. -/
def callRunAsync (c : RunArgs) : Co Value := Coroutine.invoke (S := effects) c

/-- A standard exception becomes the result, and any other goes on. -/
def toolResult (p : Co String) : Co String := do
  match ← p.attempt with
  | .ok result => return result
  | .error x =>
    match x.what? with
    | some what => return "Tool error: " ++ what
    | none => Coroutine.fail x

end AgentFlow.Workflow
