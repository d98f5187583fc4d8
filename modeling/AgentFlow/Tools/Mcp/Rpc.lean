/-
# JSON-RPC, as an MCP client speaks it

The messages the client sends, what it makes of an answer, and what its three
calls return: `Connect`, `ListTools` and `CallTool`. An answer is whatever
JSON the server sent. The client reads it with accesses that throw on a
member of the wrong type, so a call may also end in a thrown type error.

Key definitions: `Message`, `rpcResult`, `notification?`, `Purpose.request`,
`Purpose.outcome`.
-/
import AgentFlow.Lib.Json
import AgentFlow.Lib.Status
import AgentFlow.Lib.Requests

namespace AgentFlow
namespace Mcp

open Json Json.Value

def kJsonRpc : String := "2.0"
def kProtocolVersion : String := "2025-03-26"
def kClientName : String := "agentflow"
def kClientVersion : String := "0.1.0"

inductive Method
  | init
  | initialized
  | toolsList
  | toolsCall
  | cancelled
  deriving DecidableEq, Repr

def Method.name : Method → String
  | .init => "initialize"
  | .initialized => "notifications/initialized"
  | .toolsList => "tools/list"
  | .toolsCall => "tools/call"
  | .cancelled => "notifications/cancelled"

/-- A request, or a notification, which has no id. -/
structure Message where
  id : Option ℕ
  method : Method
  params : Value
  deriving DecidableEq

def Message.isRequest (m : Message) : Bool := m.id.isSome

def Message.toJson (m : Message) : Value :=
  object ([("jsonrpc", str kJsonRpc)]
    ++ (m.id.map fun id => ("id", Value.int id)).toList
    ++ [("method", str m.method.name), ("params", m.params)])

def initParams : Value :=
  object [("protocolVersion", str kProtocolVersion), ("capabilities", object []),
    ("clientInfo", object [("name", str kClientName), ("version", str kClientVersion)])]

def initializedNotification : Message := ⟨none, .initialized, object []⟩

def cancelledNotification (id : ℕ) : Message :=
  ⟨none, .cancelled, object [("requestId", int id), ("reason", str "client cancelled")]⟩

/-- The parser and printer of JSON, with the parser's message for a text that
is not JSON. -/
structure Client where
  codec : Codec
  parseError : String → String

/-- What `SendRequest` makes of the answer: the result, or the error status
of the server's error member. -/
def rpcResult (payload : Value) : Except Json.Error (Except Status.Error Value) :=
  match payload.find? "error" with
  | some err => do
    let code ← err.intValue "code" (-1)
    let message ← err.value "message" ""
    .ok (.error ⟨.internal, "MCP error " ++ toString code ++ ": " ++ message⟩)
  | none => if payload.isObject then .ok (.ok ((payload.find? "result").getD (object []))) else .error (.typeError 306)

/-- The errors a channel ends a receive with. -/
inductive ErrorCode
  | operationAborted
  | channelClosed
  deriving DecidableEq, Repr

def ErrorCode.message : ErrorCode → String
  | .operationAborted => "Operation canceled"
  | .channelClosed => "Channel closed"

/-- What a receive on the channel completes with; it goes on waiting while
there is nothing in the channel. -/
def receive : Requests.Slot Value → Option (Except ErrorCode Value)
  | .waiting => none
  | .delivered v => some (.ok v)
  | .closed => some (.error .channelClosed)

/-- The end of `SendRequest`, after the receive. -/
def answer : Except ErrorCode Value → Except Json.Error (Except Status.Error Value)
  | .error .operationAborted => .ok (.error ⟨.cancelled, "MCP call cancelled"⟩)
  | .error ec => .ok (.error ⟨.unavailable, "MCP transport error: " ++ ec.message⟩)
  | .ok payload => rpcResult payload

/-- The method and the parameters of an inbound notification that is
forwarded. -/
def notification? (cl : Client) (msg : Value) : Option (String × String) :=
  match msg.stringAt? "method", (msg.find? "params").bind obj? with
  | some method, some ps =>
    let params := cl.codec.dump (obj ps)
    if method ≠ "" ∧ method.utf8ByteSize ≤ 256 ∧ params.utf8ByteSize ≤ 8192 then some (method, params) else none
  | _, _ => none

structure ToolSchema where
  name : String
  description : String
  paramsJsonSchema : String
  deriving DecidableEq, Repr

/-- The printed input schema, or the empty object if there is none. -/
def inputSchema (cl : Client) (tool : Value) : String :=
  match tool.find? "inputSchema" with
  | some (.obj ms) => cl.codec.dump (obj ms)
  | _ => "\x7b\x7d"

def toolSchemaFromMcp (cl : Client) (tool : Value) : Except Json.Error ToolSchema := do
  let name ← tool.value "name" ""
  let description ← tool.value "description" ""
  .ok ⟨name, description, inputSchema cl tool⟩

/-- What a call is for. -/
inductive Purpose
  | connect
  | listTools
  | callTool (name argsJson : String)
  deriving DecidableEq, Repr

def Purpose.isCallTool : Purpose → Bool
  | .callTool _ _ => true
  | _ => false

/-- What a call returns: the status OK of `Connect`, the tools, the text of a
result, a status that is not OK, or a thrown type error. -/
inductive Outcome
  | connected
  | tools (schemas : List ToolSchema)
  | text (result : String)
  | failed (e : Status.Error)
  | thrown (e : Json.Error)
  deriving DecidableEq

/-- The arguments of a tool call, from their text. -/
def arguments (cl : Client) (argsJson : String) : Except Status.Error Value :=
  if argsJson = "" then .ok (object [])
  else
    match cl.codec.parse argsJson with
    | some v => .ok v
    | none => .error ⟨.invalidArgument, "args_json parse error: " ++ cl.parseError argsJson⟩

/-- The request a call makes once the client is connected. `Connect` makes
none. -/
def Purpose.request (cl : Client) : Purpose → Except Status.Error (Option (Method × Value))
  | .connect => .ok none
  | .listTools => .ok (some (.toolsList, object []))
  | .callTool name argsJson => do
    let args ← arguments cl argsJson
    .ok (some (.toolsCall, object [("name", str name), ("arguments", args)]))

/-- The listed tools; a result without an array of them lists none. -/
def listedTools (cl : Client) (result : Value) : Except Json.Error (List ToolSchema) :=
  match result.arrayAt? "tools" with
  | some ts => ts.mapM (toolSchemaFromMcp cl)
  | none => .ok []

/-- What a call returns when its request has this result. -/
def Purpose.returns (cl : Client) (p : Purpose) (result : Value) : Outcome :=
  match p with
  | .connect => .connected
  | .listTools =>
    match listedTools cl result with
    | .ok ts => .tools ts
    | .error e => .thrown e
  | .callTool _ _ => .text (cl.codec.dump result)

/-- What a call returns when its request is answered so. -/
def Purpose.outcome (cl : Client) (p : Purpose) : Except Json.Error (Except Status.Error Value) → Outcome
  | .error e => .thrown e
  | .ok (.error e) => .failed e
  | .ok (.ok result) => p.returns cl result

inductive ConnState
  | idle
  | connecting
  | ready
  | broken
  deriving DecidableEq, Repr

end Mcp
end AgentFlow
