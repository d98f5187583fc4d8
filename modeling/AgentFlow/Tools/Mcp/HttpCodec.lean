/-
# MCP over HTTP: headers and bodies

What one POST of the client carries and what the client makes of the answer:
mcp_http_codec.cc, and the pure parts of `PostRpc`. Header names are compared
without regard to case. The answer to a request is the last message of the
body that has the request's id; messages without an id are notifications, and
the others are dropped.

Key definitions: `buildMcpHttpHeaders`, `sessionIdFromHeaders`,
`decodeMcpHttpMessages`, `postHeaders`, `rpcAnswer`.
-/
import AgentFlow.Net.Sse
import AgentFlow.Tools.Mcp.Rpc

namespace AgentFlow
namespace Mcp
namespace Http

open Json Json.Value

abbrev Headers := List (String × String)

/-- What came before the body. The status is 0 if nothing came. -/
structure ResponseHead where
  statusCode : ℤ := 0
  headers : Headers := []
  deriving DecidableEq

/-- The string with its ASCII letters in lower case. -/
def toLower (s : String) : String := String.ofList (s.toList.map Char.toLower)

def headerValue (headers : Headers) (name : String) : String :=
  match headers.find? fun h => toLower h.1 = toLower name with
  | some h => h.2
  | none => ""

def buildMcpHttpHeaders (sessionId : String) : Headers :=
  [("Content-Type", "application/json"), ("Accept", "application/json, text/event-stream")] ++
    if sessionId = "" then [] else [("Mcp-Session-Id", sessionId)]

/-- The session a response assigned, or the empty string. -/
def sessionIdFromHeaders (headers : Headers) : String := headerValue headers "mcp-session-id"

def isSuccess (statusCode : ℤ) : Bool := 200 ≤ statusCode && statusCode < 300

/-- The parsed payloads, as long as each is an object. -/
def objects (cl : Client) : List String → Option (List Value)
  | [] => some []
  | payload :: payloads =>
    match cl.codec.parse payload with
    | some (.obj ms) => (objects cl payloads).map (.obj ms :: ·)
    | _ => none

/-- All JSON-RPC messages of a body. -/
def decodeMcpHttpMessages (cl : Client) (statusCode : ℤ) (headers : Headers) (body : String) :
    Except Status.Error (List Value) :=
  if !isSuccess statusCode then .error ⟨.internal, "MCP HTTP " ++ toString statusCode⟩
  else if body = "" then .ok []
  else
    let payloads :=
      if (Net.find "text/event-stream".toList (toLower (headerValue headers "content-type")).toList).isSome then
        (Net.SseFramer.feed {} body.toList).2.map String.ofList
      else [body]
    if payloads = [] then .error ⟨.invalidArgument, "MCP HTTP: no complete JSON-RPC message"⟩
    else
      match objects cl payloads with
      | some messages => .ok messages
      | none => .error ⟨.invalidArgument, "MCP HTTP: JSON-RPC payload is not an object"⟩

/-! ### The request -/

/-- Sets the header to the value, where a name that differs only by case is
the same name; the first of them is the one that is set. -/
def setHeader (headers : Headers) (name value : String) : Headers :=
  match headers.findIdx? fun h => toLower h.1 = toLower name with
  | some i => headers.modify i fun h => (h.1, value)
  | none => headers ++ [(name, value)]

/-- The headers of a POST: those of the protocol, then those of the server's
configuration, which override them. `metadata` is added to a `tools/call` that
was made for a chat session. -/
def postHeaders (sessionId : String) (configured metadata : Headers) : Headers :=
  (configured.foldl (fun hs h => setHeader hs h.1 h.2) (buildMcpHttpHeaders sessionId)) ++ metadata

/-- The trusted metadata of a tool call. -/
def callMetadata (m : Method) (contextSession : String) (token : Option String) : Headers :=
  if m = .toolsCall ∧ contextSession ≠ "" then
    [("X-Zen-Chat-Session-Id", contextSession)] ++
      match token with
      | some tok => if tok = "" then [] else [("X-Zen-Metadata-Token", tok)]
      | none => []
  else []

/-- The headers of the notification stream: the session and what is accepted
are not configurable. -/
def streamHeaders (sessionId : String) (configured : Headers) (lastEventId : String) : Headers :=
  ((configured.foldl (fun hs h => setHeader hs h.1 h.2) (buildMcpHttpHeaders sessionId)).map fun h =>
      (h.1, if toLower h.1 = "mcp-session-id" then sessionId
        else if toLower h.1 = "accept" then "text/event-stream" else h.2)) ++
    if lastEventId = "" then [] else [("Last-Event-ID", lastEventId)]

/-! ### The answer -/

/-- The floating-point number has no fraction. -/
def isWhole (bits : BitVec 64) : Bool :=
  let e := (bits.extractLsb' 52 11).toNat
  1023 ≤ e && e < 2047 && (2 ^ 52 + (bits.extractLsb' 0 52).toNat) % 2 ^ (1075 - e) = 0

/-- Whether a JSON value equals the request id. Numbers of either kind do when
they have its value; ids start from 1. -/
def isRequestId (id : ℕ) : Value → Bool
  | .int i => i = id
  | .float bits => isWhole bits && truncate bits = id
  | _ => false

def isNotification (msg : Value) : Bool := (msg.find? "id").getD .null = .null

/-- The message that answers the request `id`. -/
def response? (id : ℕ) (messages : List Value) : Option Value :=
  (messages.filter fun msg => (msg.find? "id").any (isRequestId id)).getLast?

/-- What `PostRpc` makes of the messages: the result, or the error status it
returns. -/
def rpcAnswer (cl : Client) (id : ℕ) (messages : List Value) : Except Json.Error (Except Status.Error Value) :=
  match response? id messages with
  | none =>
    .ok (.error ⟨.internal, (if messages = [] then "MCP HTTP: empty body for request id "
      else "MCP HTTP: response does not match request id ") ++ toString id⟩)
  | some payload =>
    match payload.find? "error" with
    | some err =>
      if err.isObject then do
        let code ← err.intValue "code" (-1)
        let message ← err.value "message" ""
        .ok (.error ⟨.internal, "MCP error " ++ toString code ++ ": " ++ message⟩)
      else .ok (.error ⟨.internal, "MCP HTTP: error field is not an object: " ++ cl.codec.dump err⟩)
    | none =>
      match payload.find? "result" with
      | some result => .ok (.ok result)
      | none => .ok (.error ⟨.internal, "MCP HTTP: response has neither result nor error: " ++ cl.codec.dump payload⟩)

end Http
end Mcp
end AgentFlow
