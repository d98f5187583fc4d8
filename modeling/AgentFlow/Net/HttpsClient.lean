/-
# The HTTP client

`HttpsClient::Impl::Run` of https_client.cc from the response on: the request
is written, and what the socket gives is a list of reads. A read is some
bytes, 8192 at most, or an error, and none if the peer has closed; with it
goes whether the token has fired by then. After the last read the peer has
closed.

One driver serves the three entry points, which differ in where the body goes
(`Sink`): to a string, to the handler of payloads or to the handler of events.

Key definitions: `Arrival`, `readHead`, `consume`, `readBody`, `run`,
`postSse`, `post`, `getSse`.
-/
import AgentFlow.Net.HttpParse

namespace AgentFlow
namespace Net

/-- What a read completes with, and whether the token has fired by then. -/
structure Arrival where
  read : Except Status.Error (List Char)
  cancelled : Bool := false

/-- Where the body goes. -/
inductive Sink
  | body
  | payloads
  | events
  deriving DecidableEq

/-- The decoders of a response, and what has come out of them. -/
structure Intake where
  chunked : ChunkedDecoder := {}
  framer : SseFramer := {}
  inboundFramer : SseEventFramer := {}
  body : List Char := []
  payloads : List (List Char) := []
  events : List SseEvent := []
  deriving DecidableEq

def cancelledError : Status.Error := ⟨.cancelled, "cancelled"⟩

def mapHttpStatus (code : ℤ) : Status.Code :=
  if code = 401 ∨ code = 403 then .permissionDenied
  else if code = 429 then .resourceExhausted
  else if code ≥ 500 then .unavailable
  else if code ≥ 400 then .invalidArgument
  else .unknown

def headCutShort : Status.Error := ⟨.unavailable, "connection closed before a complete response head arrived"⟩

/-- Reads until the head is complete: the head, all bytes read, whether the
token has fired, and the reads that are left. -/
def readHead (raw : List Char) (cancelled : Bool) (reads : List Arrival) :
    Except Status.Error (ResponseHead × List Char × Bool × List Arrival) :=
  match parseResponseHead raw with
  | .error e => .error e
  | .ok head =>
    if head.headBytes ≠ 0 then .ok (head, raw, cancelled, reads)
    else
      match reads with
      | [] => .error headCutShort
      | a :: reads =>
        match a.read with
        | .error e => .error (if a.cancelled then cancelledError else e)
        | .ok [] => .error headCutShort
        | .ok bytes => readHead (raw ++ bytes) a.cancelled reads
termination_by structural reads

/-- The body of a response that is not 2xx, up to 8 KiB, or none if the token
has fired when it ends. -/
def readErrorBody (body : List Char) (cancelled : Bool) : List Arrival → Option (List Char)
  | [] => if body.length < 8192 ∧ cancelled then none else some body
  | a :: reads =>
    if body.length < 8192 then
      match a.read with
      | .error _ => if a.cancelled then none else some body
      | .ok [] => if a.cancelled then none else some body
      | .ok bytes => readErrorBody (body ++ bytes) a.cancelled reads
    else some body

/-- Feeds one slab of raw body bytes onward. -/
def consume (sink : Sink) (head : ResponseHead) (x : Intake) (slab : List Char) : Intake × Option Status.Error :=
  let (chunked, decoded) := if head.chunked then x.chunked.feed slab else (x.chunked, .ok slab)
  let x := { x with chunked := chunked }
  match decoded with
  | .error e => (x, some e)
  | .ok decoded =>
    match sink with
    | .body => ({ x with body := x.body ++ decoded }, none)
    | .events =>
      let (framer, events) := x.inboundFramer.feed decoded
      ({ x with inboundFramer := framer, events := x.events ++ events },
        if framer.exceededLimit then some ⟨.resourceExhausted, "SSE event exceeds 64 KiB"⟩ else none)
    | .payloads =>
      let (framer, payloads) := x.framer.feed decoded
      ({ x with framer := framer, payloads := x.payloads ++ payloads }, none)

/-- No further read is needed. -/
def bodyOver (sink : Sink) (head : ResponseHead) (x : Intake) : Bool :=
  (sink = .payloads && x.framer.sawDone) ||
    (sink = .body && 0 ≤ head.contentLength && head.contentLength ≤ x.body.length) ||
    (head.chunked && x.chunked.complete)

/-- The end of the body: a last frame without its blank line is delivered
unless the stream was signed off. -/
def finishBody (sink : Sink) (x : Intake) : Intake :=
  if sink = .payloads ∧ ¬ x.framer.sawDone then
    { x with framer := x.framer.flush.1, payloads := x.payloads ++ x.framer.flush.2 }
  else x

/-- The loop over the body. `cancelled` is whether the token has fired. -/
def readBody (sink : Sink) (head : ResponseHead) (x : Intake) (cancelled : Bool) :
    List Arrival → Intake × Option Status.Error
  | [] => if cancelled then (x, some cancelledError) else (finishBody sink x, none)
  | a :: reads =>
    if cancelled then (x, some cancelledError)
    else if bodyOver sink head x then (finishBody sink x, none)
    else
      match a.read with
      | .error e => (x, some (if a.cancelled then cancelledError else e))
      | .ok [] => (finishBody sink x, none)
      | .ok bytes =>
        match consume sink head x bytes with
        | (x, some e) => (x, some e)
        | (x, none) => readBody sink head x a.cancelled reads

/-- The error of a response that is not 2xx. -/
def httpError (code : ℤ) (body : List Char) : Status.Error :=
  ⟨mapHttpStatus code, "HTTP " ++ toString code ++ ": " ++ String.ofList body⟩

def isEventStream (head : ResponseHead) : Bool :=
  head.headers.any fun h => h.1 = "content-type".toList && (find "text/event-stream".toList h.2).isSome

/-- The head that was read, if there is one, what was delivered, and the
status. -/
def run (sink : Sink) (cancelled : Bool) (reads : List Arrival) :
    Option ResponseHead × Intake × Option Status.Error :=
  match readHead [] cancelled reads with
  | .error e => (none, {}, some e)
  | .ok (head, raw, cancelled, left) =>
    let slab := raw.drop head.headBytes
    if head.statusCode < 200 ∨ 300 ≤ head.statusCode then
      (some head, {}, some ((readErrorBody slab cancelled left).elim cancelledError (httpError head.statusCode)))
    else if sink = .events ∧ ¬ isEventStream head then
      (some head, {}, some ⟨.invalidArgument, "GET stream is not text/event-stream"⟩)
    else
      match consume sink head {} slab with
      | (x, some e) => (some head, x, some e)
      | (x, none) =>
        let (x, status) := readBody sink head x cancelled left
        (some head, x, status)

/-- The payloads that reach the handler, and the status. -/
def postSse (reads : List Arrival) : List (List Char) × Option Status.Error :=
  let (_, x, status) := run .payloads false reads
  (x.payloads, status)

def post (reads : List Arrival) : Except Status.Error (List Char) :=
  let (_, x, status) := run .body false reads
  match status with
  | some e => .error e
  | none => .ok x.body

def getSse (reads : List Arrival) : List SseEvent × Option Status.Error :=
  let (_, x, status) := run .events false reads
  (x.events, status)

end Net
end AgentFlow
