/-
# The MCP client over HTTP

`McpClient::Impl` for the HTTP transport, as a step function. What happens
between two suspensions of a coroutine is one step, and the environment
chooses the next one: a call is made, a POST completes in whatever way it
does, a waiter goes on, the notification reader gets an event or its stream
ends, the handler is set or cleared, `Shutdown()` is called.

The members of the class are the fields of `State` under their names. The
source of the reader's cancel token is the number of the reader it was made
for (`readerCancel`). The session id the server gave on `initialize` is kept
with the call that waits for the acknowledgement, and the log records what
happened: no step reads either.

Key definitions: `State`, `State.connect`, `State.postRpc`,
`State.postCompletes`, `State.readHttpNotifications`,
`State.shutdownInternal`, `step`.
-/
import AgentFlow.Lib.Run
import AgentFlow.Tools.Mcp.HttpCodec

namespace AgentFlow
namespace Mcp
namespace Http

open Json Json.Value

structure Spec extends Client where
  commandOrUrl : String
  headers : Headers
  /-- The environment's ZEN_MCP_METADATA_TOKEN. -/
  metadataToken : Option String

/-- An event of the notification stream. -/
structure SseEvent where
  data : String := ""
  id : Option String := none
  retryMs : Option ℕ := none
  deriving DecidableEq

/-- Where a call is suspended: on its waiter channel, or on one of the POSTs
of the handshake or its own. -/
inductive Pc
  | running
  | waiting (woken : Bool)
  | initPost (id : ℕ)
  | ackPost (assigned : String)
  | toolPost (id : ℕ)
  | done
  deriving DecidableEq

/-- A call, with the chat session it is made for. -/
structure Task where
  purpose : Purpose
  context : String
  pc : Pc
  deriving DecidableEq

/-- Where a notification reader is: spawned, in its GET, or on its timer. -/
inductive ReaderPc
  | spawned
  | getting
  | sleeping
  deriving DecidableEq

structure Reader where
  generation : ℕ
  cancelled : Bool := false
  delay : ℕ := 250
  pc : ReaderPc := .spawned
  deriving DecidableEq

inductive Event
  | called (t : ℕ) (p : Purpose)
  | posted (t : ℕ) (m : Message) (headers : Headers)
  | handshaken (t : ℕ) (assigned : String)
  | readerStarted (generation : ℕ)
  | got (generation : ℕ) (headers : Headers)
  | forwarded (generation : ℕ) (ev : SseEvent) (method params : String)
  | notified (method params : String)
  | returned (t : ℕ) (o : Outcome)
  | handlerSet (set : Bool)
  | dropped
  | shutDown
  deriving DecidableEq

structure State where
  state : ConnState := .idle
  shutdown : Bool := false
  connectWaiters : List ℕ := []
  nextId : ℕ := 1
  sessionId : String := ""
  lastEventId : String := ""
  readerCancel : Option ℕ := none
  readerGeneration : ℕ := 0
  readerActive : Bool := false
  handler : Bool := false
  readers : List Reader := []
  tasks : List Task := []
  log : List Event := []

namespace State

def record (s : State) (es : List Event) : State := { s with log := s.log ++ es }

def setState (s : State) (st : ConnState) : State := { s with state := st }

def setPc (s : State) (t : ℕ) (pc : Pc) : State :=
  { s with tasks := s.tasks.modify t fun k => { k with pc := pc } }

def finish (s : State) (t : ℕ) (o : Outcome) : State := (s.setPc t .done).record [.returned t o]

/-! ### The notification reader -/

def stopHttpReader (s : State) : State :=
  { s with
    readerGeneration := s.readerGeneration + 1
    readers := s.readers.map fun rd =>
      if s.readerCancel = some rd.generation then { rd with cancelled := true } else rd
    readerCancel := none
    readerActive := false }

def maybeStartHttpReader (s : State) : State :=
  if s.state ≠ .ready ∨ s.shutdown ∨ !s.handler ∨ s.readerActive then s
  else
    let generation := s.readerGeneration + 1
    { s with
      readerActive := true
      readerGeneration := generation
      readerCancel := some generation
      readers := s.readers ++ [(⟨generation, false, 250, .spawned⟩ : Reader)] }.record [.readerStarted generation]

/-- The reader `r` of this generation returns. -/
def endReader (s : State) (r generation : ℕ) : State :=
  { s with
    readers := s.readers.eraseIdx r
    readerActive := if s.readerGeneration = generation then false else s.readerActive }

/-- The head of the loop of `ReadHttpNotifications`: the next GET, or the end. -/
def readHttpNotifications (sp : Spec) (s : State) (r : ℕ) (rd : Reader) : State :=
  if !rd.cancelled ∧ !s.shutdown ∧ rd.generation = s.readerGeneration ∧ s.state = .ready ∧ s.handler then
    { s with readers := s.readers.set r { rd with pc := .getting } }.record
      [.got rd.generation (streamHeaders s.sessionId sp.headers s.lastEventId)]
  else s.endReader r rd.generation

/-- The notification branch of `DispatchInbound`; over HTTP no message with an
id finds a pending request. -/
def notification? (sp : Spec) (s : State) (msg : Value) : Option (String × String) :=
  if isNotification msg ∧ s.handler then Mcp.notification? sp.toClient msg else none

/-- The id of the event, if it is one that is recorded. -/
def recordable (ev : SseEvent) : Option String :=
  ev.id.filter fun id => id.utf8ByteSize ≤ 1024 ∧ '\r' ∉ id.toList ∧ '\n' ∉ id.toList

/-- The message in an event, if it is an object. -/
def eventMessage (sp : Spec) (ev : SseEvent) : Option Value :=
  if ev.data = "" then none else (sp.codec.parse ev.data).filter Value.isObject

/-- The message of the event goes to the handler. -/
def forward (sp : Spec) (s : State) (rd : Reader) (ev : SseEvent) : State :=
  match (eventMessage sp ev).bind (s.notification? sp) with
  | some (method, params) => s.record [.forwarded rd.generation ev method params]
  | none => s

def recordId (s : State) (ev : SseEvent) : State :=
  match recordable ev with
  | some id => { s with lastEventId := id }
  | none => s

/-- The delay of the reader after the event. -/
def eventDelay (rd : Reader) (ev : SseEvent) : ℕ :=
  match ev.retryMs with
  | some ms => max 250 (min ms 30000)
  | none => rd.delay

/-- The event handler of the reader `r`. -/
def receive (sp : Spec) (s : State) (r : ℕ) (rd : Reader) (ev : SseEvent) : State :=
  if rd.generation ≠ s.readerGeneration ∨ s.shutdown then s
  else
    let s := { s with readers := s.readers.set r { rd with delay := eventDelay rd ev } }
    if ev.id = some s.lastEventId ∧ s.lastEventId ≠ "" then s else (s.forward sp rd ev).recordId ev

/-- The GET of the reader `r` ends. -/
def getCompletes (s : State) (r : ℕ) (rd : Reader) (statusCode : ℤ) (status : Option Status.Code) : State :=
  if rd.cancelled ∨ rd.generation ≠ s.readerGeneration then s.endReader r rd.generation
  else if statusCode = 404 then (s.setState .broken).endReader r rd.generation
  else if statusCode = 405 ∨ statusCode = 501 ∨ status = some .unimplemented ∨ status = some .permissionDenied then
    s.endReader r rd.generation
  else { s with readers := s.readers.set r { rd with pc := .sleeping } }

/-! ### Connecting -/

def notifyConnectWaiters (s : State) : State :=
  { s.connectWaiters.foldl (fun s t => s.setPc t (.waiting true)) s with connectWaiters := [] }

def shutdownInternal (s : State) (permanent : Bool) : State :=
  let s := if permanent then { s with shutdown := true } else s
  let s := { s.stopHttpReader with lastEventId := "", sessionId := "" }.notifyConnectWaiters
  s.setState (if permanent then .broken else .idle)

/-- Sends one message; a request has the next id. -/
def postRpc (sp : Spec) (s : State) (t : ℕ) (task : Task) (m : Method) (params : Value) (isNotification : Bool)
    (pc : ℕ → Pc) : State :=
  let id := s.nextId
  let msg : Message := ⟨if isNotification then none else some id, m, params⟩
  let headers := postHeaders s.sessionId sp.headers (callMetadata m task.context sp.metadataToken)
  let s := if isNotification then s else { s with nextId := id + 1 }
  (s.record [.posted t msg headers]).setPc t (pc id)

def sendRequest (sp : Spec) (s : State) (t : ℕ) (task : Task) (m : Method) (params : Value) :
    Except Status.Error State :=
  if s.state ≠ .ready then .error ⟨.failedPrecondition, "MCP client not connected"⟩
  else .ok (s.postRpc sp t task m params false .toolPost)

/-- What a call does once `Connect` or `EnsureReady` has this status. -/
def proceed (sp : Spec) (s : State) (t : ℕ) (task : Task) : Option Status.Error → State
  | some e => s.finish t (.failed e)
  | none =>
    match task.purpose.request sp.toClient with
    | .error e => s.finish t (.failed e)
    | .ok none => s.finish t .connected
    | .ok (some (m, params)) =>
      match s.sendRequest sp t task m params with
      | .error e => s.finish t (.failed e)
      | .ok s' => s'

/-- The end of `Connect`, with the status of the transport. -/
def finishConnect (sp : Spec) (s : State) (t : ℕ) (task : Task) (status : Option Status.Error) : State :=
  let s := s.setState (if status.isNone then .ready else .broken)
  let s := if status.isNone then s.maybeStartHttpReader else s
  s.notifyConnectWaiters.proceed sp t task status

/-- `Connect` once no other is in progress, up to the answer to `initialize`. -/
def startConnect (sp : Spec) (s : State) (t : ℕ) (task : Task) : State :=
  let s := s.setState .connecting
  if sp.commandOrUrl = "" then
    s.finishConnect sp t task (some ⟨.invalidArgument, "HTTP McpServerSpec.command_or_url is empty"⟩)
  else { s with sessionId := "" }.postRpc sp t task .init initParams false .initPost

def connect (sp : Spec) (s : State) (t : ℕ) (task : Task) : State :=
  if s.shutdown then s.proceed sp t task (some ⟨.cancelled, "client shut down"⟩)
  else if s.state = .ready then s.proceed sp t task none
  else
    let s := if s.state = .broken then (s.record [.dropped]).shutdownInternal false else s
    if s.state = .connecting then
      { s with connectWaiters := s.connectWaiters ++ [t] }.setPc t (.waiting false)
    else s.startConnect sp t task

/-- A call starts: `Connect`, or `EnsureReady`, which asks for the state
before anything else. -/
def call (sp : Spec) (s : State) (p : Purpose) (context : String) : State :=
  let t := s.tasks.length
  let task : Task := ⟨p, context, .running⟩
  let s := { s with tasks := s.tasks ++ [task] }.record [.called t p]
  if p ≠ .connect ∧ s.state = .ready then s.proceed sp t task none else s.connect sp t task

/-! ### The end of a POST -/

/-- A session id in the headers is taken over, whatever else came. -/
def publishSession (s : State) (head : ResponseHead) : State :=
  if sessionIdFromHeaders head.headers = "" then s
  else { s with sessionId := sessionIdFromHeaders head.headers }

def dispatchAll (sp : Spec) (s : State) (messages : List Value) : State :=
  s.record ((messages.filterMap (s.notification? sp)).map fun n => .notified n.1 n.2)

/-- `PostRpc` after the POST. `id` is none for a notification. -/
def postResult (sp : Spec) (s : State) (id : Option ℕ) (head : ResponseHead) (body : Except Status.Error String) :
    State × Except Json.Error (Except Status.Error Value) :=
  let s := s.publishSession head
  match body with
  | .error e => (if e.code = .cancelled then s else s.setState .broken, .ok (.error e))
  | .ok body =>
    match decodeMcpHttpMessages sp.toClient head.statusCode head.headers body with
    | .error e => (s, .ok (.error e))
    | .ok messages =>
      (s.dispatchAll sp messages,
        match id with
        | none => .ok (.ok (object []))
        | some id => rpcAnswer sp.toClient id messages)

/-- The rest of `ConnectHttp` after the answer to `initialize`. -/
def initAnswered (sp : Spec) (s : State) (t : ℕ) (task : Task) (head : ResponseHead) :
    Except Json.Error (Except Status.Error Value) → State
  | .error e => s.finish t (.thrown e)
  | .ok (.error e) => s.finishConnect sp t task (some e)
  | .ok (.ok _) =>
    if s.sessionId = "" then
      s.finishConnect sp t task
        (some ⟨.internal, "MCP HTTP: server did not assign an Mcp-Session-Id on initialize"⟩)
    else
      s.postRpc sp t task .initialized (object []) true fun _ => .ackPost (sessionIdFromHeaders head.headers)

/-- The rest of `ConnectHttp` after the acknowledgement. -/
def ackAnswered (sp : Spec) (s : State) (t : ℕ) (task : Task) (assigned : String) :
    Except Json.Error (Except Status.Error Value) → State
  | .error e => s.finish t (.thrown e)
  | .ok (.error e) => s.finishConnect sp t task (some e)
  | .ok (.ok _) =>
    ((s.setState .ready).notifyConnectWaiters.record [.handshaken t assigned]).finishConnect sp t task none

/-- The POST of the call `t` completes. -/
def postCompletes (sp : Spec) (s : State) (t : ℕ) (head : ResponseHead) (body : Except Status.Error String) :
    Option State :=
  match s.tasks[t]? with
  | none => none
  | some task =>
    match task.pc with
    | .initPost id =>
      let (s, r) := s.postResult sp (some id) head body
      some (s.initAnswered sp t task head r)
    | .ackPost assigned =>
      let (s, r) := s.postResult sp none head body
      some (s.ackAnswered sp t task assigned r)
    | .toolPost id =>
      let (s, r) := s.postResult sp (some id) head body
      some (s.finish t (task.purpose.outcome sp.toClient r))
    | _ => none

/-- A waiter that was woken goes on. -/
def resume (sp : Spec) (s : State) (t : ℕ) : Option State :=
  match s.tasks[t]? with
  | some task =>
    if task.pc = .waiting true then
      some (s.proceed sp t task
        (if s.state = .ready then none else some ⟨.unavailable, "MCP server failed to start"⟩))
    else none
  | none => none

def setInboundEventHandler (s : State) (set : Bool) : State :=
  let s := { s with handler := set }.record [.handlerSet set]
  if set then s.maybeStartHttpReader else s.stopHttpReader

end State

inductive Choice
  | call (p : Purpose) (context : String)
  | resume (t : ℕ)
  | postDone (t : ℕ) (head : ResponseHead) (body : Except Status.Error String)
  | runReader (r : ℕ)
  | event (r : ℕ) (ev : SseEvent)
  | getDone (r : ℕ) (statusCode : ℤ) (status : Option Status.Code)
  | timerDone (r : ℕ)
  | setInboundEventHandler (set : Bool)
  | shutdown

/-- The reader `r`, if it is at this place. -/
def State.readerAt (s : State) (r : ℕ) (pc : ReaderPc) : Option Reader := s.readers[r]?.filter fun rd => rd.pc = pc

def step (sp : Spec) : Choice → State → Option State
  | .call p context, s => some (s.call sp p context)
  | .resume t, s => s.resume sp t
  | .postDone t head body, s => s.postCompletes sp t head body
  | .runReader r, s => (s.readerAt r .spawned).map (s.readHttpNotifications sp r)
  | .event r ev, s => (s.readerAt r .getting).map fun rd => s.receive sp r rd ev
  | .getDone r statusCode status, s => (s.readerAt r .getting).map fun rd => s.getCompletes r rd statusCode status
  | .timerDone r, s =>
    (s.readerAt r .sleeping).map fun rd => s.readHttpNotifications sp r { rd with delay := min (rd.delay * 2) 30000 }
  | .setInboundEventHandler b, s => some (s.setInboundEventHandler b)
  | .shutdown, s => some ((s.record [.shutDown]).shutdownInternal true)

/-- A state of a client that was created idle and went through the choices,
each of which `ok` allows where it is made. -/
def Reaches (sp : Spec) (ok : State → Choice → Prop) (cs : List Choice) (s : State) : Prop :=
  Stepping.Run (step sp) ok {} cs s

end Http
end Mcp
end AgentFlow
