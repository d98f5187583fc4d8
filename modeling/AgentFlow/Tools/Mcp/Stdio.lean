/-
# The MCP client over the pipes of a child process

`McpClient::Impl` for every transport but HTTP, as a step function. All of it
runs on one io_context, so what happens between two suspensions of a
coroutine is one step, and the environment chooses which step comes next: a
call is made, a suspended call is resumed, its token is fired, the child
writes some bytes, a read or a write completes or fails, `Shutdown()` is
called. Completions that belong to a child that is gone stay outstanding
until they are run, as their handlers do.

The members of the class are the fields of `State` under their names, less
three differences. The two descriptors of the child are one number (`child`:
they are opened and closed together), and `writing` is `write_active_` with
the child the outstanding write is on. Lines and bytes carry the number of the
child they belong to, and the log records what happened: no step reads either.

Key definitions: `State`, `State.connect`, `State.sendRequest`,
`State.dispatchInbound`, `State.shutdownInternal`, `step`.
-/
import AgentFlow.Lib.Run
import AgentFlow.Tools.Mcp.Rpc

namespace AgentFlow
namespace Mcp

open Json Json.Value

inductive Transport
  | unspecified
  | stdio
  | httpSse
  | webSocket
  | tcp
  deriving DecidableEq, Repr

namespace Stdio

structure Spec extends Client where
  transport : Transport
  transport_ne : transport ≠ .httpSse
  commandOrUrl : String

/-- A line to write, with the number of children started when it was queued. -/
structure Line where
  session : ℕ
  message : Message
  deriving DecidableEq

/-- A `ReadLoop` that waits for its read. `found`: the buffer held a complete
line when the read was started, so it reads nothing from the child. -/
structure Reader where
  child : ℕ
  found : Bool
  deriving DecidableEq

/-- Where a call is suspended: on its waiter channel, on the channel of the
`initialize` request of the child it started, or on that of its own request. -/
inductive Pc
  | running
  | waiting (woken : Bool)
  | handshake (id child : ℕ)
  | request (id : ℕ)
  | done
  deriving DecidableEq

/-- A call. `token`: whether its cancellation token has fired, for the calls
that have one; `request`: the request whose callback is on the token. -/
structure Task where
  purpose : Purpose
  token : Option Bool
  request : Option ℕ
  pc : Pc
  deriving DecidableEq

inductive Event
  | called (t : ℕ) (p : Purpose)
  | spawned (child : ℕ)
  | requested (t id : ℕ) (m : Method)
  | cancelPosted (id : ℕ)
  | queued (line : Line)
  | wrote (child : ℕ) (line : Line)
  | read (session : ℕ) (line : List (ℕ × Char))
  | inbound (msg : Value)
  | notified (method params : String)
  | delivered (id : ℕ) (msg : Value)
  | closed (id : ℕ)
  | returned (t : ℕ) (o : Outcome)
  | shutDown
  deriving DecidableEq

structure State where
  state : ConnState := .idle
  shutdown : Bool := false
  connectWaiters : List ℕ := []
  child : Option ℕ := none
  children : ℕ := 0
  readBuf : List (ℕ × Char) := []
  requests : Requests.Table Value := .empty 1
  writeQueue : List Line := []
  writing : Option ℕ := none
  readers : List Reader := []
  cancels : List ℕ := []
  handler : Bool := false
  tasks : List Task := []
  log : List Event := []

/-- What becomes of `pipe()` and `fork()`. -/
inductive Spawn
  | pipeFailed (err : String)
  | forkFailed (err : String)
  | started
  deriving DecidableEq

namespace State

def record (s : State) (es : List Event) : State := { s with log := s.log ++ es }

def setState (s : State) (st : ConnState) : State := { s with state := st }

def setPc (s : State) (t : ℕ) (pc : Pc) : State :=
  { s with tasks := s.tasks.modify t fun k => { k with pc := pc } }

def finish (s : State) (t : ℕ) (o : Outcome) : State := (s.setPc t .done).record [.returned t o]

/-! ### The writer -/

/-- Starts to write the first line of the queue, if there is a child. -/
def pumpWriter (s : State) : State :=
  match s.child, s.writeQueue with
  | some c, line :: _ => { s with writing := some c }.record [.wrote c line]
  | _, _ => { s with writing := none }

def writeLine (s : State) (m : Message) : State :=
  let line : Line := ⟨s.children, m⟩
  let s := { s with writeQueue := s.writeQueue ++ [line] }.record [.queued line]
  if s.writing.isNone then s.pumpWriter else s

def sendNotification (s : State) (m : Message) : State :=
  if s.child.isNone then s else s.writeLine m

/-! ### Pending requests -/

def failPending (s : State) : State :=
  { s with requests := s.requests.closeAll }.record (s.requests.pending.map Event.closed)

/-- The callback of the token: it posts a handler. -/
def postCancel (s : State) (id : ℕ) : State :=
  { s with cancels := s.cancels ++ [id] }.record [.cancelPosted id]

/-- The posted handler. -/
def runCancel (s : State) (id : ℕ) : State :=
  let s := { s with cancels := s.cancels.erase id }
  if id ∈ s.requests.pending then
    ({ s with requests := s.requests.close id }.record [.closed id]).sendNotification (cancelledNotification id)
  else s

/-- `token` is none for the calls that cannot be cancelled. A token that has
fired runs its callback at once. -/
def sendRequest (s : State) (t : ℕ) (m : Method) (params : Value) (token : Option Bool) (pc : ℕ → Pc) :
    Except Status.Error State :=
  if s.state ≠ .ready then .error ⟨.failedPrecondition, "MCP client not connected"⟩
  else
    let id := s.requests.next
    let s := { s with requests := s.requests.register }.record [.requested t id m]
    let s := if token.isSome then
        { s with tasks := s.tasks.modify t fun k => { k with request := some id } } else s
    let s := if token = some true then s.postCancel id else s
    .ok ((s.writeLine ⟨some id, m, params⟩).setPc t (pc id))

/-! ### Connecting -/

def notifyConnectWaiters (s : State) : State :=
  { s.connectWaiters.foldl (fun s t => s.setPc t (.waiting true)) s with connectWaiters := [] }

/-- Closes both descriptors and drops them. -/
def closePipes (s : State) : State := { s with child := none }

def shutdownInternal (s : State) (permanent : Bool) : State :=
  let s := if permanent then { s with shutdown := true } else s
  let s := s.closePipes.failPending.notifyConnectWaiters
  if s.state = .ready then s.setState .broken else s

def hasLine (s : State) : Bool := s.readBuf.any fun x => x.2 = '\n'

/-- The read of the `ReadLoop` coroutine at the head of its loop. -/
def nextRead (s : State) : Option Reader := s.child.map fun c => ⟨c, s.hasLine⟩

/-- `ConnectStdio` up to the answer to `initialize`: the state in which the
call waits for it, or the error with which it ends before. -/
def connectStdio (sp : Spec) (s : State) (t : ℕ) (spawn : Spawn) : Except Status.Error State :=
  if sp.commandOrUrl = "" then .error ⟨.invalidArgument, "STDIO McpServerSpec.command_or_url is empty"⟩
  else
    match spawn with
    | .pipeFailed err => .error ⟨.internal, "pipe() failed: " ++ err⟩
    | .forkFailed err => .error ⟨.internal, "fork() failed: " ++ err⟩
    | .started =>
      let c := s.children + 1
      let s := { s with child := some c, children := c }.record [.spawned c]
      let s := { s with readers := s.readers ++ s.nextRead.toList }
      -- ready, so that `SendRequest` works
      let s := s.setState .ready
      s.sendRequest t .init initParams none (Pc.handshake · c)

/-- What a call does once `Connect` or `EnsureReady` has this status. -/
def proceed (sp : Spec) (s : State) (t : ℕ) (task : Task) : Option Status.Error → State
  | some e => s.finish t (.failed e)
  | none =>
    match task.purpose.request sp.toClient with
    | .error e => s.finish t (.failed e)
    | .ok none => s.finish t .connected
    | .ok (some (m, params)) =>
      match s.sendRequest t m params task.token .request with
      | .error e => s.finish t (.failed e)
      | .ok s' => s'

/-- The end of `Connect`, with the status of the transport. -/
def finishConnect (sp : Spec) (s : State) (t : ℕ) (task : Task) (status : Option Status.Error) : State :=
  let s := s.setState (if status.isNone then .ready else .broken)
  s.notifyConnectWaiters.proceed sp t task status

/-- `Connect` once no other is in progress. -/
def startConnect (sp : Spec) (s : State) (t : ℕ) (task : Task) (spawn : Spawn) : State :=
  let s := s.setState .connecting
  match sp.transport with
  | .stdio =>
    match s.connectStdio sp t spawn with
    | .ok s' => s'
    | .error e => s.finishConnect sp t task (some e)
  | _ =>
    s.finishConnect sp t task
      (some ⟨.unimplemented, "MCP transport not implemented (only STDIO and HTTP_SSE)"⟩)

def connect (sp : Spec) (s : State) (t : ℕ) (task : Task) (spawn : Spawn) : State :=
  if s.shutdown then s.proceed sp t task (some ⟨.cancelled, "client shut down"⟩)
  else if s.state = .ready then s.proceed sp t task none
  else
    let s := if s.state = .broken then s.shutdownInternal false else s
    if s.state = .connecting then
      { s with connectWaiters := s.connectWaiters ++ [t] }.setPc t (.waiting false)
    else s.startConnect sp t task spawn

/-- A call starts: `Connect`, or `EnsureReady`, which asks for the state
before anything else. -/
def call (sp : Spec) (s : State) (p : Purpose) (fired : Bool) (spawn : Spawn) : State :=
  let t := s.tasks.length
  let task : Task := ⟨p, if p.isCallTool then some fired else none, none, .running⟩
  let s := { s with tasks := s.tasks ++ [task] }.record [.called t p]
  if p ≠ .connect ∧ s.state = .ready then s.proceed sp t task none else s.connect sp t task spawn

/-- The call `t` goes on after its suspension, if what it waits for is there. -/
def resume (sp : Spec) (s : State) (t : ℕ) : Option State :=
  match s.tasks[t]? with
  | none => none
  | some task =>
    match task.pc with
    | .waiting true =>
      some (s.proceed sp t task
        (if s.state = .ready then none else some ⟨.unavailable, "MCP server failed to start"⟩))
    | .handshake id _ =>
      ((s.requests.slot id).bind receive).map fun r =>
        match answer r with
        | .error e => s.finish t (.thrown e)
        | .ok (.error e) => s.finishConnect sp t task (some e)
        | .ok (.ok _) => (s.sendNotification initializedNotification).finishConnect sp t task none
    | .request id =>
      ((s.requests.slot id).bind receive).map fun r => s.finish t (task.purpose.outcome sp.toClient (answer r))
    | _ => none

/-- The token of the call `t` is fired for the first time. -/
def fire (s : State) (t : ℕ) : Option State :=
  match s.tasks[t]? with
  | some ⟨_, some false, request, _⟩ =>
    let s := { s with tasks := s.tasks.modify t fun k => { k with token := some true } }
    some (request.elim s s.postCancel)
  | _ => none

/-! ### The reader -/

def dispatchInbound (sp : Spec) (s : State) (msg : Value) : State :=
  match (msg.find? "id").getD .null with
  | .null =>
    match notification? sp.toClient msg with
    | some (method, params) => if s.handler then s.record [.notified method params] else s
    | none => s
  | id =>
    match id.toInt64? with
    | none => s
    | some i =>
      if 0 ≤ i ∧ i.toNat ∈ s.requests.pending then
        { s with requests := s.requests.deliver i.toNat msg }.record [.delivered i.toNat msg]
      else s

/-- The buffer up to its first newline. -/
def firstLine (s : State) : List (ℕ × Char) := s.readBuf.takeWhile fun x => x.2 ≠ '\n'

/-- Takes one line out of the buffer and dispatches it. -/
def getLine (sp : Spec) (s : State) : State :=
  let line := s.firstLine
  let s := { s with readBuf := s.readBuf.drop (line.length + 1) }.record [.read s.children line]
  if line = [] then s
  else
    match sp.codec.parse (String.ofList (line.map Prod.snd)) with
    | some msg => (s.record [.inbound msg]).dispatchInbound sp msg
    | none => s

/-- The `ReadLoop` at `r` goes round; it ends when there is no child. -/
def readAgain (s : State) (r : ℕ) : State :=
  { s with readers := match s.nextRead with
    | some rd => s.readers.set r rd
    | none => s.readers.eraseIdx r }

/-- Bytes of its child arrive at the reader `r`. -/
def data (sp : Spec) (s : State) (r : ℕ) (chunk : List Char) : Option State :=
  match s.readers[r]? with
  | some ⟨c, false⟩ =>
    let s := { s with readBuf := s.readBuf ++ chunk.map fun x => (c, x) }
    if s.hasLine then some ((s.getLine sp).readAgain r) else some s
  | _ => none

/-- The read of `r` completes with the line that was there. -/
def lineReady (sp : Spec) (s : State) (r : ℕ) : Option State :=
  match s.readers[r]? with
  | some ⟨_, true⟩ => some ((s.getLine sp).readAgain r)
  | _ => none

/-- The transport is gone: all requests fail. -/
def transportDied (s : State) : State := s.failPending.setState .broken

def readFailed (s : State) (r : ℕ) : Option State :=
  match s.readers[r]? with
  | some ⟨_, false⟩ => some ({ s with readers := s.readers.eraseIdx r }.transportDied)
  | _ => none

/-- The outstanding write completes. -/
def written (s : State) (ok : Bool) : Option State :=
  if s.writing.isNone then none
  else
    let s := { s with writeQueue := s.writeQueue.tail }
    if ok then some s.pumpWriter else some { s with writing := none }.transportDied

end State

inductive Choice
  | call (p : Purpose) (fired : Bool) (spawn : Spawn)
  | resume (t : ℕ)
  | fire (t : ℕ)
  | runCancel (id : ℕ)
  | data (r : ℕ) (chunk : List Char)
  | lineReady (r : ℕ)
  | readFailed (r : ℕ)
  | written (ok : Bool)
  | shutdown
  | setInboundEventHandler (set : Bool)
  deriving DecidableEq

def step (sp : Spec) : Choice → State → Option State
  | .call p fired spawn, s => some (s.call sp p fired spawn)
  | .resume t, s => s.resume sp t
  | .fire t, s => s.fire t
  | .runCancel id, s => if id ∈ s.cancels then some (s.runCancel id) else none
  | .data r chunk, s => s.data sp r chunk
  | .lineReady r, s => s.lineReady sp r
  | .readFailed r, s => s.readFailed r
  | .written ok, s => s.written ok
  | .shutdown, s => some ((s.record [.shutDown]).shutdownInternal true)
  | .setInboundEventHandler b, s => some { s with handler := b }

/-- A state of a client that was created idle and went through the choices,
each of which `ok` allows where it is made. -/
def Reaches (sp : Spec) (ok : State → Choice → Prop) (cs : List Choice) (s : State) : Prop :=
  Stepping.Run (step sp) ok {} cs s

end Stdio
end Mcp
end AgentFlow
