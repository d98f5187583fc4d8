/-
# Sending a message to the on-device engine

`LiteRtLmChatConversation::SendAsync` of `litert_lm_chat_backend.cc`, a
coroutine: it is suspended while it waits for the engine slot, for the next
chunk, or for the sink to take a delta (`Pc`), and each of these goes on with
what it waited for. The slot is held from the first of them on until the call
returns, and given back on every way out.

`Conversation` is the conversation below it (`litert_lm_conversation.cc`):
the channel of chunks, the handlers that the engine's callback posts, and the
cancellation, which may come at any time and from any thread.

Key definitions: `Pc`, `Pc.begin`, `Pc.slotDone`, `Pc.tokenDone`,
`Pc.sinkDone`, `Conversation`, `Conversation.step`.
-/
import AgentFlow.Inference.CanonicalMessage
import AgentFlow.Lib.Channel
import AgentFlow.Lib.Status

namespace AgentFlow.LiteRt

open Json

/-- How a call ends: with a message, a status or an exception. -/
inductive Result
  | ok (json : String)
  | error (e : Status.Error)
  | thrown
  deriving DecidableEq, Repr

def cancelledError : Status.Error := ⟨.cancelled, "cancelled"⟩

/-- What the calls of a conversation share. -/
structure Settings where
  codec : Codec
  constrained : Bool
  onToken : Bool
  specialTokens : ModelSpecialTokens

/-- Where a call waits, and what it has of the answer. -/
inductive Pc
  | slot
  | token (acc : LiteRtStreamAssembler)
  | sink (acc : LiteRtStreamAssembler) (delta : String) (rest : List String)
  | returned (r : Result)
  deriving DecidableEq, Repr

namespace Pc

/-- The calls between taking the slot and giving it back. -/
def holdsSlot : Pc → Bool
  | token _ | sink _ _ _ => true
  | slot | returned _ => false

/-- The start of a call: one whose token has fired does not go on. -/
def begin (isCancelled : Bool) : Pc := if isCancelled then returned (.error cancelledError) else slot

/-- `SendMessageSync`, by what the engine answers. -/
def sendMessageSync (constrained : Bool) (response : Option String) : Except Status.Error String :=
  match response with
  | some json => .ok json
  | none => .error ⟨.internal, if constrained then "constrained send_message returned null"
      else "send_message returned null"⟩

/-- The path that does not stream. -/
def sendSync (B : Settings) (response : Option String) : Result :=
  match sendMessageSync B.constrained response with
  | .ok json => .ok (decodeSpecialTokens json B.specialTokens)
  | .error e => .error e

/-- Whether a call streams: the constrained bridge cannot, and without a sink
nobody wants to see it. -/
def streams (B : Settings) : Bool := !B.constrained && B.onToken

/-- The wait for the engine slot is over. -/
def slotDone (B : Settings) (response : Option String) : Completion Unit → Pc
  | .value () => if streams B then token {} else returned (sendSync B response)
  | .closed | .aborted => returned (.error cancelledError)

/-- The sink takes the deltas one after the other, then the next chunk is
awaited. -/
def forward (acc : LiteRtStreamAssembler) : List String → Pc
  | [] => token acc
  | delta :: rest => sink acc delta rest

def midDecodeError : Status.Error := ⟨.internal, "litert-lm: streaming send failed mid-decode"⟩

/-- `NextTokenAsync` has returned a chunk, or thrown. The empty chunk ends the
turn. -/
def tokenDone (B : Settings) (acc : LiteRtStreamAssembler) : Option String → Pc
  | none => returned (.error midDecodeError)
  | some chunk =>
    if chunk = "" then returned (.ok (decodeSpecialTokens (acc.canonical B.codec) B.specialTokens))
    else
      let fed := acc.feed B.codec chunk
      forward fed (fed.deltas.drop acc.deltas.length)

/-- The sink has taken a delta, or thrown. -/
def sinkDone (acc : LiteRtStreamAssembler) (rest : List String) (threw : Bool) : Pc :=
  if threw then returned .thrown else forward acc rest

end Pc

/-! ### The conversation -/

/-- An error code with the empty token, or a token. -/
abbrev Message := Except Unit String

/-- The size of the channel of chunks. -/
def channelCapacity : ℕ := 256

/-- `NextTokenAsync`, by how its receive completes: an aborted one ends the
turn, any other error is thrown. -/
def nextToken : Completion Message → Option String
  | .value (.ok tok) => some tok
  | .aborted => some ""
  | .value (.error ()) | .closed => none

/-- What `StreamCallback` posts. -/
inductive Handler
  | error
  | chunk (text : String) (isFinal : Bool)
  deriving DecidableEq, Repr

/-- A conversation with its call, if there is one. -/
structure Conversation where
  channel : Chan Unit Message := .empty
  cancelled : Bool := false
  hooked : Bool := false
  accum : String := ""
  posted : List Handler := []
  /-- The engine still calls back. -/
  streaming : Bool := false
  call : Option Pc := none
  /-- The receive has completed, but the call has not gone on yet. -/
  completed : Option (Completion Message) := none
  /-- What the engine has called back in this turn. -/
  called : List Handler := []
  /-- What `NextTokenAsync` has returned in this turn. -/
  yielded : List String := []
  deriving DecidableEq, Repr

namespace Conversation

def fresh : Conversation := {}

def trySend (c : Conversation) (m : Message) : Conversation :=
  match c.channel.trySend channelCapacity m with
  | (channel, .handed ()) => { c with channel, completed := some (.value m) }
  | (channel, .buffered) | (channel, .rejected) => { c with channel }

def close (c : Conversation) : Conversation :=
  match c.channel.close with
  | (channel, []) => { c with channel }
  | (channel, _ :: _) => { c with channel, completed := some .closed }

/-- The call goes on. Where that is to the next chunk, the receive starts at
once. -/
def goOn (c : Conversation) : Pc → Conversation
  | .token acc =>
    let (channel, completed) := c.channel.receive ()
    { c with channel, completed, call := some (.token acc) }
  | pc => { c with completed := none, call := some pc }

/-- `SendMessage`, by whether the engine starts. A conversation that was
cancelled sends nothing. -/
def sendMessage (c : Conversation) (started : Bool) : Conversation :=
  if c.cancelled then c
  else if started then { c with accum := "", streaming := true }
  else close (trySend { c with accum := "" } (.error ()))

/-- The handler at the head of the queue. -/
def handle (c : Conversation) : Handler → Conversation
  | .error => close (trySend c (.error ()))
  | .chunk text isFinal =>
    let c := if text = "" then c else trySend { c with accum := c.accum ++ text } (.ok text)
    if isFinal then trySend c (.ok "") else c

/-- What may happen next. -/
inductive Choice
  /-- `SendAsync` is called, with a token that has fired or has not. -/
  | call (fired : Bool)
  /-- The slot's receive completes; what the engine does then. -/
  | slot (r : Completion Unit) (started : Bool) (response : Option String)
  /-- The engine's thread calls back. -/
  | callback (h : Handler)
  /-- The handler that was posted first runs. -/
  | handle
  /-- The call goes on with the chunk it waited for. -/
  | resume
  /-- The sink has taken the delta, or thrown. -/
  | sunk (threw : Bool)
  /-- The receive of a chunk is aborted. -/
  | abort
  /-- `Cancel`, by anyone: first the flag is set, then the channel closed. -/
  | mark
  | close
  deriving DecidableEq, Repr

/-- No call, or one that has returned. -/
def idle (c : Conversation) : Bool :=
  match c.call with
  | none | some (.returned _) => true
  | some _ => false

/-- The call goes on with what the slot's receive completes with. -/
def slotDone (B : Settings) (started : Bool) (response : Option String) (r : Completion Unit)
    (c : Conversation) : Conversation :=
  let c :=
    match r with
    | .value () =>
      if Pc.streams B then c.sendMessage started else { c with accum := response.getD c.accum }
    | .closed | .aborted => c
  c.goOn (Pc.slotDone B response r)

/-- The call goes on with what the receive of a chunk has completed with. -/
def tokenDone (B : Settings) (acc : LiteRtStreamAssembler) (r : Completion Message) (c : Conversation) :
    Conversation :=
  ({ c with yielded := c.yielded ++ (nextToken r).toList }).goOn (Pc.tokenDone B acc (nextToken r))

/-- `StreamCallback`. After an error or the final chunk there is no other. -/
def callback (h : Handler) (c : Conversation) : Conversation :=
  let ends :=
    match h with
    | .error => true
    | .chunk _ isFinal => isFinal
  { c with
    streaming := !ends
    called := c.called ++ [h]
    posted := if c.cancelled then c.posted else c.posted ++ [h] }

/-- `SendAsync` up to its first wait: the first call registers the hook that
cancels the conversation, which a token that has fired runs at once. -/
def startCall (c : Conversation) (fired : Bool) : Conversation :=
  let c := if !c.hooked && fired then close { c with cancelled := true } else c
  { c with hooked := true, call := some (Pc.begin fired), completed := none, called := [], yielded := [] }

/-- What a choice does, if it is possible. -/
def step (B : Settings) (choice : Choice) (c : Conversation) : Option Conversation :=
  match choice with
  | .call fired => if c.idle then some (c.startCall fired) else none
  | .slot r started response =>
    match c.call with
    | some .slot => some (c.slotDone B started response r)
    | _ => none
  | .callback h => if c.streaming then some (c.callback h) else none
  | .handle =>
    match c.posted with
    | [] => none
    | h :: posted => some (({ c with posted }).handle h)
  | .resume =>
    match c.call, c.completed with
    | some (.token acc), some r => some (c.tokenDone B acc r)
    | _, _ => none
  | .sunk threw =>
    match c.call with
    | some (.sink acc _ rest) => some (c.goOn (Pc.sinkDone acc rest threw))
    | _ => none
  | .abort =>
    if c.channel.waiting = [] then none
    else some { c with channel := c.channel.abort (), completed := some .aborted }
  | .mark => some { c with cancelled := true }
  | .close => some c.close

end Conversation

end AgentFlow.LiteRt
