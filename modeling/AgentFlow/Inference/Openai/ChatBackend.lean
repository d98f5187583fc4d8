/-
# A conversation over an OpenAI-compatible endpoint

`agentflow/inference/openai/openai_chat_backend.cc`: `OpenAiConversation`
owns the message history and sends it whole with every turn. A call of
`SendAsync` is a function of the history, of the message and of what the world
does during the call: for each attempt, whether the token is cancelled, what
the image resolver answers, the frames that `PostSse` hands over and the
status it ends with (`Attempt`). What can be seen from outside is the list of
events.

The backoff between attempts is not modelled, nor is `on_token` beyond the
deltas that are handed to it; when it throws, `PostSse` does.

Key definitions: `Conversation`, `Attempt`, `Conversation.attempt`,
`Conversation.sendAsync`, `Session`, `Conversation.step`.
-/
import AgentFlow.Inference.Openai.StreamAccumulator
import AgentFlow.Lib.Run
import AgentFlow.Lib.History

namespace AgentFlow.Openai

open Json

structure OpenAiOptions where
  baseUrl : String
  apiKey : String
  model : String
  provider : UsageProvider
  maxRetries : ℤ
  strictTools : Bool

structure HttpRequest where
  url : String
  headers : List (String × String)
  body : String
  deriving DecidableEq, Repr

/-- What the image resolver answers: the URLs it has, by key. -/
inductive Resolved
  | urls (m : List (String × String))
  | failed (e : Status.Error)
  | thrown

/-- How `PostSse` ends. -/
inductive Posted
  | ok
  | failed (e : Status.Error)
  | thrown

/-- What the world does during one attempt. `cancelled` is the token at the
top of the loop, `cancelledAfter` the token after a failed request. -/
structure Attempt where
  cancelled : Bool
  resolved : Resolved
  frames : List String
  posted : Posted
  cancelledAfter : Bool

/-- `received` is a call, `asked` a call of the resolver, `missing` the keys
found to have no URL, `delta` a non-empty delta of the answer and `token` a
delta handed to `on_token`. -/
inductive Event
  | received (messageJson : String)
  | asked (keys : List String)
  | missing (keys : List String)
  | request (r : HttpRequest)
  | delta (text : String)
  | token (text : String)
  | response (failure : Option Status.Error)
  deriving DecidableEq, Repr

def requestOf : Event → Option HttpRequest
  | .request r => some r
  | _ => none

inductive Outcome
  | ok (canonical : String)
  | failed (e : Status.Error)
  | thrown
  deriving DecidableEq, Repr

/-- One call of `SendAsync`. -/
structure Call where
  messageJson : String
  onToken : Bool
  attempts : ℕ → Attempt

structure Result where
  messages : List Value
  events : List Event
  outcome : Outcome

/-- What a conversation is made with. -/
structure Conversation where
  codec : Codec
  opts : OpenAiOptions
  convOpts : ChatConversationOptions

/-- Only transport-level and server-side failures are worth another attempt. -/
def isRetryable (e : Status.Error) : Bool := e.code = .unavailable ∨ e.code = .resourceExhausted

def attachmentInvalid (missing : List String) : Status.Error :=
  ⟨.failedPrecondition, "attachment_invalid: " ++ String.intercalate "," missing⟩

def cancelledError : Status.Error := ⟨.cancelled, "cancelled"⟩

def interrupted (e : Status.Error) : Status.Error :=
  ⟨e.code, "stream interrupted after partial output: " ++ e.message⟩

/-- The accumulator after some frames, and the deltas that are not empty. -/
def feedFrames (C : Codec) : StreamAccumulator → List String → StreamAccumulator × List String
  | acc, [] => (acc, [])
  | acc, frame :: frames =>
    let r := acc.feed C frame
    let s := feedFrames C r.1 frames
    (s.1, if r.2 = "" then s.2 else r.2 :: s.2)

def deltaEvents (onToken : Bool) (deltas : List String) : List Event :=
  deltas.flatMap fun d => if onToken then [.delta d, .token d] else [.delta d]

/-- The messages to send, or why they cannot be: the status and the keys that
are missing. -/
inductive Wire
  | send (wire : List Value)
  | rejected (e : Status.Error) (missing : List String)
  | thrown

/-- How an attempt ends: the call returns and leaves `messages`, or another
attempt may follow. -/
inductive Next
  | stop (outcome : Outcome) (messages : List Value)
  | again (last : Status.Error)

namespace Conversation

variable (B : Conversation)

/-- The history a conversation starts with. -/
def initial : List Value := (systemMessage B.codec B.convOpts.systemMessageJson).toList

/-- The image references of the history, resolved for this attempt. -/
def resolveImages (messages : List Value) (a : Attempt) : List Event × Wire :=
  let keys := collectImageRefKeys messages
  if keys = [] then ([], .send messages)
  else if B.convOpts.imageRefResolver then
    match a.resolved with
    | .thrown => ([.asked keys], .thrown)
    | .failed e => ([.asked keys], .rejected e [])
    | .urls m =>
      let r := substituteImageRefs messages m
      if r.2 = [] then ([.asked keys], .send r.1)
      else ([.asked keys, .missing r.2], .rejected (attachmentInvalid r.2) r.2)
  else ([.missing keys], .rejected (attachmentInvalid keys) keys)

def httpRequest (body : String) : HttpRequest where
  url := B.opts.baseUrl ++ "/chat/completions"
  headers := ("Content-Type", "application/json") ::
    if B.opts.apiKey = "" then [] else [("Authorization", "Bearer " ++ B.opts.apiKey)]
  body := body

/-- The assistant turn that is recorded; a message that does not convert is
not. -/
def record (messages : List Value) (canonical : String) : Next :=
  match toOpenAiMessages B.codec canonical with
  | .ok assistant => .stop (.ok canonical) (messages ++ assistant)
  | .error (.status _) => .stop (.ok canonical) messages
  | .error (.thrown _) => .stop .thrown messages

/-- What follows a request that failed. -/
def afterFailure (messages : List Value) (a : Attempt) (emitted : Bool) (e : Status.Error) : Next :=
  if a.cancelledAfter then .stop (.failed cancelledError) messages
  else if emitted then .stop (.failed (interrupted e)) messages
  else if isRetryable e then .again e
  else .stop (.failed e) messages

/-- The request of an attempt, with the messages as they are sent. -/
def post (messages wire : List Value) (onToken : Bool) (a : Attempt) : List Event × Next :=
  match buildRequestBody B.codec B.opts.model B.convOpts wire true B.opts.strictTools with
  | .error _ => ([], .stop .thrown messages)
  | .ok body =>
    let fed := feedFrames B.codec { provider := B.opts.provider } a.frames
    let sent := .request (B.httpRequest body) :: deltaEvents onToken fed.2
    match a.posted with
    | .thrown => (sent, .stop .thrown messages)
    | .ok => (sent ++ [.response none], B.record messages (fed.1.canonical B.codec))
    | .failed e => (sent ++ [.response (some e)], afterFailure messages a (!fed.2.isEmpty) e)

/-- The body of the retry loop. `previous` is the history before the call. -/
def attempt (previous messages : List Value) (onToken : Bool) (a : Attempt) : List Event × Next :=
  if a.cancelled then ([], .stop (.failed cancelledError) messages)
  else
    let r := B.resolveImages messages a
    match r.2 with
    | .thrown => (r.1, .stop .thrown messages)
    | .rejected e missing => (r.1, .stop (.failed e) (markImageRefsExpired previous missing))
    | .send wire =>
      let s := B.post messages wire onToken a
      (r.1 ++ s.1, s.2)

/-- The retry loop with so many attempts left. -/
def retry (previous messages : List Value) (onToken : Bool) : ℕ → (ℕ → Attempt) → Status.Error → Result
  | 0, _, last => ⟨messages, [], .failed last⟩
  | n + 1, attempts, _ =>
    let r := B.attempt previous messages onToken (attempts 0)
    match r.2 with
    | .stop outcome messages' => ⟨messages', r.1, outcome⟩
    | .again e =>
      let s := retry previous messages onToken n (fun k => attempts (k + 1)) e
      ⟨s.messages, r.1 ++ s.events, s.outcome⟩

/-- `OpenAiConversation::SendAsync`. -/
def sendAsync (messages : List Value) (call : Call) : Result :=
  match toOpenAiMessages B.codec call.messageJson with
  | .error (.status e) => ⟨messages, [], .failed e⟩
  | .error (.thrown _) => ⟨messages, [], .thrown⟩
  | .ok incoming =>
    match repairToolCallPairing (messages ++ incoming) with
    | (repaired, some _) => ⟨repaired, [], .thrown⟩
    | (repaired, none) =>
      if 20 < (collectImageRefKeys repaired).length then
        ⟨if collectImageRefKeys incoming ≠ [] then messages else repaired, [],
          .failed ⟨.invalidArgument, "too many images in session (max 20)"⟩⟩
      else
        B.retry messages repaired call.onToken B.opts.maxRetries.toNat call.attempts
          ⟨.unknown, "no attempt made"⟩

end Conversation

/-- A conversation in use: its history, and all that was seen of it. -/
structure Session where
  messages : List Value
  log : List Event

namespace Conversation

variable (B : Conversation)

def start : Session := ⟨B.initial, []⟩

/-- One call of `SendAsync`, from beginning to end. -/
def step (call : Call) (s : Session) : Option Session :=
  let r := B.sendAsync s.messages call
  some ⟨r.messages, s.log ++ .received call.messageJson :: r.events⟩

/-- The calls of a session, one after the other. -/
def Sends (calls : List Call) (s : Session) : Prop :=
  Stepping.Run B.step (fun _ _ => True) B.start calls s

end Conversation

end AgentFlow.Openai
