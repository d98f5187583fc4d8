/-
# Server-sent events, cut out of a byte stream

`SseFramer` and `SseEventFramer` of http_parse.cc. The bytes of a stream come in any pieces; a
frame ends at a blank line, in LF or in CRLF form, and its `data:` lines are
joined into its payload. A byte is the character with its code.

The loops of the source run until nothing is left to take; here they have as
much fuel as there are bytes, and each round takes at least one.

Key definitions: `find`, `splitOnce`, `framePayload`, `SseFramer.feed`,
`SseFramer.flush`, `SseEventFramer.feed`.
-/
import Mathlib.Data.List.Basic
import Mathlib.Tactic

namespace AgentFlow
namespace Net

/-- The place of the first occurrence of `sep`. -/
def find (sep : List Char) : List Char → Option ℕ
  | [] => if sep = [] then some 0 else none
  | c :: s => if sep.isPrefixOf (c :: s) then some 0 else (find sep s).map (· + 1)

/-- Splits at the first occurrence of `sep`; without one all is in the first
half. -/
def splitOnce (s sep : List Char) : List Char × List Char :=
  match find sep s with
  | none => (s, [])
  | some pos => (s.take pos, s.drop (pos + sep.length))

/-- The lines of a frame, each taken off its front. -/
def frameLines : ℕ → List Char → List (List Char)
  | 0, _ => []
  | _ + 1, [] => []
  | n + 1, frame => (splitOnce frame ['\n']).1 :: frameLines n (splitOnce frame ['\n']).2

/-- A line without the carriage return at its end. -/
def stripCr (line : List Char) : List Char := if line.getLast? = some '\r' then line.dropLast else line

/-- The value of a field, without the one space it may start with. -/
def stripSpace (value : List Char) : List Char := if value.head? = some ' ' then value.tail else value

/-- The value of a `data:` line; blank lines, comments and other fields have
none. -/
def dataValue? (line : List Char) : Option (List Char) :=
  let line := stripCr line
  if line = [] ∨ line.head? = some ':' then none
  else if (splitOnce line [':']).1 ≠ "data".toList then none
  else some (stripSpace (splitOnce line [':']).2)

/-- Joins the `data:` lines of one frame into its payload. -/
def framePayload (frame : List Char) : List Char :=
  ((frameLines frame.length frame).filterMap dataValue?).foldl
    (fun payload value => (if payload = [] then payload else payload ++ ['\n']) ++ value) []

/-- Where the first frame of the buffer ends, and the length of the blank line
that ends it. -/
def frameEnd? (buf : List Char) : Option (ℕ × ℕ) :=
  match find "\n\n".toList buf, find "\r\n\r\n".toList buf with
  | none, none => none
  | some lf, none => some (lf, 2)
  | none, some crlf => some (crlf, 4)
  | some lf, some crlf => if crlf < lf then some (crlf, 4) else some (lf, 2)

/-- The payload that ends a stream and is not delivered. -/
def done : List Char := "[DONE]".toList

structure SseFramer where
  buf : List Char := []
  sawDone : Bool := false
  deriving DecidableEq

namespace SseFramer

/-- The loop of `Feed`, which takes one frame a round. -/
def drain : ℕ → SseFramer → List (List Char) → SseFramer × List (List Char)
  | 0, f, out => (f, out)
  | n + 1, f, out =>
    match frameEnd? f.buf with
    | none => (f, out)
    | some (stop, sepLen) =>
      let payload := framePayload (f.buf.take stop)
      let f := { f with buf := f.buf.drop (stop + sepLen) }
      if payload = [] then drain n f out
      else if payload = done then drain n { f with sawDone := true } out
      else drain n f (out ++ [payload])

def feed (f : SseFramer) (bytes : List Char) : SseFramer × List (List Char) :=
  let f := { f with buf := f.buf ++ bytes }
  f.drain f.buf.length []

/-- The end of the stream stands for the blank line that ends the last frame. -/
def flush (f : SseFramer) : SseFramer × List (List Char) :=
  let payload := framePayload f.buf
  let f := { f with buf := [] }
  if payload = [] then (f, [])
  else if payload = done then ({ f with sawDone := true }, [])
  else (f, [payload])

end SseFramer

example : (SseFramer.feed {} "data: a\r\ndata:b\r\n\r\n: c\n\ndata: [DONE]\n\ndata: e".toList) =
    (⟨"data: e".toList, true⟩, ["a\nb".toList]) := by decide +kernel

/-! ### Events with their other fields -/

structure SseEvent where
  data : List Char := []
  id : Option (List Char) := none
  event : List Char := []
  retryMs : Option ℕ := none
  deriving DecidableEq

/-- The number in a `retry:` line, if it is one that is taken. -/
def retryValue? (value : List Char) : Option ℕ :=
  if value = [] then none
  else value.foldl (fun retry ch => retry.bind fun n =>
    if ch < '0' ∨ '9' < ch ∨ n > 300000 then none else some (n * 10 + (ch.toNat - 48))) (some 0)

/-- One line of a frame; the flag is whether there was a `data:` line. -/
def addField (ev : SseEvent × Bool) (line : List Char) : SseEvent × Bool :=
  let line := stripCr line
  if line = [] ∨ line.head? = some ':' then ev
  else
    let name := (splitOnce line [':']).1
    let value := stripSpace (splitOnce line [':']).2
    if name = "data".toList then
      ({ ev.1 with data := (if ev.2 then ev.1.data ++ ['\n'] else ev.1.data) ++ value }, true)
    else if name = "id".toList ∧ '\x00' ∉ value then ({ ev.1 with id := some value }, ev.2)
    else if name = "event".toList then ({ ev.1 with event := value }, ev.2)
    else if name = "retry".toList then
      match retryValue? value with
      | some ms => ({ ev.1 with retryMs := some ms }, ev.2)
      | none => ev
    else ev

structure SseEventFramer where
  buf : List Char := []
  exceededLimit : Bool := false
  deriving DecidableEq

namespace SseEventFramer

def drain : ℕ → SseEventFramer → List SseEvent → SseEventFramer × List SseEvent
  | 0, f, out => (f, out)
  | n + 1, f, out =>
    if ((frameEnd? f.buf).elim f.buf.length Prod.fst) > 65536 then ({ buf := [], exceededLimit := true }, out)
    else
      match frameEnd? f.buf with
      | none => (f, out)
      | some (stop, sepLen) =>
        let (ev, hasData) := (frameLines stop (f.buf.take stop)).foldl addField ({}, false)
        let f := { f with buf := f.buf.drop (stop + sepLen) }
        drain n f (if hasData || ev.id.isSome || ev.retryMs.isSome then out ++ [ev] else out)

/-- One round more than there are bytes: the limit is looked at once more when
the last frame is taken. -/
def feed (f : SseEventFramer) (bytes : List Char) : SseEventFramer × List SseEvent :=
  if f.exceededLimit then (f, [])
  else
    let f := { f with buf := f.buf ++ bytes }
    f.drain (f.buf.length + 1) []

end SseEventFramer

end Net
end AgentFlow
