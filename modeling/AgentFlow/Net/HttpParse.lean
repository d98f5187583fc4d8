/-
# HTTP response heads and chunked bodies

`ParseResponseHead` and `ChunkedDecoder` of http_parse.cc. A byte is the
character with its code, and the loops have fuel as in `Net.Sse`.

When a chunk size is malformed `Feed` returns at once: what it has decoded in
this call is lost, and so is its place in the buffer, which keeps all its
bytes.

Key definitions: `fromChars`, `parseResponseHead`, `ChunkedDecoder.feed`.
-/
import AgentFlow.Lib.Status
import AgentFlow.Net.Sse

namespace AgentFlow
namespace Net

/-! ### Numbers -/

/-- The value of a digit, of base 16 at most. -/
def digitValue? (c : Char) : Option ℕ :=
  if '0' ≤ c ∧ c ≤ '9' then some (c.toNat - 48)
  else if 'a' ≤ c ∧ c ≤ 'f' then some (c.toNat - 87)
  else if 'A' ≤ c ∧ c ≤ 'F' then some (c.toNat - 55)
  else none

/-- The digits a text starts with. -/
def leadingDigits (base : ℕ) (s : List Char) : List ℕ :=
  (s.map digitValue?).takeWhile (fun d => d.any (· < base)) |>.filterMap id

/-- `std::from_chars` for an unsigned type: the number a text starts with,
which must be below `bound`. -/
def fromChars (base bound : ℕ) (s : List Char) : Option ℕ :=
  let ds := leadingDigits base s
  if ds = [] then none
  else
    let n := ds.foldl (fun n d => n * base + d) 0
    if n < bound then some n else none

/-- `std::from_chars` for a signed type with values from `-bound` on. -/
def fromCharsSigned (bound : ℕ) : List Char → Option ℤ
  | '-' :: s => (fromChars 10 (bound + 1) s).map fun n => -(n : ℤ)
  | s => (fromChars 10 bound s).map fun n => (n : ℤ)

/-! ### The head of a response -/

structure ResponseHead where
  statusCode : ℤ := 0
  headers : List (List Char × List Char) := []
  headBytes : ℕ := 0
  chunked : Bool := false
  contentLength : ℤ := -1
  deriving DecidableEq

def isSpace (c : Char) : Bool :=
  c = ' ' || c = '\t' || c = '\n' || c = '\x0b' || c = '\x0c' || c = '\r'

def trimAscii (s : List Char) : List Char := ((s.dropWhile isSpace).reverse.dropWhile isSpace).reverse

def toLowerAscii (s : List Char) : List Char := s.map Char.toLower

def crlf : List Char := ['\r', '\n']

/-- The lines of the header block, each taken off its front. -/
def headerLines : ℕ → List Char → List (List Char)
  | 0, _ => []
  | _ + 1, [] => []
  | n + 1, block => (splitOnce block crlf).1 :: headerLines n (splitOnce block crlf).2

def addHeader (head : ResponseHead) (line : List Char) : ResponseHead :=
  let name := toLowerAscii (trimAscii (splitOnce line [':']).1)
  let value := trimAscii (splitOnce line [':']).2
  let head :=
    if name = "transfer-encoding".toList ∧ (find "chunked".toList (toLowerAscii value)).isSome then
      { head with chunked := true }
    else if name = "content-length".toList then
      match fromCharsSigned (2 ^ 63) value with
      | some n => { head with contentLength := n }
      | none => head
    else head
  { head with headers := head.headers ++ [(name, value)] }

/-- The head of the response, with no bytes while it is not complete. -/
def parseResponseHead (buf : List Char) : Except Status.Error ResponseHead :=
  match find "\r\n\r\n".toList buf with
  | none => .ok {}
  | some term =>
    let (statusLine, headerBlock) := splitOnce (buf.take term) crlf
    let (version, afterVersion) := splitOnce statusLine [' ']
    if ¬ "HTTP/".toList.isPrefixOf version then .error ⟨.invalidArgument, "malformed HTTP status line"⟩
    else
      match fromCharsSigned (2 ^ 31) (splitOnce afterVersion [' ']).1 with
      | none => .error ⟨.invalidArgument, "malformed HTTP status code"⟩
      | some code =>
        if code < 100 ∨ code > 599 then .error ⟨.invalidArgument, "malformed HTTP status code"⟩
        else
          let lines := (headerLines headerBlock.length headerBlock).filter fun line => line ≠ []
          .ok { lines.foldl addHeader { statusCode := code } with headBytes := term + 4 }

/-! ### Chunked bodies -/

structure ChunkedDecoder where
  buf : List Char := []
  remaining : ℕ := 0
  inChunk : Bool := false
  complete : Bool := false
  deriving DecidableEq

/-- The size in a chunk-size line, without its extension. -/
def chunkSize? (line : List Char) : Option ℕ := fromChars 16 (2 ^ 64) (splitOnce line [';']).1

namespace ChunkedDecoder

/-- The loop of `Feed`, on what is left of the buffer. -/
def loop (whole : List Char) : ℕ → ChunkedDecoder → List Char → ChunkedDecoder × Except Status.Error (List Char)
  | 0, d, out => (d, .ok out)
  | n + 1, d, out =>
    if d.complete then (d, .ok out)
    else if d.inChunk then
      let take := min d.buf.length d.remaining
      let out := out ++ d.buf.take take
      let d := { d with buf := d.buf.drop take, remaining := d.remaining - take }
      if d.remaining > 0 then (d, .ok out)
      else if d.buf.length < 2 then (d, .ok out)
      else loop whole n { d with buf := d.buf.drop 2, inChunk := false } out
    else
      match find crlf d.buf with
      | none => (d, .ok out)
      | some eol =>
        match chunkSize? (d.buf.take eol) with
        | none => ({ d with buf := whole }, .error ⟨.invalidArgument, "malformed chunk size"⟩)
        | some size =>
          let d := { d with buf := d.buf.drop (eol + 2) }
          if size = 0 then ({ d with complete := true }, .ok out)
          else loop whole n { d with remaining := size, inChunk := true } out

def feed (d : ChunkedDecoder) (bytes : List Char) : ChunkedDecoder × Except Status.Error (List Char) :=
  let d := { d with buf := d.buf ++ bytes }
  loop d.buf (d.buf.length + 1) d []

end ChunkedDecoder

example : (ChunkedDecoder.feed {} "3;x=y\r\nabc\r\nB\r\n01234567".toList) =
    (⟨[], 3, true, false⟩, .ok "abc01234567".toList) := by decide +kernel

end Net
end AgentFlow
