/-
# Canonical assistant messages

`agentflow/inference/canonical_message.{h,cc}`: the text of an assistant
message, the removal of the special tokens of a model from its JSON, and the
assembly of one message from the envelopes that the on-device engine streams.
A chunk that is no JSON is text.

Key definitions: `extractAssistantText`, `decodeSpecialTokens`,
`LiteRtStreamAssembler`.
-/
import AgentFlow.Lib.Json

namespace AgentFlow

open Json

def itemText (item : Value) : String :=
  if item.stringAt? "type" = some "text" then (item.stringAt? "text").getD "" else ""

/-- `ExtractAssistantText` of a message that parses. -/
def assistantText (resp : Value) : String :=
  String.join (((resp.arrayAt? "content").getD []).map itemText)

/-- `ExtractAssistantText`. -/
def extractAssistantText (C : Codec) (canonicalJson : String) : String :=
  match C.parse canonicalJson with
  | some resp => assistantText resp
  | none => ""

/-- `JsonEscape`: only the quote and the backslash. -/
def jsonEscape (raw : List Char) : List Char :=
  raw.flatMap fun c => if c = '"' ∨ c = '\\' then ['\\', c] else [c]

/-- Erases each occurrence of the needle, from left to right; `skip`
characters of one are still to be dropped. -/
def eraseFrom (needle : List Char) : ℕ → List Char → List Char
  | _, [] => []
  | skip + 1, _ :: rest => eraseFrom needle skip rest
  | 0, c :: rest =>
    if needle.isPrefixOf (c :: rest) then eraseFrom needle (needle.length - 1) rest
    else c :: eraseFrom needle 0 rest

def eraseAll (text needle : List Char) : List Char := eraseFrom needle 0 text

/-- The special tokens of a model. -/
structure ModelSpecialTokens where
  strip : List String

/-- What is searched for: an empty token is not. -/
def ModelSpecialTokens.needles (tokens : ModelSpecialTokens) : List (List Char) :=
  (tokens.strip.map fun t => jsonEscape t.toList).filter (· ≠ [])

/-- `DecodeSpecialTokens`. -/
def decodeSpecialTokens (responseJson : String) (tokens : ModelSpecialTokens) : String :=
  String.ofList (tokens.needles.foldl eraseAll responseJson.toList)

/-- The text of an assistant message as a message. -/
def textMessage (text : String) : Value :=
  .object [("role", .str "assistant"),
    ("content", .arr [.object [("type", .str "text"), ("text", .str text)]])]

/-- The fields of `LiteRtStreamAssembler`. -/
structure LiteRtStreamAssembler where
  deltas : List String := []
  text : String := ""
  toolCallJson : String := ""
  deriving DecidableEq, Repr

namespace LiteRtStreamAssembler

/-- What a chunk is. -/
inductive Chunk
  | toolCalls (json : String)
  | text (delta : String)

/-- A message with tool calls is kept whole; of another message the text
counts. -/
def chunkOf (C : Codec) (chunk : String) : Chunk :=
  match C.parse chunk with
  | none => .text chunk
  | some cj =>
    match cj.arrayAt? "tool_calls" with
    | some (_ :: _) => .toolCalls (C.dump cj)
    | _ => .text (extractAssistantText C chunk)

/-- `LiteRtStreamAssembler::Feed`. -/
def feed (C : Codec) (acc : LiteRtStreamAssembler) (chunk : String) : LiteRtStreamAssembler :=
  if chunk = "" then acc
  else
    match chunkOf C chunk with
    | .toolCalls json => { acc with toolCallJson := json }
    | .text delta =>
      if delta = "" then acc else { acc with deltas := acc.deltas ++ [delta], text := acc.text ++ delta }

/-- `LiteRtStreamAssembler::Canonical`. -/
def canonical (C : Codec) (acc : LiteRtStreamAssembler) : String :=
  if acc.toolCallJson ≠ "" then acc.toolCallJson else C.dump (textMessage acc.text)

end LiteRtStreamAssembler

end AgentFlow
