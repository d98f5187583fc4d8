/-
# Accumulating a streamed answer

`agentflow/inference/openai/stream_accumulator.{h,cc}` and `token_usage.h`:
each frame of the stream adds to the text, the reasoning and the tool calls,
and `canonical` is the message that all frames fed so far make. A frame that
is not as it should be is passed over, field by field.

Key definitions: `StreamAccumulator`, `StreamAccumulator.feed`,
`StreamAccumulator.canonical`.
-/
import AgentFlow.Inference.Openai.MessageMap

namespace AgentFlow.Openai

open Json

inductive UsageProvider
  | openAi
  | google
  | deepSeek
  deriving DecidableEq, Repr

/-- The largest `long long`. -/
def maxLongLong : ℤ := 2 ^ 63 - 1

/-- The count, if `ValidTokenCount`. -/
def tokenCount? (count : Value) : Option ℤ :=
  count.int?.filter fun n => 0 ≤ n ∧ n ≤ maxLongLong

def tokensAt? (v : Value) (k : String) : Option ℤ := (v.find? k).bind tokenCount?

/-- `OutputTokenCount`: only one provider's count leaves the thinking tokens
out. -/
def outputTokenCount (usage : Value) (provider : UsageProvider) : Option ℤ := do
  let completion ← tokensAt? usage "completion_tokens"
  match provider with
  | .google =>
    match (usage.find? "completion_tokens_details").bind (tokensAt? · "reasoning_tokens") with
    | some thinking => if maxLongLong - completion < thinking then completion else completion + thinking
    | none => completion
  | .deepSeek => completion
  | .openAi => completion

structure PartialCall where
  id : String := ""
  name : String := ""
  arguments : String := ""
  deriving DecidableEq, Repr

/-- The fields of `StreamAccumulator`. -/
structure StreamAccumulator where
  provider : UsageProvider
  text : String := ""
  finishReason : String := ""
  reasoning : String := ""
  calls : List (ℤ × PartialCall) := []
  inputTokens : ℤ := 0
  outputTokens : ℤ := 0
  model : String := ""

namespace StreamAccumulator

/-- `get<int>`: the low 32 bits. -/
def toInt32 (i : ℤ) : ℤ := i.bmod (2 ^ 32)

/-- The index of a tool-call entry: 0 if it has none, nothing if it has one
that is no integer. -/
def callIndex (tc : Value) : Option ℤ :=
  match tc.find? "index" with
  | none => some 0
  | some v => v.int?.map toInt32

def PartialCall.update (call : PartialCall) (tc : Value) : PartialCall :=
  let fn := (tc.find? "function").filter Value.isObject
  { id := (tc.stringAt? "id").getD call.id
    name := (fn.bind (·.stringAt? "name")).getD call.name
    arguments := call.arguments ++ (fn.bind (·.stringAt? "arguments")).getD "" }

/-- One entry of a delta's `tool_calls`. -/
def feedCall (calls : List (ℤ × PartialCall)) (tc : Value) : List (ℤ × PartialCall) :=
  if tc.isObject then
    match callIndex tc with
    | some index =>
      OrderedMap.insert index (PartialCall.update ((calls.lookup index).getD {}) tc) calls
    | none => calls
  else calls

def feedDelta (acc : StreamAccumulator) (delta : Value) : StreamAccumulator :=
  { acc with
    text := acc.text ++ (delta.stringAt? "content").getD ""
    reasoning := acc.reasoning ++ (delta.stringAt? "reasoning_content").getD ""
    calls := ((delta.arrayAt? "tool_calls").getD []).foldl feedCall acc.calls }

/-- The model and the token counts, which a frame may carry without any
choice. -/
def feedUsage (acc : StreamAccumulator) (f : Value) : StreamAccumulator :=
  let usage := (f.find? "usage").filter Value.isObject
  { acc with
    model := if acc.model = "" then (f.stringAt? "model").getD acc.model else acc.model
    inputTokens := (usage.bind (tokensAt? · "prompt_tokens")).getD acc.inputTokens
    outputTokens := (usage.bind (outputTokenCount · acc.provider)).getD acc.outputTokens }

/-- The first choice of a frame, if it is an object. -/
def choice? (f : Value) : Option Value :=
  (((f.arrayAt? "choices").getD []).head?).filter Value.isObject

def delta? (choice : Value) : Option Value := (choice.find? "delta").filter Value.isObject

/-- `StreamAccumulator::Feed` of a frame that parses. -/
def feedFrame (acc : StreamAccumulator) (f : Value) : StreamAccumulator × String :=
  let acc := acc.feedUsage f
  match choice? f with
  | none => (acc, "")
  | some choice =>
    let acc := { acc with finishReason := (choice.stringAt? "finish_reason").getD acc.finishReason }
    match delta? choice with
    | none => (acc, "")
    | some delta => (acc.feedDelta delta, (delta.stringAt? "content").getD "")

/-- `StreamAccumulator::Feed`: the delta of text that the frame carries. -/
def feed (C : Codec) (acc : StreamAccumulator) (frame : String) : StreamAccumulator × String :=
  match C.parse frame with
  | none => (acc, "")
  | some f => acc.feedFrame f

def callValue (call : PartialCall) : Value :=
  .object [("id", .str call.id), ("type", .str "function"),
    ("function", .object [("name", .str call.name), ("arguments", .str call.arguments)])]

/-- A member that is only written under a condition. -/
def insertIf (p : Prop) [Decidable p] (k : String) (v : Value) (ms : List (String × Value)) :
    List (String × Value) :=
  if p then OrderedMap.insert k v ms else ms

/-- `StreamAccumulator::Canonical` before it is printed. -/
def canonicalValue (acc : StreamAccumulator) : Value :=
  let out := OrderedMap.insert "content" (.arr [textItem acc.text]) [("role", .str "assistant")]
  let out := insertIf (acc.reasoning ≠ "") "reasoning_content" (.str acc.reasoning) out
  let out := insertIf (acc.finishReason ≠ "") "finish_reason" (.str acc.finishReason) out
  let out := insertIf (0 < acc.inputTokens ∨ 0 < acc.outputTokens) "usage"
    (.object [("input_tokens", .int acc.inputTokens), ("output_tokens", .int acc.outputTokens)]) out
  let out := insertIf (acc.model ≠ "") "model" (.str acc.model) out
  .obj (insertIf (acc.calls ≠ []) "tool_calls" (.arr (acc.calls.map fun c => callValue c.2)) out)

/-- `StreamAccumulator::Canonical`. -/
def canonical (C : Codec) (acc : StreamAccumulator) : String := C.dump acc.canonicalValue

end StreamAccumulator

end AgentFlow.Openai
