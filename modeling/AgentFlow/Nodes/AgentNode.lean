/-
# The agent node

`agentflow/nodes/agent_node.{h,cc}`: `Run` sends the user's text to the
model, dispatches the tool calls of each response and sends their results,
until a response has none, the turns are used up or the token has fired.

Here is what it does with a response and with the results of the tools, and
where its coroutine may be suspended (`Pc`). The tool calls of a response are
untrusted: entries that are no objects are skipped, and what a call lacks is
the empty string.

Key definitions: `Call`, `readCall`, `toolCalls`, `toolMessage`, `next`, `Pc`.
-/
import AgentFlow.Inference.CanonicalMessage
import AgentFlow.Lib.Status

namespace AgentFlow.AgentNode

open Json

/-- A tool call as it is dispatched. -/
structure Call where
  name : String
  callId : String
  args : String
  deriving DecidableEq, Repr

/-- Arguments are a string, or become one. -/
def argsText (C : Codec) (args : Value) : String :=
  match args.str? with
  | some s => s
  | none => C.dump args

/-- An entry of `tool_calls`: the name and the arguments are at the top level
or in the member `function`. -/
def readCall (C : Codec) (tc : Value) : Call where
  name :=
    match tc.stringAt? "name" with
    | some name => name
    | none => ((tc.find? "function").bind (·.stringAt? "name")).getD ""
  callId := (tc.stringAt? "id").getD ""
  args :=
    match tc.find? "arguments" with
    | some args => argsText C args
    | none => (((tc.find? "function").bind (·.find? "arguments")).map (argsText C)).getD ""

/-- The tool calls of a response, if it has any: objects only. -/
def toolCalls (C : Codec) (resp : Value) : Option (List Call) :=
  match resp.arrayAt? "tool_calls" with
  | some (tc :: tcs) => some (((tc :: tcs).filter Value.isObject).map (readCall C))
  | _ => none

/-- What is sent for a call whose coroutine ended with an exception. -/
def toolExecutionFailed : String := "\x7b\"error\":\"tool_execution_failed\"\x7d"

/-- One item of the message of the tool role. -/
def toolEntry (call : Call) (value : String) : Value :=
  .object ([("name", .str call.name), ("response", .object [("value", .str value)])] ++
    if call.callId = "" then [] else [("id", .str call.callId)])

/-- The results of the calls, in the order of the calls. -/
def toolMessage (C : Codec) (results : List (Call × Option String)) : String :=
  C.dump (.object [("role", .str "tool"),
    ("content", .arr (results.map fun r => toolEntry r.1 (r.2.getD toolExecutionFailed)))])

/-- What follows a response. -/
inductive Next
  | tools (calls : List Call)
  | answer (text : String)
  deriving DecidableEq, Repr

/-- A response that is no JSON is the answer itself, and so is one without
text. -/
def next (C : Codec) (resp : String) : Next :=
  match C.parse resp with
  | none => .answer resp
  | some v =>
    match toolCalls C v with
    | some calls => .tools calls
    | none =>
      let text := extractAssistantText C resp
      .answer (if text = "" then resp else text)

def maximumIterations : String := "Agent reached maximum iterations without a final answer."

/-- What `Run` writes to the state. -/
def output (fired : Bool) (finalAnswer : String) : String :=
  if finalAnswer = "" ∧ ¬ fired then maximumIterations else finalAnswer

/-! ### The coroutine -/

/-- What `Run` needs before its first turn: a backend, the options of the
conversation and the user's message, which may throw as they are built, and
the conversation. -/
structure Config where
  backend : Bool
  options : Except String Unit
  created : Bool
  message : Except String String
  maxIter : ℕ

inductive Pc
  | start
  /-- The head of the loop. -/
  | loop (iter : ℕ) (message : String)
  /-- About to call `SendAsync`. -/
  | send (iter : ℕ) (message : String)
  | sending (iter : ℕ)
  /-- The calls are dispatched, and their results collected. -/
  | tools (iter : ℕ) (calls : List Call)
  | finish (finalAnswer : String)
  /-- `Run` returned; what it wrote, if it did. -/
  | returned (text : Option String)
  | threw (what : Option String)
  deriving DecidableEq, Repr

namespace Pc

/-- `Run` up to the loop. -/
def begin (N : Config) (fired : Bool) : Pc :=
  if !N.backend then threw (some "AgentNode: backend and io_ctx must be configured")
  else if fired then returned none
  else
    match N.options with
    | .error what => threw (some what)
    | .ok () =>
      if !N.created then threw (some "AgentNode: failed to create conversation on backend litert-lm")
      else
        match N.message with
        | .error what => threw (some what)
        | .ok message => loop 0 message

/-- The head of the loop. -/
def enter (N : Config) (iter : ℕ) (message : String) (fired : Bool) : Pc :=
  if iter < N.maxIter ∧ ¬ fired then send iter message else finish ""

/-- `SendAsync` returned a response. -/
def responded (C : Codec) (iter : ℕ) (resp : String) : Pc :=
  match next C resp with
  | .tools calls => tools iter calls
  | .answer text => finish text

/-- `SendAsync` returned a status: only `Cancelled` is no failure. -/
def failed (e : Status.Error) : Pc :=
  if e.code = .cancelled then finish "" else threw (some ("AgentNode: backend send failed: " ++ e.message))

/-- All results are there. -/
def collected (C : Codec) (iter : ℕ) (calls : List Call) (results : List (Option String)) : Pc :=
  loop (iter + 1) (toolMessage C (calls.zip results))

end Pc

end AgentFlow.AgentNode
