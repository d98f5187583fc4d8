/-
# The workflow specification

The messages of `workflow_spec.proto` as the loader fills them. A field that
is not set reads as its default; of `delegates` and `signing` it matters
whether they are set. The maps are sorted by key, so that equal maps are equal
values; the order in which the library iterates over a map is a parameter of
what depends on it (`Iteration`).

Key definitions: `WorkflowSpec`, `AgentDef`, `DelegateSpec`, `Iteration`.
-/
import AgentFlow.Lib.OrderedMap

namespace AgentFlow.Workflow

structure StateFieldDecl where
  type : String := ""
  defaultValueJson : String := ""
  deriving DecidableEq, Repr

structure StateSpec where
  kind : String := ""
  fields : List (String × StateFieldDecl) := []
  messageType : String := ""
  descriptorSetPath : String := ""
  descriptorSetB64 : String := ""
  deriving DecidableEq, Repr

structure ModelSpec where
  maxOutputTokens : ℤ := 0
  constrainedToolCalls : Bool := false
  backend : String := ""
  deriving DecidableEq, Repr

structure DelegateSpec where
  agents : List String := []
  maxDepth : ℕ := 0
  inputTemplate : List (String × String) := []
  goalTemplate : String := ""
  outputExtract : String := ""
  deriving DecidableEq, Repr

structure AgentDef where
  systemPrompt : String := ""
  model : ModelSpec := {}
  tools : List String := []
  delegates : Option DelegateSpec := none
  deriving DecidableEq, Repr

structure Signing where
  algo : String := ""
  keyId : String := ""
  signature : String := ""
  deriving DecidableEq, Repr

structure WorkflowSpec where
  schemaVersion : ℕ := 0
  name : String := ""
  version : String := ""
  state : StateSpec := {}
  agents : List (String × AgentDef) := []
  main : String := ""
  signing : Option Signing := none
  deriving DecidableEq, Repr

/-- An order in which a hash map is iterated over. -/
structure Iteration (ν : Type) where
  order : List (String × ν) → List (String × ν)
  perm : ∀ m, (order m).Perm m

namespace Iteration

variable {ν : Type}

/-- The order of the keys. -/
def byKey : Iteration ν := ⟨id, fun m => List.Perm.refl m⟩

theorem mem_order (I : Iteration ν) {m : List (String × ν)} {b : String × ν} : b ∈ I.order m ↔ b ∈ m :=
  (I.perm m).mem_iff

end Iteration

namespace WorkflowSpec

/-- `FindAgent`. -/
def findAgent (spec : WorkflowSpec) (name : String) : Option AgentDef := spec.agents.lookup name

/-- The agent `parent` is declared to delegate to `child`. -/
def Delegates (spec : WorkflowSpec) (parent child : String) : Prop :=
  ∃ agent d, spec.findAgent parent = some agent ∧ agent.delegates = some d ∧ child ∈ d.agents

end WorkflowSpec

end AgentFlow.Workflow
