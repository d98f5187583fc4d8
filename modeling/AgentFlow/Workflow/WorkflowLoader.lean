/-
# Loading a workflow

`agentflow/workflow/workflow_loader.{h,cc}`: the document is parsed into the
specification, which is then checked (limits, references, cycles of
delegation, templates); its signature is verified over the canonical form of
the document, and the descriptors of a dynamic state are built.

Key definitions: `parseRoot`, `checkReferences`, `checkAcyclic`,
`checkTemplates`, `canonicalForm`, `verifySignature`, `load`.
-/
import AgentFlow.Lib.DepthFirst
import AgentFlow.Lib.JsonSort
import AgentFlow.Lib.Status
import AgentFlow.Workflow.Effects

namespace AgentFlow.Workflow

open Json

/-- A file of a descriptor set, by its name and its contents. -/
structure FileDescriptor where
  name : String
  contents : List UInt8
  deriving DecidableEq, Repr

/-- What the loader runs on: the JSON of sorted and of ordered objects, the
registered tools, the cryptography, the files, the descriptors, and the orders
of the hash maps of agents and of templates. -/
structure LoaderHost where
  sorted : Codec
  ordered : Codec
  registry : ToolRegistry
  hmacSha256 : String → String → List UInt8
  encodeBlock : List UInt8 → String
  base64Unescape : String → Option (List UInt8)
  readFile : String → Option (List UInt8)
  parseDescriptorSet : List UInt8 → Option (List FileDescriptor)
  buildFile : List FileDescriptor → FileDescriptor → Bool
  findMessageType : List FileDescriptor → String → Bool
  agentOrder : Iteration AgentDef := .byKey
  templateOrder : Iteration String := .byKey

/-- `WorkflowLoader::Options`. -/
structure LoaderOptions where
  maxJsonBytes : ℕ := 256 * 1024
  /-- `KeyResolver::Resolve`. -/
  keyResolver : Option (String → Except Status.Error String) := none
  requireSigned : Bool := false

/-- A workflow that was loaded, with the descriptor pool of its state. -/
structure LoadedWorkflow where
  spec : WorkflowSpec
  statePool : Option (List FileDescriptor) := none
  deriving DecidableEq, Repr

namespace WorkflowLoader

def invalidArgument (message : String) : Status.Error := ⟨.invalidArgument, message⟩

def resourceExhausted (message : String) : Status.Error := ⟨.resourceExhausted, message⟩

/-! ### From JSON to the specification -/

/-- The string member `k`; empty if it is none. -/
def textAt (j : Value) (k : String) : String := (j.stringAt? k).getD ""

/-- The integer member `k` as a `uint32_t`. -/
def uint32At (j : Value) (k : String) : ℕ := (((j.find? k).bind Value.int?).getD 0 % 2 ^ 32).toNat

/-- The integer member `k` as an `int32_t`. -/
def int32At (j : Value) (k : String) : ℤ := (((j.find? k).bind Value.int?).getD 0).bmod (2 ^ 32)

/-- The members of an object, each parsed and put into a map. -/
def parseMembers {ν : Type} (f : String → Value → Except Status.Error ν) (ms : List (String × Value)) :
    Except Status.Error (List (String × ν)) :=
  ms.foldlM (fun m b => (f b.1 b.2).map fun v => OrderedMap.insert b.1 v m) []

/-- The strings of an array. -/
def parseStrings (message : String) (items : List Value) : Except Status.Error (List String) :=
  items.mapM fun v =>
    match v.str? with
    | some s => .ok s
    | none => .error (invalidArgument message)

def parseStateField (C : Codec) (fname : String) (fdecl : Value) : Except Status.Error StateFieldDecl :=
  if fdecl.isObject then
    .ok { type := textAt fdecl "type", defaultValueJson := ((fdecl.find? "default").map C.dump).getD "" }
  else .error (invalidArgument ("state.fields[" ++ fname ++ "] must be an object"))

def parseStateFields (C : Codec) (j : Value) : Except Status.Error (List (String × StateFieldDecl)) :=
  match j.find? "fields" with
  | none => .ok []
  | some (.obj ms) => parseMembers (parseStateField C) ms
  | some _ => .error (invalidArgument "state.fields must be an object")

/-- `ParseStateSpec`. -/
def parseStateSpec (C : Codec) (j : Value) : Except Status.Error StateSpec :=
  if j.isObject then do
    let fields ← parseStateFields C j
    return { kind := textAt j "kind", fields := fields, messageType := textAt j "message_type",
             descriptorSetPath := textAt j "descriptor_set_path", descriptorSetB64 := textAt j "descriptor_set_b64" }
  else .error (invalidArgument "state must be an object")

def parseRoster (j : Value) : Except Status.Error (List String) :=
  match j.find? "agents" with
  | none => .ok []
  | some (.arr items) => parseStrings "delegates.agents entries must be strings" items
  | some _ => .error (invalidArgument "delegates.agents must be an array")

def parseTemplate (key : String) (v : Value) : Except Status.Error String :=
  match v.str? with
  | some s => .ok s
  | none => .error (invalidArgument ("delegates.input_template[" ++ key ++ "] must be a string"))

def parseInputTemplate (j : Value) : Except Status.Error (List (String × String)) :=
  match j.find? "input_template" with
  | none => .ok []
  | some (.obj ms) => parseMembers parseTemplate ms
  | some _ => .error (invalidArgument "delegates.input_template must be an object")

def parallelUnsupported : String :=
  "delegates.parallel is not a supported key — parallel execution is the default behaviour of the " ++
    "tool-dispatch loop and needs no declaration. Remove it."

/-- `ParseDelegateSpec`. -/
def parseDelegateSpec (j : Value) : Except Status.Error DelegateSpec :=
  if j.isObject then do
    let agents ← parseRoster j
    if j.contains "parallel" then .error (invalidArgument parallelUnsupported)
    else
      let inputTemplate ← parseInputTemplate j
      return { agents := agents, maxDepth := uint32At j "max_depth", inputTemplate := inputTemplate,
               goalTemplate := textAt j "goal_template", outputExtract := textAt j "output_extract" }
  else .error (invalidArgument "delegates must be an object")

def parseBackend (agentName : String) (m : Value) : Except Status.Error String :=
  match m.find? "backend" with
  | none => .ok ""
  | some (.str s) => .ok s
  | some _ => .error (invalidArgument ("agent '" ++ agentName ++ "': model.backend must be a string"))

def parseModel (agentName : String) (j : Value) : Except Status.Error ModelSpec :=
  match j.find? "model" with
  | none => .ok {}
  | some m =>
    if m.isObject then do
      let backend ← parseBackend agentName m
      return { maxOutputTokens := int32At m "max_output_tokens"
               constrainedToolCalls := m.find? "constrained_tool_calls" == some (.bool true), backend := backend }
    else .error (invalidArgument ("agent '" ++ agentName ++ "'.model must be an object"))

def parseTools (agentName : String) (j : Value) : Except Status.Error (List String) :=
  match j.find? "tools" with
  | none => .ok []
  | some (.arr items) => parseStrings ("agent '" ++ agentName ++ "'.tools entries must be strings") items
  | some _ => .error (invalidArgument ("agent '" ++ agentName ++ "'.tools must be an array"))

def parseDelegates (agentName : String) (j : Value) : Except Status.Error (Option DelegateSpec) :=
  match j.find? "delegates" with
  | none => .ok none
  | some d =>
    match parseDelegateSpec d with
    | .ok spec => .ok (some spec)
    | .error e => .error (invalidArgument ("agent '" ++ agentName ++ "': " ++ e.message))

/-- `ParseAgentDef`. -/
def parseAgentDef (agentName : String) (j : Value) : Except Status.Error AgentDef :=
  if j.isObject then do
    let model ← parseModel agentName j
    let tools ← parseTools agentName j
    let delegates ← parseDelegates agentName j
    return { systemPrompt := textAt j "system_prompt", model := model, tools := tools, delegates := delegates }
  else .error (invalidArgument ("agent '" ++ agentName ++ "' must be an object"))

/-- `ParseSigning`. -/
def parseSigning (j : Value) : Except Status.Error Signing :=
  if j.isObject then
    .ok { algo := textAt j "algo", keyId := textAt j "key_id", signature := textAt j "signature" }
  else .error (invalidArgument "signing must be an object")

def parseState (C : Codec) (root : Value) : Except Status.Error StateSpec :=
  match root.find? "state" with
  | none => .ok {}
  | some j => parseStateSpec C j

def parseAgents (root : Value) : Except Status.Error (List (String × AgentDef)) :=
  match root.find? "agents" with
  | none => .ok []
  | some (.obj ms) => parseMembers parseAgentDef ms
  | some _ => .error (invalidArgument "agents must be an object")

def parseSignature (root : Value) : Except Status.Error (Option Signing) :=
  match root.find? "signing" with
  | none => .ok none
  | some j => (parseSigning j).map some

/-- `ParseRoot`. -/
def parseRoot (C : Codec) (root : Value) : Except Status.Error WorkflowSpec :=
  if root.isObject then do
    let state ← parseState C root
    let agents ← parseAgents root
    let signing ← parseSignature root
    return { schemaVersion := uint32At root "schema_version", name := textAt root "name",
             version := textAt root "version", state := state, agents := agents, main := textAt root "main",
             signing := signing }
  else .error (invalidArgument "workflow root must be a JSON object")

/-! ### The checks -/

def kMaxAgents : ℕ := 32

def kMaxToolsPerAgent : ℕ := 64

def kMaxDelegateAgents : ℕ := 16

def kMaxDelegateDepth : ℕ := 8

/-- A condition that is to hold. -/
def require (p : Prop) [Decidable p] (e : Status.Error) : Except Status.Error Unit := if p then .ok () else .error e

def checkDelegateLimits (name : String) (d : DelegateSpec) : Except Status.Error Unit := do
  require (d.agents.length ≤ kMaxDelegateAgents) (resourceExhausted ("agent '" ++ name ++ "' delegates " ++
    toString d.agents.length ++ " agents (limit " ++ toString kMaxDelegateAgents ++ ")"))
  require (d.maxDepth ≤ kMaxDelegateDepth) (resourceExhausted ("agent '" ++ name ++ "' delegate max_depth " ++
    toString d.maxDepth ++ " > limit " ++ toString kMaxDelegateDepth))

def checkAgentLimits (b : String × AgentDef) : Except Status.Error Unit := do
  require (b.2.tools.length ≤ kMaxToolsPerAgent) (resourceExhausted ("agent '" ++ b.1 ++ "' has " ++
    toString b.2.tools.length ++ " tools (limit " ++ toString kMaxToolsPerAgent ++ ")"))
  b.2.delegates.forM (checkDelegateLimits b.1)

def checkSize (bytes maxJsonBytes : ℕ) : Except Status.Error Unit :=
  require (bytes ≤ maxJsonBytes) (resourceExhausted ("workflow json size " ++ toString bytes ++ " > limit " ++
    toString maxJsonBytes))

/-- `CheckResourceLimits`. -/
def checkResourceLimits (L : LoaderHost) (spec : WorkflowSpec) (bytes maxJsonBytes : ℕ) :
    Except Status.Error Unit := do
  checkSize bytes maxJsonBytes
  require (spec.agents.length ≤ kMaxAgents) (resourceExhausted ("agent count " ++ toString spec.agents.length ++
    " > limit " ++ toString kMaxAgents))
  (L.agentOrder.order spec.agents).forM checkAgentLimits

def checkTool (L : LoaderHost) (agentName t : String) : Except Status.Error Unit := do
  require (t ≠ "delegate") (invalidArgument ("agent '" ++ agentName ++
    "' references reserved tool name 'delegate' (auto-registered by the runtime)"))
  require (L.registry.has t) (invalidArgument ("agent '" ++ agentName ++ "' references unknown tool '" ++ t ++ "'"))

def checkTarget (spec : WorkflowSpec) (agentName target : String) : Except Status.Error Unit :=
  require (spec.findAgent target ≠ none) (invalidArgument ("agent '" ++ agentName ++
    "' delegates to unknown agent '" ++ target ++ "'"))

def checkAgentReferences (L : LoaderHost) (spec : WorkflowSpec) (b : String × AgentDef) : Except Status.Error Unit := do
  b.2.tools.forM (checkTool L b.1)
  b.2.delegates.forM fun d => d.agents.forM (checkTarget spec b.1)

/-- `CheckReferences`. -/
def checkReferences (L : LoaderHost) (spec : WorkflowSpec) : Except Status.Error Unit := do
  require (spec.main ≠ "") (invalidArgument "main is required")
  require (spec.findAgent spec.main ≠ none) (invalidArgument ("main '" ++ spec.main ++ "' is not a declared agent"))
  (L.agentOrder.order spec.agents).forM (checkAgentReferences L spec)

/-- A path of a template that is read from the state has to name a field. -/
def checkPath (agentName location : String) (fields : List String) : List String → Except Status.Error Unit
  | ["state"] => .error (invalidArgument ("agent '" ++ agentName ++ "' " ++ location ++
      ": template '\x7b\x7bstate\x7d\x7d' missing field name"))
  | "state" :: field :: _ => require (field ∈ fields) (invalidArgument ("agent '" ++ agentName ++ "' " ++ location ++
      ": references unknown state field '" ++ field ++ "'"))
  | _ => .ok ()

/-- `CheckOneTemplate`. -/
def checkOneTemplate (agentName location source : String) (fields : List String) : Except Status.Error Unit :=
  match TemplateString.parse source with
  | .error message => .error (invalidArgument ("agent '" ++ agentName ++ "' " ++ location ++ ": " ++ message))
  | .ok parsed => parsed.paths.forM (checkPath agentName location fields)

def checkGoalTemplate (fields : List String) (agentName : String) (d : DelegateSpec) : Except Status.Error Unit :=
  if d.goalTemplate = "" then .ok ()
  else checkOneTemplate agentName "delegates.goal_template" d.goalTemplate fields

def checkDelegateTemplates (L : LoaderHost) (fields : List String) (agentName : String) (d : DelegateSpec) :
    Except Status.Error Unit := do
  checkGoalTemplate fields agentName d
  (L.templateOrder.order d.inputTemplate).forM fun b =>
    checkOneTemplate agentName ("delegates.input_template[" ++ b.1 ++ "]") b.2 fields

/-- `CheckTemplates`. -/
def checkTemplates (L : LoaderHost) (spec : WorkflowSpec) : Except Status.Error Unit :=
  (L.agentOrder.order spec.agents).forM fun b =>
    b.2.delegates.forM (checkDelegateTemplates L (spec.state.fields.map Prod.fst) b.1)

end WorkflowLoader

/-- The agents that `name` may delegate to. -/
def WorkflowSpec.children (spec : WorkflowSpec) (name : String) : List String :=
  (((spec.findAgent name).bind AgentDef.delegates).map DelegateSpec.agents).getD []

namespace WorkflowLoader

/-- `CheckAcyclic`. -/
def checkAcyclic (L : LoaderHost) (spec : WorkflowSpec) : Except Status.Error Unit :=
  match DepthFirst.search spec.children ((L.agentOrder.order spec.agents).map Prod.fst)
      (spec.agents.map fun b => (b.1, .white)) with
  | .ok _ => .ok ()
  | .error child => .error (invalidArgument ("delegation cycle detected through agent '" ++ child ++ "'"))

/-! ### The signature -/

mutual

/-- The value with the members of its objects sorted; the signature is left
out at the root. -/
def canon (isRoot : Bool) : Value → Value
  | .obj ms => .obj (canonMembers isRoot ms [])
  | .arr items => .arr (canonItems items)
  | .null => .null
  | .bool b => .bool b
  | .int i => .int i
  | .float bits => .float bits
  | .str s => .str s

def canonMembers (isRoot : Bool) : List (String × Value) → List (String × Value) → List (String × Value)
  | [], sorted => sorted
  | (k, v) :: ms, sorted =>
    canonMembers isRoot ms (if isRoot ∧ k = "signing" then sorted else OrderedMap.insert k (canon false v) sorted)

def canonItems : List Value → List Value
  | [] => []
  | v :: vs => canon false v :: canonItems vs

end

/-- `CanonicalForm`. -/
def canonicalForm (C : Codec) (root : Value) : String := C.dump (canon true root)

/-- `HmacSha256Base64`. -/
def hmacSha256Base64 (L : LoaderHost) (key data : String) : String :=
  let mac := L.hmacSha256 key data
  if mac = [] then "" else L.encodeBlock mac

def bytes (s : String) : List UInt8 := s.toByteArray.data.toList

/-- Where two texts of one length differ. -/
def diff (expected supplied : List UInt8) : UInt8 := (expected.zip supplied).foldl (fun d p => d ||| (p.1 ^^^ p.2)) 0

/-- `VerifySignature`. -/
def verifySignature (L : LoaderHost) (canonical : String) (sig : Signing)
    (resolve : String → Except Status.Error String) : Except Status.Error Unit := do
  require (sig.algo = "HMAC-SHA256") (invalidArgument ("unsupported signing algo '" ++ sig.algo ++ "'"))
  let key ← resolve sig.keyId
  let expected := bytes (hmacSha256Base64 L key canonical)
  require (expected.length = (bytes sig.signature).length) (invalidArgument "signature_invalid")
  require (diff expected (bytes sig.signature) = 0) (invalidArgument "signature_invalid")

/-- What counts as a signature: one with an algorithm or a text. -/
def signed? (spec : WorkflowSpec) : Option Signing := spec.signing.filter fun sig => sig.algo ≠ "" ∨ sig.signature ≠ ""

/-- The signature is verified if there is a resolver. -/
def checkSigning (L : LoaderHost) (opts : LoaderOptions) (root : Value) (spec : WorkflowSpec) :
    Except Status.Error Unit :=
  match signed? spec with
  | some sig => opts.keyResolver.forM (verifySignature L (canonicalForm L.sorted root) sig)
  | none => require (opts.requireSigned = false) ⟨.failedPrecondition, "signature_required"⟩

/-! ### The state's descriptors -/

def descriptorBytes (L : LoaderHost) (state : StateSpec) : Except Status.Error (List UInt8) :=
  if state.descriptorSetB64 ≠ "" then
    match L.base64Unescape state.descriptorSetB64 with
    | some bytes => .ok bytes
    | none => .error (invalidArgument "descriptor_set_b64 decode failed")
  else if state.descriptorSetPath ≠ "" then
    match L.readFile state.descriptorSetPath with
    | some bytes => .ok bytes
    | none => .error ⟨.notFound, "descriptor_set_path not readable: " ++ state.descriptorSetPath⟩
  else .error (invalidArgument "proto_dynamic requires descriptor_set_path or descriptor_set_b64")

def buildFiles (L : LoaderHost) (files : List FileDescriptor) : Except Status.Error (List FileDescriptor) :=
  files.foldlM (fun pool file => do
    require (L.buildFile pool file) (invalidArgument ("BuildFile failed for " ++ file.name))
    return pool ++ [file]) []

def buildStatePool (L : LoaderHost) (state : StateSpec) : Except Status.Error (Option (List FileDescriptor)) :=
  if state.kind = "proto_dynamic" then do
    let descBytes ← descriptorBytes L state
    match L.parseDescriptorSet descBytes with
    | none => .error (invalidArgument "descriptor_set parse failed")
    | some files => do
      let pool ← buildFiles L files
      require (state.messageType ≠ "") (invalidArgument "proto_dynamic requires message_type")
      require (L.findMessageType pool state.messageType) (invalidArgument ("descriptor for " ++ state.messageType ++
        " not found in supplied set"))
      return some pool
  else .ok none

/-! ### Loading -/

def kCurrentWorkflowSchemaVersion : ℕ := 1

/-- A specification without a version has the first one. -/
def versioned (spec : WorkflowSpec) : WorkflowSpec :=
  if spec.schemaVersion = 0 then { spec with schemaVersion := 1 } else spec

/-- The checks of a specification, in the loader's order. -/
def checkSpec (L : LoaderHost) (opts : LoaderOptions) (jsonBytes : ℕ) (root : Value) (spec : WorkflowSpec) :
    Except Status.Error Unit := do
  require (spec.schemaVersion ≤ kCurrentWorkflowSchemaVersion) ⟨.failedPrecondition, "schema_version " ++
    toString spec.schemaVersion ++ " > supported " ++ toString kCurrentWorkflowSchemaVersion⟩
  checkResourceLimits L spec jsonBytes opts.maxJsonBytes
  checkReferences L spec
  checkAcyclic L spec
  checkTemplates L spec
  checkSigning L opts root spec

/-- `WorkflowLoader::Load`. -/
def load (L : LoaderHost) (opts : LoaderOptions) (jsonText : String) : Except Status.Error LoadedWorkflow := do
  checkSize jsonText.utf8ByteSize opts.maxJsonBytes
  match L.ordered.parse jsonText with
  | none => .error (invalidArgument "malformed json")
  | some root => do
    let spec ← parseRoot L.ordered root
    checkSpec L opts jsonText.utf8ByteSize root (versioned spec)
    let statePool ← buildStatePool L (versioned spec).state
    return { spec := versioned spec, statePool := statePool }

end WorkflowLoader

end AgentFlow.Workflow
