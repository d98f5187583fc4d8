/-
# Templates

`agentflow/workflow/template_engine.{h,cc}` and `eval_context.h`: a template
is a text with substitutions `\x7b\x7bhead.part.part\x7d\x7d`. Parsing checks the braces
and the heads; evaluating replaces each path by what the context has for it.
A template that is nothing but one substitution keeps the type of its value.

Key definitions: `Segment`, `parse`, `EvalContext`, `resolve`, `TemplateString.evaluate`.
-/
import AgentFlow.Lib.Json

namespace AgentFlow.Workflow

open Json

inductive Segment
  | literal (text : String)
  | path (parts : List String)
  deriving DecidableEq, Repr

/-- `TemplateString`. -/
structure TemplateString where
  source : String
  segs : List Segment
  deriving DecidableEq, Repr

namespace TemplateString

def knownHead (head : String) : Bool :=
  head = "state" || head = "parent" || head = "tool" || head = "workflow" || head = "now"

def isBlank (c : Char) : Bool := c = ' ' || c = '\t'

/-- The text between the braces, without the blanks around it. -/
def trim (inner : List Char) : List Char := ((inner.dropWhile isBlank).reverse.dropWhile isBlank).reverse

def pathParts (inner : List Char) : List String := ((trim inner).splitOn '.').map String.ofList

/-- A literal that is not empty is a segment. -/
def flush (lit : List Char) : List Segment := if lit = [] then [] else [.literal (String.ofList lit)]

/-- Where the parser is: in a literal, or between the braces. -/
inductive Mode
  | literal (lit : List Char)
  | path (inner : List Char)

def unknownHead (head : String) : String :=
  "unknown path head '" ++ head ++ "' (allowed: state, parent, tool, workflow, now)"

/-- The segments of the rest of the text. -/
def parseFrom : Mode → List Char → Except String (List Segment)
  | .literal lit, '\\' :: '{' :: rest => parseFrom (.literal (lit ++ ['{'])) rest
  | .literal lit, '{' :: '{' :: rest => (parseFrom (.path []) rest).map (flush lit ++ ·)
  | .literal _, '}' :: '}' :: _ => .error "unmatched '\x7d\x7d'"
  | .literal lit, c :: rest => parseFrom (.literal (lit ++ [c])) rest
  | .literal lit, [] => .ok (flush lit)
  | .path inner, '}' :: '}' :: rest =>
    let parts := pathParts inner
    if knownHead (parts.headD "") then (parseFrom (.literal []) rest).map (.path parts :: ·)
    else .error (unknownHead (parts.headD ""))
  | .path inner, c :: rest => parseFrom (.path (inner ++ [c])) rest
  | .path _, [] => .error "unbalanced '\x7b\x7b'"

/-- `TemplateString::Parse`. -/
def parse (expr : String) : Except String TemplateString :=
  (parseFrom (.literal []) expr.toList).map fun segs => ⟨expr, segs⟩

def paths (t : TemplateString) : List (List String) :=
  t.segs.filterMap fun
    | .path parts => some parts
    | .literal _ => none

end TemplateString

/-! ### Evaluation -/

/-- The state of a scope: a document, or fields that are read as text. -/
inductive StateView
  | json (doc : Value)
  | fields (readStringField : String → String)

/-- The time of the evaluation. -/
structure Now where
  iso : String
  unixMicros : ℤ
  unixSeconds : ℤ

structure EvalContext where
  state : Option StateView := none
  parentState : Option StateView := none
  toolArgs : Option Value := none
  workflowName : String := ""
  workflowVersion : String := ""
  now : Now

/-- The member at the end of the path, or null. -/
def member (v : Value) : List String → Value
  | [] => v
  | part :: parts =>
    match v.find? part with
    | some w => member w parts
    | none => .null

def readState (st : StateView) (parts : List String) : Value :=
  match st with
  | .json doc => member doc parts
  | .fields readStringField => .str (readStringField (".".intercalate parts))

/-- `Resolve`. -/
def resolve (ctx : EvalContext) : List String → Value
  | ["workflow"] | ["now"] | ["tool"] | ["state"] => .null
  | "workflow" :: part :: _ =>
    if part = "name" then .str ctx.workflowName
    else if part = "version" then .str ctx.workflowVersion
    else .null
  | "now" :: part :: _ =>
    if part = "iso" then .str ctx.now.iso
    else if part = "unix_micros" then .int ctx.now.unixMicros
    else if part = "unix_seconds" then .int ctx.now.unixSeconds
    else .null
  | "tool" :: parts =>
    match ctx.toolArgs with
    | some args => member args parts
    | none => .null
  | "state" :: parts =>
    match ctx.state with
    | some st => readState st parts
    | none => .null
  | "parent" :: "state" :: part :: parts =>
    match ctx.parentState with
    | some st => readState st (part :: parts)
    | none => .null
  | _ => .null

/-- `Stringify`. -/
def stringify (C : Codec) : Value → String
  | .str s => s
  | .null => ""
  | v => C.dump v

/-- `TemplateString::Evaluate`. -/
def TemplateString.evaluate (C : Codec) (ctx : EvalContext) (t : TemplateString) : Value :=
  match t.segs with
  | [.path parts] => resolve ctx parts
  | segs =>
    .str (String.join (segs.map fun
      | .literal text => text
      | .path parts => stringify C (resolve ctx parts)))

/-- A value as the text of a prompt. -/
def promptText (C : Codec) (v : Value) : String :=
  match v with
  | .str s => s
  | v => C.dump v

end AgentFlow.Workflow
