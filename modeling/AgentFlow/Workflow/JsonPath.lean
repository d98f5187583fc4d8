/-
# JSON paths

`agentflow/workflow/json_path.{h,cc}`: the subset `$.field[N].field`, parsed
into segments and followed from the root. An index is read as `atoi` reads it.

Key definitions: `JsonPath.parse`, `JsonPath.resolve`.
-/
import AgentFlow.Lib.Json

namespace AgentFlow.Workflow

open Json

inductive PathSegment
  | field (name : String)
  | index (i : ℤ)
  deriving DecidableEq, Repr

/-- The segments of a path. -/
abbrev JsonPath := List PathSegment

namespace JsonPath

/-- `atoi` of digits, of which there may be none: the value as a long, cut to
a signed 32-bit integer. -/
def atoi (digits : List Char) : ℤ :=
  let n : ℕ := digits.foldl (fun n c => 10 * n + (c.toNat - 48)) 0
  Int.bmod ((min n (2 ^ 63 - 1) : ℕ) : ℤ) (2 ^ 32)

/-- Where the parser is: between segments, in a name or in an index. -/
inductive Mode
  | between
  | name (acc : List Char)
  | index (acc : List Char)

def emptyField : String := "empty field name after '.'"

def indexSegment (acc : List Char) : Except String PathSegment :=
  if acc.all Char.isDigit then .ok (.index (atoi acc))
  else .error ("non-integer index '" ++ String.ofList acc ++ "'")

def nameSegment (acc : List Char) : Except String PathSegment :=
  if acc = [] then .error emptyField else .ok (.field (String.ofList acc))

/-- The segments of the rest, which begins at byte `i`. -/
def parseFrom : ℕ → Mode → List Char → Except String JsonPath
  | _, .between, [] => .ok []
  | i, .between, c :: rest =>
    if c = '.' then parseFrom (i + 1) (.name []) rest
    else if c = '[' then parseFrom (i + 1) (.index []) rest
    else .error ("unexpected char at position " ++ toString i)
  | _, .name acc, [] => do return [← nameSegment acc]
  | i, .name acc, c :: rest =>
    if c = '.' then do
      let seg ← nameSegment acc
      return seg :: (← parseFrom (i + 1) (.name []) rest)
    else if c = '[' then do
      let seg ← nameSegment acc
      return seg :: (← parseFrom (i + 1) (.index []) rest)
    else parseFrom (i + c.utf8Size) (.name (acc ++ [c])) rest
  | _, .index _, [] => .error "unbalanced '['"
  | i, .index acc, c :: rest =>
    if c = ']' then do
      let seg ← indexSegment acc
      return seg :: (← parseFrom (i + 1) .between rest)
    else parseFrom (i + c.utf8Size) (.index (acc ++ [c])) rest

/-- `JsonPath::Parse`. -/
def parse (expr : String) : Except String JsonPath :=
  match expr.toList with
  | '$' :: rest => parseFrom 1 .between rest
  | _ => .error "path must start with '$'"

/-- `JsonPath::Resolve`. -/
def resolve : JsonPath → Value → Option Value
  | [], v => some v
  | .field name :: path, v =>
    match v.find? name with
    | some w => resolve path w
    | none => none
  | .index i :: path, v =>
    match v.arr? with
    | some items =>
      if i < 0 then none
      else
        match items[i.toNat]? with
        | some w => resolve path w
        | none => none
    | none => none

example : parse "$.content[0].text" = .ok [.field "content", .index 0, .field "text"] := by
  decide +kernel

end JsonPath

end AgentFlow.Workflow
