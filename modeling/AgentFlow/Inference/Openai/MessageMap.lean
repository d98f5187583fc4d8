/-
# Canonical messages and the OpenAI wire format

`agentflow/inference/openai/message_map.{h,cc}`: what an incoming canonical
message becomes in the history, the repair that answers every tool call, the
request body, and the image references, which stay keys in the history and
become URLs in the copy that is sent. Where the code reads a member without
a check, the model throws what it throws.

Key definitions: `toOpenAiMessages`, `repairToolCallPairing`,
`buildRequestBody`, `collectImageRefKeys`, `substituteImageRefs`,
`markImageRefsExpired`.
-/
import AgentFlow.Lib.Json
import AgentFlow.Lib.Status

namespace AgentFlow.Openai

open Json

/-- How a function that may throw does not return a value: with a status, or
by an exception of the JSON library. -/
inductive Failure
  | status (e : Status.Error)
  | thrown (e : Json.Error)
  deriving DecidableEq, Repr

def flattenItem (item : Value) : String :=
  if item.stringAt? "type" = some "text" then (item.stringAt? "text").getD "" else ""

/-- `FlattenContent`. -/
def flattenContent : Value → String
  | .str s => s
  | .arr items => String.join (items.map flattenItem)
  | _ => ""

/-- The key of an item that is an image reference. -/
def imageRefKey? (item : Value) : Option String :=
  if item.stringAt? "type" = some "image_ref" then
    (item.stringAt? "key").filter fun k => k ≠ ""
  else none

def isImageRef (item : Value) : Bool := (imageRefKey? item).isSome

def hasImageRef : Value → Bool
  | .arr items => items.any isImageRef
  | _ => false

def textItem (text : String) : Value := .object [("type", .str "text"), ("text", .str text)]

def imageRefItem (key : String) : Value := .object [("type", .str "image_ref"), ("key", .str key)]

/-- What `UserContentWithImages` makes of one item: text and image
references are kept, anything else is dropped. -/
def userItem (item : Value) : Option Value :=
  match imageRefKey? item with
  | some key => some (imageRefItem key)
  | none => if item.stringAt? "type" = some "text" then (item.stringAt? "text").map textItem else none

def userContentWithImages (items : List Value) : Value := .arr (items.filterMap userItem)

/-- `SystemMessage`; no message for an empty text. -/
def systemMessage (C : Codec) (systemMessageJson : String) : Option Value :=
  if systemMessageJson = "" then none
  else
    match C.parse systemMessageJson with
    | none => none
    | some arr =>
      if flattenContent arr = "" then none
      else some (.object [("role", .str "system"), ("content", .str (flattenContent arr))])

def toolMessage (id content : String) : Value :=
  .object [("role", .str "tool"), ("tool_call_id", .str id), ("content", .str content)]

def noIdMessage (name : String) : String :=
  "tool result for '" ++ name ++ "' has no id; OpenAI requires tool_call_id on every tool message"

/-- The text of a tool result; a value that is no string is printed. -/
def toolValue (C : Codec) (entry : Value) : String :=
  match (entry.find? "response").bind (·.find? "value") with
  | some (.str s) => s
  | some v => C.dump v
  | none => ""

/-- One entry of a tool message's content; an entry that is not an object is
passed over. -/
def toolResult (C : Codec) (entry : Value) : Except Failure (Option Value) :=
  if entry.isObject then
    if (entry.stringAt? "id").getD "" = "" then
      .error (.status ⟨.invalidArgument, noIdMessage ((entry.stringAt? "name").getD "?")⟩)
    else .ok (some (toolMessage ((entry.stringAt? "id").getD "") (toolValue C entry)))
  else .ok none

def toolResults (C : Codec) : List Value → Except Failure (List Value)
  | [] => .ok []
  | entry :: entries => do
    let m ← toolResult C entry
    let ms ← toolResults C entries
    return m.toList ++ ms

/-- A tool call with its type discriminator, which some backends omit. -/
def typedCall (tc : Value) : Except Failure Value :=
  if tc.contains "type" then .ok tc
  else (tc.put "type" (.str "function")).mapError Failure.thrown

def messageContent (m : Value) (role : String) : Value :=
  match m.find? "content" with
  | none => .str ""
  | some (.arr items) =>
    if role = "user" ∧ hasImageRef (.arr items) then userContentWithImages items
    else .str (flattenContent (.arr items))
  | some content => .str (flattenContent content)

/-- The role, the content and the reasoning of a message that is no tool
result. -/
def messageMembers (m : Value) (role : String) : List (String × Value) :=
  let msg := OrderedMap.insert "content" (messageContent m role) [("role", .str role)]
  match m.stringAt? "reasoning_content" with
  | some r => OrderedMap.insert "reasoning_content" (.str r) msg
  | none => msg

/-- A message that is no tool result. -/
def plainMessage (m : Value) (role : String) : Except Failure Value :=
  match m.arrayAt? "tool_calls" with
  | some (tc :: tcs) => do
    let calls ← (tc :: tcs).mapM typedCall
    return .obj (OrderedMap.insert "tool_calls" (.arr calls) (messageMembers m role))
  | _ => return .obj (messageMembers m role)

/-- `ToOpenAiMessages`. -/
def toOpenAiMessages (C : Codec) (canonicalMessageJson : String) : Except Failure (List Value) :=
  match C.parse canonicalMessageJson with
  | some (.obj members) =>
    let m : Value := .obj members
    let role := (m.stringAt? "role").getD ""
    if role = "tool" then
      match m.arrayAt? "content" with
      | none => .error (.status ⟨.invalidArgument, "tool message has no content array"⟩)
      | some entries => toolResults C entries
    else do
      let msg ← plainMessage m (if role = "" then "user" else role)
      return [msg]
  | _ => .error (.status ⟨.invalidArgument, "canonical message is not a JSON object"⟩)

/-- The placeholder for a call whose result never arrived. -/
def kNotExecuted : String :=
  "\x7b\"error\":\"tool call was not executed: the turn ended before the result was produced\"\x7d"

/-- The calls of an assistant message that has any. -/
def assistantCalls (m : Value) : Except Json.Error (Option (List Value)) := do
  if m.isObject then
    if (← m.value "role" "") = "assistant" then
      match m.arrayAt? "tool_calls" with
      | some (c :: cs) => return some (c :: cs)
      | _ => return none
    else return none
  else return none

/-- The ids an assistant turn asked to have answered, in order. -/
def wantedIds (calls : List Value) : List String :=
  calls.filterMap fun c => (c.stringAt? "id").filter fun id => id ≠ ""

/-- The ids that the run of tool messages answers, one for each of them. -/
def toolRun : List Value → Except Json.Error (List String)
  | [] => .ok []
  | m :: rest => do
    if m.isObject then
      if (← m.value "role" "") = "tool" then
        let id ← m.value "tool_call_id" ""
        return id :: (← toolRun rest)
      else return []
    else return []

def missingResults (want answered : List String) : List Value :=
  (want.filter fun id => id ∉ answered).map fun id => toolMessage id kNotExecuted

/-- `RepairToolCallPairing`, from one message on: the messages as it leaves
them, and the exception that ended it, if one did. -/
def repairToolCallPairing : List Value → List Value × Option Json.Error
  | [] => ([], none)
  | m :: rest =>
    match assistantCalls m with
    | .error e => (m :: rest, some e)
    | .ok none =>
      let r := repairToolCallPairing rest
      (m :: r.1, r.2)
    | .ok (some calls) =>
      match toolRun rest with
      | .error e => (m :: rest, some e)
      | .ok answered =>
        let r := repairToolCallPairing (rest.drop answered.length)
        (m :: (rest.take answered.length ++ missingResults (wantedIds calls) answered ++ r.1), r.2)
termination_by messages => messages.length

/-- The items of a message's content array. -/
def contentItems (m : Value) : List Value := (m.arrayAt? "content").getD []

/-- The keys of the image references, each at its first occurrence. -/
def collectImageRefKeys (messages : List Value) : List String :=
  ((messages.flatMap contentItems).filterMap imageRefKey?).foldl
    (fun keys k => if k ∈ keys then keys else keys ++ [k]) []

/-- Rewrites the items of a message's content array in place. -/
def mapContent (f : Value → Value) (m : Value) : Value :=
  m.modify "content" fun content =>
    match content with
    | .arr items => .arr (items.map f)
    | content => content

def imageUrlItem (url : String) : Value :=
  .object [("type", .str "image_url"), ("image_url", .object [("url", .str url)])]

def substituteItem (urls : List (String × String)) (item : Value) : Value :=
  match (imageRefKey? item).bind fun k => urls.lookup k with
  | some url => imageUrlItem url
  | none => item

/-- `SubstituteImageRefs`: the copy to send, and the keys that have no URL. -/
def substituteImageRefs (messages : List Value) (urls : List (String × String)) : List Value × List String :=
  (messages.map (mapContent (substituteItem urls)),
    (collectImageRefKeys messages).filter fun k => (urls.lookup k).isNone)

def expireItem (keys : List String) (item : Value) : Value :=
  match imageRefKey? item with
  | some k => if k ∈ keys then textItem "[图片已失效]" else item
  | none => item

/-- `MarkImageRefsExpired`. -/
def markImageRefsExpired (messages : List Value) (keys : List String) : List Value :=
  messages.map (mapContent (expireItem keys))

/-- The options of a conversation that the code here reads. The resolver
itself is outside; `imageRefResolver` is whether there is one. -/
structure ChatConversationOptions where
  systemMessageJson : String
  toolsJson : String
  maxOutputTokens : ℤ
  imageRefResolver : Bool

mutual

/-- `HasEmptyObject`: whether some object schema has no properties. -/
def hasEmptyObject : Value → Except Json.Error Bool
  | .arr items => anyItem items
  | .obj ms => do
    if (← (Value.obj ms).value "type" "") = "object" ∧
        (((Value.obj ms).find? "properties").bind Value.obj?).getD [] = [] then
      return true
    anyMember ms
  | _ => .ok false

def anyItem : List Value → Except Json.Error Bool
  | [] => .ok false
  | v :: vs => do if ← hasEmptyObject v then return true else anyItem vs

def anyMember : List (String × Value) → Except Json.Error Bool
  | [] => .ok false
  | (_, v) :: ms => do if ← hasEmptyObject v then return true else anyMember ms

end

def unsupportedKeywords : List String := ["minLength", "maxLength", "minItems", "maxItems"]

def withoutKeywords (ms : List (String × Value)) : List (String × Value) :=
  unsupportedKeywords.foldl (fun ms k => OrderedMap.erase k ms) ms

theorem sizeOf_withoutKeywords_le (ms : List (String × Value)) : sizeOf (withoutKeywords ms) ≤ sizeOf ms := by
  simp only [withoutKeywords, unsupportedKeywords, List.foldl_cons, List.foldl_nil]
  refine (sizeOf_erase_le _ _).trans ((sizeOf_erase_le _ _).trans ?_)
  exact (sizeOf_erase_le _ _).trans (sizeOf_erase_le _ _)

mutual

/-- The recursion of `NormalizeStrictSchema` into an object schema: every
property is required and no others are allowed. -/
def strictNode (p : Value) : Except Json.Error Value :=
  match p with
  | .obj ms =>
    match _h : ms.lookup "properties" with
    | some (.obj props) => do
      let props' ← props.attach.mapM fun b => do return (b.1.1, ← strictProperty b.1.2)
      let req := props.map fun b => Value.str b.1
      return .obj (OrderedMap.insert "additionalProperties" (.bool false)
        (OrderedMap.insert "required" (.arr req) (OrderedMap.insert "properties" (.obj props') ms)))
    | _ => return .obj (OrderedMap.insert "additionalProperties" (.bool false) ms)
  | p => return p
termination_by 2 * sizeOf p
decreasing_by
  have h1 := sizeOf_lookup_lt _h
  have h2 := List.sizeOf_lt_of_mem b.2
  obtain ⟨⟨k, v⟩, hb⟩ := b
  simp only [Value.obj.sizeOf_spec, Prod.mk.sizeOf_spec] at h1 h2 ⊢
  omega

def strictProperty (val : Value) : Except Json.Error Value :=
  match val with
  | .obj vs => do
    let bare : Value := .obj (withoutKeywords vs)
    let val ← if (← bare.value "type" "") = "object" then strictNode bare else pure bare
    match _h : (withoutKeywords vs).lookup "items" with
    | some (.obj items) => val.put "items" (← strictNode (.obj items))
    | _ => return val
  | val => return val
termination_by 2 * sizeOf val + 1
decreasing_by
  · have h1 := sizeOf_withoutKeywords_le vs
    have h2 := sizeOf_lookup_lt _h
    simp only [Value.obj.sizeOf_spec] at h2 ⊢
    omega
  · have h1 := sizeOf_withoutKeywords_le vs
    simp only [Value.obj.sizeOf_spec]
    omega

end

/-- `NormalizeStrictSchema` of a function object. A function without
parameters that can be required stays as it is. -/
def normalizeStrictSchema (func : List (String × Value)) : Except Json.Error Value :=
  match func.lookup "parameters" with
  | some (.obj params) => do
    let props := (((Value.obj params).find? "properties").bind Value.obj?).getD []
    if props = [] then return .obj func
    if ← hasEmptyObject (.obj params) then return .obj func
    let params' ← strictNode (.obj params)
    return .obj (OrderedMap.insert "parameters" params' (OrderedMap.insert "strict" (.bool true) func))
  | _ => return .obj (OrderedMap.insert "strict" (.bool true) func)

def isDeepSeekFamily (model : String) : Bool := model.startsWith "deepseek"

/-- One element of the tools array, for a model that takes strict tools. -/
def strictTool (t : Value) : Except Json.Error Value :=
  match t.find? "function" with
  | some (.obj func) => do t.put "function" (← normalizeStrictSchema func)
  | _ => return t

/-- The tools as they are sent: only one model family takes strict ones. -/
def wireTools (model : String) (strictTools : Bool) (tools : List Value) : Except Json.Error (List Value) :=
  if strictTools && isDeepSeekFamily model then tools.mapM strictTool else .ok tools

/-- The members of a body other than the tools. -/
def bodyMembers (model : String) (opts : ChatConversationOptions) (messages : List Value) (stream : Bool) :
    List (String × Value) :=
  let body := OrderedMap.insert "messages" (.arr messages) [("model", .str model)]
  let body := OrderedMap.insert "stream" (.bool stream) body
  let body :=
    if stream then OrderedMap.insert "stream_options" (.object [("include_usage", .bool true)]) body else body
  if 0 < opts.maxOutputTokens then OrderedMap.insert "max_tokens" (.int opts.maxOutputTokens) body else body

/-- `BuildRequestBody` before it is printed. -/
def requestBody (C : Codec) (model : String) (opts : ChatConversationOptions) (messages : List Value)
    (stream strictTools : Bool) : Except Json.Error Value :=
  match C.parse opts.toolsJson with
  | some (.arr (t :: ts)) => do
    let tools ← wireTools model strictTools (t :: ts)
    return .obj (OrderedMap.insert "tools" (.arr tools) (bodyMembers model opts messages stream))
  | _ => return .obj (bodyMembers model opts messages stream)

/-- `BuildRequestBody`. -/
def buildRequestBody (C : Codec) (model : String) (opts : ChatConversationOptions) (messages : List Value)
    (stream strictTools : Bool) : Except Json.Error String := do
  return C.dump (← requestBody C model opts messages stream strictTools)

end AgentFlow.Openai
