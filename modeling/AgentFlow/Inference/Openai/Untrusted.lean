/-
# Output that is not trusted

What a provider sends goes through the mappers with their accesses checked
(`Checked`). No access goes wrong, for whatever is sent, but for a tool call
that is neither an object nor null: it is given a type before anything is
known of it. A response is copied with its calls, so that such a call comes
back later.

Key definitions: `Checked.toOpenAiMessages`, `Checked.responseToCanonical`,
`Checked.feed`, `Readable`, `Safe`.
Key theorems: `Checked.feedFrames_eq`, `safe_iff_readable`.
-/
import AgentFlow.Inference.Openai.Checked

namespace AgentFlow.Openai

open Json StreamAccumulator

namespace Checked

/-! ### Messages -/

def toolValue (C : Codec) (entry : Value) : Except Ending String :=
  if entry.contains "response" then do
    let response ← member entry "response"
    if response.contains "value" then
      match ← member response "value" with
      | .str s => return s
      | v => return C.dump v
    else return ""
  else return ""

def toolResult (C : Codec) (entry : Value) : Except Ending (Option Value) :=
  if entry.isObject then do
    let id := (← stringMember entry "id").getD ""
    if id = "" then
      let name := (← stringMember entry "name").getD "?"
      .error (.status ⟨.invalidArgument, noIdMessage name⟩)
    else return some (toolMessage id (← toolValue C entry))
  else return none

def toolResults (C : Codec) : List Value → Except Ending (List Value)
  | [] => .ok []
  | entry :: entries => do
    let m ← toolResult C entry
    let ms ← toolResults C entries
    return m.toList ++ ms

/-- `if (!call.contains("type")) call["type"] = "function"`. -/
def typedCall (tc : Value) : Except Ending Value :=
  if tc.contains "type" then .ok tc
  else
    match tc.put "type" (.str "function") with
    | .ok call => .ok call
    | .error e => .error (.fault (.thrown e))

def messageContent (m : Value) (role : String) : Except Ending Value :=
  if m.contains "content" then do
    let content ← member m "content"
    if ← (if role = "user" then hasImageRef content else pure false) then userContentWithImages content
    else return .str (← flattenContent content)
  else return .str ""

def messageMembers (m : Value) (role : String) : Except Ending (List (String × Value)) := do
  let content ← messageContent m role
  let msg := OrderedMap.insert "content" content [("role", .str role)]
  match ← stringMember m "reasoning_content" with
  | some r => return OrderedMap.insert "reasoning_content" (.str r) msg
  | none => return msg

def plainMessage (m : Value) (role : String) : Except Ending Value := do
  let msg ← messageMembers m role
  match ← arrayMember m "tool_calls" with
  | some (tc :: tcs) => return .obj (OrderedMap.insert "tool_calls" (.arr (← (tc :: tcs).mapM typedCall)) msg)
  | _ => return .obj msg

/-- `ToOpenAiMessages`. -/
def toOpenAiMessages (C : Codec) (canonicalMessageJson : String) : Except Ending (List Value) :=
  match C.parse canonicalMessageJson with
  | some (.obj members) => do
    let role := (← stringMember (.obj members) "role").getD ""
    if role = "tool" then
      match ← arrayMember (.obj members) "content" with
      | none => .error (.status ⟨.invalidArgument, "tool message has no content array"⟩)
      | some entries => toolResults C entries
    else return [← plainMessage (.obj members) (if role = "" then "user" else role)]
  | _ => .error (.status ⟨.invalidArgument, "canonical message is not a JSON object"⟩)

/-! ### Responses -/

def outputTokenCount (usage : Value) (provider : UsageProvider) : Except Ending (Option ℤ) := do
  match ← tokensMember usage "completion_tokens" with
  | none => return none
  | some completion =>
    match provider with
    | .google =>
      match ← objectMember usage "completion_tokens_details" with
      | none => return some completion
      | some details =>
        match ← tokensMember details "reasoning_tokens" with
        | none => return some completion
        | some thinking =>
          return some (if maxLongLong - completion < thinking then completion else completion + thinking)
    | .deepSeek => return some completion
    | .openAi => return some completion

def responseMessage (resp : Value) : Except Ending Value := do
  match ← arrayMember resp "choices" with
  | some (choice :: _) =>
    match ← (if choice.isObject then objectMember choice "message" else pure none) with
    | some msg => return msg
    | none => .error (.status ⟨.internal, "OpenAI response choice has no message object"⟩)
  | _ => .error (.status ⟨.internal, "OpenAI response has no choices"⟩)

/-- The token counts of a usage object, if there is one. -/
def usageCounts (provider : UsageProvider) (resp : Value) : Except Ending (ℤ × ℤ) := do
  match ← objectMember resp "usage" with
  | none => return (0, 0)
  | some u => return ((← tokensMember u "prompt_tokens").getD 0, (← outputTokenCount u provider).getD 0)

def responseMembers (provider : UsageProvider) (resp msg : Value) : Except Ending (List (String × Value)) := do
  let model ← stringMember resp "model"
  let text ← stringMember msg "content"
  let reasoning ← stringMember msg "reasoning_content"
  let calls ← arrayMember msg "tool_calls"
  let usage ← usageCounts provider resp
  let out := insertSome "model" model [("role", .str "assistant")]
  let out := OrderedMap.insert "content" (.arr [textItem (text.getD "")]) out
  let out := insertSome "reasoning_content" reasoning out
  let out :=
    match calls with
    | some (tc :: tcs) => OrderedMap.insert "tool_calls" (.arr (tc :: tcs)) out
    | _ => out
  return insertIf (0 < usage.1 ∨ 0 < usage.2) "usage"
    (.object [("input_tokens", .int usage.1), ("output_tokens", .int usage.2)]) out

/-- `ResponseToCanonical`. -/
def responseToCanonical (C : Codec) (body : String) (provider : UsageProvider) : Except Ending String :=
  match C.parse body with
  | none => .error (.status ⟨.internal, "OpenAI response is not valid JSON"⟩)
  | some resp => do
    let msg ← responseMessage resp
    return C.dump (.obj (← responseMembers provider resp msg))

/-! ### Frames -/

def callIndex (tc : Value) : Except Ending (Option ℤ) :=
  if tc.contains "index" then do
    match ← member tc "index" with
    | .int i => return some (← getInt32 (.int i))
    | _ => return none
  else return some 0

def update (call : PartialCall) (tc : Value) : Except Ending PartialCall := do
  let id ← stringMember tc "id"
  match ← objectMember tc "function" with
  | none => return { call with id := id.getD call.id }
  | some fn =>
    let name ← stringMember fn "name"
    let arguments ← stringMember fn "arguments"
    return { id := id.getD call.id, name := name.getD call.name, arguments := call.arguments ++ arguments.getD "" }

def feedCall (calls : List (ℤ × PartialCall)) (tc : Value) : Except Ending (List (ℤ × PartialCall)) :=
  if tc.isObject then do
    match ← callIndex tc with
    | some index => return OrderedMap.insert index (← update ((calls.lookup index).getD {}) tc) calls
    | none => return calls
  else return calls

def feedDelta (acc : StreamAccumulator) (delta : Value) : Except Ending StreamAccumulator := do
  let text ← stringMember delta "content"
  let reasoning ← stringMember delta "reasoning_content"
  let calls ← ((← arrayMember delta "tool_calls").getD []).foldlM feedCall acc.calls
  return { acc with
    text := acc.text ++ text.getD ""
    reasoning := acc.reasoning ++ reasoning.getD ""
    calls := calls }

def feedUsage (acc : StreamAccumulator) (f : Value) : Except Ending StreamAccumulator := do
  let model ← (if f.isObject ∧ acc.model = "" then stringMember f "model" else pure none)
  match ← (if f.isObject then objectMember f "usage" else pure none) with
  | none => return { acc with model := model.getD acc.model }
  | some u =>
    let input ← tokensMember u "prompt_tokens"
    let output ← outputTokenCount u acc.provider
    return { acc with
      model := model.getD acc.model
      inputTokens := input.getD acc.inputTokens
      outputTokens := output.getD acc.outputTokens }

def feedFrame (acc : StreamAccumulator) (f : Value) : Except Ending StreamAccumulator := do
  let acc ← feedUsage acc f
  match ← arrayMember f "choices" with
  | some (choice :: _) =>
    if choice.isObject then
      let finishReason ← stringMember choice "finish_reason"
      let acc := { acc with finishReason := finishReason.getD acc.finishReason }
      match ← objectMember choice "delta" with
      | none => return acc
      | some delta => feedDelta acc delta
    else return acc
  | _ => return acc

/-- `StreamAccumulator::Feed`. -/
def feed (C : Codec) (acc : StreamAccumulator) (frame : String) : Except Ending StreamAccumulator :=
  match C.parse frame with
  | none => return acc
  | some f => feedFrame acc f

def feedFrames (C : Codec) (acc : StreamAccumulator) (frames : List String) : Except Ending StreamAccumulator :=
  frames.foldlM (feed C) acc

/-! ### Nothing goes wrong -/

@[simp]
theorem toolValue_eq (C : Codec) (entry : Value) : toolValue C entry = .ok (Openai.toolValue C entry) := by
  rw [toolValue, Openai.toolValue]
  cases hr : entry.find? "response" with
  | none =>
    rw [contains_of_find?_eq_none hr]
    rfl
  | some response =>
    obtain ⟨hc, hm⟩ := member_of_find? hr
    rw [hc, if_pos rfl, hm, ok_bind, Option.bind_some]
    cases hv : response.find? "value" with
    | none =>
      rw [contains_of_find?_eq_none hv]
      rfl
    | some v =>
      obtain ⟨hc, hm⟩ := member_of_find? hv
      rw [hc, if_pos rfl, hm, ok_bind]
      cases v <;> rfl

/-- A status, or what the access threw. -/
def ending : Failure → Ending
  | .status e => .status e
  | .thrown e => .fault (.thrown e)

theorem toolResult_eq (C : Codec) (entry : Value) :
    toolResult C entry = (Openai.toolResult C entry).mapError ending := by
  rw [toolResult, Openai.toolResult]
  by_cases hobj : entry.isObject = true
  · rw [if_pos hobj, if_pos hobj, stringMember_eq, ok_bind]
    by_cases hid : (entry.stringAt? "id").getD "" = ""
    · simp only [if_pos hid, stringMember_eq]
      rfl
    · simp only [if_neg hid, toolValue_eq]
      rfl
  · rw [if_neg hobj, if_neg hobj]
    rfl

theorem toolResults_eq (C : Codec) (entries : List Value) :
    toolResults C entries = (Openai.toolResults C entries).mapError ending := by
  induction entries with
  | nil => rfl
  | cons entry entries ih =>
    rw [toolResults, Openai.toolResults, toolResult_eq, ih]
    cases Openai.toolResult C entry with
    | error e => rfl
    | ok m =>
      cases Openai.toolResults C entries with
      | error e => rfl
      | ok ms => rfl

theorem typedCall_eq (tc : Value) : typedCall tc = (Openai.typedCall tc).mapError ending := by
  rw [typedCall, Openai.typedCall]
  split_ifs
  · rfl
  · cases tc.put "type" (.str "function") <;> rfl

theorem mapM_typedCall_eq (tcs : List Value) :
    tcs.mapM typedCall = (tcs.mapM Openai.typedCall).mapError ending := by
  induction tcs with
  | nil => rfl
  | cons tc tcs ih =>
    rw [List.mapM_cons, List.mapM_cons, typedCall_eq, ih]
    cases Openai.typedCall tc with
    | error e => rfl
    | ok call =>
      cases tcs.mapM Openai.typedCall with
      | error e => rfl
      | ok calls => rfl

theorem messageContent_eq (m : Value) (role : String) :
    messageContent m role = .ok (Openai.messageContent m role) := by
  rw [messageContent, Openai.messageContent]
  cases hc : m.find? "content" with
  | none =>
    rw [contains_of_find?_eq_none hc]
    rfl
  | some content =>
    obtain ⟨hcontains, hm⟩ := member_of_find? hc
    rw [hcontains, if_pos rfl, hm, ok_bind]
    by_cases hrole : role = "user"
    · rw [if_pos hrole, hasImageRef_eq, ok_bind]
      cases content with
      | arr items =>
        by_cases himages : Openai.hasImageRef (.arr items) = true
        · simp only [himages, if_true, hrole, true_and]
          exact userContentWithImages_eq items
        · simp only [himages, hrole, true_and, flattenContent_eq, Bool.false_eq_true, if_false]
          rfl
      | _ => rfl
    · rw [if_neg hrole, flattenContent_eq]
      cases content with
      | arr items =>
        simp only [hrole, false_and, if_false]
        rfl
      | _ => rfl

theorem messageMembers_eq (m : Value) (role : String) :
    messageMembers m role = .ok (Openai.messageMembers m role) := by
  rw [messageMembers, messageContent_eq]
  simp only [stringMember_eq, bind, Except.bind, Openai.messageMembers]
  cases m.stringAt? "reasoning_content" <;> rfl

theorem plainMessage_eq (m : Value) (role : String) :
    plainMessage m role = (Openai.plainMessage m role).mapError ending := by
  rw [plainMessage, messageMembers_eq, Openai.plainMessage]
  simp only [arrayMember_eq, bind, Except.bind]
  cases m.arrayAt? "tool_calls" with
  | none => rfl
  | some tcs =>
    cases tcs with
    | nil => rfl
    | cons tc tcs =>
      simp only [mapM_typedCall_eq]
      cases (tc :: tcs).mapM Openai.typedCall <;> rfl

/-- `ToOpenAiMessages` goes wrong only where a call is typed. -/
theorem toOpenAiMessages_eq (C : Codec) (text : String) :
    toOpenAiMessages C text = (Openai.toOpenAiMessages C text).mapError ending := by
  rw [toOpenAiMessages, Openai.toOpenAiMessages]
  cases C.parse text with
  | none => rfl
  | some v =>
    cases v with
    | obj ms =>
      simp only
      rw [stringMember_eq, ok_bind]
      by_cases hrole : ((Value.obj ms).stringAt? "role").getD "" = "tool"
      · simp only [if_pos hrole, arrayMember_eq]
        rw [ok_bind]
        cases (Value.obj ms).arrayAt? "content" with
        | none => rfl
        | some entries => exact toolResults_eq C entries
      · simp only [if_neg hrole, plainMessage_eq]
        generalize (if ((Value.obj ms).stringAt? "role").getD "" = "" then "user"
          else ((Value.obj ms).stringAt? "role").getD "") = role
        cases Openai.plainMessage (.obj ms) role <;> rfl
    | _ => rfl

@[simp]
theorem outputTokenCount_eq (usage : Value) (provider : UsageProvider) :
    outputTokenCount usage provider = .ok (Openai.outputTokenCount usage provider) := by
  rw [outputTokenCount, Openai.outputTokenCount, tokensMember_eq, ok_bind]
  cases tokensAt? usage "completion_tokens" with
  | none => rfl
  | some completion =>
    cases provider with
    | google =>
      simp only [objectMember_eq]
      rw [ok_bind]
      cases hd : usage.find? "completion_tokens_details" with
      | none => rfl
      | some details =>
        cases details with
        | obj ms =>
          simp only [Option.filter, Value.isObject, if_true, tokensMember_eq]
          rw [ok_bind]
          cases ht : tokensAt? (.obj ms) "reasoning_tokens" with
          | none => simp [ht, pure, Except.pure]
          | some thinking =>
            simp only [ht, bind, Option.bind]
            split_ifs <;> rfl
        | _ => rfl
    | deepSeek => rfl
    | openAi => rfl

theorem responseMessage_eq (resp : Value) :
    responseMessage resp = (Openai.responseMessage resp).mapError Ending.status := by
  rw [responseMessage, Openai.responseMessage, arrayMember_eq, ok_bind]
  cases resp.arrayAt? "choices" with
  | none => rfl
  | some choices =>
    cases choices with
    | nil => rfl
    | cons choice choices =>
      simp only [objectMember_eq]
      by_cases hobj : choice.isObject = true
      · rw [if_pos hobj, ok_bind]
        cases (choice.find? "message").filter Value.isObject <;> rfl
      · have hnone : choice.find? "message" = none := by
          cases choice with
          | obj ms => exact absurd rfl hobj
          | _ => rfl
        rw [if_neg hobj, hnone]
        rfl

theorem usageCounts_eq (provider : UsageProvider) (resp : Value) :
    usageCounts provider resp =
      .ok (((((resp.find? "usage").filter Value.isObject).bind (tokensAt? · "prompt_tokens")).getD 0),
        ((((resp.find? "usage").filter Value.isObject).bind (Openai.outputTokenCount · provider)).getD 0)) := by
  rw [usageCounts, objectMember_eq, ok_bind]
  cases (resp.find? "usage").filter Value.isObject with
  | none => rfl
  | some u =>
    simp only [tokensMember_eq, outputTokenCount_eq]
    rfl

theorem responseMembers_eq (provider : UsageProvider) (resp msg : Value) :
    responseMembers provider resp msg = .ok (Openai.responseMembers provider resp msg) := by
  rw [responseMembers, stringMember_eq, ok_bind, stringMember_eq, ok_bind, stringMember_eq, ok_bind, arrayMember_eq,
    ok_bind, usageCounts_eq, ok_bind]
  rfl

/-- `ResponseToCanonical` has no access that goes wrong. -/
theorem responseToCanonical_eq (C : Codec) (body : String) (provider : UsageProvider) :
    responseToCanonical C body provider = (Openai.responseToCanonical C body provider).mapError Ending.status := by
  rw [responseToCanonical, Openai.responseToCanonical]
  cases C.parse body with
  | none => rfl
  | some resp =>
    simp only [responseMessage_eq, responseMembers_eq, responseValue]
    cases Openai.responseMessage resp <;> rfl

theorem callIndex_eq (tc : Value) : callIndex tc = .ok (StreamAccumulator.callIndex tc) := by
  rw [callIndex, StreamAccumulator.callIndex]
  cases hi : tc.find? "index" with
  | none =>
    rw [contains_of_find?_eq_none hi]
    rfl
  | some v =>
    obtain ⟨hc, hm⟩ := member_of_find? hi
    rw [hc, if_pos rfl, hm, ok_bind]
    cases v <;> rfl

theorem update_eq (call : PartialCall) (tc : Value) : update call tc = .ok (PartialCall.update call tc) := by
  rw [update, PartialCall.update, stringMember_eq, ok_bind, objectMember_eq, ok_bind]
  cases (tc.find? "function").filter Value.isObject with
  | none =>
    simp only [Option.bind_none, Option.getD_none, String.append_empty]
    rfl
  | some fn =>
    simp only [stringMember_eq]
    rfl

theorem feedCall_eq (calls : List (ℤ × PartialCall)) (tc : Value) :
    feedCall calls tc = .ok (StreamAccumulator.feedCall calls tc) := by
  rw [feedCall, StreamAccumulator.feedCall]
  split_ifs
  · rw [callIndex_eq, ok_bind]
    cases StreamAccumulator.callIndex tc with
    | none => rfl
    | some index =>
      simp only [update_eq]
      rfl
  · rfl

theorem foldlM_ok {α β : Type} {f : β → α → Except Ending β} {g : β → α → β} (h : ∀ b a, f b a = .ok (g b a)) :
    ∀ (as : List α) (b : β), as.foldlM f b = .ok (as.foldl g b)
  | [], _ => rfl
  | a :: as, b => by
    rw [List.foldlM_cons, h, ok_bind, foldlM_ok h as]
    rfl

theorem feedDelta_eq (acc : StreamAccumulator) (delta : Value) :
    feedDelta acc delta = .ok (acc.feedDelta delta) := by
  rw [feedDelta, stringMember_eq, ok_bind, stringMember_eq, ok_bind, arrayMember_eq, ok_bind, foldlM_ok feedCall_eq,
    ok_bind]
  rfl

theorem feedUsage_eq (acc : StreamAccumulator) (f : Value) : feedUsage acc f = .ok (acc.feedUsage f) := by
  have hmodel : (if f.isObject ∧ acc.model = "" then stringMember f "model" else pure none) =
      .ok (if acc.model = "" then f.stringAt? "model" else none) := by
    by_cases hobj : f.isObject = true
    · simp only [hobj, true_and, stringMember_eq]
      split_ifs <;> rfl
    · simp only [hobj, Bool.false_eq_true, false_and, if_false, stringAt?_of_not_object hobj, ite_self]
      rfl
  have husage : (if f.isObject then objectMember f "usage" else pure none) =
      .ok ((f.find? "usage").filter Value.isObject) := by
    by_cases hobj : f.isObject = true
    · rw [if_pos hobj, objectMember_eq]
    · have hnone : f.find? "usage" = none := by
        cases f with
        | obj ms => exact absurd rfl hobj
        | _ => rfl
      rw [if_neg hobj, hnone]
      rfl
  have hname : (if acc.model = "" then f.stringAt? "model" else none).getD acc.model =
      if acc.model = "" then (f.stringAt? "model").getD acc.model else acc.model := by
    split_ifs <;> rfl
  rw [feedUsage, StreamAccumulator.feedUsage]
  simp only [hmodel, husage]
  rw [ok_bind, ok_bind, hname]
  cases (f.find? "usage").filter Value.isObject with
  | none => rfl
  | some u =>
    simp only [tokensMember_eq, outputTokenCount_eq]
    rfl

theorem feedFrame_eq (acc : StreamAccumulator) (f : Value) : feedFrame acc f = .ok (acc.feedFrame f).1 := by
  rw [feedFrame, feedUsage_eq, ok_bind, arrayMember_eq, ok_bind, StreamAccumulator.feedFrame, choice?]
  cases f.arrayAt? "choices" with
  | none => rfl
  | some choices =>
    cases choices with
    | nil => rfl
    | cons choice choices =>
      by_cases hobj : choice.isObject = true
      · simp only [hobj, if_true, stringMember_eq, objectMember_eq, Option.getD_some, List.head?_cons, Option.filter,
          delta?]
        rw [ok_bind]
        cases hd : choice.find? "delta" with
        | none => rfl
        | some delta =>
          by_cases hdelta : delta.isObject = true
          · simp only [hdelta, if_true, feedDelta_eq]
            rw [ok_bind]
          · simp only [hdelta, Bool.false_eq_true, if_false]
            rfl
      · simp only [hobj, Bool.false_eq_true, if_false, Option.getD_some, List.head?_cons, Option.filter]
        rfl

theorem feed_eq (C : Codec) (acc : StreamAccumulator) (frame : String) :
    feed C acc frame = .ok (acc.feed C frame).1 := by
  rw [feed, StreamAccumulator.feed]
  cases C.parse frame with
  | none => rfl
  | some f => exact feedFrame_eq acc f

/-- **Feeding goes well**, whatever the frames are. -/
theorem feedFrames_eq (C : Codec) : ∀ (frames : List String) (acc : StreamAccumulator),
    feedFrames C acc frames = .ok (Openai.feedFrames C acc frames).1
  | [], _ => rfl
  | frame :: frames, acc => by
    have ih := feedFrames_eq C frames (acc.feed C frame).1
    rw [feedFrames] at ih
    rw [feedFrames, List.foldlM_cons, feed_eq, ok_bind, ih]
    rfl

end Checked

/-! ### Calls that are no objects -/

/-- The calls of a message are objects or null. -/
def Typable (m : Value) : Prop := ∀ tc ∈ (m.arrayAt? "tool_calls").getD [], tc.isObject = true ∨ tc = .null

/-- What is sent has no call that is neither an object nor null, as a message
or as the message of a response. -/
structure Readable (C : Codec) (x : String) : Prop where
  message : ∀ v, C.parse x = some v → v.stringAt? "role" ≠ some "tool" → Typable v
  response : ∀ v choice rest msg, C.parse x = some v → v.arrayAt? "choices" = some (choice :: rest) →
    choice.find? "message" = some msg → Typable msg

/-- What is sent, as one text or in frames, goes through all mappers: they
return a value or a status, and what is accepted as a response is accepted as
a message. -/
structure Safe (C : Codec) (provider : UsageProvider) (x : String) (frames : List String) : Prop where
  messages : ∀ f, Checked.toOpenAiMessages C x ≠ .error (.fault f)
  response : ∀ f, Checked.responseToCanonical C x provider ≠ .error (.fault f)
  system : ∀ f, Checked.systemMessage C x ≠ .error (.fault f)
  text : ∀ f, Checked.extractAssistantText C x ≠ .error (.fault f)
  stream : ∀ f, Checked.feedFrames C { provider } frames ≠ .error (.fault f)
  accepted : ∀ text, Checked.responseToCanonical C x provider = .ok text → ∃ ms, Checked.toOpenAiMessages C text = .ok ms

theorem typedCall_of_typable {tc : Value} (h : tc.isObject = true ∨ tc = .null) : ∃ call, typedCall tc = .ok call := by
  rw [typedCall]
  split_ifs
  · exact ⟨tc, rfl⟩
  · rcases h with hobj | rfl
    · cases tc with
      | obj ms => exact ⟨_, rfl⟩
      | _ => cases hobj
    · exact ⟨_, rfl⟩

theorem typedCall_of_not_typable {tc : Value} (h : ¬ (tc.isObject = true ∨ tc = .null)) :
    typedCall tc = .error (.thrown (.typeError 305)) := by
  cases tc with
  | null => exact absurd (Or.inr rfl) h
  | obj ms => exact absurd (Or.inl rfl) h
  | _ => rfl

/-- Some calls are given a type, or one of them throws. -/
theorem mapM_typedCall_cases (tcs : List Value) :
    ((∀ tc ∈ tcs, tc.isObject = true ∨ tc = .null) ∧ ∃ calls, tcs.mapM typedCall = .ok calls) ∨
      ((¬ ∀ tc ∈ tcs, tc.isObject = true ∨ tc = .null) ∧ tcs.mapM typedCall = .error (.thrown (.typeError 305))) := by
  induction tcs with
  | nil => exact Or.inl ⟨by simp, [], rfl⟩
  | cons tc tcs ih =>
    rw [List.mapM_cons, List.forall_mem_cons]
    by_cases htc : tc.isObject = true ∨ tc = .null
    · obtain ⟨call, hcall⟩ := typedCall_of_typable htc
      rw [hcall]
      rcases ih with ⟨hall, calls, hcalls⟩ | ⟨hall, hcalls⟩
      · exact Or.inl ⟨⟨htc, hall⟩, call :: calls, by rw [hcalls]; rfl⟩
      · exact Or.inr ⟨fun h => hall h.2, by rw [hcalls]; rfl⟩
    · rw [typedCall_of_not_typable htc]
      exact Or.inr ⟨fun h => htc h.1, rfl⟩

theorem plainMessage_cases (m : Value) (role : String) :
    (Typable m ∧ ∃ msg, plainMessage m role = .ok msg) ∨
      (¬ Typable m ∧ plainMessage m role = .error (.thrown (.typeError 305))) := by
  rw [plainMessage, Typable]
  cases m.arrayAt? "tool_calls" with
  | none => exact Or.inl ⟨by simp, _, rfl⟩
  | some tcs =>
    cases tcs with
    | nil => exact Or.inl ⟨by simp, _, rfl⟩
    | cons tc tcs =>
      rw [Option.getD_some]
      rcases mapM_typedCall_cases (tc :: tcs) with ⟨hall, calls, hcalls⟩ | ⟨hall, hcalls⟩
      · exact Or.inl ⟨hall, _, by simp only [hcalls]; rfl⟩
      · exact Or.inr ⟨hall, by simp only [hcalls]; rfl⟩

theorem toolResults_ne_thrown (C : Codec) (e : Json.Error) (entries : List Value) :
    toolResults C entries ≠ .error (.thrown e) := by
  induction entries with
  | nil => simp [toolResults]
  | cons entry entries ih =>
    intro h
    rw [toolResults] at h
    cases hr : toolResult C entry with
    | error f =>
      rw [hr] at h
      obtain rfl : f = .thrown e := Except.error.inj h
      rw [toolResult] at hr
      split_ifs at hr
      cases hr
    | ok m =>
      cases hrs : toolResults C entries with
      | error f =>
        rw [hr, hrs] at h
        obtain rfl : f = .thrown e := Except.error.inj h
        exact ih hrs
      | ok ms =>
        rw [hr, hrs] at h
        cases h

/-- **When `ToOpenAiMessages` throws.** -/
theorem toOpenAiMessages_thrown_iff (C : Codec) (x : String) :
    (∃ e, toOpenAiMessages C x = .error (.thrown e)) ↔
      ∃ v, C.parse x = some v ∧ v.stringAt? "role" ≠ some "tool" ∧ ¬ Typable v := by
  rw [toOpenAiMessages]
  cases C.parse x with
  | none => exact iff_of_false (by simp) (by simp)
  | some v =>
    cases v with
    | obj ms =>
      simp only [Option.some.injEq, exists_eq_left']
      by_cases hrole : ((Value.obj ms).stringAt? "role").getD "" = "tool"
      · have htool : (Value.obj ms).stringAt? "role" = some "tool" := by
          cases hs : (Value.obj ms).stringAt? "role" with
          | none => simp [hs] at hrole
          | some role => rw [← hrole, hs, Option.getD_some]
        rw [if_pos hrole]
        refine iff_of_false ?_ fun h => h.1 htool
        rintro ⟨e, he⟩
        cases hc : (Value.obj ms).arrayAt? "content" with
        | none =>
          rw [hc] at he
          cases he
        | some entries =>
          rw [hc] at he
          exact toolResults_ne_thrown C e entries he
      · have hno : (Value.obj ms).stringAt? "role" ≠ some "tool" := fun h => hrole (by rw [h]; rfl)
        rw [if_neg hrole]
        rcases plainMessage_cases (.obj ms) (if ((Value.obj ms).stringAt? "role").getD "" = "" then "user"
          else ((Value.obj ms).stringAt? "role").getD "") with ⟨ht, msg, hmsg⟩ | ⟨ht, hmsg⟩
        · rw [hmsg]
          exact iff_of_false (by simp) fun h => h.2 ht
        · rw [hmsg]
          exact iff_of_true ⟨_, rfl⟩ ⟨hno, ht⟩
    | _ =>
      refine iff_of_false (by simp) ?_
      rintro ⟨v, hv, -, ht⟩
      cases hv
      exact ht fun tc htc => by simp [Value.arrayAt?, Value.find?] at htc

section

variable {C : Codec} {provider : UsageProvider} {x : String}

theorem checked_messages_iff : (∀ f, Checked.toOpenAiMessages C x ≠ .error (.fault f)) ↔
    ¬ ∃ e, toOpenAiMessages C x = .error (.thrown e) := by
  rw [Checked.toOpenAiMessages_eq]
  cases toOpenAiMessages C x with
  | ok ms => exact iff_of_true (by simp [Except.mapError]) (by simp)
  | error f =>
    cases f with
    | status e =>
      refine iff_of_true (fun f h => ?_) (by simp)
      cases h
    | thrown e => exact iff_of_false (fun h => h (.thrown e) rfl) fun h => h ⟨e, rfl⟩

/-- A response is copied with the calls of its message. -/
theorem responseMembers_reads (resp msg : Value) :
    (Value.obj (responseMembers provider resp msg)).stringAt? "role" = some "assistant" ∧
      ((Value.obj (responseMembers provider resp msg)).arrayAt? "tool_calls").getD [] =
        (msg.arrayAt? "tool_calls").getD [] := by
  rw [responseMembers]
  constructor
  · cases msg.arrayAt? "tool_calls" with
    | none => simp [Value.stringAt?]
    | some tcs => cases tcs <;> simp [Value.stringAt?]
  · cases msg.arrayAt? "tool_calls" with
    | none => simp [Value.arrayAt?, OrderedMap.lookup_cons]
    | some tcs => cases tcs <;> simp [Value.arrayAt?, OrderedMap.lookup_cons]

/-- The message of a response that was accepted. -/
theorem responseToCanonical_eq_ok {text : String} : Checked.responseToCanonical C x provider = .ok text ↔
    ∃ v choice rest msg, C.parse x = some v ∧ v.arrayAt? "choices" = some (choice :: rest) ∧
      choice.find? "message" = some msg ∧ msg.isObject = true ∧
        text = C.dump (.obj (responseMembers provider v msg)) := by
  rw [Checked.responseToCanonical_eq, responseToCanonical]
  cases C.parse x with
  | none => exact iff_of_false (by simp [Except.mapError]) (by simp)
  | some v =>
    simp only [responseValue, responseMessage, Option.some.injEq, exists_and_left, exists_eq_left']
    cases hc : v.arrayAt? "choices" with
    | none => exact iff_of_false (by simp [Except.map, Except.mapError]) (by simp)
    | some choices =>
      cases choices with
      | nil => exact iff_of_false (by simp [Except.map, Except.mapError]) (by simp)
      | cons choice rest =>
        simp only
        constructor
        · intro h
          cases hm : (choice.find? "message").filter Value.isObject with
          | none =>
            rw [hm] at h
            cases h
          | some msg =>
            rw [hm] at h
            obtain ⟨hfind, hobj⟩ := Option.filter_eq_some_iff.mp hm
            exact ⟨choice, rest, rfl, msg, hfind, hobj, (Except.ok.inj h).symm⟩
        · rintro ⟨choice', rest', heq, msg, hfind, hobj, rfl⟩
          obtain ⟨rfl, rfl⟩ := List.cons.inj (Option.some.inj heq)
          rw [hfind, Option.filter, if_pos hobj]
          rfl

/-- What is printed of a response is accepted if and only if its calls can be typed. -/
theorem exists_messages_iff {ms : List (String × Value)} (hround : C.RoundTrips (.obj ms))
    (hrole : (Value.obj ms).stringAt? "role" = some "assistant") :
    (∃ out, Checked.toOpenAiMessages C (C.dump (.obj ms)) = .ok out) ↔ Typable (.obj ms) := by
  have hparse : C.parse (C.dump (.obj ms)) = some (.obj ms) := hround
  rw [Checked.toOpenAiMessages_eq, toOpenAiMessages, hparse]
  simp only [hrole, Option.getD_some]
  rw [if_neg (by decide), if_neg (by decide)]
  rcases plainMessage_cases (.obj ms) "assistant" with ⟨ht, msg, hmsg⟩ | ⟨ht, hmsg⟩
  · rw [hmsg]
    exact iff_of_true ⟨_, rfl⟩ ht
  · rw [hmsg]
    exact iff_of_false (by simp [Except.mapError]) ht

theorem typable_responseMembers {resp msg : Value} :
    Typable (.obj (responseMembers provider resp msg)) ↔ Typable msg := by
  rw [Typable, (responseMembers_reads resp msg).2, Typable]

/-- **Output that is not trusted goes through** if and only if no call of it
is neither an object nor null. -/
theorem safe_iff_readable (frames : List String)
    (hround : ∀ v r, C.parse x = some v → responseValue provider v = .ok r → C.RoundTrips r) :
    Safe C provider x frames ↔ Readable C x := by
  have haccepted : ∀ v choice rest msg, C.parse x = some v → v.arrayAt? "choices" = some (choice :: rest) →
      choice.find? "message" = some msg → msg.isObject = true →
      ((∃ out, Checked.toOpenAiMessages C (C.dump (.obj (responseMembers provider v msg))) = .ok out) ↔
        Typable msg) := by
    intro v choice rest msg hv hc hm hobj
    have hvalue : responseValue provider v = .ok (.obj (responseMembers provider v msg)) := by
      rw [responseValue, responseMessage, hc]
      simp only
      rw [hm, Option.filter, if_pos hobj]
      rfl
    rw [exists_messages_iff (hround v _ hv hvalue) (responseMembers_reads v msg).1, typable_responseMembers]
  constructor
  · intro h
    have hmessages := checked_messages_iff.mp h.messages
    rw [toOpenAiMessages_thrown_iff] at hmessages
    refine ⟨fun v hv hrole => ?_, fun v choice rest msg hv hc hm => ?_⟩
    · by_contra ht
      exact hmessages ⟨v, hv, hrole, ht⟩
    · by_cases hobj : msg.isObject = true
      · refine (haccepted v choice rest msg hv hc hm hobj).mp (h.accepted _ ?_)
        exact responseToCanonical_eq_ok.mpr ⟨v, choice, rest, msg, hv, hc, hm, hobj, rfl⟩
      · intro tc htc
        cases msg with
        | obj ms => exact absurd rfl hobj
        | _ => simp [Value.arrayAt?, Value.find?] at htc
  · intro h
    refine ⟨?_, fun f => ?_, fun f => ?_, fun f => ?_, fun f => ?_, fun text htext => ?_⟩
    · rw [checked_messages_iff, toOpenAiMessages_thrown_iff]
      rintro ⟨v, hv, hrole, ht⟩
      exact ht (h.message v hv hrole)
    · rw [Checked.responseToCanonical_eq]
      cases responseToCanonical C x provider <;> simp [Except.mapError]
    · simp [Checked.systemMessage_eq]
    · simp [Checked.extractAssistantText_eq]
    · simp [Checked.feedFrames_eq]
    · obtain ⟨v, choice, rest, msg, hv, hc, hm, hobj, rfl⟩ := responseToCanonical_eq_ok.mp htext
      exact (haccepted v choice rest msg hv hc hm hobj).mpr (h.response v choice rest msg hv hc hm)

end

/-! ### Texts -/

/-- An answer with one call that is an object, and one with one that is a number. -/
def callAnswer (call : Value) : Value :=
  .obj [("choices", .arr [.obj [("message", .obj [("tool_calls", .arr [call])])]])]

def callMessage (call : Value) : Value :=
  .obj [("content", .arr [textItem ""]), ("role", .str "assistant"), ("tool_calls", .arr [call])]

def callCodec : Codec := .ofTable
  [("called", callAnswer (.obj [("id", .str "a")])), ("called message", callMessage (.obj [("id", .str "a")])),
    ("numbered", callAnswer (.int 5)), ("numbered message", callMessage (.int 5))]

theorem safe_iff_readable_called : Safe callCodec .openAi "called" ["called", "no json"] := by
  refine (safe_iff_readable _ fun v r hv hr => ?_).mpr ⟨fun v hv _ => ?_, fun v choice rest msg hv hc hm => ?_⟩
  · cases hv
    have hvalue : responseValue .openAi (callAnswer (.obj [("id", .str "a")])) =
        .ok (callMessage (.obj [("id", .str "a")])) := by decide
    obtain rfl := Except.ok.inj (hvalue.symm.trans hr)
    rw [Codec.RoundTrips]
    decide
  · cases hv
    intro tc htc
    simp [callAnswer, Value.arrayAt?, OrderedMap.lookup_cons] at htc
  · cases hv
    cases hc
    cases hm
    intro tc htc
    rw [List.mem_singleton.mp htc]
    exact Or.inl rfl

/-- A call that is a number is accepted in a response, and throws when it is converted. -/
theorem not_safe_numbered : Checked.responseToCanonical callCodec "numbered" .openAi = .ok "numbered message" ∧
    Checked.toOpenAiMessages callCodec "numbered message" = .error (.fault (.thrown (.typeError 305))) := by
  constructor <;> decide

end AgentFlow.Openai
