/-
# Reads that are checked

The mappers read JSON that a provider sent, with accesses of the library that
throw on a value of the wrong kind. Here every access is one that may go
wrong (`Fault`), and stands behind the checks that the source makes before
it. None of them goes wrong, but for one: a call without a type is given one
before it is known to be an object (`typedCall`). So each function that does
not copy calls is the function that reads with `Option`.

Key definitions: `Fault`, `Checked.member`, `Checked.toOpenAiMessages`,
`Checked.responseToCanonical`, `Checked.feed`.
Key theorems: `Checked.toOpenAiMessages_eq`, `Checked.responseToCanonical_eq`,
`Checked.feed_eq`.
-/
import AgentFlow.Inference.CanonicalMessage
import AgentFlow.Inference.Openai.Response

namespace AgentFlow.Openai

open Json StreamAccumulator

/-- How an access goes wrong: by an exception, or by reading a member that is
not there, which is undefined. -/
inductive Fault
  | thrown (e : Json.Error)
  | undefined
  deriving DecidableEq, Repr

/-- How a function ends without a value. -/
inductive Ending
  | status (e : Status.Error)
  | fault (f : Fault)
  deriving DecidableEq, Repr

namespace Checked

/-! ### Accesses -/

/-- `v[k]`. -/
def member (v : Value) (k : String) : Except Ending Value :=
  match v with
  | .obj ms =>
    match ms.lookup k with
    | some x => .ok x
    | none => .error (.fault .undefined)
  | _ => .error (.fault (.thrown (.typeError 305)))

/-- `get<std::string>`. -/
def getString : Value → Except Ending String
  | .str s => .ok s
  | _ => .error (.fault (.thrown (.typeError 302)))

/-- `get<long long>`. -/
def getInt64 (v : Value) : Except Ending ℤ :=
  match v.toInt64? with
  | some i => .ok i
  | none => .error (.fault (.thrown (.typeError 302)))

/-- `get<int>`. -/
def getInt32 (v : Value) : Except Ending ℤ :=
  match v.toInt32? with
  | some i => .ok i
  | none => .error (.fault (.thrown (.typeError 302)))

/-- `v.contains(k)` and a check of `v[k]`; the member, if both hold. -/
def memberIf (check : Value → Bool) (v : Value) (k : String) : Except Ending (Option Value) :=
  if v.contains k then do
    let x ← member v k
    return if check x then some x else none
  else return none

def stringMember (v : Value) (k : String) : Except Ending (Option String) := do
  match ← memberIf (fun x => x.str?.isSome) v k with
  | some x => do return some (← getString x)
  | none => return none

def arrayMember (v : Value) (k : String) : Except Ending (Option (List Value)) := do
  return (← memberIf (fun x => x.arr?.isSome) v k).bind Value.arr?

def objectMember (v : Value) (k : String) : Except Ending (Option Value) := memberIf Value.isObject v k

/-- The member `k`, if it is a `ValidTokenCount`. -/
def tokensMember (v : Value) (k : String) : Except Ending (Option ℤ) := do
  match ← memberIf (fun x => (tokenCount? x).isSome) v k with
  | some x => do return some (← getInt64 x)
  | none => return none

theorem ok_bind {α β : Type} (a : α) (f : α → Except Ending β) : ((.ok a : Except Ending α) >>= f) = f a := rfl

/-- A member that is there is read. -/
theorem member_of_find? {v x : Value} {k : String} (h : v.find? k = some x) :
    v.contains k = true ∧ member v k = .ok x := by
  cases v with
  | obj ms =>
    rw [Value.find?_obj] at h
    exact ⟨by rw [Value.contains, Value.find?_obj, h]; rfl, by simp only [member, h]⟩
  | _ => cases h

theorem contains_of_find?_eq_none {v : Value} {k : String} (h : v.find? k = none) : v.contains k = false := by
  rw [Value.contains, h]
  rfl

theorem memberIf_eq (check : Value → Bool) (v : Value) (k : String) :
    memberIf check v k = .ok ((v.find? k).filter check) := by
  rw [memberIf]
  cases hk : v.find? k with
  | none =>
    rw [contains_of_find?_eq_none hk]
    rfl
  | some x =>
    obtain ⟨hc, hm⟩ := member_of_find? hk
    rw [hc, if_pos rfl, hm, ok_bind, Option.filter]
    rfl

@[simp]
theorem stringMember_eq (v : Value) (k : String) : stringMember v k = .ok (v.stringAt? k) := by
  rw [stringMember, memberIf_eq, Value.stringAt?]
  cases v.find? k with
  | none => rfl
  | some x => cases x <;> rfl

@[simp]
theorem arrayMember_eq (v : Value) (k : String) : arrayMember v k = .ok (v.arrayAt? k) := by
  rw [arrayMember, memberIf_eq, Value.arrayAt?]
  cases v.find? k with
  | none => rfl
  | some x => cases x <;> rfl

@[simp]
theorem objectMember_eq (v : Value) (k : String) : objectMember v k = .ok ((v.find? k).filter Value.isObject) :=
  memberIf_eq _ v k

/-- A count that is valid is read as it is. -/
theorem getInt64_of_tokenCount? {v : Value} {n : ℤ} (h : tokenCount? v = some n) : getInt64 v = .ok n := by
  obtain ⟨hv, hn⟩ := Option.filter_eq_some_iff.mp h
  cases v with
  | int i =>
    obtain rfl : i = n := by simpa [Value.int?] using hv
    have hle : i < 2 ^ 63 := by
      have := of_decide_eq_true hn
      unfold maxLongLong at this
      omega
    rw [getInt64, Value.toInt64?, if_pos (by omega), if_pos hle]
  | _ => cases hv

@[simp]
theorem tokensMember_eq (v : Value) (k : String) : tokensMember v k = .ok (tokensAt? v k) := by
  rw [tokensMember, memberIf_eq, tokensAt?]
  cases v.find? k with
  | none => rfl
  | some x =>
    cases hx : tokenCount? x with
    | none => simp [hx, Option.filter, bind, Except.bind, pure, Except.pure]
    | some n =>
      simp [hx, Option.filter, bind, Except.bind, pure, Except.pure, getInt64_of_tokenCount? hx]

/-! ### Content -/

def flattenItem (item : Value) : Except Ending String :=
  if item.isObject then do
    if (← stringMember item "type") = some "text" then return (← stringMember item "text").getD ""
    else return ""
  else return ""

/-- `FlattenContent`. -/
def flattenContent : Value → Except Ending String
  | .str s => .ok s
  | .arr items => do return String.join (← items.mapM flattenItem)
  | _ => .ok ""

/-- `IsImageRef`. -/
def isImageRef (item : Value) : Except Ending Bool :=
  if item.isObject then do
    if (← stringMember item "type") = some "image_ref" then
      return (← stringMember item "key").any fun key => key ≠ ""
    else return false
  else return false

/-- `HasImageRef`. -/
def hasImageRef : Value → Except Ending Bool
  | .arr items => items.anyM isImageRef
  | _ => .ok false

def userItem (item : Value) : Except Ending (Option Value) := do
  if ← isImageRef item then
    return some (.object [("type", .str "image_ref"), ("key", ← member item "key")])
  else if item.isObject then
    if (← stringMember item "type") = some "text" then return (← stringMember item "text").map textItem
    else return none
  else return none

/-- `UserContentWithImages`. -/
def userContentWithImages (content : Value) : Except Ending Value := do
  return .arr ((← (content.arr?.getD []).mapM userItem).filterMap id)

/-- `SystemMessage`. -/
def systemMessage (C : Codec) (systemMessageJson : String) : Except Ending (Option Value) :=
  if systemMessageJson = "" then return none
  else
    match C.parse systemMessageJson with
    | none => return none
    | some arr => do
      let text ← flattenContent arr
      return if text = "" then none else some (.object [("role", .str "system"), ("content", .str text)])

/-- `ExtractAssistantText`. -/
def extractAssistantText (C : Codec) (canonicalJson : String) : Except Ending String :=
  match C.parse canonicalJson with
  | none => return ""
  | some resp => do
    match ← arrayMember resp "content" with
    | none => return ""
    | some items => return String.join (← items.mapM flattenItem)

theorem mapM_ok {α β : Type} {f : α → Except Ending β} {g : α → β} (h : ∀ a, f a = .ok (g a)) :
    ∀ as : List α, as.mapM f = .ok (as.map g)
  | [] => rfl
  | a :: as => by
    rw [List.mapM_cons, h, mapM_ok h as]
    rfl

theorem stringAt?_of_not_object {v : Value} (h : ¬ v.isObject = true) (k : String) : v.stringAt? k = none := by
  cases v with
  | obj ms => exact absurd rfl h
  | _ => rfl

@[simp]
theorem flattenItem_eq (item : Value) : flattenItem item = .ok (Openai.flattenItem item) := by
  rw [flattenItem, Openai.flattenItem]
  by_cases hobj : item.isObject = true
  · rw [if_pos hobj, stringMember_eq, stringMember_eq]
    simp only [bind, Except.bind]
    split_ifs <;> rfl
  · rw [if_neg hobj, stringAt?_of_not_object hobj]
    rfl

@[simp]
theorem flattenContent_eq (content : Value) : flattenContent content = .ok (Openai.flattenContent content) := by
  cases content with
  | arr items => rw [flattenContent, mapM_ok flattenItem_eq]; rfl
  | _ => rfl

@[simp]
theorem isImageRef_eq (item : Value) : isImageRef item = .ok (Openai.isImageRef item) := by
  rw [isImageRef, Openai.isImageRef, imageRefKey?]
  by_cases hobj : item.isObject = true
  · rw [if_pos hobj, stringMember_eq, stringMember_eq]
    simp only [bind, Except.bind]
    split_ifs with htype
    · cases item.stringAt? "key" with
      | none => rfl
      | some key =>
        by_cases hkey : key = ""
        · simp [hkey, pure, Except.pure]
        · simp [hkey, pure, Except.pure, Option.filter]
    · rfl
  · rw [if_neg hobj, stringAt?_of_not_object hobj]
    rfl

theorem anyM_ok {p : Value → Except Ending Bool} {q : Value → Bool} (h : ∀ v, p v = .ok (q v)) (vs : List Value) :
    vs.anyM p = .ok (vs.any q) := by
  induction vs with
  | nil => rfl
  | cons v vs ih =>
    rw [List.anyM, h, List.any_cons]
    cases q v with
    | true => rfl
    | false => exact ih

@[simp]
theorem hasImageRef_eq (content : Value) : hasImageRef content = .ok (Openai.hasImageRef content) := by
  cases content with
  | arr items => exact anyM_ok isImageRef_eq items
  | _ => rfl

@[simp]
theorem userItem_eq (item : Value) : userItem item = .ok (Openai.userItem item) := by
  rw [userItem, isImageRef_eq, Openai.userItem, Openai.isImageRef]
  cases hkey : imageRefKey? item with
  | some key =>
    -- the key that is read is the one that was checked
    have hmember : member item "key" = .ok (.str key) := by
      rw [imageRefKey?] at hkey
      split_ifs at hkey
      obtain ⟨hs, -⟩ := Option.filter_eq_some_iff.mp hkey
      obtain ⟨x, hx, hstr⟩ := Option.bind_eq_some_iff.mp hs
      rw [Value.str?_eq_some hstr] at hx
      exact (member_of_find? hx).2
    simp only [Option.isSome_some, bind, Except.bind, if_true, hmember]
    rfl
  | none =>
    simp only [Option.isSome_none, bind, Except.bind, Bool.false_eq_true, if_false, stringMember_eq]
    by_cases hobj : item.isObject = true
    · rw [if_pos hobj]
      split_ifs <;> rfl
    · rw [if_neg hobj, stringAt?_of_not_object hobj]
      rfl

theorem userContentWithImages_eq (items : List Value) :
    userContentWithImages (.arr items) = .ok (Openai.userContentWithImages items) := by
  rw [userContentWithImages, Value.arr?_arr, Option.getD_some, mapM_ok userItem_eq]
  simp [bind, Except.bind, pure, Except.pure, Openai.userContentWithImages, List.filterMap_map]

theorem systemMessage_eq (C : Codec) (text : String) : systemMessage C text = .ok (Openai.systemMessage C text) := by
  rw [systemMessage, Openai.systemMessage]
  split_ifs
  · rfl
  · cases C.parse text with
    | none => rfl
    | some arr =>
      simp only [flattenContent_eq, bind, Except.bind]
      split_ifs <;> rfl

theorem extractAssistantText_eq (C : Codec) (text : String) :
    extractAssistantText C text = .ok (AgentFlow.extractAssistantText C text) := by
  rw [extractAssistantText, AgentFlow.extractAssistantText]
  cases C.parse text with
  | none => rfl
  | some resp =>
    simp only [arrayMember_eq, bind, Except.bind, assistantText]
    cases resp.arrayAt? "content" with
    | none => rfl
    | some items =>
      simp only [mapM_ok flattenItem_eq]
      rfl

end Checked

end AgentFlow.Openai
