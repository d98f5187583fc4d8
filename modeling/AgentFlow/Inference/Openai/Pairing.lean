/-
# Every tool call is answered on the wire

What `RepairToolCallPairing` leaves is a history in which every assistant
message with tool calls is followed by the tool messages that answer them
(`Paired`). The repair reads members that it does not check, so it is first
shown that the messages of a history are messages (`IsMessage`), which is
what `ToOpenAiMessages` makes; on those it does what the relation `Repaired`
says, and every fact about it is an induction on that relation.

Key definitions: `IsMessage`, `Paired`, `Repaired`.
Key theorems: `repairToolCallPairing_eq`, `Repaired.paired`.
-/
import AgentFlow.Inference.Openai.Turns
import Mathlib.Data.List.TakeWhile

namespace AgentFlow.Openai

open Json

/-- A message of a history: it has a role, and a tool message the id of the
call it answers. -/
def IsMessage (m : Value) : Prop :=
  ∃ role, m.stringAt? "role" = some role ∧ (role = "tool" → ∃ id, m.stringAt? "tool_call_id" = some id)

def isTool (m : Value) : Bool := m.stringAt? "role" = some "tool"

def toolCallId (m : Value) : String := (m.stringAt? "tool_call_id").getD ""

/-- The tool calls of an assistant message. -/
def callsOf (m : Value) : List Value :=
  if m.stringAt? "role" = some "assistant" then (m.arrayAt? "tool_calls").getD [] else []

/-- The calls of `m` are answered by the run of tool messages that `rest`
begins with. -/
def Answers (m : Value) (rest : List Value) : Prop :=
  ∀ c ∈ callsOf m, ∀ id, c.stringAt? "id" = some id → id ≠ "" →
    ∃ t ∈ rest.takeWhile isTool, t.stringAt? "tool_call_id" = some id

/-- Every assistant message's calls are answered directly after it. -/
def Paired (messages : List Value) : Prop := ∀ p m rest, messages = p ++ m :: rest → Answers m rest

theorem paired_nil : Paired [] := by
  intro p m rest h
  simp at h

theorem paired_cons {m : Value} {rest : List Value} : Paired (m :: rest) ↔ Answers m rest ∧ Paired rest := by
  constructor
  · intro h
    exact ⟨h [] m rest rfl, fun p m' s hs => h (m :: p) m' s (by rw [hs]; rfl)⟩
  · rintro ⟨hm, hr⟩ p m' s hs
    cases p with
    | nil =>
      obtain ⟨rfl, rfl⟩ := List.cons.inj hs
      exact hm
    | cons a p =>
      obtain ⟨-, rfl⟩ := List.cons.inj hs
      exact hr p m' s rfl

theorem stringAt?_object {m : Value} {k s : String} (h : m.stringAt? k = some s) : m.isObject = true := by
  cases m <;> simp [Value.stringAt?, Value.find?] at h
  rfl

theorem callsOf_of_isTool {m : Value} (h : isTool m = true) : callsOf m = [] := by
  have h' : m.stringAt? "role" = some "tool" := by simpa [isTool] using h
  rw [callsOf, h', if_neg (by decide)]

/-- A run of tool messages asks for nothing. -/
theorem paired_append_tools {run rest : List Value} (h : ∀ t ∈ run, isTool t = true) (hr : Paired rest) :
    Paired (run ++ rest) := by
  induction run with
  | nil => exact hr
  | cons t run ih =>
    refine paired_cons.mpr ⟨fun c hc => ?_, ih fun u hu => h u (List.mem_cons_of_mem _ hu)⟩
    rw [callsOf_of_isTool (h t List.mem_cons_self)] at hc
    simp at hc

/-! ### What the repair does -/

/-- The repaired history, clause by clause: a message without calls stays,
and the tool messages after one with calls are followed by what they lack. -/
inductive Repaired : List Value → List Value → Prop
  | nil : Repaired [] []
  | skip {m : Value} {rest r : List Value} : callsOf m = [] → Repaired rest r → Repaired (m :: rest) (m :: r)
  | answer {m : Value} {run rest r : List Value} : callsOf m ≠ [] → (∀ t ∈ run, isTool t = true) →
      Repaired rest r →
      Repaired (m :: (run ++ rest))
        (m :: (run ++ missingResults (wantedIds (callsOf m)) (run.map toolCallId) ++ r))

theorem assistantCalls_eq {m : Value} (h : IsMessage m) :
    assistantCalls m = .ok (if callsOf m = [] then none else some (callsOf m)) := by
  obtain ⟨role, hrole, -⟩ := h
  simp only [assistantCalls, stringAt?_object hrole, if_true, Value.value_of_stringAt? _ hrole, callsOf, hrole,
    Option.some.injEq, bind, Except.bind]
  split_ifs with h1 h2
  · cases hc : m.arrayAt? "tool_calls" with
    | none => rfl
    | some cs => cases cs with
      | nil => rfl
      | cons c cs => simp [hc] at h2
  · cases hc : m.arrayAt? "tool_calls" with
    | none => simp [hc] at h2
    | some cs => cases cs with
      | nil => simp [hc] at h2
      | cons c cs => rfl
  · rfl
  · contradiction

theorem toolRun_eq : ∀ {rest : List Value}, (∀ m ∈ rest, IsMessage m) →
    toolRun rest = .ok ((rest.takeWhile isTool).map toolCallId)
  | [], _ => rfl
  | m :: rest, h => by
    obtain ⟨role, hrole, hid⟩ := h m List.mem_cons_self
    have ih := toolRun_eq fun u hu => h u (List.mem_cons_of_mem m hu)
    simp only [toolRun, stringAt?_object hrole, if_true, Value.value_of_stringAt? _ hrole, bind, Except.bind]
    by_cases ht : role = "tool"
    · obtain ⟨id, hid⟩ := hid ht
      have htool : isTool m = true := by simp [isTool, hrole, ht]
      simp only [if_pos ht, Value.value_of_stringAt? _ hid, ih, List.takeWhile_cons_of_pos htool, List.map_cons,
        toolCallId, hid, Option.getD_some]
      rfl
    · have htool : ¬ isTool m = true := by simp [isTool, hrole, ht]
      rw [if_neg ht, List.takeWhile_cons_of_neg htool]
      rfl

/-- On messages the repair throws nothing and does what `Repaired` says. -/
theorem repairToolCallPairing_eq (ms : List Value) (h : ∀ m ∈ ms, IsMessage m) :
    ∃ r, repairToolCallPairing ms = (r, none) ∧ Repaired ms r := by
  induction hn : ms.length using Nat.strong_induction_on generalizing ms with
  | _ n ih =>
    cases ms with
    | nil => exact ⟨[], by rw [repairToolCallPairing], Repaired.nil⟩
    | cons m rest =>
      have hrest : ∀ u ∈ rest, IsMessage u := fun u hu => h u (List.mem_cons_of_mem m hu)
      rw [repairToolCallPairing, assistantCalls_eq (h m List.mem_cons_self)]
      by_cases hc : callsOf m = []
      · obtain ⟨r, hr, hR⟩ := ih rest.length (by simp [← hn]) rest hrest rfl
        rw [if_pos hc]
        simp only [hr]
        exact ⟨m :: r, rfl, Repaired.skip hc hR⟩
      · rw [if_neg hc]
        simp only [toolRun_eq hrest, List.length_map]
        have htake : rest.take (rest.takeWhile isTool).length = rest.takeWhile isTool :=
          List.prefix_iff_eq_take.mp (List.takeWhile_prefix isTool) |>.symm
        have hdrop : rest.drop (rest.takeWhile isTool).length = rest.dropWhile isTool := by
          conv_lhs => rw [← List.takeWhile_append_dropWhile (p := isTool) (l := rest)]
          rw [List.drop_left']
          rw [List.takeWhile_append_dropWhile]
        obtain ⟨r, hr, hR⟩ := ih (rest.dropWhile isTool).length
          (by have := (List.dropWhile_suffix isTool (l := rest)).length_le; simp only [← hn, List.length_cons]; omega)
          (rest.dropWhile isTool) (fun u hu => hrest u ((List.dropWhile_suffix isTool).mem hu)) rfl
        rw [htake, hdrop, hr]
        refine ⟨_, rfl, ?_⟩
        have := @Repaired.answer m (rest.takeWhile isTool) _ _ hc (fun t ht => List.mem_takeWhile_imp ht) hR
        rwa [List.takeWhile_append_dropWhile] at this

@[simp]
theorem toolMessage_role (id content : String) : (toolMessage id content).stringAt? "role" = some "tool" := by
  simp [toolMessage, Value.object, Value.stringAt?]

@[simp]
theorem toolMessage_id (id content : String) : (toolMessage id content).stringAt? "tool_call_id" = some id := by
  simp [toolMessage, Value.object, Value.stringAt?]

@[simp]
theorem isTool_toolMessage (id content : String) : isTool (toolMessage id content) = true := by
  simp [isTool]

theorem isMessage_toolMessage (id content : String) : IsMessage (toolMessage id content) :=
  ⟨"tool", toolMessage_role id content, fun _ => ⟨id, toolMessage_id id content⟩⟩

theorem mem_missingResults {want answered : List String} {m : Value} (h : m ∈ missingResults want answered) :
    ∃ id, m = toolMessage id kNotExecuted := by
  obtain ⟨id, -, rfl⟩ := List.mem_map.mp h
  exact ⟨id, rfl⟩

theorem mem_wantedIds {calls : List Value} {c : Value} {id : String} (hc : c ∈ calls)
    (hid : c.stringAt? "id" = some id) (hne : id ≠ "") : id ∈ wantedIds calls :=
  List.mem_filterMap.mpr ⟨c, hc, by simp [hid, hne]⟩

/-- A wanted id is answered by the run or by what is added to it. -/
theorem exists_answer {want : List String} {run : List Value} {id : String} (hw : id ∈ want) (hne : id ≠ "") :
    ∃ t ∈ run ++ missingResults want (run.map toolCallId), t.stringAt? "tool_call_id" = some id := by
  by_cases ha : id ∈ run.map toolCallId
  · obtain ⟨t, ht, hid⟩ := List.mem_map.mp ha
    refine ⟨t, List.mem_append_left _ ht, ?_⟩
    rw [toolCallId] at hid
    cases h : t.stringAt? "tool_call_id" with
    | none => rw [h] at hid; exact absurd hid.symm hne
    | some id' => rw [h] at hid; exact congrArg some hid
  · refine ⟨toolMessage id kNotExecuted, List.mem_append_right _ (List.mem_map.mpr ⟨id, ?_, rfl⟩), by simp⟩
    exact List.mem_filter.mpr ⟨hw, by simpa using ha⟩

/-- **The repair pairs.** -/
theorem Repaired.paired {ms r : List Value} (h : Repaired ms r) : Paired r := by
  induction h with
  | nil => exact paired_nil
  | skip hc _ ih =>
    refine paired_cons.mpr ⟨fun c hm => ?_, ih⟩
    rw [hc] at hm
    simp at hm
  | @answer m run rest r hc hrun _ ih =>
    have htools : ∀ t ∈ run ++ missingResults (wantedIds (callsOf m)) (run.map toolCallId), isTool t = true := by
      intro t ht
      rcases List.mem_append.mp ht with ht | ht
      · exact hrun t ht
      · obtain ⟨id, rfl⟩ := mem_missingResults ht
        exact isTool_toolMessage id _
    refine paired_cons.mpr ⟨fun c hm id hid hne => ?_, paired_append_tools htools ih⟩
    rw [List.takeWhile_append_of_pos htools]
    obtain ⟨t, ht, hti⟩ := @exists_answer _ run _ (mem_wantedIds hm hid hne) hne
    exact ⟨t, List.mem_append_left _ ht, hti⟩

/-- The repair only adds tool messages. -/
theorem Repaired.mem {ms r : List Value} (h : Repaired ms r) {m : Value} (hm : m ∈ r) :
    m ∈ ms ∨ ∃ id, m = toolMessage id kNotExecuted := by
  induction h with
  | nil => simp at hm
  | skip _ _ ih =>
    rcases List.mem_cons.mp hm with rfl | hm
    · exact Or.inl List.mem_cons_self
    · exact (ih hm).imp_left (List.mem_cons_of_mem _)
  | @answer m' run rest r _ _ _ ih =>
    rcases List.mem_cons.mp hm with rfl | hm
    · exact Or.inl List.mem_cons_self
    rcases List.mem_append.mp hm with hm | hm
    · rcases List.mem_append.mp hm with hm | hm
      · exact Or.inl (List.mem_cons_of_mem _ (List.mem_append_left _ hm))
      · exact Or.inr (mem_missingResults hm)
    · exact (ih hm).imp_left fun h => List.mem_cons_of_mem _ (List.mem_append_right _ h)

/-- ... and keeps a message without calls at the front where it is. -/
theorem Repaired.head {m : Value} {ms r : List Value} (h : Repaired (m :: ms) r) : ∃ r', r = m :: r' := by
  cases h with
  | skip => exact ⟨_, rfl⟩
  | answer => exact ⟨_, rfl⟩

/-! ### The messages of a history are messages -/

theorem mem_toolResults {C : Codec} : ∀ {entries ms : List Value}, toolResults C entries = .ok ms →
    ∀ m ∈ ms, ∃ id content, m = toolMessage id content
  | [], ms, h, m, hm => by
    cases h
    simp at hm
  | entry :: entries, ms, h, m, hm => by
    rw [toolResults] at h
    rcases he : toolResult C entry with _ | r
    · simp [he, bind, Except.bind] at h
    rcases hes : toolResults C entries with _ | rs
    · simp [he, hes, bind, Except.bind] at h
    simp only [he, hes, bind, Except.bind, pure, Except.pure, Except.ok.injEq] at h
    rw [← h] at hm
    rcases List.mem_append.mp hm with hm | hm
    · unfold toolResult at he
      split_ifs at he
      · obtain rfl := Except.ok.inj he
        simp only [Option.toList_some, List.mem_singleton] at hm
        exact ⟨_, _, hm⟩
      · obtain rfl := Except.ok.inj he
        simp at hm
    · exact mem_toolResults hes m hm

theorem messageMembers_role (m : Value) (role : String) :
    (messageMembers m role).lookup "role" = some (.str role) := by
  unfold messageMembers
  cases m.stringAt? "reasoning_content" <;> simp

theorem messageMembers_content (m : Value) (role : String) :
    (messageMembers m role).lookup "content" = some (messageContent m role) := by
  unfold messageMembers
  cases m.stringAt? "reasoning_content" <;> simp

theorem plainMessage_ok {m msg : Value} {role : String} (h : plainMessage m role = .ok msg) :
    msg.stringAt? "role" = some role ∧ msg.find? "content" = some (messageContent m role) := by
  unfold plainMessage at h
  split at h
  · rename_i tc tcs _
    cases hc : (tc :: tcs).mapM typedCall with
    | error e => simp [hc, bind, Except.bind] at h
    | ok calls =>
      simp only [hc, bind, Except.bind, pure, Except.pure, Except.ok.injEq] at h
      rw [← h]
      simp [Value.stringAt?, messageMembers_role, messageMembers_content]
  · cases h
    simp [Value.stringAt?, messageMembers_role, messageMembers_content]

/-- What a canonical message becomes: tool messages, or one message with its
role and its content. -/
theorem toOpenAiMessages_cases {C : Codec} {text : String} {ms : List Value}
    (h : toOpenAiMessages C text = .ok ms) :
    (∀ m ∈ ms, ∃ id content, m = toolMessage id content) ∨
    ∃ v role msg, C.parse text = some v ∧ role ≠ "tool" ∧ ms = [msg] ∧ msg.stringAt? "role" = some role ∧
      msg.find? "content" = some (messageContent v role) := by
  unfold toOpenAiMessages at h
  split at h
  · rename_i members hp
    by_cases hr : ((Value.obj members).stringAt? "role").getD "" = "tool"
    · simp only [if_pos hr] at h
      left
      split at h
      · cases h
      · exact mem_toolResults h
    · simp only [if_neg hr] at h
      right
      generalize hrole : (if ((Value.obj members).stringAt? "role").getD "" = "" then "user"
        else ((Value.obj members).stringAt? "role").getD "") = role at h
      have hne : role ≠ "tool" := by
        rw [← hrole]
        split_ifs
        · decide
        · exact hr
      cases hm : plainMessage (.obj members) role with
      | error e => simp [hm, bind, Except.bind] at h
      | ok msg =>
        simp only [hm, bind, Except.bind, pure, Except.pure, Except.ok.injEq] at h
        obtain ⟨h1, h2⟩ := plainMessage_ok hm
        exact ⟨_, role, msg, hp, hne, h.symm, h1, h2⟩
  · cases h

theorem isMessage_toOpenAiMessages {C : Codec} {text : String} {ms : List Value}
    (h : toOpenAiMessages C text = .ok ms) : ∀ m ∈ ms, IsMessage m := by
  intro m hm
  rcases toOpenAiMessages_cases h with ht | ⟨v, role, msg, -, hne, rfl, hr, -⟩
  · obtain ⟨id, content, rfl⟩ := ht m hm
    exact isMessage_toolMessage id content
  · obtain rfl := List.mem_singleton.mp hm
    exact ⟨role, hr, fun h => absurd h hne⟩

end AgentFlow.Openai
