/-
# What the stream assembler keeps

`LiteRtStreamAssembler` takes a chunk that parses for a message and any other
chunk for text. A chunk that parses to something else than an envelope is taken
for a message without text, so its text is lost: the assembler keeps all text
exactly if each chunk that parses is an envelope (`keepsText_iff`). It remembers
one message with tool calls, the last one, so it keeps all calls exactly if one
chunk alone carries them (`keepsCalls_iff`).

Key definitions: `assembled`, `callsOf`, `IsEnvelope`, `Means`.
Key theorems: `assembled_text`, `keepsText_iff`, `assembled_calls`,
`keepsCalls_iff`.
-/
import AgentFlow.Inference.CanonicalMessage
import AgentFlow.Lib.JsonWeight
import Mathlib.Data.List.Forall2

namespace AgentFlow

open Json

namespace LiteRtStreamAssembler

/-- What a run of chunks is assembled to. -/
def assembled (C : Codec) (chunks : List String) : LiteRtStreamAssembler := chunks.foldl (·.feed C) {}

/-- The tool calls that a message carries. -/
def callsOf (C : Codec) (json : String) : List Value :=
  ((C.parse json).bind (·.arrayAt? "tool_calls")).getD []

/-- An assistant message whose content is these texts. -/
def IsEnvelope (v : Value) (texts : List String) : Prop :=
  v.stringAt? "role" = some "assistant" ∧ ∃ items, v.arrayAt? "content" = some items ∧
    List.Forall₂ (fun item t => item.stringAt? "type" = some "text" ∧ item.stringAt? "text" = some t) items texts

/-- What the engine means by a chunk: the texts of an envelope, and any other
chunk as it stands. -/
inductive Means (C : Codec) : String → String → Prop
  | envelope {chunk : String} {v : Value} {texts : List String} (hparse : C.parse chunk = some v)
      (h : IsEnvelope v texts) : Means C chunk (String.join texts)
  | raw {chunk : String} (hne : chunk ≠ "") (h : ∀ v, C.parse chunk = some v → ∀ texts, ¬ IsEnvelope v texts) :
      Means C chunk chunk

/-! ### One chunk -/

/-- What a chunk without calls is taken for. -/
def pieceOf (C : Codec) (chunk : String) : String :=
  if (C.parse chunk).isNone then chunk else extractAssistantText C chunk

theorem chunkOf_of_callsOf_eq_nil {C : Codec} {chunk : String} (h : callsOf C chunk = []) :
    chunkOf C chunk = .text (pieceOf C chunk) := by
  unfold callsOf at h
  unfold chunkOf pieceOf
  cases hparse : C.parse chunk with
  | none => simp
  | some v =>
    rw [hparse, Option.bind_some] at h
    cases hcalls : v.arrayAt? "tool_calls" with
    | none => simp [hcalls]
    | some calls =>
      obtain rfl : calls = [] := by simpa [hcalls] using h
      simp [hcalls]

theorem chunkOf_of_callsOf_ne_nil {C : Codec} {chunk : String} (h : callsOf C chunk ≠ []) :
    ∃ v, C.parse chunk = some v ∧ v.arrayAt? "tool_calls" = some (callsOf C chunk) ∧
      chunkOf C chunk = .toolCalls (C.dump v) := by
  unfold callsOf at h ⊢
  unfold chunkOf
  cases hparse : C.parse chunk with
  | none => simp [hparse] at h
  | some v =>
    rw [hparse, Option.bind_some] at h
    cases hcalls : v.arrayAt? "tool_calls" with
    | none => simp [hcalls] at h
    | some calls =>
      cases calls with
      | nil => simp [hcalls] at h
      | cons call rest => exact ⟨v, rfl, by simp [hcalls], by simp [hcalls]⟩

/-- A chunk of text is added to the deltas and to the text alike. -/
theorem feed_of_text {C : Codec} {chunk delta : String} (h : chunkOf C chunk = .text delta)
    (acc : LiteRtStreamAssembler) :
    (acc.feed C chunk).toolCallJson = acc.toolCallJson ∧
      (acc.feed C chunk).text = acc.text ++ (if chunk = "" then "" else delta) ∧
      String.join (acc.feed C chunk).deltas = String.join acc.deltas ++ (if chunk = "" then "" else delta) := by
  unfold feed
  rw [h]
  by_cases hchunk : chunk = ""
  · simp [hchunk]
  · rw [if_neg hchunk, if_neg hchunk]
    by_cases hdelta : delta = ""
    · simp [hdelta]
    · dsimp only
      rw [if_neg hdelta]
      simp [String.join]

theorem feed_of_callsOf_eq_nil {C : Codec} (hempty : C.parse "" = none) {chunk : String} (h : callsOf C chunk = [])
    (acc : LiteRtStreamAssembler) :
    (acc.feed C chunk).toolCallJson = acc.toolCallJson ∧ (acc.feed C chunk).text = acc.text ++ pieceOf C chunk ∧
      String.join (acc.feed C chunk).deltas = String.join acc.deltas ++ pieceOf C chunk := by
  have hpiece : (if chunk = "" then "" else pieceOf C chunk) = pieceOf C chunk := by
    by_cases hchunk : chunk = ""
    · simp [hchunk, pieceOf, hempty]
    · rw [if_neg hchunk]
  have hfed := feed_of_text (chunkOf_of_callsOf_eq_nil h) acc
  rwa [hpiece] at hfed

theorem feed_of_callsOf_ne_nil {C : Codec} (hempty : C.parse "" = none) {chunk : String} (h : callsOf C chunk ≠ [])
    (acc : LiteRtStreamAssembler) :
    ∃ v, C.parse chunk = some v ∧ v.arrayAt? "tool_calls" = some (callsOf C chunk) ∧
      (acc.feed C chunk).toolCallJson = C.dump v := by
  obtain ⟨v, hparse, hcalls, hchunk⟩ := chunkOf_of_callsOf_ne_nil h
  have hne : chunk ≠ "" := by
    rintro rfl
    rw [hempty] at hparse
    cases hparse
  refine ⟨v, hparse, hcalls, ?_⟩
  unfold feed
  rw [if_neg hne, hchunk]

/-! ### Text -/

/-- The text of an envelope is what is extracted from it. -/
theorem assistantText_of_isEnvelope {v : Value} {texts : List String} (h : IsEnvelope v texts) :
    assistantText v = String.join texts := by
  obtain ⟨-, items, hitems, htexts⟩ := h
  rw [assistantText, hitems, Option.getD_some]
  congr 1
  clear hitems
  induction htexts with
  | nil => rfl
  | cons hitem _ ih => rw [List.map_cons, ih, itemText, if_pos hitem.1, hitem.2, Option.getD_some]

/-- What is extracted from a message is shorter than a text that spells it out. -/
theorem length_assistantText_lt (v : Value) : (assistantText v).length < v.weight := by
  unfold assistantText
  cases hitems : v.arrayAt? "content" with
  | none => simpa [String.join] using v.weight_pos
  | some items =>
    have hlt := Value.itemsWeight_lt_of_arrayAt? hitems
    have hle : (String.join (items.map itemText)).length ≤ itemsWeight items := by
      clear hlt hitems
      induction items with
      | nil => simp [String.join, itemsWeight]
      | cons item items ih =>
        have hitem : (itemText item).length ≤ item.weight := by
          unfold itemText
          split_ifs
          · cases ht : item.stringAt? "text" with
            | none => simp
            | some t => exact (Value.length_lt_of_stringAt? ht).le
          · simp
        rw [List.map_cons, String.join_cons, String.length_append, itemsWeight]
        omega
    exact hle.trans_lt hlt

/-- A chunk is taken for no more than it means, and for less if it parses but
is no envelope. -/
theorem Means.taken {C : Codec} (hC : C.SpellsOut) {chunk meaning : String} (h : Means C chunk meaning) :
    (pieceOf C chunk).length ≤ meaning.length ∧
      (pieceOf C chunk = meaning ↔ ∀ v, C.parse chunk = some v → ∃ texts, IsEnvelope v texts) := by
  have hparsed : ∀ {chunk v}, C.parse chunk = some v → pieceOf C chunk = assistantText v := by
    intro chunk v hparse
    simp [pieceOf, extractAssistantText, hparse]
  cases h with
  | @envelope v texts hparse henv =>
    rw [hparsed hparse, assistantText_of_isEnvelope henv]
    refine ⟨le_rfl, fun _ w hw => ?_, fun _ => rfl⟩
    obtain rfl : v = w := Option.some.inj (hparse.symm.trans hw)
    exact ⟨texts, henv⟩
  | raw _ hno =>
    cases hparse : C.parse chunk with
    | none => simp [pieceOf, hparse]
    | some v =>
      have hlt : (pieceOf C chunk).length < chunk.length := by
        rw [hparsed hparse]
        exact (length_assistantText_lt v).trans_le (hC chunk v hparse)
      refine ⟨hlt.le, fun heq => absurd (congrArg String.length heq) hlt.ne, fun henv => ?_⟩
      obtain ⟨texts, htexts⟩ := henv v rfl
      exact absurd htexts (hno v hparse texts)

/-- What is remembered of the calls is the last message that carries any. -/
theorem assembled_calls {C : Codec} (hempty : C.parse "" = none) {chunks : List String}
    (h : ∃ chunk ∈ chunks, callsOf C chunk ≠ []) :
    ∃ before chunk after v, chunks = before ++ chunk :: after ∧ (∀ c ∈ after, callsOf C c = []) ∧
      callsOf C chunk ≠ [] ∧ C.parse chunk = some v ∧ v.arrayAt? "tool_calls" = some (callsOf C chunk) ∧
      (assembled C chunks).toolCallJson = C.dump v := by
  induction chunks using List.reverseRecOn with
  | nil => simp at h
  | append_singleton chunks chunk ih =>
    have hfed : assembled C (chunks ++ [chunk]) = (assembled C chunks).feed C chunk := by simp [assembled]
    rw [hfed]
    by_cases hlast : callsOf C chunk = []
    · obtain ⟨before, c, after, v, rfl, hafter, hcalls, hparse, hv, htool⟩ := ih (by simpa [hlast] using h)
      refine ⟨before, c, after ++ [chunk], v, by simp, ?_, hcalls, hparse, hv, ?_⟩
      · exact List.forall_mem_append.mpr ⟨hafter, by simpa using hlast⟩
      · rw [(feed_of_callsOf_eq_nil hempty hlast _).1, htool]
    · obtain ⟨v, hparse, hv, htool⟩ := feed_of_callsOf_ne_nil hempty hlast (assembled C chunks)
      exact ⟨chunks, chunk, [], v, rfl, by simp, hlast, hparse, hv, htool⟩

/-- Of chunks of which some carry tool calls **all calls are kept exactly if
one chunk alone carries them.** -/
theorem keepsCalls_iff (C : Codec) (hempty : C.parse "" = none)
    (hround : ∀ text v, C.parse text = some v → C.RoundTrips v) {chunks : List String}
    (hcalls : ∃ chunk ∈ chunks, callsOf C chunk ≠ []) :
    callsOf C ((assembled C chunks).canonical C) = chunks.flatMap (callsOf C) ↔
      chunks.countP (fun chunk => callsOf C chunk ≠ []) = 1 := by
  obtain ⟨before, chunk, after, v, rfl, hafter, hlast, hparse, hv, htool⟩ := assembled_calls hempty hcalls
  have hdump : C.dump v ≠ "" := by
    intro hd
    have hr := hround chunk v hparse
    rw [Codec.RoundTrips, hd, hempty] at hr
    cases hr
  have hcanonical : callsOf C ((assembled C (before ++ chunk :: after)).canonical C) = callsOf C chunk := by
    rw [canonical, htool, if_pos hdump]
    have hr : C.parse (C.dump v) = some v := hround chunk v hparse
    conv_lhs => rw [callsOf, hr, Option.bind_some, hv, Option.getD_some]
  have hrest : after.flatMap (callsOf C) = [] := List.flatMap_eq_nil_iff.mpr hafter
  have hcount : (after.countP fun chunk => callsOf C chunk ≠ []) = 0 :=
    List.countP_eq_zero.mpr fun c hc => by simpa using hafter c hc
  rw [hcanonical, List.flatMap_append, List.flatMap_cons, hrest, List.append_nil, List.countP_append,
    List.countP_cons_of_pos (by simpa using hlast), hcount, List.self_eq_append_left, List.flatMap_eq_nil_iff]
  simp only [Nat.zero_add, Nat.add_eq_right, List.countP_eq_zero, ne_eq, decide_not, Bool.not_eq_true',
    decide_eq_false_iff_not, not_not]

/-- A message with one call. -/
def callMessage (id : String) : Value :=
  .object [("role", .str "assistant"), ("tool_calls", .arr [.object [("id", .str id)]])]

def callText (id : String) : String :=
  "\x7b\"role\":\"assistant\",\"tool_calls\":[\x7b\"id\":\"" ++ id ++ "\"\x7d]\x7d"

def callsCodec : Codec := .ofTable [(callText "a", callMessage "a"), (callText "b", callMessage "b")]

theorem roundTrips_callsCodec : ∀ text v, callsCodec.parse text = some v → callsCodec.RoundTrips v :=
  fun _ _ hv => Codec.roundTrips_ofTable (by decide) hv

theorem keepsCalls_iff_one : callsOf callsCodec
      ((assembled callsCodec ["So ", callText "a", "then"]).canonical callsCodec) =
      ["So ", callText "a", "then"].flatMap (callsOf callsCodec) ↔
    ["So ", callText "a", "then"].countP (fun chunk => callsOf callsCodec chunk ≠ []) = 1 :=
  keepsCalls_iff callsCodec (by decide) roundTrips_callsCodec ⟨callText "a", by simp, by decide⟩

/-- The first of two messages with calls is lost. -/
theorem not_keepsCalls_two : ¬ ∀ (C : Codec), C.parse "" = none →
    (∀ text v, C.parse text = some v → C.RoundTrips v) → ∀ chunks : List String,
      (∃ chunk ∈ chunks, callsOf C chunk ≠ []) →
        callsOf C ((assembled C chunks).canonical C) = chunks.flatMap (callsOf C) := by
  intro h
  have hkept := h callsCodec (by decide) roundTrips_callsCodec [callText "a", callText "b"]
    ⟨callText "a", by simp, by decide⟩
  exact absurd hkept (by decide)

end LiteRtStreamAssembler

end AgentFlow
