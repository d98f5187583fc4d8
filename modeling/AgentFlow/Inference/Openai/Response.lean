/-
# Streamed and whole answers agree

`ResponseToCanonical` reads an answer that comes in one body; the accumulator
reads one that comes in frames. The two agree, up to the reason to finish, on
every answer whose calls have 32-bit indices and on every way to cut it
(`streamed_eq_responded`), and no longer on one call more
(`not_streamed_eq_responded`).

Key definitions: `responseToCanonical`, `Reply.Responds`, `Reply.message`.
Key theorems: `streamed_eq_responded`.
-/
import AgentFlow.Inference.Openai.Fragments

namespace AgentFlow.Openai

open Json StreamAccumulator

/-! ### An answer in one body -/

/-- The message of the first choice of a body. -/
def responseMessage (resp : Value) : Except Status.Error Value :=
  match resp.arrayAt? "choices" with
  | some (choice :: _) =>
    match (choice.find? "message").filter Value.isObject with
    | some msg => .ok msg
    | none => .error ⟨.internal, "OpenAI response choice has no message object"⟩
  | _ => .error ⟨.internal, "OpenAI response has no choices"⟩

/-- What `ResponseToCanonical` makes of a body and its message. -/
def responseMembers (provider : UsageProvider) (resp msg : Value) : List (String × Value) :=
  let out := insertSome "model" (resp.stringAt? "model") [("role", .str "assistant")]
  let out := OrderedMap.insert "content" (.arr [textItem ((msg.stringAt? "content").getD "")]) out
  let out := insertSome "reasoning_content" (msg.stringAt? "reasoning_content") out
  let out :=
    match msg.arrayAt? "tool_calls" with
    | some (tc :: tcs) => OrderedMap.insert "tool_calls" (.arr (tc :: tcs)) out
    | _ => out
  let usage := (resp.find? "usage").filter Value.isObject
  let input := (usage.bind (tokensAt? · "prompt_tokens")).getD 0
  let output := (usage.bind (outputTokenCount · provider)).getD 0
  insertIf (0 < input ∨ 0 < output) "usage"
    (.object [("input_tokens", .int input), ("output_tokens", .int output)]) out

/-- `ResponseToCanonical` of a body that parses, before it is printed. -/
def responseValue (provider : UsageProvider) (resp : Value) : Except Status.Error Value := do
  let msg ← responseMessage resp
  return .obj (responseMembers provider resp msg)

/-- `ResponseToCanonical`. -/
def responseToCanonical (C : Codec) (body : String) (provider : UsageProvider) : Except Status.Error String :=
  match C.parse body with
  | none => .error ⟨.internal, "OpenAI response is not valid JSON"⟩
  | some resp => (responseValue provider resp).map C.dump

/-! ### The two readings agree -/

/-- The body is the answer, in one piece. -/
structure Reply.Responds (m : Reply) (body : Value) : Prop where
  message : ∃ choice rest msg, body.arrayAt? "choices" = some (choice :: rest) ∧
    choice.find? "message" = some (.obj msg) ∧ ((Value.obj msg).stringAt? "content").getD "" = m.text ∧
    (Value.obj msg).stringAt? "reasoning_content" = m.reasoning ∧
    ((Value.obj msg).arrayAt? "tool_calls").getD [] = m.calls.map callValue
  usage : (body.find? "usage").filter Value.isObject = m.usage.map Value.obj
  model : body.stringAt? "model" = m.model

/-- The answer as a message of the history: no usage, no model, no reason to
finish. -/
def Reply.message (m : Reply) : Value :=
  .obj (insertIf (m.calls ≠ []) "tool_calls" (.arr (m.calls.map callValue))
    (insertSome "reasoning_content" m.reasoning
      (OrderedMap.insert "content" (.str m.text) [("role", .str "assistant")])))

def withoutFinish : Value → Value
  | .obj ms => .obj (OrderedMap.erase "finish_reason" ms)
  | v => v

theorem sorted_insertIf {p : Prop} [Decidable p] {k : String} {v : Value} {ms : List (String × Value)}
    (h : OrderedMap.Sorted ms) : OrderedMap.Sorted (insertIf p k v ms) := by
  unfold insertIf
  split_ifs
  · exact h.insert _ _
  · exact h

/-- A string that is not empty is written if there is one. -/
theorem insertSome_eq_insertIf {s : Option String} (h : s ≠ some "") (k : String) (ms : List (String × Value)) :
    insertSome k s ms = insertIf (s.getD "" ≠ "") k (.str (s.getD "")) ms := by
  cases s with
  | none => simp [insertSome, insertIf]
  | some s =>
    have hs : s ≠ "" := fun he => h (congrArg some he)
    simp [insertSome, insertIf, hs]

theorem sorted_role : OrderedMap.Sorted [("role", Value.str "assistant")] := List.pairwise_singleton _ _

/-- The members of a canonical message. -/
theorem canonicalValue_members (acc : StreamAccumulator) :
    ∃ ms, acc.canonicalValue = .obj ms ∧ OrderedMap.Sorted ms ∧ ∀ k, ms.lookup k =
      if acc.calls ≠ [] ∧ k = "tool_calls" then some (.arr (acc.calls.map fun c => callValue c.2))
      else if acc.model ≠ "" ∧ k = "model" then some (.str acc.model)
      else if (0 < acc.inputTokens ∨ 0 < acc.outputTokens) ∧ k = "usage" then
        some (.object [("input_tokens", .int acc.inputTokens), ("output_tokens", .int acc.outputTokens)])
      else if acc.finishReason ≠ "" ∧ k = "finish_reason" then some (.str acc.finishReason)
      else if acc.reasoning ≠ "" ∧ k = "reasoning_content" then some (.str acc.reasoning)
      else if k = "content" then some (.arr [textItem acc.text])
      else if k = "role" then some (.str "assistant") else none := by
  refine ⟨_, rfl, ?_, fun k => ?_⟩
  · exact sorted_insertIf (sorted_insertIf (sorted_insertIf (sorted_insertIf (sorted_insertIf
      (sorted_role.insert _ _)))))
  · simp only [lookup_insertIf, OrderedMap.lookup_insert, OrderedMap.lookup_cons, List.lookup_nil]

/-- Without the reason to finish, the canonical message is that of an
accumulator that has seen none. -/
theorem withoutFinish_canonicalValue (acc : StreamAccumulator) :
    withoutFinish acc.canonicalValue = { acc with finishReason := "" }.canonicalValue := by
  obtain ⟨ms, hms, hsorted, hlookup⟩ := canonicalValue_members acc
  obtain ⟨ms', hms', hsorted', hlookup'⟩ := canonicalValue_members { acc with finishReason := "" }
  rw [hms, hms']
  refine congrArg Value.obj ((hsorted.erase _).ext hsorted' fun k => ?_)
  rw [OrderedMap.lookup_erase, hlookup, hlookup']
  by_cases hk : k = "finish_reason"
  · subst hk
    simp
  · simp [hk]

theorem callValues_numbered (calls : List PartialCall) (i : ℤ) :
    ((numbered i calls).map fun c => callValue c.2) = calls.map callValue := by
  rw [← map_snd_numbered calls i, List.map_map, map_snd_numbered]
  rfl

theorem Reply.Responds.responseMessage {m : Reply} {body : Value} (h : m.Responds body) :
    ∃ msg, responseMessage body = .ok (.obj msg) ∧ ((Value.obj msg).stringAt? "content").getD "" = m.text ∧
      (Value.obj msg).stringAt? "reasoning_content" = m.reasoning ∧
      ((Value.obj msg).arrayAt? "tool_calls").getD [] = m.calls.map callValue := by
  obtain ⟨choice, rest, msg, hc, hm, hmsg⟩ := h.message
  refine ⟨msg, ?_, hmsg⟩
  simp only [Openai.responseMessage, hc, hm]
  rfl

/-- What is made of a body is what is made of an accumulator that has read
the answer. -/
theorem Reply.Responds.responseValue {m : Reply} {body : Value} (h : m.Responds body) (provider : UsageProvider) :
    responseValue provider body = .ok (m.accumulator provider "").canonicalValue := by
  obtain ⟨msg, hmsg, ht, hr, hc⟩ := h.responseMessage
  have hcalls : ∀ out : List (String × Value),
      (match (Value.obj msg).arrayAt? "tool_calls" with
        | some (tc :: tcs) => OrderedMap.insert "tool_calls" (.arr (tc :: tcs)) out
        | _ => out) = insertIf (m.calls ≠ []) "tool_calls" (.arr (m.calls.map callValue)) out := by
    intro out
    cases ha : (Value.obj msg).arrayAt? "tool_calls" with
    | none =>
      rw [ha] at hc
      simp [insertIf, List.map_eq_nil_iff.mp hc.symm]
    | some tcs =>
      rw [ha, Option.getD_some] at hc
      rw [hc]
      cases m.calls <;> simp [insertIf]
  obtain ⟨ms, hms, hsorted, hlookup⟩ := canonicalValue_members (m.accumulator provider "")
  rw [Openai.responseValue, hmsg, hms]
  refine congrArg Except.ok (congrArg Value.obj ?_)
  simp only [responseMembers, hcalls, ht, hr, h.usage, h.model, insertSome_eq_insertIf m.named,
    insertSome_eq_insertIf m.reasoned]
  refine OrderedMap.Sorted.ext ?_ hsorted fun k => ?_
  · exact sorted_insertIf (sorted_insertIf (sorted_insertIf ((sorted_insertIf sorted_role).insert _ _)))
  · have hne : numbered 0 m.calls ≠ [] ↔ m.calls ≠ [] := by
      cases m.calls <;> simp [numbered]
    rw [hlookup]
    simp only [lookup_insertIf, OrderedMap.lookup_insert, OrderedMap.lookup_cons, List.lookup_nil,
      Reply.accumulator, callValues_numbered, hne, addInput, addOutput]
    -- the two write their members in different orders, but no two are one
    by_cases hm : k = "model"
    · subst hm
      simp
    by_cases hu : k = "usage"
    · subst hu
      simp
    · simp only [hm, hu, and_false, if_false]
      rfl

theorem assistantMessage_accumulator (m : Reply) (provider : UsageProvider) (finishReason : String) :
    assistantMessage (m.accumulator provider finishReason) = m.message := by
  have hmap := callValues_numbered m.calls 0
  rw [assistantMessage, Reply.message, insertSome_eq_insertIf m.reasoned]
  cases hc : m.calls with
  | nil => simp [Reply.accumulator, hc, numbered, insertIf]
  | cons call calls =>
    rw [hc] at hmap
    simp only [Reply.accumulator, hc, hmap]
    simp [numbered, insertIf]

def Reply.members (m : Reply) : List (String × Value) :=
  insertSome "reasoning_content" m.reasoning
    (OrderedMap.insert "tool_calls" (.arr (m.calls.map callValue)) [("content", .str m.text)])

/-- A body that is the answer. -/
def Reply.body (m : Reply) : Value := withChoice (.object [("message", .obj m.members)]) m.usage m.model

theorem Reply.responds_body (m : Reply) : m.Responds m.body := by
  have hmessage : (Value.object [("message", .obj m.members)]).find? "message" = some (.obj m.members) := by
    simp [Value.object]
  unfold Reply.body
  obtain ⟨hchoices, husage, hmodel⟩ := withChoice_reads (.object [("message", .obj m.members)]) m.usage m.model
  refine ⟨⟨_, [], m.members, hchoices, hmessage, ?_, ?_, ?_⟩, husage, hmodel⟩
  · simp [Value.stringAt?, Reply.members]
  · cases hr : m.reasoning <;> simp [Value.stringAt?, Reply.members, OrderedMap.lookup_cons, hr]
  · simp [Value.arrayAt?, Reply.members]

/-- **Streamed and whole answers agree.** Whatever the answer, as long as its
calls have 32-bit indices, and however it is cut: up to the reason to finish,
the canonical message of the frames is that of the body. Both print and parse
again, and are recorded as the answer alone. -/
theorem streamed_eq_responded (C : Codec) (provider : UsageProvider) (m : Reply) (hfit : m.calls.length ≤ 2 ^ 31)
    (pieces : List Piece) (hcut : m.Cut pieces) (frames : List String) (hframes : Frames C frames pieces)
    (text : String) (body : Value) (hparse : C.parse text = some body) (hbody : m.Responds body) :
    ∃ v, (streamed C provider frames).canonicalValue = v ∧ responseValue provider body = .ok (withoutFinish v) ∧
      responseToCanonical C text provider = .ok (C.dump (withoutFinish v)) ∧
      (v.WF ∧ (C.RoundTrips v → toOpenAiMessages C (C.dump v) = .ok [m.message])) ∧
      ((withoutFinish v).WF ∧
        (C.RoundTrips (withoutFinish v) → toOpenAiMessages C (C.dump (withoutFinish v)) = .ok [m.message])) := by
  obtain ⟨r, hr⟩ := hcut.streamed hfit hframes provider
  have hcounts : CountsFit (m.accumulator provider r) := by
    rw [← hr]
    exact (countsFit_fresh provider).feedFrames C frames
  have hcounts' : CountsFit (m.accumulator provider "") := hcounts
  have hwithout : withoutFinish (m.accumulator provider r).canonicalValue =
      (m.accumulator provider "").canonicalValue := withoutFinish_canonicalValue _
  have hmessage : ∀ r, C.RoundTrips (m.accumulator provider r).canonicalValue →
      toOpenAiMessages C (C.dump (m.accumulator provider r).canonicalValue) = .ok [m.message] := by
    intro r hround
    rw [toOpenAiMessages_canonical hround, assistantMessage_accumulator]
  refine ⟨_, congrArg canonicalValue hr, ?_⟩
  rw [hwithout]
  refine ⟨hbody.responseValue provider, ?_, ⟨canonicalValue_wf hcounts, hmessage r⟩,
    ⟨canonicalValue_wf hcounts', hmessage ""⟩⟩
  rw [responseToCanonical, hparse]
  dsimp only
  rw [hbody.responseValue]
  rfl

/-! ### Two calls at once -/

/-- An answer with two calls. -/
def greeting : Reply where
  text := "Hi"
  reasoning := some "so"
  calls := [⟨"c0", "f", "\x7b\x7d"⟩, ⟨"c1", "g", "\x7b\x7d"⟩]
  usage := some [("completion_tokens", .int 2), ("prompt_tokens", .int 3)]
  model := some "m"
  reasoned := by decide
  named := by decide

/-- The second call starts before the first one is complete. -/
def greetingPieces : List Piece :=
  [⟨"H", "so", [⟨0, some ("c0", "f"), "\x7b"⟩], none, some "m"⟩,
    ⟨"i", "", [⟨1, some ("c1", "g"), "\x7b\x7d"⟩, ⟨0, none, "\x7d"⟩], none, some "m"⟩,
    ⟨"", "", [], greeting.usage, none⟩]

def greetingFrames : List String :=
  ["\x7b\"choices\":[\x7b\"delta\":\x7b\"content\":\"H\",\"reasoning_content\":\"so\",\"tool_calls\":[\x7b" ++
      "\"function\":\x7b\"arguments\":\"\x7b\",\"name\":\"f\"\x7d,\"id\":\"c0\",\"index\":0,\"type\":" ++
      "\"function\"\x7d]\x7d\x7d],\"model\":\"m\"\x7d",
    "\x7b\"choices\":[\x7b\"delta\":\x7b\"content\":\"i\",\"reasoning_content\":\"\",\"tool_calls\":[\x7b" ++
      "\"function\":\x7b\"arguments\":\"\x7b\x7d\",\"name\":\"g\"\x7d,\"id\":\"c1\",\"index\":1,\"type\":" ++
      "\"function\"\x7d,\x7b\"function\":\x7b\"arguments\":\"\x7d\"\x7d,\"index\":0\x7d]\x7d\x7d],\"model\":\"m\"\x7d",
    "\x7b\"choices\":[\x7b\"delta\":\x7b\"content\":\"\",\"reasoning_content\":\"\",\"tool_calls\":[]\x7d\x7d]," ++
      "\"usage\":\x7b\"completion_tokens\":2,\"prompt_tokens\":3\x7d\x7d"]

def greetingCalls : String :=
  "[\x7b\"function\":\x7b\"arguments\":\"\x7b\x7d\",\"name\":\"f\"\x7d,\"id\":\"c0\",\"type\":\"function\"\x7d," ++
  "\x7b\"function\":\x7b\"arguments\":\"\x7b\x7d\",\"name\":\"g\"\x7d,\"id\":\"c1\",\"type\":\"function\"\x7d]"

def greetingBody : String :=
  "\x7b\"choices\":[\x7b\"message\":\x7b\"content\":\"Hi\",\"reasoning_content\":\"so\",\"tool_calls\":" ++
  greetingCalls ++ "\x7d\x7d],\"model\":\"m\",\"usage\":\x7b\"completion_tokens\":2,\"prompt_tokens\":3\x7d\x7d"

def greetingCanonical : String :=
  "\x7b\"content\":[\x7b\"text\":\"Hi\",\"type\":\"text\"\x7d],\"model\":\"m\",\"reasoning_content\":\"so\"," ++
  "\"role\":\"assistant\",\"tool_calls\":" ++ greetingCalls ++
  ",\"usage\":\x7b\"input_tokens\":3,\"output_tokens\":2\x7d\x7d"

/-- The parser on the texts that occur. -/
def greetingCodec : Codec :=
  .ofTable (greetingFrames.zip (greetingPieces.map Piece.value) ++
    [(greetingBody, greeting.body), (greetingCanonical, (greeting.accumulator .openAi "").canonicalValue)])

theorem greeting_cut : greeting.Cut greetingPieces := by
  refine ⟨by decide, by decide, fun i => ?_, ⟨by decide, by decide⟩, ⟨by decide, by decide⟩⟩
  match i with
  | 0 => exact .call rfl (by decide) (by decide)
  | 1 => exact .call rfl (by decide) (by decide)
  | i + 2 => exact .absent

theorem streamed_eq_responded_greeting :
    responseToCanonical greetingCodec greetingBody .openAi = .ok greetingCanonical ∧
      (streamed greetingCodec .openAi greetingFrames).canonical greetingCodec = greetingCanonical ∧
      toOpenAiMessages greetingCodec greetingCanonical = .ok [greeting.message] := by
  have hframes : Frames greetingCodec greetingFrames greetingPieces := by
    refine .cons ⟨_, ?_, Piece.carries_value _⟩ (.cons ⟨_, ?_, Piece.carries_value _⟩
      (.cons ⟨_, ?_, Piece.carries_value _⟩ .nil)) <;> decide +kernel
  obtain ⟨v, hv, -, hr, ⟨-, hm⟩, -⟩ := streamed_eq_responded greetingCodec .openAi greeting (by decide) greetingPieces
    greeting_cut greetingFrames hframes greetingBody greeting.body (by decide +kernel) greeting.responds_body
  have hvalue : v = (greeting.accumulator .openAi "").canonicalValue := by
    rw [← hv]
    decide +kernel
  have hwithout : withoutFinish v = v := by
    rw [hvalue]
    decide +kernel
  have hdump : greetingCodec.dump v = greetingCanonical := by
    rw [hvalue]
    decide +kernel
  have hparse : greetingCodec.parse greetingCanonical = some v := by
    rw [hvalue]
    decide +kernel
  rw [hwithout, hdump] at hr
  refine ⟨hr, ?_, ?_⟩
  · rw [canonical, hv, hdump]
  · rw [← hdump]
    exact hm (by rw [Codec.RoundTrips, hdump, hparse])

/-! ### One call too many -/

theorem key_of_mem_addFragments : ∀ {gs : List Fragment} {calls : List (ℤ × PartialCall)} {b : ℤ × PartialCall},
    b ∈ gs.foldl addFragment calls → b ∈ calls ∨ ∃ i : ℕ, b.1 = toInt32 i
  | [], _, _, h => Or.inl h
  | g :: gs, calls, b, h => by
    rcases @key_of_mem_addFragments gs _ b h with h | h
    · unfold addFragment at h
      rcases OrderedMap.mem_insert h with rfl | h
      · refine Or.inr ⟨g.index, ?_⟩
        dsimp only
      · exact Or.inl h
    · exact Or.inr h

theorem le_toInt32 (i : ℤ) : -2 ^ 31 ≤ toInt32 i := by
  have h := @Int.le_bmod i (2 ^ 32) (by decide)
  unfold toInt32
  omega

/-- An answer of `n` calls and one more. -/
def many (n : ℕ) : Reply where
  text := ""
  reasoning := none
  calls := List.replicate n ⟨"a", "f", "{}"⟩ ++ [⟨"b", "f", "{}"⟩]
  usage := none
  model := none
  reasoned := by simp
  named := by simp

/-- The index that follows the largest one becomes the smallest. -/
theorem many_addFragments {n : ℕ} (hn : n = 2 ^ 31) :
    ∃ rest, (openings 0 (many n).calls).foldl addFragment [] = (-2 ^ 31, ⟨"b", "f", "{}"⟩) :: rest := by
  have hlookup : ((openings 0 (many n).calls).foldl addFragment []).lookup (-2 ^ 31) =
      some ⟨"b", "f", "{}"⟩ := by
    have hlt : ∀ g ∈ openings 0 (many n).calls, g.index ≤ n := by
      intro g hg
      have := (many n).cut_whole.index_lt (show g ∈ [(many n).whole].flatMap Piece.fragments by
        simpa [Reply.whole] using hg)
      simp only [many, List.length_append, List.length_replicate, List.length_singleton] at this
      omega
    have hfilter : ((openings 0 (many n).calls).filter fun g => toInt32 g.index = -2 ^ 31) =
        (openings 0 (many n).calls).filter (·.index = 0 + n) := by
      refine List.filter_congr fun g hg => ?_
      have := hlt g hg
      rw [decide_eq_decide]
      unfold toInt32
      rcases eq_or_lt_of_le this with he | hl
      · rw [he]
        subst hn
        decide
      · rw [Int.bmod_eq_of_le (by omega) (by omega)]
        omega
    rw [lookup_addFragments, hfilter]
    refine (spells_openings n _ 0).foldl.trans ?_
    simp [many]
  have hsorted := sorted_addFragments (openings 0 (many n).calls) OrderedMap.sorted_nil
  have hkeys := fun b => @key_of_mem_addFragments (openings 0 (many n).calls) [] b
  generalize (openings 0 (many n).calls).foldl addFragment [] = calls at *
  cases calls with
  | nil => cases hlookup
  | cons b rest =>
    obtain ⟨k, call⟩ := b
    rw [OrderedMap.lookup_cons] at hlookup
    split_ifs at hlookup with hk
    · obtain rfl := Option.some.inj hlookup
      exact ⟨rest, by rw [hk]⟩
    · -- a first key above it leaves none for it
      obtain ⟨i, hi⟩ := (hkeys (k, call) List.mem_cons_self).resolve_left List.not_mem_nil
      have hle := le_toInt32 i
      dsimp only at hi
      have hlt : -2 ^ 31 < k := lt_of_le_of_ne (hi ▸ hle) hk
      rw [OrderedMap.lookup_of_lt fun b hb => hlt.trans ((List.pairwise_cons.mp hsorted).1 b hb)] at hlookup
      cases hlookup

/-- The first call of a canonical message. -/
def firstCall? (v : Value) : Option Value := (v.arrayAt? "tool_calls").bind List.head?

theorem firstCall?_canonicalValue {acc : StreamAccumulator} {b : ℤ × PartialCall} {rest : List (ℤ × PartialCall)}
    (h : acc.calls = b :: rest) : firstCall? acc.canonicalValue = some (callValue b.2) := by
  obtain ⟨ms, hms, -, hlookup⟩ := canonicalValue_members acc
  have hl := hlookup "tool_calls"
  rw [if_pos ⟨by simp [h], rfl⟩, h, List.map_cons] at hl
  simp only [firstCall?, hms, Value.arrayAt?, Value.find?_obj, hl]
  rfl

/-- Read in one body, the calls keep their order; read in a frame, the last
one comes first. -/
theorem many_differs {n : ℕ} (hn : n = 2 ^ 31) (C : Codec) {frame : String}
    (hframe : C.parse frame = some (many n).whole.value) (provider : UsageProvider) :
    responseValue provider (many n).body ≠
      .ok (withoutFinish (streamed C provider [frame]).canonicalValue) := by
  intro heq
  rw [(many n).responds_body.responseValue, withoutFinish_canonicalValue] at heq
  have hfirst := congrArg firstCall? (Except.ok.inj heq)
  obtain ⟨rest, hrest⟩ := many_addFragments hn
  have hframes : Frames C [frame] [(many n).whole] := .cons ⟨_, hframe, (many n).whole.carries_value⟩ .nil
  obtain ⟨r, hr⟩ := feedFrames_carries hframes { provider }
  have hstreamed : { streamed C provider [frame] with finishReason := "" }.calls =
      (-2 ^ 31, ⟨"b", "f", "\x7b\x7d"⟩) :: rest := by
    rw [← hrest]
    dsimp only [streamed]
    rw [hr]
    rfl
  have hwhole : ∃ rest, ((many n).accumulator provider "").calls = (0, ⟨"a", "f", "\x7b\x7d"⟩) :: rest := by
    obtain ⟨k, rfl⟩ : ∃ k, n = k + 1 := ⟨n - 1, by omega⟩
    refine ⟨numbered (0 + 1) (List.replicate k ⟨"a", "f", "\x7b\x7d"⟩ ++ [⟨"b", "f", "\x7b\x7d"⟩]), ?_⟩
    simp only [Reply.accumulator, many, List.replicate_succ, List.cons_append, numbered]
  obtain ⟨rest', hrest'⟩ := hwhole
  rw [firstCall?_canonicalValue hstreamed, firstCall?_canonicalValue hrest'] at hfirst
  have hid := congrArg (Value.stringAt? · "id") (Option.some.inj hfirst)
  simp [callValue, Value.object, Value.stringAt?] at hid

/-- One more call than there are indices. -/
def tooMany : Reply := many (2 ^ 31)

/-- The parser on the two texts, which are too long to write. -/
def tooManyCodec : Codec := .ofTable [("frame", tooMany.whole.value), ("body", tooMany.body)]

/-- With one call more than there are indices, a stream makes another message
than a body does. -/
theorem not_streamed_eq_responded :
    tooMany.Cut [tooMany.whole] ∧ Frames tooManyCodec ["frame"] [tooMany.whole] ∧
      tooManyCodec.parse "body" = some tooMany.body ∧ tooMany.Responds tooMany.body ∧
      responseValue .openAi tooMany.body ≠
        .ok (withoutFinish (streamed tooManyCodec .openAi ["frame"]).canonicalValue) := by
  have hframe : tooManyCodec.parse "frame" = some tooMany.whole.value := by
    simp only [tooManyCodec, Codec.ofTable, OrderedMap.lookup_cons, if_true]
  have hbody : tooManyCodec.parse "body" = some tooMany.body := by
    have hne : ("body" : String) ≠ "frame" := by decide
    simp only [tooManyCodec, Codec.ofTable, OrderedMap.lookup_cons, if_true, if_neg hne]
  exact ⟨tooMany.cut_whole, .cons ⟨_, hframe, tooMany.whole.carries_value⟩ .nil, hbody, tooMany.responds_body,
    many_differs rfl tooManyCodec hframe .openAi⟩

end AgentFlow.Openai
