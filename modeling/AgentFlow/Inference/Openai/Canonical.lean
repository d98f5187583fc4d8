/-
# The canonical message of a stream, as it is recorded

What the history gets of a streamed answer is its canonical message, printed,
parsed again and converted as any incoming message is. Here it is followed
through: the deltas that feeding some frames returns make up the text
(`feedFrames_text`), the canonical message is a value that prints and parses
(`canonicalValue_wf`), and converting it gives one assistant message with
that text, the reasoning and the tool calls (`toOpenAiMessages_canonical`).

Key definitions: `assistantMessage`.
Key theorems: `feedFrames_text`, `canonicalValue_wf`,
`toOpenAiMessages_canonical`.
-/
import AgentFlow.Inference.Openai.Pairing

namespace AgentFlow.Openai

open Json StreamAccumulator

/-- The assistant message of an accumulator, as the history holds it. -/
def assistantMessage (acc : StreamAccumulator) : Value :=
  let msg := OrderedMap.insert "content" (.str acc.text) [("role", .str "assistant")]
  let msg := insertIf (acc.reasoning ≠ "") "reasoning_content" (.str acc.reasoning) msg
  .obj (insertIf (acc.calls ≠ []) "tool_calls" (.arr (acc.calls.map fun c => callValue c.2)) msg)

/-! ### The text is the deltas -/

theorem feedFrame_text (acc : StreamAccumulator) (f : Value) :
    (acc.feedFrame f).1.text = acc.text ++ (acc.feedFrame f).2 := by
  unfold feedFrame
  cases hc : choice? f with
  | none => simp [feedUsage]
  | some choice =>
    cases hd : delta? choice with
    | none => simp [hd, feedUsage]
    | some delta => simp [hd, feedDelta, feedUsage]

theorem feed_text (C : Codec) (acc : StreamAccumulator) (frame : String) :
    (acc.feed C frame).1.text = acc.text ++ (acc.feed C frame).2 := by
  unfold feed
  cases C.parse frame with
  | none => simp
  | some f => exact feedFrame_text acc f

/-- The text after some frames is the text before and the deltas. -/
theorem feedFrames_text (C : Codec) : ∀ (acc : StreamAccumulator) (frames : List String),
    (feedFrames C acc frames).1.text = acc.text ++ String.join (feedFrames C acc frames).2
  | acc, [] => by simp [feedFrames]
  | acc, frame :: frames => by
    have ih := feedFrames_text C (acc.feed C frame).1 frames
    rw [feed_text] at ih
    simp only [feedFrames]
    rw [ih]
    split_ifs with h
    · simp [h]
    · simp [String.append_assoc]

/-! ### It prints and parses -/

/-- The token counts are 64-bit integers. -/
def CountsFit (acc : StreamAccumulator) : Prop := intFits acc.inputTokens ∧ intFits acc.outputTokens

theorem tokenCount?_fits {v : Value} {n : ℤ} (h : tokenCount? v = some n) : 0 ≤ n ∧ n ≤ maxLongLong := by
  simpa using (Option.filter_eq_some_iff.mp h).2

theorem intFits_of_count {n : ℤ} (h : 0 ≤ n ∧ n ≤ maxLongLong) : intFits n := by
  unfold intFits
  unfold maxLongLong at h
  omega

theorem tokensAt?_fits {v : Value} {k : String} {n : ℤ} (h : tokensAt? v k = some n) : intFits n := by
  obtain ⟨x, -, hx⟩ := Option.bind_eq_some_iff.mp h
  exact intFits_of_count (tokenCount?_fits hx)

theorem outputTokenCount_fits {v : Value} {p : UsageProvider} {n : ℤ} (h : outputTokenCount v p = some n) :
    intFits n := by
  unfold outputTokenCount at h
  obtain ⟨c, hc, h⟩ := Option.bind_eq_some_iff.mp h
  have hfit := tokensAt?_fits hc
  cases p with
  | google =>
    dsimp only at h
    split at h
    · rename_i thinking ht
      obtain ⟨d, -, ht⟩ := Option.bind_eq_some_iff.mp ht
      obtain ⟨x, -, hx⟩ := Option.bind_eq_some_iff.mp ht
      obtain ⟨y, -, hy⟩ := Option.bind_eq_some_iff.mp hc
      have h1 := tokenCount?_fits hx
      have h2 := tokenCount?_fits hy
      split_ifs at h with hlt
      · obtain rfl := Option.some.inj h
        exact hfit
      · obtain rfl := Option.some.inj h
        exact intFits_of_count ⟨by omega, by omega⟩
    · obtain rfl := Option.some.inj h
      exact hfit
  | deepSeek =>
    obtain rfl := Option.some.inj h
    exact hfit
  | openAi =>
    obtain rfl := Option.some.inj h
    exact hfit

theorem getD_fits {o : Option ℤ} {n : ℤ} (ho : ∀ m, o = some m → intFits m) (hn : intFits n) : intFits (o.getD n) := by
  cases o with
  | none => exact hn
  | some m => exact ho m rfl

theorem CountsFit.feedUsage {acc : StreamAccumulator} (h : CountsFit acc) (f : Value) :
    CountsFit (acc.feedUsage f) := by
  refine ⟨getD_fits (fun m hm => ?_) h.1, getD_fits (fun m hm => ?_) h.2⟩
  · obtain ⟨u, -, hu⟩ := Option.bind_eq_some_iff.mp hm
    exact tokensAt?_fits hu
  · obtain ⟨u, -, hu⟩ := Option.bind_eq_some_iff.mp hm
    exact outputTokenCount_fits hu

/-- Only the usage of a frame changes the counts. -/
theorem feedFrame_counts (acc : StreamAccumulator) (f : Value) :
    (acc.feedFrame f).1.inputTokens = (acc.feedUsage f).inputTokens ∧
      (acc.feedFrame f).1.outputTokens = (acc.feedUsage f).outputTokens := by
  unfold feedFrame
  dsimp only
  split
  · exact ⟨rfl, rfl⟩
  · split
    · exact ⟨rfl, rfl⟩
    · exact ⟨rfl, rfl⟩

theorem CountsFit.feed {acc : StreamAccumulator} (h : CountsFit acc) (C : Codec) (frame : String) :
    CountsFit (acc.feed C frame).1 := by
  unfold StreamAccumulator.feed
  split
  · exact h
  · rename_i f _
    rw [CountsFit, (feedFrame_counts acc f).1, (feedFrame_counts acc f).2]
    exact h.feedUsage f

theorem CountsFit.feedFrames (C : Codec) : ∀ {acc : StreamAccumulator}, CountsFit acc → ∀ frames : List String,
    CountsFit (feedFrames C acc frames).1
  | _, h, [] => h
  | _, h, frame :: frames => (h.feed C frame).feedFrames C frames

/-- A fresh accumulator has counted nothing. -/
theorem countsFit_fresh (p : UsageProvider) : CountsFit { provider := p } := by
  simp [CountsFit, intFits]

theorem wf_insertIf {ms : List (String × Value)} {p : Prop} [Decidable p] {k : String} {v : Value}
    (h : (Value.obj ms).WF) (hv : v.WF) : (Value.obj (insertIf p k v ms)).WF := by
  unfold insertIf
  split_ifs
  · exact wf_insert h hv
  · exact h

theorem wf_callValue (c : PartialCall) : (callValue c).WF := by
  refine wf_object fun b hb => ?_
  simp only [List.mem_cons, List.not_mem_nil, or_false] at hb
  rcases hb with rfl | rfl | rfl
  · trivial
  · trivial
  · refine wf_object fun b hb => ?_
    simp only [List.mem_cons, List.not_mem_nil, or_false] at hb
    rcases hb with rfl | rfl <;> trivial

/-- The canonical message has sorted members and counts that fit. -/
theorem canonicalValue_wf {acc : StreamAccumulator} (h : CountsFit acc) : acc.canonicalValue.WF := by
  have htext : (Value.arr [textItem acc.text]).WF := by
    refine itemsWF_iff.mpr fun v hv => ?_
    rw [List.mem_singleton.mp hv]
    refine wf_object fun b hb => ?_
    simp only [List.mem_cons, List.not_mem_nil, or_false] at hb
    rcases hb with rfl | rfl <;> trivial
  have husage : (Value.object [("input_tokens", .int acc.inputTokens), ("output_tokens", .int acc.outputTokens)]).WF := by
    refine wf_object fun b hb => ?_
    simp only [List.mem_cons, List.not_mem_nil, or_false] at hb
    rcases hb with rfl | rfl
    · exact h.1
    · exact h.2
  have hcalls : (Value.arr (acc.calls.map fun c => callValue c.2)).WF := by
    refine itemsWF_iff.mpr fun v hv => ?_
    obtain ⟨c, -, rfl⟩ := List.mem_map.mp hv
    exact wf_callValue c.2
  have hrole : (Value.obj [("role", .str "assistant")]).WF := ⟨by simp [OrderedMap.Sorted], trivial, trivial⟩
  exact wf_insertIf (wf_insertIf (wf_insertIf (wf_insertIf (wf_insertIf (wf_insert hrole htext) trivial) trivial)
    husage) trivial) hcalls

/-! ### It is recorded as one assistant message -/

@[simp]
theorem lookup_insertIf {p : Prop} [Decidable p] (k k' : String) (v : Value) (ms : List (String × Value)) :
    (insertIf p k v ms).lookup k' = if p ∧ k' = k then some v else ms.lookup k' := by
  unfold insertIf
  by_cases hp : p
  · simp [hp]
  · simp [hp]

theorem typedCall_callValue (c : PartialCall) : typedCall (callValue c) = .ok (callValue c) := by
  rw [typedCall, if_pos]
  simp [callValue, Value.object, Value.contains]

theorem mapM_typedCall : ∀ cs : List (ℤ × PartialCall),
    (cs.map fun c => callValue c.2).mapM typedCall = .ok (cs.map fun c => callValue c.2)
  | [] => rfl
  | c :: cs => by
    rw [List.map_cons, List.mapM_cons, typedCall_callValue, mapM_typedCall cs]
    rfl

theorem flattenContent_text (t : String) : flattenContent (.arr [textItem t]) = t := by
  simp [flattenContent, flattenItem, textItem, Value.object, Value.stringAt?]

theorem plainMessage_canonical (acc : StreamAccumulator) :
    plainMessage acc.canonicalValue "assistant" = .ok (assistantMessage acc) := by
  have hcontent : messageContent acc.canonicalValue "assistant" = .str acc.text := by
    have h : acc.canonicalValue.find? "content" = some (.arr [textItem acc.text]) := by simp [canonicalValue]
    simp only [messageContent, h]
    rw [if_neg (by simp), flattenContent_text]
  have hreason : messageMembers acc.canonicalValue "assistant" =
      insertIf (acc.reasoning ≠ "") "reasoning_content" (.str acc.reasoning)
        (OrderedMap.insert "content" (.str acc.text) [("role", .str "assistant")]) := by
    have h : acc.canonicalValue.stringAt? "reasoning_content" =
        if acc.reasoning ≠ "" then some acc.reasoning else none := by
      by_cases hr : acc.reasoning = ""
      · simp [canonicalValue, Value.stringAt?, OrderedMap.lookup_cons, hr]
      · simp [canonicalValue, Value.stringAt?, hr]
    simp only [messageMembers, h, hcontent, insertIf]
    split_ifs <;> rfl
  have hcalls : acc.canonicalValue.arrayAt? "tool_calls" =
      if acc.calls ≠ [] then some (acc.calls.map fun c => callValue c.2) else none := by
    by_cases hc : acc.calls = []
    · simp [canonicalValue, Value.arrayAt?, OrderedMap.lookup_cons, hc]
    · simp [canonicalValue, Value.arrayAt?, hc]
  unfold plainMessage
  rw [hcalls, hreason]
  cases hc : acc.calls with
  | nil => simp [assistantMessage, insertIf, hc, pure, Except.pure]
  | cons c cs =>
    have hm := mapM_typedCall (c :: cs)
    rw [List.map_cons] at hm
    simp only [ne_eq, reduceCtorEq, not_false_eq_true, if_true, List.map_cons, hm]
    simp [assistantMessage, hc, insertIf, bind, Except.bind, pure, Except.pure]

/-- Converting a canonical message gives the assistant message. -/
theorem toOpenAiMessages_canonical {C : Codec} {acc : StreamAccumulator} {text : String}
    (h : C.parse text = some acc.canonicalValue) : toOpenAiMessages C text = .ok [assistantMessage acc] := by
  have hrole : acc.canonicalValue.stringAt? "role" = some "assistant" := by
    simp [canonicalValue, Value.stringAt?]
  have hp := plainMessage_canonical acc
  unfold toOpenAiMessages
  rw [h]
  revert hrole hp
  unfold canonicalValue
  intro hrole hp
  simp only [hrole, Option.getD_some]
  rw [if_neg (by decide), if_neg (by decide), hp]
  rfl

end AgentFlow.Openai
