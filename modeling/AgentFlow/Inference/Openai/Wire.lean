/-
# Every request body is well formed

Over a whole session the history keeps its shape: every entry is a message
and the configured system message comes first (`Accepted`). Nothing else is
kept between the calls, and in particular not that the calls are answered: a
turn may be abandoned at any exit. It is the repair at the start of each call
that pairs what is sent, and the image references that are rewritten in the
copy change no member that the pairing reads.

Key definitions: `Accepted`.
Key theorems: `Conversation.Sends.accepted`, `Conversation.tool_calls_answered_on_wire`.
-/
import AgentFlow.Inference.Openai.Pairing

namespace AgentFlow.Openai

open Json

/-! ### Rewriting the content -/

section MapContent

variable (f : Value → Value)

theorem find?_mapContent {k : String} (h : k ≠ "content") (m : Value) : (mapContent f m).find? k = m.find? k := by
  rw [mapContent, Value.find?_modify, if_neg h]

theorem stringAt?_mapContent {k : String} (h : k ≠ "content") (m : Value) :
    (mapContent f m).stringAt? k = m.stringAt? k := by
  rw [Value.stringAt?, find?_mapContent f h, Value.stringAt?]

theorem isMessage_mapContent {m : Value} (h : IsMessage m) : IsMessage (mapContent f m) := by
  rw [IsMessage, stringAt?_mapContent f (by decide), stringAt?_mapContent f (by decide)]
  exact h

theorem isTool_mapContent (m : Value) : isTool (mapContent f m) = isTool m := by
  rw [isTool, isTool, stringAt?_mapContent f (by decide)]

theorem callsOf_mapContent (m : Value) : callsOf (mapContent f m) = callsOf m := by
  rw [callsOf, callsOf, stringAt?_mapContent f (by decide), Value.arrayAt?, Value.arrayAt?,
    find?_mapContent f (by decide)]

theorem takeWhile_isTool_map (ms : List Value) :
    (ms.map (mapContent f)).takeWhile isTool = (ms.takeWhile isTool).map (mapContent f) := by
  rw [List.takeWhile_map, show isTool ∘ mapContent f = isTool from funext (isTool_mapContent f)]

/-- The pairing does not read the content. -/
theorem Paired.mapContent {ms : List Value} (h : Paired ms) : Paired (ms.map (mapContent f)) := by
  induction ms with
  | nil => exact paired_nil
  | cons m ms ih =>
    obtain ⟨hm, hr⟩ := paired_cons.mp h
    refine paired_cons.mpr ⟨fun c hc id hid hne => ?_, ih hr⟩
    rw [callsOf_mapContent] at hc
    obtain ⟨t, ht, hti⟩ := hm c hc id hid hne
    refine ⟨Openai.mapContent f t, ?_, by rw [stringAt?_mapContent f (by decide), hti]⟩
    rw [takeWhile_isTool_map]
    exact List.mem_map_of_mem ht

end MapContent

/-! ### The system message -/

/-- A system message is a message with a text, which has no items to
rewrite. -/
theorem systemMessage_eq {C : Codec} {text : String} {m : Value} (h : systemMessage C text = some m) :
    ∃ t, m = .object [("role", .str "system"), ("content", .str t)] := by
  unfold systemMessage at h
  split_ifs at h
  split at h
  · cases h
  · split_ifs at h
    cases h
    exact ⟨_, rfl⟩

theorem isMessage_system (t : String) : IsMessage (.object [("role", .str "system"), ("content", .str t)]) :=
  ⟨"system", by simp [Value.object, Value.stringAt?], fun h => absurd h (by decide)⟩

theorem mapContent_system (f : Value → Value) (t : String) :
    mapContent f (.object [("role", .str "system"), ("content", .str t)]) =
      .object [("role", .str "system"), ("content", .str t)] := by
  rw [mapContent, Value.object, Value.modify]
  congr 1
  refine OrderedMap.modify_id fun b hb => ?_
  simp only [List.foldl_cons, List.foldl_nil] at hb
  rcases OrderedMap.mem_insert hb with rfl | hb
  · rfl
  rcases OrderedMap.mem_insert hb with rfl | hb
  · rfl
  · simp at hb

namespace Conversation

variable {B : Conversation}

theorem initial_cases (B : Conversation) :
    B.initial = [] ∨ ∃ t, B.initial = [.object [("role", .str "system"), ("content", .str t)]] := by
  unfold initial
  cases h : systemMessage B.codec B.convOpts.systemMessageJson with
  | none => exact Or.inl rfl
  | some m =>
    obtain ⟨t, rfl⟩ := systemMessage_eq h
    exact Or.inr ⟨t, rfl⟩

theorem initial_mapContent (B : Conversation) (f : Value → Value) : B.initial.map (mapContent f) = B.initial := by
  rcases B.initial_cases with h | ⟨t, h⟩
  · rw [h]; rfl
  · rw [h, List.map_singleton, mapContent_system]

/-- The repair leaves the system message where it is. -/
theorem initial_prefix_repaired {ms r : List Value} (h : B.initial <+: ms) (hr : Repaired ms r) :
    B.initial <+: r := by
  rcases B.initial_cases with h0 | ⟨t, h0⟩
  · rw [h0]; exact List.nil_prefix
  · rw [h0] at h ⊢
    obtain ⟨rest, rfl⟩ := h
    obtain ⟨r', rfl⟩ := hr.head
    exact ⟨r', rfl⟩

end Conversation

/-! ### What every call keeps -/

/-- A history: messages, and the system message first. -/
structure Accepted (B : Conversation) (ms : List Value) : Prop where
  message : ∀ m ∈ ms, IsMessage m
  system : B.initial <+: ms

namespace Accepted

variable {B : Conversation} {ms : List Value}

theorem initial (B : Conversation) : Accepted B B.initial := by
  refine ⟨fun m hm => ?_, List.prefix_rfl⟩
  rcases B.initial_cases with h | ⟨t, h⟩
  · rw [h] at hm; simp at hm
  · rw [h, List.mem_singleton] at hm
    rw [hm]
    exact isMessage_system t

theorem append (h : Accepted B ms) {text : String} {incoming : List Value}
    (hi : toOpenAiMessages B.codec text = .ok incoming) : Accepted B (ms ++ incoming) := by
  refine ⟨fun m hm => ?_, h.system.trans (List.prefix_append ms incoming)⟩
  rcases List.mem_append.mp hm with hm | hm
  · exact h.message m hm
  · exact isMessage_toOpenAiMessages hi m hm

theorem repaired (h : Accepted B ms) {r : List Value} (hr : Repaired ms r) : Accepted B r := by
  refine ⟨fun m hm => ?_, Conversation.initial_prefix_repaired h.system hr⟩
  rcases hr.mem hm with hm | ⟨id, rfl⟩
  · exact h.message m hm
  · exact isMessage_toolMessage id _

theorem mapContent (h : Accepted B ms) (f : Value → Value) : Accepted B (ms.map (mapContent f)) := by
  refine ⟨fun m hm => ?_, ?_⟩
  · obtain ⟨m', hm', rfl⟩ := List.mem_map.mp hm
    exact isMessage_mapContent f (h.message m' hm')
  · have := h.system.map (Openai.mapContent f)
    rwa [B.initial_mapContent] at this

/-- On a history the repair succeeds. -/
theorem repair (h : Accepted B ms) {r : List Value} {e : Option Json.Error}
    (hr : repairToolCallPairing ms = (r, e)) : e = none ∧ Repaired ms r := by
  obtain ⟨r', hr', hR⟩ := repairToolCallPairing_eq ms h.message
  rw [hr, Prod.mk.injEq] at hr'
  exact ⟨hr'.2, hr'.1 ▸ hR⟩

end Accepted

namespace Conversation

variable {B : Conversation}

/-- The ways a call on a history can go: the repair does not throw. -/
theorem sendAsync_of_accepted {ms : List Value} (h : Accepted B ms) (call : Call) :
    (∃ o, B.sendAsync ms call = ⟨ms, [], o⟩) ∨
    ∃ incoming r, toOpenAiMessages B.codec call.messageJson = .ok incoming ∧ Accepted B r ∧
      Repaired (ms ++ incoming) r ∧
      ((20 < (collectImageRefKeys r).length ∧ ∃ e, B.sendAsync ms call =
        ⟨if collectImageRefKeys incoming ≠ [] then ms else r, [], .failed e⟩) ∨
      ((collectImageRefKeys r).length ≤ 20 ∧ B.sendAsync ms call =
        B.retry ms r call.onToken B.opts.maxRetries.toNat call.attempts ⟨.unknown, "no attempt made"⟩)) := by
  rcases B.sendAsync_cases ms call with ⟨o, hs, -⟩ | ⟨incoming, r, thrown, hi, hr, hs⟩
  · exact Or.inl ⟨o, hs⟩
  obtain ⟨hnone, hrep⟩ := (h.append hi).repair hr
  refine Or.inr ⟨incoming, r, hi, (h.append hi).repaired hrep, hrep, ?_⟩
  rcases hs with ⟨ht, -⟩ | ⟨-, hlong, hs⟩ | ⟨-, hfew, hs⟩
  · rw [hnone] at ht; simp at ht
  · exact Or.inl ⟨hlong, hs⟩
  · exact Or.inr ⟨hfew, hs⟩

/-- A call keeps the shape of the history, and what it shows is shown of a
repaired history. -/
theorem accepted_sendAsync {ms : List Value} (h : Accepted B ms) (call : Call) :
    Accepted B (B.sendAsync ms call).messages ∧
      ∀ e ∈ (B.sendAsync ms call).events, ∃ r, Accepted B r ∧ Paired r ∧ B.Seen r e := by
  rcases sendAsync_of_accepted h call with ⟨o, hs⟩ | ⟨incoming, r, -, hacc, hrep, ⟨-, e, hs⟩ | ⟨-, hs⟩⟩
  · rw [hs]
    exact ⟨h, by simp⟩
  · rw [hs]
    refine ⟨?_, by simp⟩
    dsimp only
    split_ifs
    · exact h
    · exact hacc
  · rw [hs]
    refine ⟨B.retry_messages hacc (fun a o ms' hstop => ?_) _ _ _, ?_⟩
    · rcases B.attempt_stop hstop with rfl | ⟨missing, rfl⟩ | ⟨assistant, ha, rfl⟩
      · exact hacc
      · exact h.mapContent _
      · exact hacc.append ha
    · exact B.retry_events (fun a e he => ⟨r, hacc, hrep.paired, B.seen_attempt he⟩) _ _ _

theorem Sends.accepted {calls : List Call} {s : Session} (h : B.Sends calls s) : Accepted B s.messages := by
  refine Stepping.Run.invariant (I := fun s => Accepted B s.messages) (fun x c y hx _ hy => ?_) h
    (Accepted.initial B)
  cases hy
  exact (accepted_sendAsync hx c).1

/-- All that a session shows, apart from the calls themselves, is shown of a
repaired history. -/
theorem Sends.seen {calls : List Call} {s : Session} (h : B.Sends calls s) :
    ∀ e ∈ s.log, (∃ text, e = .received text) ∨ ∃ r, Accepted B r ∧ Paired r ∧ B.Seen r e := by
  refine (Stepping.Run.invariant (I := fun s => Accepted B s.messages ∧ ∀ e ∈ s.log, (∃ text, e = .received text) ∨
    ∃ r, Accepted B r ∧ Paired r ∧ B.Seen r e) (fun x c y hx _ hy => ?_) h ⟨Accepted.initial B, ?_⟩).2
  · cases hy
    refine ⟨(accepted_sendAsync hx.1 c).1, fun e he => ?_⟩
    rcases List.mem_append.mp he with he | he
    · exact hx.2 e he
    rcases List.mem_cons.mp he with rfl | he
    · exact Or.inl ⟨_, rfl⟩
    · exact Or.inr ((accepted_sendAsync hx.1 c).2 e he)
  · intro e he
    simp [start] at he

/-- The messages of a body are those it was built from. -/
theorem Posts.messages {wire : List Value} {body : Value} (h : B.Posts wire body) :
    body.arrayAt? "messages" = some wire := by
  have hb : (bodyMembers B.opts.model B.convOpts wire true).lookup "messages" = some (.arr wire) := by
    unfold bodyMembers
    split_ifs <;> simp
  unfold Posts requestBody at h
  split at h
  · rename_i t ts _
    cases ht : wireTools B.opts.model B.opts.strictTools (t :: ts) with
    | error e => simp [ht, bind, Except.bind] at h
    | ok tools =>
      simp only [ht, bind, Except.bind, pure, Except.pure, Except.ok.injEq] at h
      rw [← h]
      simp [Value.arrayAt?, hb]
  · cases h
    simp [Value.arrayAt?, hb]

/-- What is sent of a paired history is paired. -/
theorem Sent.wellFormed {r wire : List Value} (hs : Sent r wire) (hacc : Accepted B r) (hp : Paired r) :
    B.initial <+: wire ∧ Paired wire := by
  rcases hs with ⟨-, rfl⟩ | ⟨urls, hu⟩
  · exact ⟨hacc.system, hp⟩
  · obtain rfl := congrArg Prod.fst hu
    exact ⟨(hacc.mapContent _).system, hp.mapContent _⟩

/-- **Tool calls are answered on the wire.** Whatever the calls of a session
were, every body that is posted has the system message first, and each
assistant message's calls are answered directly after it. -/
theorem tool_calls_answered_on_wire (B : Conversation) (calls : List Call) (s : Session) (h : B.Sends calls s)
    (r : HttpRequest) (hr : .request r ∈ s.log) :
    ∃ body messages, r.body = B.codec.dump body ∧ body.arrayAt? "messages" = some messages ∧
      B.initial <+: messages ∧ Paired messages := by
  rcases h.seen _ hr with ⟨text, he⟩ | ⟨ms, hacc, hp, wire, body, hs, hb, rfl⟩
  · cases he
  · exact ⟨body, wire, rfl, hb.messages, Sent.wellFormed hs hacc hp⟩

/-- An assistant turn with a call that nobody answers. -/
def abandonedText : String := "\x7b\"role\":\"assistant\",\"tool_calls\":[\x7b\"id\":\"c1\"\x7d]\x7d"

def abandoned : Value :=
  .object [("role", .str "assistant"), ("tool_calls", .arr [.object [("id", .str "c1")]])]

def abandonedBody : Value :=
  .object [("model", .str "m"), ("stream", .bool true), ("stream_options", .object [("include_usage", .bool true)]),
    ("messages", .arr [
      .object [("role", .str "assistant"), ("content", .str ""),
        ("tool_calls", .arr [.object [("id", .str "c1"), ("type", .str "function")]])],
      toolMessage "c1" kNotExecuted])]

/-- The body as it is posted: the call is answered by the placeholder. -/
def abandonedBodyText : String :=
  "\x7b\"messages\":[\x7b\"content\":\"\",\"role\":\"assistant\",\"tool_calls\":[\x7b\"id\":\"c1\",\"type\":" ++
  "\"function\"\x7d]\x7d,\x7b\"content\":\"\x7b\\\"error\\\":\\\"tool call was not executed: the turn ended " ++
  "before the result was produced\\\"\x7d\",\"role\":\"tool\",\"tool_call_id\":\"c1\"\x7d],\"model\":\"m\"," ++
  "\"stream\":true,\"stream_options\":\x7b\"include_usage\":true\x7d\x7d"

def abandonedCall : Call := ⟨abandonedText, false, fun _ => refused⟩

def abandonedConversation : Conversation :=
  small [(abandonedText, abandoned), (abandonedBodyText, abandonedBody)] false

def afterAbandoned : Session :=
  ⟨(abandonedConversation.sendAsync [] abandonedCall).messages,
    .received abandonedText :: (abandonedConversation.sendAsync [] abandonedCall).events⟩

theorem tool_calls_answered_on_wire_abandoned :
    abandonedConversation.Sends [abandonedCall] afterAbandoned ∧
    ∃ r, .request r ∈ afterAbandoned.log ∧ r.body = abandonedBodyText ∧
      ∃ body messages, r.body = abandonedConversation.codec.dump body ∧
        body.arrayAt? "messages" = some messages ∧ abandonedConversation.initial <+: messages ∧ Paired messages := by
  have hs : abandonedConversation.Sends [abandonedCall] afterAbandoned :=
    Stepping.Run.snoc (Stepping.Run.nil _) trivial rfl
  have hb : (afterAbandoned.log.filterMap requestOf).map HttpRequest.body = [abandonedBodyText] := by decide +kernel
  obtain ⟨r, hr, hrb⟩ := List.mem_map.mp (hb ▸ List.mem_singleton_self abandonedBodyText)
  obtain ⟨e, he, hre⟩ := List.mem_filterMap.mp hr
  have hr' : .request r ∈ afterAbandoned.log := by
    cases e <;> simp [requestOf] at hre
    exact hre ▸ he
  exact ⟨hs, r, hr', hrb, tool_calls_answered_on_wire _ _ _ hs r hr'⟩

end Conversation

end AgentFlow.Openai
