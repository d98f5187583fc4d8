/-
# An agent node on a remote endpoint

`AgentNode::Run` over an `OpenAiConversation`: the node sends the user's text,
then for each answer with tool calls the results of its calls, and the
conversation keeps the history that it posts each time.

The two halves are written against different formats. The conversation turns
an answer into a canonical message; the node reads its calls out of that and
prints a message with their results; the conversation turns this into one
message for each result. Put together nothing is lost between them: what the
node dispatches are the calls of the answer (`next_answer`), what it sends comes
to one tool message for each of them, under the id of the call
(`toOpenAiMessages_results`), and so each request holds the whole exchange up
to there, with no placeholder of a repair (`run_posts_exchange`).

Key definitions: `Turn`, `Remote`, `Remote.step`, `said`, `Remote.Conversed`.
Key theorems: `next_answer`, `toOpenAiMessages_results`, `Remote.run_posts_exchange`,
`Remote.run_returns_streamed`.
-/
import AgentFlow.Inference.Openai.Repair
import AgentFlow.Inference.Openai.Rollback
import AgentFlow.Inference.Openai.Wire
import AgentFlow.Nodes.AgentNode

namespace AgentFlow.AgentNode

open Json
open Openai (Conversation Attempt StreamAccumulator PartialCall assistantMessage toOpenAiMessages textItem noIdMessage
  HttpRequest)
open Stepping (Run)

/-- `BuildUserMessageJson`, for the text of the input field. -/
def userMessage (text : String) : Value := .object [("role", .str "user"), ("content", .arr [textItem text])]

/-- The message with the results of some calls, before it is printed. -/
def resultsMessage (results : List (Call × Option String)) : Value :=
  .object [("role", .str "tool"),
    ("content", .arr (results.map fun r => toolEntry r.1 (r.2.getD toolExecutionFailed)))]

/-- The calls of an answer, as the node dispatches them. -/
def answerCalls (acc : StreamAccumulator) : List Call := acc.calls.map fun c => ⟨c.2.name, c.2.id, c.2.arguments⟩

@[simp] theorem answerCalls_length (acc : StreamAccumulator) : (answerCalls acc).length = acc.calls.length :=
  List.length_map _

/-! ### From the answer to the calls -/

theorem readCall_callValue (C : Codec) (call : PartialCall) :
    readCall C (StreamAccumulator.callValue call) = ⟨call.name, call.id, call.arguments⟩ := by
  simp [readCall, StreamAccumulator.callValue, Value.object, Value.stringAt?, argsText]

theorem toolCalls_canonicalValue (C : Codec) (acc : StreamAccumulator) :
    toolCalls C acc.canonicalValue = if acc.calls = [] then none else some (answerCalls acc) := by
  have hcalls : acc.canonicalValue.arrayAt? "tool_calls" =
      if acc.calls ≠ [] then some (acc.calls.map fun c => StreamAccumulator.callValue c.2) else none := by
    by_cases hc : acc.calls = []
    · simp [StreamAccumulator.canonicalValue, Value.arrayAt?, OrderedMap.lookup_cons, hc]
    · simp [StreamAccumulator.canonicalValue, Value.arrayAt?, hc]
  rw [toolCalls, hcalls]
  cases hc : acc.calls with
  | nil => simp
  | cons c cs =>
    have hobjects : ((c :: cs).map fun c => StreamAccumulator.callValue c.2).filter Value.isObject =
        (c :: cs).map fun c => StreamAccumulator.callValue c.2 := by
      refine List.filter_eq_self.mpr fun v hv => ?_
      obtain ⟨c', -, rfl⟩ := List.mem_map.mp hv
      rfl
    rw [if_pos (List.cons_ne_nil _ _), if_neg (List.cons_ne_nil _ _), answerCalls, hc]
    simp only [List.map_cons] at hobjects ⊢
    rw [hobjects]
    simp only [List.map_cons, List.map_map, Function.comp_def, readCall_callValue]

theorem assistantText_canonicalValue (acc : StreamAccumulator) : assistantText acc.canonicalValue = acc.text := by
  have hcontent : acc.canonicalValue.arrayAt? "content" = some [textItem acc.text] := by
    simp [StreamAccumulator.canonicalValue, Value.arrayAt?]
  rw [assistantText, hcontent]
  simp [itemText, textItem, Value.object, Value.stringAt?]

/-- **What the node does with an answer**: it dispatches its calls, or takes its text. -/
theorem next_answer {C : Codec} {acc : StreamAccumulator} (hC : C.RoundTrips acc.canonicalValue) :
    next C (acc.canonical C) =
      if acc.calls = [] then .answer (if acc.text = "" then acc.canonical C else acc.text)
      else .tools (answerCalls acc) := by
  have hparse : C.parse (acc.canonical C) = some acc.canonicalValue := hC
  rw [next, hparse]
  by_cases hc : acc.calls = []
  · simp [toolCalls_canonicalValue, hc, extractAssistantText, hparse, assistantText_canonicalValue]
  · simp [toolCalls_canonicalValue, hc]

/-! ### From the results to the history -/

/-- A result in the history. -/
def resultMessage (r : Call × Option String) : Value :=
  Openai.toolMessage r.1.callId (r.2.getD toolExecutionFailed)

theorem toolResult_toolEntry (C : Codec) (call : Call) (value : String) :
    Openai.toolResult C (toolEntry call value) =
      if call.callId = "" then .error (.status ⟨.invalidArgument, noIdMessage call.name⟩)
      else .ok (some (Openai.toolMessage call.callId value)) := by
  by_cases h : call.callId = ""
  · simp [Openai.toolResult, toolEntry, h, Value.object, Value.stringAt?, Value.isObject]
  · simp [Openai.toolResult, toolEntry, h, Value.object, Value.stringAt?, Value.isObject, Openai.toolValue]

/-- Every call has an id. -/
def Identified (calls : List Call) : Prop := ∀ call ∈ calls, call.callId ≠ ""

theorem toolResults_entries (C : Codec) : ∀ results : List (Call × Option String),
    (Identified (results.map Prod.fst) ∧ Openai.toolResults C
        (results.map fun r => toolEntry r.1 (r.2.getD toolExecutionFailed)) = .ok (results.map resultMessage)) ∨
      ∃ call ∈ results.map Prod.fst, call.callId = "" ∧ Openai.toolResults C
        (results.map fun r => toolEntry r.1 (r.2.getD toolExecutionFailed)) =
          .error (.status ⟨.invalidArgument, noIdMessage call.name⟩)
  | [] => .inl ⟨nofun, rfl⟩
  | r :: results => by
    simp only [List.map_cons, Openai.toolResults, toolResult_toolEntry]
    by_cases h : r.1.callId = ""
    · refine .inr ⟨r.1, List.mem_cons_self, h, ?_⟩
      rw [if_pos h]
      rfl
    · rw [if_neg h]
      rcases toolResults_entries C results with ⟨hid, hrest⟩ | ⟨call, hcall, hempty, hrest⟩
      · refine .inl ⟨List.forall_mem_cons.mpr ⟨h, hid⟩, ?_⟩
        rw [hrest]
        rfl
      · refine .inr ⟨call, List.mem_cons_of_mem _ hcall, hempty, ?_⟩
        rw [hrest]
        rfl

/-- **What the conversation makes of the results**: a tool message for each, under the id of
its call. If a call has no id, the message is turned down. -/
theorem toOpenAiMessages_results {C : Codec} {results : List (Call × Option String)}
    (hC : C.RoundTrips (resultsMessage results)) :
    (Identified (results.map Prod.fst) ∧
        toOpenAiMessages C (toolMessage C results) = .ok (results.map resultMessage)) ∨
      ∃ call ∈ results.map Prod.fst, call.callId = "" ∧ toOpenAiMessages C (toolMessage C results) =
        .error (.status ⟨.invalidArgument, noIdMessage call.name⟩) := by
  have hparse : C.parse (toolMessage C results) = some (resultsMessage results) := hC
  have hmessages : toOpenAiMessages C (toolMessage C results) =
      Openai.toolResults C (results.map fun r => toolEntry r.1 (r.2.getD toolExecutionFailed)) := by
    rw [toOpenAiMessages, hparse]
    simp [resultsMessage, Value.object, Value.stringAt?, Value.arrayAt?]
  rw [hmessages]
  exact toolResults_entries C results

/-- The user's text in the history. -/
def askedMessage (text : String) : Value := .object [("role", .str "user"), ("content", .str text)]

theorem toOpenAiMessages_user {C : Codec} {text : String} (hC : C.RoundTrips (userMessage text)) :
    toOpenAiMessages C (C.dump (userMessage text)) = .ok [askedMessage text] := by
  have hparse : C.parse (C.dump (userMessage text)) = some (userMessage text) := hC
  rw [toOpenAiMessages, hparse]
  have hnone : Openai.hasImageRef (.arr [textItem text]) = false := by
    simp [Openai.hasImageRef, Openai.isImageRef, Openai.imageRefKey?, textItem, Value.object, Value.stringAt?]
  simp [userMessage, Value.object, Value.stringAt?, Value.arrayAt?, Openai.plainMessage, Openai.messageMembers,
    Openai.messageContent, hnone, Openai.flattenContent_text, askedMessage]
  rfl

/-! ### A run -/

/-- An answer with calls, and the results that were collected for them. -/
structure Turn where
  answer : StreamAccumulator
  results : List (Option String)
  all : results.length = answer.calls.length

def Turn.calls (t : Turn) : List (Call × Option String) := (answerCalls t.answer).zip t.results

/-- An answer and its results in the history. -/
def Turn.messages (t : Turn) : List Value := assistantMessage t.answer :: t.calls.map resultMessage

/-- The node, the history of its conversation, the token, what was seen of the
conversation, and the calls that were dispatched, with their results. -/
structure Remote where
  node : Pc
  messages : List Value
  fired : Bool
  log : List Openai.Event
  dispatched : List (List Call × List (Option String))

namespace Remote

def start (B : Conversation) : Remote := ⟨.start, B.initial, false, [], []⟩

inductive Choice
  /-- The token fires. -/
  | fire
  /-- The node goes on. -/
  | go
  /-- `SendAsync`, with what the world does in its attempts. -/
  | send (attempts : ℕ → Attempt)
  /-- The tools have ended, with what was collected for each. -/
  | tools (results : List (Option String))

/-- The node goes on with what `SendAsync` returned. -/
def sent (B : Conversation) (iter : ℕ) : Openai.Outcome → Pc
  | .ok canonical => Pc.responded B.codec iter canonical
  | .failed e => Pc.failed e
  | .thrown => .threw none

def step (B : Conversation) (N : Config) (onToken : Bool) (choice : Choice) (s : Remote) : Option Remote :=
  match choice, s.node with
  | .fire, _ => some { s with fired := true }
  | .go, .start => some { s with node := Pc.begin N s.fired }
  | .go, .loop iter message => some { s with node := Pc.enter N iter message s.fired }
  | .go, .finish finalAnswer => some { s with node := .returned (some (output s.fired finalAnswer)) }
  | .send attempts, .send iter message =>
    let r := B.sendAsync s.messages ⟨message, onToken, attempts⟩
    some { s with node := sent B iter r.outcome, messages := r.messages, log := s.log ++ r.events }
  | .tools results, .tools iter calls =>
    if results.length = calls.length then
      some { s with
        node := Pc.collected B.codec iter calls results
        dispatched := s.dispatched ++ [(calls, results)] }
    else none
  | _, _ => none

end Remote

/-- The history when the message of the turn after `turns` is appended: the system
message, the user's text, and each answer with its results. -/
def said (B : Conversation) (text : String) (turns : List Turn) : List Value :=
  B.initial ++ askedMessage text :: turns.flatMap Turn.messages

theorem said_snoc (B : Conversation) (text : String) (turns : List Turn) (t : Turn) :
    said B text (turns ++ [t]) = said B text turns ++ t.messages := by
  simp [said, List.append_assoc]

/-! ### What is said is a history -/

theorem Turn.map_fst_calls (t : Turn) : t.calls.map Prod.fst = answerCalls t.answer :=
  List.map_fst_zip (by rw [answerCalls_length, t.all])

theorem isMessage_assistantMessage (acc : StreamAccumulator) : Openai.IsMessage (assistantMessage acc) :=
  ⟨"assistant", (Conversation.assistantMessage_spec acc).1, fun h => absurd h (by decide)⟩

theorem isMessage_askedMessage (text : String) : Openai.IsMessage (askedMessage text) :=
  ⟨"user", by simp [askedMessage, Value.object, Value.stringAt?], fun h => absurd h (by decide)⟩

theorem callsOf_askedMessage (text : String) : Openai.callsOf (askedMessage text) = [] := by
  simp [Openai.callsOf, askedMessage, Value.object, Value.stringAt?]

theorem callsOf_assistantMessage (acc : StreamAccumulator) :
    Openai.callsOf (assistantMessage acc) = acc.calls.map fun c => StreamAccumulator.callValue c.2 := by
  have hrole := (Conversation.assistantMessage_spec acc).1
  rw [Openai.callsOf, hrole, if_pos rfl]
  by_cases hc : acc.calls = []
  · simp [assistantMessage, Value.arrayAt?, OrderedMap.lookup_cons, hc]
  · simp [assistantMessage, Value.arrayAt?, hc]

theorem isTool_resultMessage (r : Call × Option String) : Openai.isTool (resultMessage r) = true :=
  Openai.isTool_toolMessage _ _

theorem forall_isTool_results (t : Turn) : ∀ m ∈ t.calls.map resultMessage, Openai.isTool m = true := by
  intro m hm
  obtain ⟨r, -, rfl⟩ := List.mem_map.mp hm
  exact isTool_resultMessage r

/-- The results answer the calls. -/
theorem answers_turn (t : Turn) (rest : List Value) :
    Openai.Answers (assistantMessage t.answer) (t.calls.map resultMessage ++ rest) := by
  intro c hc id hid _
  rw [callsOf_assistantMessage] at hc
  obtain ⟨b, hb, rfl⟩ := List.mem_map.mp hc
  have hcall : (⟨b.2.name, b.2.id, b.2.arguments⟩ : Call) ∈ t.calls.map Prod.fst := by
    rw [t.map_fst_calls]
    exact List.mem_map_of_mem hb
  obtain ⟨r, hr, hfst⟩ := List.mem_map.mp hcall
  have hid' : b.2.id = id := by
    simpa [StreamAccumulator.callValue, Value.object, Value.stringAt?] using hid
  refine ⟨resultMessage r, ?_, ?_⟩
  · rw [List.takeWhile_append_of_pos (forall_isTool_results t)]
    exact List.mem_append_left _ (List.mem_map_of_mem hr)
  · rw [resultMessage, Openai.toolMessage_id, hfst, hid']

theorem paired_turns : ∀ turns : List Turn, Openai.Paired (turns.flatMap Turn.messages)
  | [] => Openai.paired_nil
  | t :: turns => by
    rw [List.flatMap_cons, Turn.messages, List.cons_append]
    exact Openai.paired_cons.mpr
      ⟨answers_turn t _, Openai.paired_append_tools (forall_isTool_results t) (paired_turns turns)⟩

theorem paired_said (B : Conversation) (text : String) (turns : List Turn) : Openai.Paired (said B text turns) := by
  have hasked : Openai.Paired (askedMessage text :: turns.flatMap Turn.messages) := by
    refine Openai.paired_cons.mpr ⟨fun c hc => ?_, paired_turns turns⟩
    rw [callsOf_askedMessage] at hc
    cases hc
  rcases B.initial_cases with h | ⟨t, h⟩
  · rw [said, h]
    exact hasked
  · rw [said, h, List.singleton_append]
    refine Openai.paired_cons.mpr ⟨fun c hc => ?_, hasked⟩
    simp [Openai.callsOf, Value.object, Value.stringAt?] at hc

/-- What the messages of the exchange are. -/
theorem mem_said {B : Conversation} {text : String} {turns : List Turn} {m : Value} (h : m ∈ said B text turns) :
    (∃ t, m = .object [("role", .str "system"), ("content", .str t)]) ∨ m = askedMessage text ∨
      (∃ acc, m = assistantMessage acc) ∨ ∃ r, m = resultMessage r := by
  rcases List.mem_append.mp h with h | h
  · rcases B.initial_cases with hnil | ⟨t, ht⟩
    · rw [hnil] at h
      cases h
    · rw [ht] at h
      exact .inl ⟨t, List.mem_singleton.mp h⟩
  rcases List.mem_cons.mp h with rfl | h
  · exact .inr (.inl rfl)
  obtain ⟨t, -, h⟩ := List.mem_flatMap.mp h
  rcases List.mem_cons.mp h with rfl | h
  · exact .inr (.inr (.inl ⟨_, rfl⟩))
  · obtain ⟨r, -, rfl⟩ := List.mem_map.mp h
    exact .inr (.inr (.inr ⟨r, rfl⟩))

theorem wellTyped_said {B : Conversation} {text : String} {turns : List Turn} :
    ∀ m ∈ said B text turns, Openai.WellTyped m := by
  intro m hm k hk v hv
  simp only [List.mem_cons, List.not_mem_nil, or_false] at hk
  rcases mem_said hm with ⟨t, rfl⟩ | rfl | ⟨acc, rfl⟩ | ⟨r, rfl⟩
  · rcases hk with rfl | rfl <;> simp [Value.object] at hv
    rw [← hv]
    rfl
  · rcases hk with rfl | rfl <;> simp [askedMessage, Value.object] at hv
    rw [← hv]
    rfl
  · rcases hk with rfl | rfl <;> simp [assistantMessage, OrderedMap.lookup_cons] at hv
    rw [← hv]
    rfl
  · exact Openai.wellTyped_toolMessage _ _ k (by simpa using hk) v hv

/-- All contents are texts, so there are no images. -/
theorem collectImageRefKeys_said (B : Conversation) (text : String) (turns : List Turn) :
    Openai.collectImageRefKeys (said B text turns) = [] := by
  have hitems : ∀ m ∈ said B text turns, Openai.contentItems m = [] := by
    intro m hm
    rcases mem_said hm with ⟨t, rfl⟩ | rfl | ⟨acc, rfl⟩ | ⟨r, rfl⟩
    · simp [Openai.contentItems, Value.object, Value.arrayAt?, Value.arr?]
    · simp [Openai.contentItems, askedMessage, Value.object, Value.arrayAt?, Value.arr?]
    · simp [Openai.contentItems, assistantMessage, Value.arrayAt?, Value.arr?]
    · simp [Openai.contentItems, resultMessage, Openai.toolMessage, Value.object, Value.arrayAt?, Value.arr?]
  rw [Openai.collectImageRefKeys, List.flatMap_eq_nil_iff.mpr hitems]
  rfl

/-- The repair finds nothing to do. -/
theorem repair_said (B : Conversation) (text : String) (turns : List Turn) :
    Openai.repairToolCallPairing (said B text turns) = (said B text turns, none) := by
  rw [Openai.repairToolCallPairing_of_wellTyped _ wellTyped_said,
    Openai.flatMap_repaired_of_paired _ (paired_said B text turns)]

/-! ### What a turn sends -/

/-- The message that follows `turns`, and the history it is appended to. -/
inductive AtTurn (B : Conversation) (text : String) : List Turn → Value → List Value → Prop
  | first : AtTurn B text [] (userMessage text) B.initial
  | later {turns : List Turn} {t : Turn} (h : ∀ t ∈ turns, Identified (answerCalls t.answer)) :
      AtTurn B text (turns ++ [t]) (resultsMessage t.calls) (said B text turns ++ [assistantMessage t.answer])

section sending

variable {B : Conversation} {text : String} {turns : List Turn} {v : Value} {messages : List Value}

/-- The message is appended, unless a call has no id. -/
theorem AtTurn.incoming (h : AtTurn B text turns v messages) (hC : B.codec.RoundTrips v) :
    ((∀ t ∈ turns, Identified (answerCalls t.answer)) ∧
        ∃ incoming, toOpenAiMessages B.codec (B.codec.dump v) = .ok incoming ∧
          messages ++ incoming = said B text turns) ∨
      ∃ name, toOpenAiMessages B.codec (B.codec.dump v) = .error (.status ⟨.invalidArgument, noIdMessage name⟩) := by
  cases h with
  | first =>
    exact .inl ⟨nofun, _, toOpenAiMessages_user hC, by simp [said]⟩
  | @later turns t h =>
    rcases toOpenAiMessages_results hC with ⟨hid, hok⟩ | ⟨call, -, -, herror⟩
    · rw [t.map_fst_calls] at hid
      refine .inl ⟨fun t' ht' => ?_, _, hok, ?_⟩
      · rcases List.mem_append.mp ht' with ht' | ht'
        · exact h t' ht'
        · obtain rfl := List.mem_singleton.mp ht'
          exact hid
      · rw [said_snoc, Turn.messages, List.append_assoc, List.singleton_append]
    · exact .inr ⟨call.name, herror⟩

/-- **What sending the message comes to**: the exchange up to here is posted. -/
theorem AtTurn.sendAsync (h : AtTurn B text turns v messages) (hC : B.codec.RoundTrips v) (onToken : Bool)
    (attempts : ℕ → Attempt) :
    ((∀ t ∈ turns, Identified (answerCalls t.answer)) ∧
        B.sendAsync messages ⟨B.codec.dump v, onToken, attempts⟩ =
          B.retry messages (said B text turns) onToken B.opts.maxRetries.toNat attempts
            ⟨.unknown, "no attempt made"⟩) ∨
      ∃ name, B.sendAsync messages ⟨B.codec.dump v, onToken, attempts⟩ =
        ⟨messages, [], .failed ⟨.invalidArgument, noIdMessage name⟩⟩ := by
  rcases h.incoming hC with ⟨hid, incoming, hin, happend⟩ | ⟨name, hin⟩
  · refine .inl ⟨hid, ?_⟩
    have hrepair := repair_said B text turns
    rw [← happend] at hrepair
    have hsend := @Conversation.sendAsync_of_repaired B messages ⟨B.codec.dump v, onToken, attempts⟩ _ _ hin hrepair
    rw [happend, collectImageRefKeys_said, if_neg (by simp)] at hsend
    exact hsend
  · refine .inr ⟨name, ?_⟩
    unfold Conversation.sendAsync
    simp only [hin]

/-- The requests of an attempt without images post the history as it is. -/
theorem posts_of_attempt (hk : Openai.collectImageRefKeys messages = []) (previous : List Value) (onToken : Bool)
    (a : Attempt) : ∀ e ∈ (B.attempt previous messages onToken a).1, ∀ r, e = .request r →
      ∃ body, B.Posts messages body ∧ r = B.httpRequest (B.codec.dump body) := by
  rintro e he r rfl
  have hresolve : B.resolveImages messages a = ([], .send messages) := by simp [Conversation.resolveImages, hk]
  by_cases hc : a.cancelled = true
  · simp [Conversation.attempt, hc] at he
  have hattempt : (B.attempt previous messages onToken a).1 = (B.post messages messages onToken a).1 := by
    simp [Conversation.attempt, hc, hresolve]
  rw [hattempt] at he
  have hsent : ∀ {body}, .request r ∈ B.sentEvents onToken a body → r = B.httpRequest (B.codec.dump body) := by
    intro body h
    rcases List.mem_cons.mp h with h | h
    · exact Openai.Event.request.inj h
    · obtain ⟨d, -, h | h⟩ := Conversation.mem_deltaEvents h <;> cases h
  rcases B.post_cases messages messages onToken a with hp | ⟨body, hbody, hp | ⟨-, hp⟩ | ⟨f, -, hp⟩⟩
  · rw [hp] at he
    cases he
  · rw [hp] at he
    exact ⟨body, hbody, hsent he⟩
  · rw [hp] at he
    rcases List.mem_append.mp he with he | he
    · exact ⟨body, hbody, hsent he⟩
    · cases List.mem_singleton.mp he
  · rw [hp] at he
    rcases List.mem_append.mp he with he | he
    · exact ⟨body, hbody, hsent he⟩
    · cases List.mem_singleton.mp he

/-- A request that holds the exchange up to a turn. -/
def Holds (B : Conversation) (text : String) (turns : List Turn) (r : HttpRequest) : Prop :=
  ∃ body, r.body = B.codec.dump body ∧ body.arrayAt? "messages" = some (said B text turns)

theorem holds_of_retry (previous : List Value) (onToken : Bool) (n : ℕ) (attempts : ℕ → Attempt) (last : Status.Error)
    {r : HttpRequest} (h : .request r ∈ (B.retry previous (said B text turns) onToken n attempts last).events) :
    Holds B text turns r := by
  have hattempt : ∀ a, ∀ e ∈ (B.attempt previous (said B text turns) onToken a).1,
      ∀ r, e = .request r → Holds B text turns r := by
    intro a e he r hr
    obtain ⟨body, hposts, rfl⟩ := posts_of_attempt (collectImageRefKeys_said B text turns) previous onToken a e he r hr
    exact ⟨body, rfl, hposts.messages⟩
  exact B.retry_events hattempt n attempts last _ h r rfl

/-- The text of the answers, one after the other. -/
def answerText (answers : List StreamAccumulator) : String := String.join (answers.map (·.text))

/-- A message that is answered: the answer is recorded, and its text was streamed. -/
theorem answered_of_retry {previous : List Value} {onToken : Bool} {n : ℕ} {attempts : ℕ → Attempt} {last : Status.Error}
    (hC : ∀ k, B.codec.RoundTrips (B.accumulated (attempts k).frames).1.canonicalValue) {canonical : String}
    (h : (B.retry previous (said B text turns) onToken n attempts last).outcome = .ok canonical) :
    ∃ acc : StreamAccumulator, canonical = acc.canonical B.codec ∧ B.codec.RoundTrips acc.canonicalValue ∧
      (B.retry previous (said B text turns) onToken n attempts last).messages =
        said B text turns ++ [assistantMessage acc] ∧
      String.join (Openai.tokensOf (B.retry previous (said B text turns) onToken n attempts last).events) =
        if onToken then acc.text else "" := by
  obtain ⟨k, hk⟩ := B.retry_ok n attempts last canonical h
  have hparse : B.codec.parse (B.answer (attempts k).frames) = some (B.accumulated (attempts k).frames).1.canonicalValue :=
    hC k
  have hrecorded := hk.recorded
  unfold Conversation.record at hrecorded
  rw [hk.answers, Openai.toOpenAiMessages_canonical hparse] at hrecorded
  refine ⟨_, hk.answers, hC k, (Openai.Next.stop.inj hrecorded).2.symm, ?_⟩
  have htext : (B.accumulated (attempts k).frames).1.text = String.join (B.accumulated (attempts k).frames).2 := by
    rw [Conversation.accumulated, Openai.feedFrames_text]
    exact String.empty_append
  rw [hk.tokens]
  split_ifs
  · exact htext.symm
  · rfl

end sending

/-! ### The whole run -/

namespace Remote

variable {B : Conversation} {N : Config} {text : String} {onToken : Bool} {turns : List Turn} {s s' : Remote} {c : Choice}

/-- What is streamed is the text of the answers. -/
def Streams (onToken : Bool) (answers : List StreamAccumulator) (log : List Openai.Event) : Prop :=
  String.join (Openai.tokensOf log) = if onToken then answerText answers else ""

theorem Streams.snoc {answers : List StreamAccumulator} {log events : List Openai.Event} {acc : StreamAccumulator}
    (h : Streams onToken answers log)
    (he : String.join (Openai.tokensOf events) = if onToken then acc.text else "") :
    Streams onToken (answers ++ [acc]) (log ++ events) := by
  unfold Streams at h ⊢
  rw [Openai.tokensOf_append, String.join_append, h, he]
  cases onToken
  · rfl
  · simp [answerText, String.join_append]

/-- The message of the next turn is to be sent. -/
structure Pending (B : Conversation) (text : String) (onToken : Bool) (turns : List Turn) (message : String)
    (messages : List Value) (log : List Openai.Event) : Prop where
  sends : ∃ v, message = B.codec.dump v ∧ B.codec.RoundTrips v ∧ AtTurn B text turns v messages
  streams : Streams onToken (turns.map Turn.answer) log

/-- An answer has come after `turns`. -/
structure Answered (B : Conversation) (text : String) (onToken : Bool) (turns : List Turn) (acc : StreamAccumulator)
    (messages : List Value) (log : List Openai.Event) : Prop where
  identified : ∀ t ∈ turns, Identified (answerCalls t.answer)
  messages : messages = said B text turns ++ [assistantMessage acc]
  streams : Streams onToken (turns.map Turn.answer ++ [acc]) log

/-- The text is that of an answer without calls. -/
def Gave (B : Conversation) (text : String) (onToken : Bool) (turns : List Turn) (final : String)
    (messages : List Value) (log : List Openai.Event) : Prop :=
  ∃ acc, acc.calls = [] ∧ final = (if acc.text = "" then acc.canonical B.codec else acc.text) ∧
    Answered B text onToken turns acc messages log

/-- Where the node is after `turns`. -/
def At (B : Conversation) (N : Config) (text : String) (onToken : Bool) (turns : List Turn) (s : Remote) : Prop :=
  match s.node with
  | .start => turns = [] ∧ s.messages = B.initial ∧ s.log = []
  | .loop iter message => iter = turns.length ∧ Pending B text onToken turns message s.messages s.log
  | .send iter message =>
    iter = turns.length ∧ iter < N.maxIter ∧ Pending B text onToken turns message s.messages s.log
  | .sending _ => False
  | .tools iter calls => iter = turns.length ∧ iter < N.maxIter ∧
      ∃ acc, calls = answerCalls acc ∧ acc.calls ≠ [] ∧ Answered B text onToken turns acc s.messages s.log
  | .finish final => final = "" ∨ Gave B text onToken turns final s.messages s.log
  | .returned (some shown) =>
    shown = "" ∨ shown = maximumIterations ∨ Gave B text onToken turns shown s.messages s.log
  | .returned none => True
  | .threw _ => True

/-- How often `SendAsync` was called at most. -/
def rounds (N : Config) (turns : List Turn) : Pc → ℕ
  | .start | .loop _ _ | .send _ _ => turns.length
  | .tools _ _ => turns.length + 1
  | _ => N.maxIter

structure Conversed (B : Conversation) (N : Config) (text : String) (onToken : Bool) (turns : List Turn)
    (s : Remote) : Prop where
  dispatched : s.dispatched = turns.map fun t => (answerCalls t.answer, t.results)
  requests : ∀ r, .request r ∈ s.log →
    ∃ before, before <+: turns ∧ (∀ t ∈ before, Identified (answerCalls t.answer)) ∧ Holds B text before r
  posts : (Openai.requestsOf s.log).length ≤ rounds N turns s.node * B.opts.maxRetries.toNat
  bound : turns.length ≤ N.maxIter
  place : At B N text onToken turns s

/-- What is printed is parsed again. -/
def Prints (B : Conversation) (s : Remote) : Choice → Prop
  | .send attempts => ∀ k, B.codec.RoundTrips (B.accumulated (attempts k).frames).1.canonicalValue
  | .tools results => ∀ iter calls, s.node = .tools iter calls → B.codec.RoundTrips (resultsMessage (calls.zip results))
  | _ => True

theorem begin_cases (N : Config) (fired : Bool) :
    (∃ what, Pc.begin N fired = .threw what) ∨ Pc.begin N fired = .returned none ∨
      ∃ message, N.message = .ok message ∧ Pc.begin N fired = .loop 0 message := by
  unfold Pc.begin
  rcases N.options with what | ⟨⟩
  · split_ifs
    · exact .inl ⟨_, rfl⟩
    · exact .inr (.inl rfl)
    · exact .inl ⟨_, rfl⟩
    · exact .inl ⟨_, rfl⟩
  · rcases N.message with what | message
    · split_ifs
      · exact .inl ⟨_, rfl⟩
      · exact .inr (.inl rfl)
      · exact .inl ⟨_, rfl⟩
      · exact .inl ⟨_, rfl⟩
    · split_ifs
      · exact .inl ⟨_, rfl⟩
      · exact .inr (.inl rfl)
      · exact .inl ⟨_, rfl⟩
      · exact .inr (.inr ⟨_, rfl, rfl⟩)

namespace Conversed

theorem init (B : Conversation) (N : Config) (text : String) (onToken : Bool) :
    Conversed B N text onToken [] (Remote.start B) where
  dispatched := rfl
  requests := nofun
  posts := Nat.zero_le _
  bound := Nat.zero_le _
  place := ⟨rfl, rfl, rfl⟩

/-- The node moves, and nothing is sent. -/
theorem moves (h : Conversed B N text onToken turns s) {node : Pc}
    (hplace : At B N text onToken turns { s with node := node })
    (hrounds : rounds N turns s.node ≤ rounds N turns node) : Conversed B N text onToken turns { s with node := node } :=
  { h with
    posts := h.posts.trans (Nat.mul_le_mul_right _ hrounds)
    place := hplace }

theorem go (h : Conversed B N text onToken turns s) (hN : N.message = .ok (B.codec.dump (userMessage text)))
    (hC : B.codec.RoundTrips (userMessage text)) (hs : step B N onToken .go s = some s') :
    Conversed B N text onToken turns s' := by
  obtain ⟨node, messages, fired, log, dispatched⟩ := s
  have hplace := h.place
  cases node with
  | start =>
    cases hs
    obtain ⟨rfl, rfl, rfl⟩ := hplace
    rcases begin_cases N fired with ⟨what, hb⟩ | hb | ⟨message, hmessage, hb⟩
    · rw [hb]
      exact h.moves trivial (Nat.zero_le _)
    · rw [hb]
      exact h.moves trivial (Nat.zero_le _)
    · rw [hb]
      rw [hN] at hmessage
      cases hmessage
      refine h.moves ⟨rfl, ⟨_, rfl, hC, .first⟩, ?_⟩ le_rfl
      show String.join [] = _
      split_ifs <;> rfl
  | loop iter message =>
    cases hs
    obtain ⟨rfl, hpending⟩ := hplace
    show Conversed B N text onToken turns ⟨Pc.enter N turns.length message fired, _, _, _, _⟩
    unfold Pc.enter
    split_ifs with hlt
    · exact h.moves ⟨rfl, hlt.1, hpending.sends, hpending.streams⟩ le_rfl
    · exact h.moves (.inl rfl) h.bound
  | finish final =>
    cases hs
    refine h.moves ?_ le_rfl
    show output fired final = "" ∨ output fired final = maximumIterations ∨
      Gave B text onToken turns (output fired final) messages log
    unfold output
    split_ifs with hempty
    · exact .inr (.inl rfl)
    · rcases hplace with hfinal | hgave
      · exact .inl hfinal
      · exact .inr (.inr hgave)
  | _ => cases hs

theorem collect (h : Conversed B N text onToken turns s) {results : List (Option String)}
    (hC : Prints B s (.tools results)) (hs : step B N onToken (.tools results) s = some s') :
    ∃ t, Conversed B N text onToken (turns ++ [t]) s' := by
  obtain ⟨node, messages, fired, log, dispatched⟩ := s
  have hplace := h.place
  cases node with
  | tools iter calls =>
    simp only [step] at hs
    split_ifs at hs with hlength
    cases hs
    obtain ⟨rfl, hlt, acc, rfl, -, hanswered⟩ := hplace
    rw [answerCalls_length] at hlength
    refine ⟨⟨acc, results, hlength⟩, ?_⟩
    have hposts : (Openai.requestsOf log).length ≤ (turns.length + 1) * B.opts.maxRetries.toNat := h.posts
    constructor
    case dispatched =>
      show dispatched ++ [_] = _
      rw [List.map_append, ← h.dispatched]
      rfl
    case requests =>
      intro r hr
      obtain ⟨before, hbefore, hid, hholds⟩ := h.requests r hr
      exact ⟨before, hbefore.trans (List.prefix_append _ _), hid, hholds⟩
    case posts =>
      show (Openai.requestsOf log).length ≤ (turns ++ [_]).length * _
      rw [List.length_append, List.length_singleton]
      exact hposts
    case bound =>
      rw [List.length_append, List.length_singleton]
      exact hlt
    case place =>
      refine ⟨by rw [List.length_append, List.length_singleton], ⟨_, rfl, hC _ _ rfl, ?_⟩, ?_⟩
      · rw [show messages = _ from hanswered.messages]
        exact AtTurn.later hanswered.identified
      · have hstreams := hanswered.streams
        rw [List.map_append]
        exact hstreams
  | _ => cases hs

/-- `SendAsync` has returned, and the node is where the outcome leads. -/
theorem sends (h : Conversed B N text onToken turns s) (hid : ∀ t ∈ turns, Identified (answerCalls t.answer))
    (hrounds : rounds N turns s.node = turns.length) {r : Openai.Result} {node : Pc}
    (hnode : turns.length + 1 ≤ rounds N turns node)
    (hevents : (Openai.requestsOf r.events).length ≤ B.opts.maxRetries.toNat)
    (hholds : ∀ q, .request q ∈ r.events → Holds B text turns q)
    (hplace : At B N text onToken turns ⟨node, r.messages, s.fired, s.log ++ r.events, s.dispatched⟩) :
    Conversed B N text onToken turns ⟨node, r.messages, s.fired, s.log ++ r.events, s.dispatched⟩ where
  dispatched := h.dispatched
  requests q hq := by
    rcases List.mem_append.mp hq with hq | hq
    · exact h.requests q hq
    · exact ⟨turns, List.prefix_rfl, hid, hholds q hq⟩
  posts := by
    have hposts := h.posts
    rw [hrounds] at hposts
    show (Openai.requestsOf (s.log ++ r.events)).length ≤ rounds N turns node * B.opts.maxRetries.toNat
    calc (Openai.requestsOf (s.log ++ r.events)).length
        = (Openai.requestsOf s.log).length + (Openai.requestsOf r.events).length := by
          rw [Openai.requestsOf_append, List.length_append]
      _ ≤ turns.length * B.opts.maxRetries.toNat + B.opts.maxRetries.toNat := Nat.add_le_add hposts hevents
      _ = (turns.length + 1) * B.opts.maxRetries.toNat := (Nat.succ_mul _ _).symm
      _ ≤ rounds N turns node * B.opts.maxRetries.toNat := Nat.mul_le_mul_right _ hnode
  bound := h.bound
  place := hplace

theorem send (h : Conversed B N text onToken turns s) {attempts : ℕ → Attempt} (hC : Prints B s (.send attempts))
    (hs : step B N onToken (.send attempts) s = some s') : Conversed B N text onToken turns s' := by
  obtain ⟨node, messages, fired, log, dispatched⟩ := s
  have hplace := h.place
  cases node with
  | send iter message =>
    cases hs
    obtain ⟨rfl, hlt, hpending⟩ := hplace
    obtain ⟨v, rfl, hv, hat⟩ := hpending.sends
    rcases hat.sendAsync hv onToken attempts with ⟨hid, hsend⟩ | ⟨name, hsend⟩
    · simp only [hsend]
      set r := B.retry messages (said B text turns) onToken B.opts.maxRetries.toNat attempts
        ⟨.unknown, "no attempt made"⟩ with hr
      have hevents : (Openai.requestsOf r.events).length ≤ B.opts.maxRetries.toNat := B.retry_requests _ _ _
      have hholds : ∀ q, .request q ∈ r.events → Holds B text turns q := fun q hq => holds_of_retry _ _ _ _ _ hq
      have hends : ∀ node, rounds N turns node = N.maxIter → At B N text onToken turns
          ⟨node, r.messages, fired, log ++ r.events, dispatched⟩ → Conversed B N text onToken turns
            ⟨node, r.messages, fired, log ++ r.events, dispatched⟩ :=
        fun node hnode hplace => h.sends hid rfl (by rw [hnode]; exact hlt) hevents hholds hplace
      cases ho : r.outcome with
      | ok canonical =>
        obtain ⟨acc, rfl, hacc, hmessages, hstreams⟩ := answered_of_retry hC ho
        have hanswered : Answered B text onToken turns acc r.messages (log ++ r.events) :=
          ⟨hid, hmessages, hpending.streams.snoc hstreams⟩
        simp only [sent, Pc.responded, next_answer hacc]
        by_cases hcalls : acc.calls = []
        · rw [if_pos hcalls]
          exact hends _ rfl (.inr ⟨acc, hcalls, rfl, hanswered⟩)
        · rw [if_neg hcalls]
          exact h.sends hid rfl le_rfl hevents hholds ⟨rfl, hlt, acc, rfl, hcalls, hanswered⟩
      | failed e =>
        simp only [sent, Pc.failed]
        split_ifs
        · exact hends _ rfl (.inl rfl)
        · exact hends _ rfl trivial
      | thrown => exact hends _ rfl trivial
    · -- the message is turned down, and the run throws
      simp only [hsend, sent, Pc.failed]
      rw [if_neg (by decide), List.append_nil]
      exact h.moves trivial h.bound
  | _ => cases hs

theorem of_step (h : Conversed B N text onToken turns s) (hN : N.message = .ok (B.codec.dump (userMessage text)))
    (hC : B.codec.RoundTrips (userMessage text)) (hok : Prints B s c) (hs : step B N onToken c s = some s') :
    ∃ turns, Conversed B N text onToken turns s' := by
  cases c with
  | fire =>
    cases hs
    exact ⟨turns, h.dispatched, h.requests, h.posts, h.bound, h.place⟩
  | go => exact ⟨turns, h.go hN hC hs⟩
  | send attempts => exact ⟨turns, h.send hok hs⟩
  | tools results =>
    obtain ⟨t, ht⟩ := h.collect hok hs
    exact ⟨_, ht⟩

theorem of_run (hN : N.message = .ok (B.codec.dump (userMessage text))) (hC : B.codec.RoundTrips (userMessage text))
    {cs : List Choice} (hr : Run (step B N onToken) (Prints B) (Remote.start B) cs s) :
    ∃ turns, Conversed B N text onToken turns s := by
  refine hr.invariant (I := fun s => ∃ turns, Conversed B N text onToken turns s) (fun x c y hI hok hs => ?_)
    ⟨[], init B N text onToken⟩
  obtain ⟨turns, h⟩ := hI
  exact h.of_step hN hC hok hs

end Conversed

/-- A question, an answer that calls a tool, the results, and an answer that says something. -/
def askText : String := "\x7b\"content\":[\x7b\"text\":\"go\",\"type\":\"text\"\x7d],\"role\":\"user\"\x7d"

def callFrame : String :=
  "\x7b\"choices\":[\x7b\"delta\":\x7b\"tool_calls\":[\x7b\"function\":\x7b\"arguments\":\"[]\"," ++
  "\"name\":\"look\"\x7d,\"id\":\"c1\",\"index\":0\x7d]\x7d\x7d]\x7d"

def callFrameValue : Value :=
  .object [("choices", .arr [.object [("delta", .object [("tool_calls", .arr [.object [("index", .int 0),
    ("id", .str "c1"), ("function", .object [("name", .str "look"), ("arguments", .str "[]")])]])])]])]

def callAnswer : StreamAccumulator := { provider := .openAi, calls := [(0, ⟨"c1", "look", "[]"⟩)] }

def callText : String :=
  "\x7b\"content\":[\x7b\"text\":\"\",\"type\":\"text\"\x7d],\"role\":\"assistant\"," ++
  "\"tool_calls\":[\x7b\"function\":\x7b\"arguments\":\"[]\",\"name\":\"look\"\x7d," ++
  "\"id\":\"c1\",\"type\":\"function\"\x7d]\x7d"

def resultsText : String :=
  "\x7b\"content\":[\x7b\"id\":\"c1\",\"name\":\"look\"," ++
  "\"response\":\x7b\"value\":\"seen\"\x7d\x7d],\"role\":\"tool\"\x7d"

def doneFrame : String := "\x7b\"choices\":[\x7b\"delta\":\x7b\"content\":\"done\"\x7d\x7d]\x7d"

def doneFrameValue : Value := .object [("choices", .arr [.object [("delta", .object [("content", .str "done")])]])]

def doneAnswer : StreamAccumulator := { provider := .openAi, text := "done" }

def doneText : String :=
  "\x7b\"content\":[\x7b\"text\":\"done\",\"type\":\"text\"\x7d],\"role\":\"assistant\"\x7d"

def lookTurn : Turn := ⟨callAnswer, [some "seen"], rfl⟩

def lookConversation : Conversation :=
  Conversation.small [(askText, userMessage "go"), (callFrame, callFrameValue), (callText, callAnswer.canonicalValue),
    (resultsText, resultsMessage lookTurn.calls), (doneFrame, doneFrameValue),
    (doneText, doneAnswer.canonicalValue)] false

def lookConfig : Config := ⟨true, .ok (), true, .ok askText, 4⟩

def streamed (frame : String) (_ : ℕ) : Attempt := ⟨false, .urls [], [frame], .ok, false⟩

def lookChoices : List Choice :=
  [.go, .go, .send (streamed callFrame), .tools [some "seen"], .go, .send (streamed doneFrame), .go]

/-- The results that are printed are those of the turn. -/
def lookOk (s : Remote) : Choice → Bool
  | .tools results =>
    match s.node with
    | .tools _ calls => lookConversation.codec.parse (lookConversation.codec.dump (resultsMessage (calls.zip results))) =
        some (resultsMessage (calls.zip results))
    | _ => true
  | _ => true

theorem exists_lookRun : ∃ s, Run (step lookConversation lookConfig true) (Prints lookConversation)
    (start lookConversation) lookChoices s ∧ s.node = .returned (some "done") ∧
      (Openai.requestsOf s.log).length = 2 ∧ s.dispatched = [([⟨"look", "c1", "[]"⟩], [some "seen"])] := by
  obtain ⟨s, hr, hp⟩ := Run.exists_of_check (fun s c => lookOk s c = true)
    (by decide +kernel : (Stepping.check (step lookConversation lookConfig true) lookOk lookChoices
      (start lookConversation)).any (fun s => decide (s.node = .returned (some "done") ∧
        (Openai.requestsOf s.log).length = 2 ∧ s.dispatched = [([⟨"look", "c1", "[]"⟩], [some "seen"])])) = true)
    fun _ _ h => h
  refine ⟨s, hr.mono_of_mem fun c hc z hz => ?_, of_decide_eq_true hp⟩
  cases c with
  | fire => trivial
  | go => trivial
  | tools results =>
    intro iter calls hnode
    simp only [lookOk, hnode, decide_eq_true_eq] at hz
    exact hz
  | send attempts =>
    have hframe : attempts = streamed callFrame ∨ attempts = streamed doneFrame := by
      simpa [lookChoices] using hc
    intro k
    show lookConversation.codec.parse _ = some _
    rcases hframe with rfl | rfl
    · exact (by decide +kernel : lookConversation.codec.parse (lookConversation.codec.dump
        (lookConversation.accumulated [callFrame]).1.canonicalValue) =
          some (lookConversation.accumulated [callFrame]).1.canonicalValue)
    · exact (by decide : lookConversation.codec.parse (lookConversation.codec.dump
        (lookConversation.accumulated [doneFrame]).1.canonicalValue) =
          some (lookConversation.accumulated [doneFrame]).1.canonicalValue)

theorem roundTrips_ask : lookConversation.codec.RoundTrips (userMessage "go") := by
  show lookConversation.codec.parse _ = some _
  decide

/-- **What a run returns is what it streamed last.** Unless the token fired or the turns
were used up, it is the text of an answer without calls (its JSON if it has none), which the
history ends with; and all that was streamed is the text of the answers, each once. -/
theorem run_returns_streamed (B : Conversation) (N : Config) (text : String)
    (hN : N.message = .ok (B.codec.dump (userMessage text))) (hC : B.codec.RoundTrips (userMessage text))
    (cs : List Choice) (s : Remote) (hr : Run (step B N true) (Prints B) (Remote.start B) cs s) (shown : String)
    (hs : s.node = .returned (some shown)) (hne : shown ≠ "") (hmax : shown ≠ maximumIterations) :
    ∃ (turns : List Turn) (acc : StreamAccumulator),
      s.dispatched = turns.map (fun t => (answerCalls t.answer, t.results)) ∧ acc.calls = [] ∧
      shown = (if acc.text = "" then acc.canonical B.codec else acc.text) ∧
      s.messages = said B text turns ++ [assistantMessage acc] ∧
      String.join (Openai.tokensOf s.log) = String.join (turns.map fun t => t.answer.text) ++ acc.text := by
  obtain ⟨turns, h⟩ := Conversed.of_run hN hC hr
  have hplace := h.place
  rw [At, hs] at hplace
  obtain ⟨acc, hcalls, rfl, hanswered⟩ := (hplace.resolve_left hne).resolve_left hmax
  refine ⟨turns, acc, h.dispatched, hcalls, rfl, hanswered.messages, ?_⟩
  have hstreams : String.join (Openai.tokensOf s.log) = answerText (turns.map Turn.answer ++ [acc]) := hanswered.streams
  rw [hstreams, answerText, List.map_append, String.join_append, List.map_map]
  simp [Function.comp_def]

theorem run_returns_streamed_look :
    ∃ s : Remote, s.node = .returned (some "done") ∧ s.dispatched = [([⟨"look", "c1", "[]"⟩], [some "seen"])] ∧
      ∃ (turns : List Turn) (acc : StreamAccumulator),
        s.dispatched = turns.map (fun t => (answerCalls t.answer, t.results)) ∧ acc.calls = [] ∧
        "done" = (if acc.text = "" then acc.canonical lookConversation.codec else acc.text) ∧
        s.messages = said lookConversation "go" turns ++ [assistantMessage acc] ∧
        String.join (Openai.tokensOf s.log) = String.join (turns.map fun t => t.answer.text) ++ acc.text := by
  obtain ⟨s, hr, hnode, -, hdispatched⟩ := exists_lookRun
  exact ⟨s, hnode, hdispatched, run_returns_streamed lookConversation lookConfig "go"
    (congrArg Except.ok (by decide)) roundTrips_ask lookChoices s hr "done" hnode (by decide) (by decide)⟩

end Remote

end AgentFlow.AgentNode
