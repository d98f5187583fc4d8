/-
# The answer to a POST is found among the messages of its body

The body of an answer is one JSON object, or an event stream with an object in
each frame that has data. The messages in it may be the answer to the request,
answers to others and notifications, in any order. `PostRpc` gives every
notification to `DispatchInbound`, in order and once, and returns the result
of the last message that has the id of the request; it returns no result if
there is none (`postResult_spec`).

Key definitions: `State.dispatchInbound`, `Holds`, `Answers`.
Key theorems: `postResult_spec`.
-/
import AgentFlow.Net.SseFrames
import AgentFlow.Tools.Mcp.Http

namespace AgentFlow
namespace Mcp
namespace Http

open Json

variable {sp : Spec} {s : State} {id : ℕ} {head : ResponseHead} {body : String} {messages : List Value}

/-! ### Bodies -/

def ResponseHead.eventStream (head : ResponseHead) : Bool :=
  (Net.find "text/event-stream".toList (toLower (headerValue head.headers "content-type")).toList).isSome

/-- The texts in a body: the data of each frame of an event stream that has
some, or all of it. -/
def texts (head : ResponseHead) (body : String) : List String :=
  if body = "" then []
  else if head.eventStream then
    ((Net.blocks body.toList).flatMap fun b => Net.delivered (Net.framePayload b)).map String.ofList
  else [body]

/-- The body holds these messages: each of its texts is an object. -/
def Holds (cl : Client) (head : ResponseHead) (body : String) (messages : List Value) : Prop :=
  List.Forall₂ (fun text msg => cl.codec.parse text = some msg ∧ msg.isObject = true) (texts head body) messages

theorem objects_of_forall₂ {cl : Client} {payloads : List String}
    (h : List.Forall₂ (fun data msg => cl.codec.parse data = some msg ∧ msg.isObject = true) payloads messages) :
    objects cl payloads = some messages := by
  induction h with
  | nil => rfl
  | @cons data msg payloads messages hmsg _ ih =>
    obtain ⟨hparse, hobj⟩ := hmsg
    cases msg with
    | obj ms =>
      rw [objects, hparse]
      simp only
      rw [ih]
      rfl
    | _ => cases hobj

/-- What a body holds is decoded; a body that holds nothing may be refused. -/
theorem decode_of_holds {cl : Client} (hs : isSuccess head.statusCode = true) (h : Holds cl head body messages) :
    decodeMcpHttpMessages cl head.statusCode head.headers body = .ok messages ∨
      messages = [] ∧ ∃ e, decodeMcpHttpMessages cl head.statusCode head.headers body = .error e := by
  have hobjects := objects_of_forall₂ h
  have hnil : texts head body = [] ↔ messages = [] := by
    constructor
    · intro hnil
      rwa [Holds, hnil, List.forall₂_nil_left_iff] at h
    · intro hnil
      rwa [Holds, hnil, List.forall₂_nil_right_iff] at h
  unfold decodeMcpHttpMessages
  rw [hs, if_neg (by simp), Net.SseFramer.feed_payloads]
  by_cases hbody : body = ""
  · refine Or.inl ?_
    rw [if_pos hbody, hnil.mp (if_pos hbody)]
  · unfold texts ResponseHead.eventStream at hnil hobjects
    rw [if_neg hbody] at hnil hobjects ⊢
    by_cases hmessages : messages = []
    · simp only [if_pos (hnil.mpr hmessages)]
      exact Or.inr ⟨hmessages, _, rfl⟩
    · refine Or.inl ?_
      simp only [if_neg (mt hnil.mp hmessages), hobjects]

/-! ### Notifications -/

namespace State

/-- `DispatchInbound`: a notification goes to the handler. -/
def dispatchInbound (sp : Spec) (s : State) (msg : Value) : State :=
  match s.notification? sp msg with
  | some (method, params) => s.record [.notified method params]
  | none => s

/-- Every notification is dispatched, in order. -/
theorem dispatchAll_eq (sp : Spec) (s : State) (messages : List Value) :
    s.dispatchAll sp messages = (messages.filter isNotification).foldl (dispatchInbound sp) s := by
  induction messages generalizing s with
  | nil => simp [dispatchAll, record]
  | cons msg messages ih =>
    cases hmsg : isNotification msg with
    | false =>
      have hnone : s.notification? sp msg = none := by simp [State.notification?, hmsg]
      rw [List.filter_cons_of_neg (by simp [hmsg]), ← ih, dispatchAll, List.filterMap_cons_none hnone, dispatchAll]
    | true =>
      rw [List.filter_cons_of_pos hmsg, List.foldl_cons, ← ih, dispatchInbound]
      cases hn : s.notification? sp msg with
      | none => rw [dispatchAll, List.filterMap_cons_none hn, dispatchAll]
      | some n =>
        -- the log does not matter for the next one
        have hsame : (s.record [.notified n.1 n.2]).notification? sp = s.notification? sp := rfl
        rw [dispatchAll, List.filterMap_cons_some hn, dispatchAll, hsame]
        simp [record]

end State

/-! ### The response -/

/-- The message has the id of the request. -/
def Answers (id : ℕ) (msg : Value) : Bool := (msg.find? "id").any (isRequestId id)

/-- The last message with the id. -/
theorem response?_eq_some_iff {msg : Value} : response? id messages = some msg ↔
    Answers id msg = true ∧ ∃ before after, messages = before ++ msg :: after ∧ ∀ m ∈ after, Answers id m = false := by
  change (messages.filter (Answers id)).getLast? = some msg ↔ _
  rw [List.getLast?_eq_head?_reverse, ← List.filter_reverse, List.head?_filter, List.find?_eq_some_iff_append]
  refine and_congr_right fun _ => ⟨?_, ?_⟩
  · rintro ⟨after, before, heq, hno⟩
    refine ⟨before.reverse, after.reverse, ?_, fun m hm => by simpa using hno m (List.mem_reverse.mp hm)⟩
    rw [← List.reverse_reverse messages, heq]
    simp
  · rintro ⟨before, after, rfl, hno⟩
    exact ⟨after.reverse, before.reverse, by simp, fun m hm => by simpa using hno m (List.mem_reverse.mp hm)⟩

theorem response?_eq_none_iff : response? id messages = none ↔ ∀ m ∈ messages, Answers id m = false := by
  rw [response?, List.getLast?_eq_none_iff, List.filter_eq_nil_iff]
  simp [Answers]

/-- A result is the one of the message that decides. -/
theorem rpcAnswer_eq_ok_iff {cl : Client} {result : Value} : rpcAnswer cl id messages = .ok (.ok result) ↔
    ∃ msg, response? id messages = some msg ∧ msg.find? "error" = none ∧ msg.find? "result" = some result := by
  rw [rpcAnswer]
  cases hr : response? id messages with
  | none => simp
  | some msg =>
    simp only [Option.some.injEq, exists_eq_left']
    cases he : msg.find? "error" with
    | some err =>
      simp only
      split_ifs
      · cases err.intValue "code" (-1) with
        | error e => simp [bind, Except.bind]
        | ok code => cases err.value "message" "" <;> simp [bind, Except.bind]
      · simp
    | none =>
      cases hres : msg.find? "result" with
      | none => simp
      | some v => simp

/-- Only notifications and answers matter, as long as there is one of them. -/
theorem rpcAnswer_filter {cl : Client} {keep : Value → Bool} (hkeep : ∀ msg, Answers id msg = true → keep msg = true)
    (h : messages.filter keep ≠ []) : rpcAnswer cl id (messages.filter keep) = rpcAnswer cl id messages := by
  have hresponse : response? id (messages.filter keep) = response? id messages := by
    change ((messages.filter keep).filter (Answers id)).getLast? = (messages.filter (Answers id)).getLast?
    rw [List.filter_filter]
    congr 1
    refine List.filter_congr fun msg _ => ?_
    cases ha : Answers id msg with
    | false => rfl
    | true => rw [hkeep msg ha, Bool.and_true]
  have hne : messages ≠ [] := by
    rintro rfl
    exact h rfl
  rw [rpcAnswer, hresponse, if_neg h, rpcAnswer, if_neg hne]

/-- **What `PostRpc` makes of a body that holds messages.** -/
theorem postResult_spec (hs : isSuccess head.statusCode = true) (h : Holds sp.toClient head body messages) :
    (s.postResult sp (some id) head (.ok body)).1 =
        (messages.filter isNotification).foldl (State.dispatchInbound sp) (s.publishSession head) ∧
      (∀ result, (s.postResult sp (some id) head (.ok body)).2 = .ok (.ok result) ↔
        ∃ before msg after, messages = before ++ msg :: after ∧ Answers id msg = true ∧
          (∀ m ∈ after, Answers id m = false) ∧ msg.find? "error" = none ∧ msg.find? "result" = some result) ∧
      (messages.filter (fun msg => isNotification msg || Answers id msg) ≠ [] →
        (s.postResult sp (some id) head (.ok body)).2 =
          rpcAnswer sp.toClient id (messages.filter fun msg => isNotification msg || Answers id msg)) ∧
      ((∀ msg ∈ messages, Answers id msg = false) →
        ∃ e, (s.postResult sp (some id) head (.ok body)).2 = .ok (.error e)) := by
  have hnone : (∀ msg ∈ messages, Answers id msg = false) → response? id messages = none :=
    response?_eq_none_iff.mpr
  have hdispatch : (s.postResult sp (some id) head (.ok body)).1 =
      (messages.filter isNotification).foldl (State.dispatchInbound sp) (s.publishSession head) := by
    rcases decode_of_holds hs h with hdecode | ⟨rfl, e, hdecode⟩
    · simp only [State.postResult, hdecode, State.dispatchAll_eq]
    · simp only [State.postResult, hdecode]
      rfl
  have hanswer : (s.postResult sp (some id) head (.ok body)).2 = rpcAnswer sp.toClient id messages ∨
      messages = [] ∧ ∃ e, (s.postResult sp (some id) head (.ok body)).2 = .ok (.error e) := by
    rcases decode_of_holds hs h with hdecode | ⟨hnil, e, hdecode⟩
    · exact Or.inl (by simp only [State.postResult, hdecode])
    · exact Or.inr ⟨hnil, e, by simp only [State.postResult, hdecode]⟩
  refine ⟨hdispatch, fun result => ?_, fun hne => ?_, fun hno => ?_⟩
  · rcases hanswer with hanswer | ⟨rfl, e, hanswer⟩
    · rw [hanswer, rpcAnswer_eq_ok_iff]
      constructor
      · rintro ⟨msg, hr, he, hres⟩
        obtain ⟨ha, before, after, heq, hafter⟩ := response?_eq_some_iff.mp hr
        exact ⟨before, msg, after, heq, ha, hafter, he, hres⟩
      · rintro ⟨before, msg, after, heq, ha, hafter, he, hres⟩
        exact ⟨msg, response?_eq_some_iff.mpr ⟨ha, before, after, heq, hafter⟩, he, hres⟩
    · rw [hanswer]
      simp
  · rcases hanswer with hanswer | ⟨rfl, -⟩
    · rw [hanswer]
      exact (rpcAnswer_filter (fun msg ha => by simp [ha]) hne).symm
    · exact absurd rfl hne
  · rcases hanswer with hanswer | ⟨-, he⟩
    · rw [hanswer, rpcAnswer, hnone hno]
      exact ⟨_, rfl⟩
    · exact he

/-! ### A mixed body -/

/-- A notification, the answer to request 3 and the answer to request 4. -/
def mixedMessages : List Value :=
  [.object [("method", .str "notifications/progress"), ("params", .obj [])],
    .object [("id", .int 3), ("result", .str "three")], .object [("id", .int 4), ("result", .str "four")]]

def mixedSpec : Spec :=
  { codec := .ofTable (["p", "3", "4"].zip mixedMessages), parseError := fun _ => "", commandOrUrl := "http://host",
    headers := [], metadataToken := none }

def mixedHead : ResponseHead := ⟨200, [("Content-Type", "text/event-stream")]⟩

def mixedBody : String := "data: p\n\ndata: 3\r\n\r\n: alive\n\ndata: 4\n\n"

theorem postResult_spec_mixed :
    (({ handler := true } : State).postResult mixedSpec (some 3) mixedHead (.ok mixedBody)).2 =
      .ok (.ok (.str "three")) := by
  have htexts : texts mixedHead mixedBody = ["p", "3", "4"] := by
    rw [texts, ← Net.SseFramer.feed_payloads]
    decide
  have hholds : Holds mixedSpec.toClient mixedHead mixedBody mixedMessages := by
    rw [Holds, htexts]
    refine .cons ⟨?_, rfl⟩ (.cons ⟨?_, rfl⟩ (.cons ⟨?_, rfl⟩ .nil)) <;> decide
  refine ((postResult_spec rfl hholds).2.1 _).mpr ?_
  exact ⟨mixedMessages.take 1, mixedMessages[1], mixedMessages.drop 2, rfl, by decide, by decide,
    by decide, by decide⟩

end Http
end Mcp
end AgentFlow
