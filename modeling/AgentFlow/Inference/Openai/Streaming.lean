/-
# Streaming and retrying agree

Deltas go out while an attempt runs and the accumulator is made anew for the
next one, so an attempt may only be followed by another if nothing of it was
seen. An event is `Quiet` if it leaves that open: no delta, and no response
but a failure worth a retry. Every attempt that is followed by another is
quiet throughout (`attempt_again`), so whatever asks or posts has only quiet
events before it (`retry_issues`); and the answer of a call is the answer of
its last attempt, whose deltas are all that were seen (`retry_ok`).

Key definitions: `Quiet`, `Issues`, `deltasOf`, `tokensOf`.
Key theorems: `Conversation.retry_issues`, `Conversation.retry_ok`,
`Conversation.streaming_and_retry_agree`.
-/
import AgentFlow.Inference.Openai.Turns
import AgentFlow.Inference.Openai.Canonical

namespace AgentFlow.Openai

open Json

def deltaOf : Event → Option String
  | .delta d => some d
  | _ => none

def tokenOf : Event → Option String
  | .token d => some d
  | _ => none

def deltasOf (events : List Event) : List String := events.filterMap deltaOf

def tokensOf (events : List Event) : List String := events.filterMap tokenOf

def requestsOf (events : List Event) : List HttpRequest := events.filterMap requestOf

/-- An attempt begins or a request is made. -/
def Issues : Event → Prop
  | .asked _ => True
  | .request _ => True
  | _ => False

/-- Nothing of an answer, and no response but a failure worth a retry. -/
def Quiet : Event → Prop
  | .delta _ => False
  | .token _ => False
  | .response none => False
  | .response (some e) => isRetryable e = true
  | _ => True

/-- What issues something comes after quiet events only. -/
def IssuedQuietly (events : List Event) : Prop :=
  History.Each (fun p e => Issues e → ∀ x ∈ p, Quiet x) events

theorem issuedQuietly_append {h t : List Event} (hh : ∀ e ∈ h, Quiet e) (ht : ∀ e ∈ t, ¬ Issues e) :
    IssuedQuietly (h ++ t) := by
  rintro p e s hs hi x hx
  rcases List.append_eq_append_iff.mp hs with ⟨c, -, hc⟩ | ⟨c, hc, -⟩
  · exact absurd hi (ht e (by rw [hc]; simp))
  · exact hh x (by rw [hc]; exact List.mem_append_left _ hx)

@[simp]
theorem deltasOf_append (l l' : List Event) : deltasOf (l ++ l') = deltasOf l ++ deltasOf l' := List.filterMap_append

@[simp]
theorem tokensOf_append (l l' : List Event) : tokensOf (l ++ l') = tokensOf l ++ tokensOf l' := List.filterMap_append

@[simp]
theorem requestsOf_append (l l' : List Event) : requestsOf (l ++ l') = requestsOf l ++ requestsOf l' :=
  List.filterMap_append

theorem deltasOf_deltaEvents (onToken : Bool) : ∀ ds : List String, deltasOf (deltaEvents onToken ds) = ds
  | [] => rfl
  | d :: ds => by
    have ih := deltasOf_deltaEvents onToken ds
    unfold deltaEvents at ih ⊢
    rw [List.flatMap_cons, deltasOf_append, ih]
    cases onToken <;> rfl

theorem tokensOf_deltaEvents (onToken : Bool) : ∀ ds : List String,
    tokensOf (deltaEvents onToken ds) = if onToken then ds else []
  | [] => by cases onToken <;> rfl
  | d :: ds => by
    have ih := tokensOf_deltaEvents onToken ds
    unfold deltaEvents at ih ⊢
    rw [List.flatMap_cons, tokensOf_append, ih]
    cases onToken <;> rfl

theorem requestsOf_eq_nil {l : List Event} (h : ∀ e ∈ l, requestOf e = none) : requestsOf l = [] :=
  List.filterMap_eq_nil_iff.mpr h

theorem requestsOf_deltaEvents (onToken : Bool) (ds : List String) : requestsOf (deltaEvents onToken ds) = [] := by
  refine requestsOf_eq_nil fun e he => ?_
  obtain ⟨d, -, rfl | rfl⟩ := Conversation.mem_deltaEvents he
  · rfl
  · rfl

namespace Conversation

variable (B : Conversation) {previous messages : List Value} {onToken : Bool} {a : Attempt}

/-- The accumulator after the frames of an attempt. -/
def accumulated (frames : List String) : StreamAccumulator × List String :=
  feedFrames B.codec { provider := B.opts.provider } frames

theorem asks_quiet : ∀ e ∈ B.asks messages, Quiet e := by
  intro e he
  unfold asks at he
  split_ifs at he
  · obtain rfl := List.mem_singleton.mp he
    trivial
  · simp at he

theorem deltaEvents_not_issues {ds : List String} : ∀ e ∈ deltaEvents onToken ds, ¬ Issues e := by
  intro e he
  obtain ⟨d, -, rfl | rfl⟩ := mem_deltaEvents he
  · exact id
  · exact id

theorem sentEvents_eq (body : Value) : B.sentEvents onToken a body =
    [.request (B.httpRequest (B.codec.dump body))] ++ deltaEvents onToken (B.accumulated a.frames).2 := rfl

/-- Within an attempt, the resolver is asked and the request made before
anything else is seen. -/
theorem attempt_issues : IssuedQuietly (B.attempt previous messages onToken a).1 := by
  have hreq : ∀ body, ∀ e ∈ B.asks messages ++ [.request (B.httpRequest (B.codec.dump body))], Quiet e := by
    intro body e he
    rcases List.mem_append.mp he with he | he
    · exact B.asks_quiet e he
    · obtain rfl := List.mem_singleton.mp he
      trivial
  rcases B.attempt_cases previous messages onToken a with ⟨-, ha⟩ | ha | ⟨f, missing, ha, -⟩ | ⟨wire, -, ha, -⟩
  · rw [ha]
    exact History.each_nil
  · rw [ha, ← List.append_nil (B.asks messages)]
    exact issuedQuietly_append B.asks_quiet (by simp)
  · rw [ha]
    refine issuedQuietly_append B.asks_quiet fun e he => ?_
    unfold missingEvents at he
    split_ifs at he
    · simp at he
    · obtain rfl := List.mem_singleton.mp he
      exact id
  · rw [ha]
    rcases B.post_cases messages wire onToken a with hp | ⟨body, -, hp | ⟨-, hp⟩ | ⟨f, -, hp⟩⟩
    · rw [hp]
      exact issuedQuietly_append B.asks_quiet (by simp)
    · rw [hp, sentEvents_eq, ← List.append_assoc]
      exact issuedQuietly_append (hreq body) deltaEvents_not_issues
    · rw [hp, sentEvents_eq, List.append_assoc, ← List.append_assoc]
      refine issuedQuietly_append (hreq body) fun e he => ?_
      rcases List.mem_append.mp he with he | he
      · exact deltaEvents_not_issues e he
      · obtain rfl := List.mem_singleton.mp he
        exact id
    · rw [hp, sentEvents_eq, List.append_assoc, ← List.append_assoc]
      refine issuedQuietly_append (hreq body) fun e he => ?_
      rcases List.mem_append.mp he with he | he
      · exact deltaEvents_not_issues e he
      · obtain rfl := List.mem_singleton.mp he
        exact id

theorem asks_deltas : deltasOf (B.asks messages) = [] ∧ tokensOf (B.asks messages) = [] ∧
    requestsOf (B.asks messages) = [] := by
  unfold asks
  split_ifs
  · exact ⟨rfl, rfl, rfl⟩
  · exact ⟨rfl, rfl, rfl⟩

/-- What a request shows of the answer. -/
theorem sentEvents_deltas (body : Value) :
    deltasOf (B.sentEvents onToken a body) = (B.accumulated a.frames).2 ∧
    tokensOf (B.sentEvents onToken a body) = (if onToken then (B.accumulated a.frames).2 else []) ∧
    (requestsOf (B.sentEvents onToken a body)).length = 1 := by
  rw [sentEvents_eq, deltasOf_append, tokensOf_append, requestsOf_append, deltasOf_deltaEvents, tokensOf_deltaEvents,
    requestsOf_deltaEvents]
  exact ⟨rfl, rfl, rfl⟩

/-- An attempt makes at most one request. -/
theorem attempt_requests : (requestsOf (B.attempt previous messages onToken a).1).length ≤ 1 := by
  rcases B.attempt_cases previous messages onToken a with ⟨-, ha⟩ | ha | ⟨f, missing, ha, -⟩ | ⟨wire, -, ha, -⟩
  · rw [ha]; simp [requestsOf]
  · rw [ha, B.asks_deltas.2.2]; simp
  · have hm : requestsOf (missingEvents missing) = [] := by
      unfold missingEvents
      split_ifs <;> rfl
    rw [ha, requestsOf_append, B.asks_deltas.2.2, hm]
    simp
  · rw [ha, requestsOf_append, B.asks_deltas.2.2, List.nil_append]
    rcases B.post_cases messages wire onToken a with hp | ⟨body, -, hp | ⟨-, hp⟩ | ⟨f, -, hp⟩⟩
    · rw [hp]; simp [requestsOf]
    · rw [hp]
      exact (B.sentEvents_deltas body).2.2.le
    · rw [hp, requestsOf_append, List.length_append, (B.sentEvents_deltas body).2.2]
      rfl
    · rw [hp, requestsOf_append, List.length_append, (B.sentEvents_deltas body).2.2]
      rfl

/-- An attempt that is followed by another is quiet. -/
theorem attempt_again {e : Status.Error} (h : (B.attempt previous messages onToken a).2 = .again e) :
    ∀ x ∈ (B.attempt previous messages onToken a).1, Quiet x := by
  rcases B.attempt_cases previous messages onToken a with ⟨-, ha⟩ | ha | ⟨f, missing, ha, -⟩ | ⟨wire, -, ha, -⟩
  · rw [ha] at h; cases h
  · rw [ha] at h; cases h
  · rw [ha] at h; cases h
  rw [ha] at h ⊢
  rcases B.post_cases messages wire onToken a with hp | ⟨body, -, hp | ⟨-, hp⟩ | ⟨f, -, hp⟩⟩
  · rw [hp] at h; cases h
  · rw [hp] at h; cases h
  · rw [hp] at h
    unfold record at h
    split at h <;> cases h
  · rw [hp] at h ⊢
    unfold afterFailure at h
    split_ifs at h with hcancel hemit hretry
    obtain rfl := Next.again.inj h
    have hnone : (feedFrames B.codec { provider := B.opts.provider } a.frames).2 = [] := by simpa using hemit
    intro x hx
    rcases List.mem_append.mp hx with hx | hx
    · exact B.asks_quiet x hx
    rcases List.mem_append.mp hx with hx | hx
    · rw [sentEvents, hnone] at hx
      obtain rfl := List.mem_singleton.mp hx
      trivial
    · obtain rfl := List.mem_singleton.mp hx
      exact hretry

/-- Whatever is asked or posted comes after quiet events only. -/
theorem retry_issues : ∀ (n : ℕ) (attempts : ℕ → Attempt) (last : Status.Error),
    IssuedQuietly (B.retry previous messages onToken n attempts last).events
  | 0, _, _ => History.each_nil
  | n + 1, attempts, last => by
    rw [retry]
    cases hn : (B.attempt previous messages onToken (attempts 0)).2 with
    | stop o ms' => exact B.attempt_issues
    | again e =>
      have hquiet := B.attempt_again hn
      refine History.each_append.mpr ⟨B.attempt_issues, fun p x s hs hi y hy => ?_⟩
      rcases List.mem_append.mp hy with hy | hy
      · exact hquiet y hy
      · exact retry_issues n _ e p x s hs hi y hy

theorem retry_requests : ∀ (n : ℕ) (attempts : ℕ → Attempt) (last : Status.Error),
    (requestsOf (B.retry previous messages onToken n attempts last).events).length ≤ n
  | 0, _, _ => by simp [retry, requestsOf]
  | n + 1, attempts, last => by
    have h1 : (requestsOf (B.attempt previous messages onToken (attempts 0)).1).length ≤ 1 := B.attempt_requests
    rw [retry]
    cases hn : (B.attempt previous messages onToken (attempts 0)).2 with
    | stop o ms' =>
      dsimp only
      omega
    | again e =>
      have ih := retry_requests n (fun k => attempts (k + 1)) e
      dsimp only
      rw [requestsOf_append, List.length_append]
      omega

theorem deltasOf_of_quiet {l : List Event} (h : ∀ x ∈ l, Quiet x) : deltasOf l = [] ∧ tokensOf l = [] := by
  refine ⟨List.filterMap_eq_nil_iff.mpr fun x hx => ?_, List.filterMap_eq_nil_iff.mpr fun x hx => ?_⟩
  · have := h x hx
    cases x <;> first | rfl | exact this.elim
  · have := h x hx
    cases x <;> first | rfl | exact this.elim

/-- What a call that returns an answer has shown and recorded. -/
structure Answered (B : Conversation) (messages : List Value) (onToken : Bool) (frames : List String)
    (events : List Event) (canonical : String) (messages' : List Value) : Prop where
  answers : canonical = B.answer frames
  deltas : deltasOf events = (B.accumulated frames).2
  tokens : tokensOf events = if onToken then (B.accumulated frames).2 else []
  recorded : B.record messages canonical = .stop (.ok canonical) messages'

theorem attempt_ok {canonical : String} {ms' : List Value}
    (h : (B.attempt previous messages onToken a).2 = .stop (.ok canonical) ms') :
    Answered B messages onToken a.frames (B.attempt previous messages onToken a).1 canonical ms' := by
  rcases B.attempt_cases previous messages onToken a with ⟨-, ha⟩ | ha | ⟨f, missing, ha, -⟩ | ⟨wire, -, ha, -⟩
  · rw [ha] at h; cases h
  · rw [ha] at h; cases h
  · rw [ha] at h; cases h
  rw [ha] at h ⊢
  rcases B.post_cases messages wire onToken a with hp | ⟨body, -, hp | ⟨-, hp⟩ | ⟨f, -, hp⟩⟩
  · rw [hp] at h; cases h
  · rw [hp] at h; cases h
  · rw [hp] at h ⊢
    have hc : canonical = B.answer a.frames := by
      dsimp only at h
      unfold record at h
      split at h
      · exact (Outcome.ok.inj (Next.stop.inj h).1).symm
      · exact (Outcome.ok.inj (Next.stop.inj h).1).symm
      · cases (Next.stop.inj h).1
    refine ⟨hc, ?_, ?_, hc ▸ h⟩
    · rw [deltasOf_append, deltasOf_append, B.asks_deltas.1, (B.sentEvents_deltas body).1]
      simp [deltasOf, deltaOf]
    · rw [tokensOf_append, tokensOf_append, B.asks_deltas.2.1, (B.sentEvents_deltas body).2.1]
      simp [tokensOf, tokenOf]
  · rw [hp] at h
    dsimp only at h
    unfold afterFailure at h
    split_ifs at h
    all_goals cases (Next.stop.inj h).1

/-- The answer of a call is that of one attempt, and its deltas are all that
were seen. -/
theorem retry_ok : ∀ (n : ℕ) (attempts : ℕ → Attempt) (last : Status.Error) (canonical : String),
    (B.retry previous messages onToken n attempts last).outcome = .ok canonical →
    ∃ k, Answered B messages onToken (attempts k).frames
      (B.retry previous messages onToken n attempts last).events canonical
      (B.retry previous messages onToken n attempts last).messages
  | 0, _, _, _, h => by cases h
  | n + 1, attempts, last, canonical, h => by
    rw [retry] at h ⊢
    cases hn : (B.attempt previous messages onToken (attempts 0)).2 with
    | stop o ms' =>
      rw [hn] at h
      obtain rfl : o = .ok canonical := h
      exact ⟨0, B.attempt_ok hn⟩
    | again e =>
      rw [hn] at h
      obtain ⟨k, hk⟩ := retry_ok n _ e canonical h
      obtain ⟨hd, ht⟩ := deltasOf_of_quiet (B.attempt_again hn)
      refine ⟨k + 1, hk.answers, ?_, ?_, hk.recorded⟩
      · rw [deltasOf_append, hd, List.nil_append]
        exact hk.deltas
      · rw [tokensOf_append, ht, List.nil_append]
        exact hk.tokens

/-- The assistant message and the canonical one say the same. -/
theorem assistantMessage_spec (acc : StreamAccumulator) :
    (assistantMessage acc).stringAt? "role" = some "assistant" ∧
    (assistantMessage acc).stringAt? "content" = some acc.text ∧
    (assistantMessage acc).find? "reasoning_content" = acc.canonicalValue.find? "reasoning_content" ∧
    (assistantMessage acc).find? "tool_calls" = acc.canonicalValue.find? "tool_calls" ∧
    (acc.canonicalValue.find? "content").map flattenContent = some acc.text := by
  refine ⟨?_, ?_, ?_, ?_, ?_⟩
  · simp [assistantMessage, Value.stringAt?]
  · simp [assistantMessage, Value.stringAt?]
  · simp [assistantMessage, StreamAccumulator.canonicalValue]
  · simp [assistantMessage, StreamAccumulator.canonicalValue]
  · simp [StreamAccumulator.canonicalValue, flattenContent_text]

/-- **Streaming and retrying agree.** In every call a request, or the resolver
call before it, comes after no delta and after no response but failures worth
a retry; there are at most `maxRetries` requests; and when the call returns a
message, the deltas make up its text, they are what was handed to `on_token`,
and the history got the turn and one assistant message: the text, the
reasoning and the tool calls of the message returned. -/
theorem streaming_and_retry_agree (B : Conversation) (messages : List Value) (call : Call)
    (hC : ∀ k, B.codec.RoundTrips (B.accumulated (call.attempts k).frames).1.canonicalValue) :
    IssuedQuietly (B.sendAsync messages call).events ∧
    (requestsOf (B.sendAsync messages call).events).length ≤ B.opts.maxRetries.toNat ∧
    ∀ canonical, (B.sendAsync messages call).outcome = .ok canonical →
      ∃ incoming repaired v m, toOpenAiMessages B.codec call.messageJson = .ok incoming ∧
        repairToolCallPairing (messages ++ incoming) = (repaired, none) ∧
        B.codec.parse canonical = some v ∧
        (v.find? "content").map flattenContent = some (String.join (deltasOf (B.sendAsync messages call).events)) ∧
        tokensOf (B.sendAsync messages call).events =
          (if call.onToken then deltasOf (B.sendAsync messages call).events else []) ∧
        (B.sendAsync messages call).messages = repaired ++ [m] ∧
        m.stringAt? "role" = some "assistant" ∧
        m.stringAt? "content" = some (String.join (deltasOf (B.sendAsync messages call).events)) ∧
        m.find? "reasoning_content" = v.find? "reasoning_content" ∧
        m.find? "tool_calls" = v.find? "tool_calls" := by
  rcases B.sendAsync_cases messages call with ⟨o, hs, ho, -⟩ | ⟨incoming, repaired, thrown, hi, hr, hs⟩
  · rw [hs]
    exact ⟨History.each_nil, by simp [requestsOf], fun canonical h => absurd h (ho canonical)⟩
  rcases hs with ⟨-, hs⟩ | ⟨-, -, e, hs⟩ | ⟨hnone, -, hs⟩
  · rw [hs]
    exact ⟨History.each_nil, by simp [requestsOf], fun canonical h => by cases h⟩
  · rw [hs]
    exact ⟨History.each_nil, by simp [requestsOf], fun canonical h => by cases h⟩
  rw [hs]
  refine ⟨B.retry_issues _ _ _, B.retry_requests _ _ _, fun canonical hok => ?_⟩
  obtain ⟨k, hk⟩ := B.retry_ok _ _ _ canonical hok
  have hp : B.codec.parse canonical = some (B.accumulated (call.attempts k).frames).1.canonicalValue := by
    rw [hk.answers]
    exact hC k
  have htext : (B.accumulated (call.attempts k).frames).1.text =
      String.join (B.accumulated (call.attempts k).frames).2 := by
    rw [accumulated, feedFrames_text]
    exact String.empty_append
  have hrec := hk.recorded
  unfold record at hrec
  rw [toOpenAiMessages_canonical hp] at hrec
  obtain ⟨h1, h2, h3, h4, h5⟩ := assistantMessage_spec (B.accumulated (call.attempts k).frames).1
  rw [htext, ← hk.deltas] at h2 h5
  refine ⟨incoming, repaired, _, assistantMessage _, hi, hnone ▸ hr, hp, h5, ?_, (Next.stop.inj hrec).2.symm,
    h1, h2, h3, h4⟩
  rw [hk.tokens, hk.deltas]

/-- A turn, a frame with some text, and the message that it makes. -/
def helloText : String := "\x7b\"content\":\"hello\"\x7d"

def hiFrame : String := "\x7b\"choices\":[\x7b\"delta\":\x7b\"content\":\"hi\"\x7d\x7d]\x7d"

def hiText : String := "\x7b\"content\":[\x7b\"text\":\"hi\",\"type\":\"text\"\x7d],\"role\":\"assistant\"\x7d"

def emptyText : String := "\x7b\"content\":[\x7b\"text\":\"\",\"type\":\"text\"\x7d],\"role\":\"assistant\"\x7d"

def canonicalOf (text : String) : Value :=
  .object [("role", .str "assistant"), ("content", .arr [textItem text])]

def helloBody : Value :=
  .object [("model", .str "m"), ("stream", .bool true), ("stream_options", .object [("include_usage", .bool true)]),
    ("messages", .arr [.object [("role", .str "user"), ("content", .str "hello")]])]

def helloBodyText : String :=
  "\x7b\"messages\":[\x7b\"content\":\"hello\",\"role\":\"user\"\x7d],\"model\":\"m\",\"stream\":true," ++
  "\"stream_options\":\x7b\"include_usage\":true\x7d\x7d"

def helloConversation : Conversation :=
  small [(helloText, .object [("content", .str "hello")]),
    (hiFrame, .object [("choices", .arr [.object [("delta", .object [("content", .str "hi")])]])]),
    (hiText, canonicalOf "hi"), (emptyText, canonicalOf ""), (helloBodyText, helloBody)] false

/-- The endpoint is unavailable at first and answers then. -/
def helloAttempts : ℕ → Attempt
  | 0 => ⟨false, .urls [], [], .failed ⟨.unavailable, "overloaded"⟩, false⟩
  | _ + 1 => ⟨false, .urls [], [hiFrame], .ok, false⟩

def helloCall : Call := ⟨helloText, true, helloAttempts⟩

theorem streaming_and_retry_agree_hello :
    (helloConversation.sendAsync [] helloCall).outcome = .ok hiText ∧
    IssuedQuietly (helloConversation.sendAsync [] helloCall).events ∧
    (requestsOf (helloConversation.sendAsync [] helloCall).events).length = 2 ∧
    tokensOf (helloConversation.sendAsync [] helloCall).events = ["hi"] ∧
    ∃ v, helloConversation.codec.parse hiText = some v ∧ (v.find? "content").map flattenContent = some "hi" := by
  have hC : ∀ k, helloConversation.codec.RoundTrips
      (helloConversation.accumulated (helloCall.attempts k).frames).1.canonicalValue := by
    intro k
    cases k with
    | zero =>
      show helloConversation.codec.parse _ = some _
      decide +kernel
    | succ k =>
      show helloConversation.codec.parse _ = some _
      exact (by decide +kernel : helloConversation.codec.parse (helloConversation.codec.dump
        (helloConversation.accumulated [hiFrame]).1.canonicalValue) =
          some (helloConversation.accumulated [hiFrame]).1.canonicalValue)
  obtain ⟨h1, -, h3⟩ := streaming_and_retry_agree helloConversation [] helloCall hC
  have hok : (helloConversation.sendAsync [] helloCall).outcome = .ok hiText := by decide +kernel
  have hd : deltasOf (helloConversation.sendAsync [] helloCall).events = ["hi"] := by decide +kernel
  obtain ⟨incoming, repaired, v, m, -, -, hv, htext, htok, -⟩ := h3 hiText hok
  rw [hd] at htext htok
  exact ⟨hok, h1, by decide +kernel, htok, v, hv, htext⟩

end Conversation

end AgentFlow.Openai
