/-
# What one call of SendAsync can do

The exits of `SendAsync`, said once: how the images of an attempt are
resolved (`resolveImages_cases`), how an attempt ends (`attempt_cases`), and
two rules for the retry loop, one for what is left in the history
(`retry_messages`) and one for what is seen (`retry_events`). What the
session-wide results need of a call is derived from these.

Key definitions: `Sent`, `Conversation.asks`, `Conversation.Posts`.
Key theorems: `Conversation.attempt_cases`, `Conversation.retry_events`,
`Conversation.sendAsync_cases`.
-/
import AgentFlow.Inference.Openai.ChatBackend

namespace AgentFlow.Openai

open Json

/-- What is sent of a history: the history itself if it has no image
reference, else a copy with a URL for each. -/
def Sent (messages wire : List Value) : Prop :=
  (collectImageRefKeys messages = [] ∧ wire = messages) ∨
    ∃ urls, substituteImageRefs messages urls = (wire, [])

/-- Keys that are missing are reported, if there are any. -/
def missingEvents (missing : List String) : List Event := if missing = [] then [] else [.missing missing]

namespace Conversation

variable (B : Conversation) {previous messages : List Value} {onToken : Bool} {a : Attempt}

/-- The call of the resolver in an attempt, if there is one to make. -/
def asks (messages : List Value) : List Event :=
  if collectImageRefKeys messages ≠ [] ∧ B.convOpts.imageRefResolver = true then
    [.asked (collectImageRefKeys messages)]
  else []

theorem resolveImages_cases (messages : List Value) (a : Attempt) :
    B.resolveImages messages a = (B.asks messages, .thrown) ∨
    (∃ e missing, B.resolveImages messages a = (B.asks messages ++ missingEvents missing, .rejected e missing) ∧
      missing ⊆ collectImageRefKeys messages) ∨
    ∃ wire, B.resolveImages messages a = (B.asks messages, .send wire) ∧ Sent messages wire := by
  unfold resolveImages asks
  by_cases hk : collectImageRefKeys messages = []
  · right; right
    exact ⟨messages, by simp [hk], Or.inl ⟨hk, rfl⟩⟩
  by_cases hr : B.convOpts.imageRefResolver = true
  · simp only [hk, hr, if_false, if_true, ne_eq, not_false_eq_true, and_self]
    cases a.resolved with
    | thrown => exact Or.inl rfl
    | failed e => exact Or.inr (Or.inl ⟨e, [], by simp [missingEvents], by simp⟩)
    | urls m =>
      by_cases hm : (substituteImageRefs messages m).2 = []
      · right; right
        exact ⟨(substituteImageRefs messages m).1, by simp [hm], Or.inr ⟨m, Prod.ext rfl hm⟩⟩
      · right; left
        refine ⟨attachmentInvalid (substituteImageRefs messages m).2, (substituteImageRefs messages m).2, ?_,
          List.filter_subset_self _⟩
        simp [hm, missingEvents]
  · right; left
    refine ⟨attachmentInvalid (collectImageRefKeys messages), _, ?_, List.Subset.refl _⟩
    simp [hk, hr, missingEvents]

/-- The ways an attempt can go: cancelled, the resolver throws, the images
are rejected (only then is the history before the call restored), or the
messages are posted. -/
theorem attempt_cases (previous messages : List Value) (onToken : Bool) (a : Attempt) :
    (a.cancelled = true ∧
      B.attempt previous messages onToken a = ([], .stop (.failed cancelledError) messages)) ∨
    B.attempt previous messages onToken a = (B.asks messages, .stop .thrown messages) ∨
    (∃ e missing, B.attempt previous messages onToken a =
        (B.asks messages ++ missingEvents missing, .stop (.failed e) (markImageRefsExpired previous missing)) ∧
      missing ⊆ collectImageRefKeys messages) ∨
    ∃ wire, Sent messages wire ∧ B.attempt previous messages onToken a =
        (B.asks messages ++ (B.post messages wire onToken a).1, (B.post messages wire onToken a).2) ∧
      a.cancelled = false ∧ B.resolveImages messages a = (B.asks messages, .send wire) := by
  unfold attempt
  by_cases hc : a.cancelled = true
  · exact Or.inl ⟨hc, by simp [hc]⟩
  right
  rw [if_neg hc]
  rcases B.resolveImages_cases messages a with h | ⟨e, missing, h, hm⟩ | ⟨wire, h, hs⟩
  · left; simp [h]
  · right; left
    exact ⟨e, missing, by simp [h], hm⟩
  · right; right
    exact ⟨wire, hs, by simp [h], by simpa using hc, h⟩

/-- The body that is posted for `wire`. -/
def Posts (wire : List Value) (body : Value) : Prop :=
  requestBody B.codec B.opts.model B.convOpts wire true B.opts.strictTools = .ok body

/-- The canonical message that some frames make. -/
def answer (frames : List String) : String :=
  (feedFrames B.codec { provider := B.opts.provider } frames).1.canonical B.codec

/-- What is seen of a request before it ends. -/
def sentEvents (onToken : Bool) (a : Attempt) (body : Value) : List Event :=
  .request (B.httpRequest (B.codec.dump body)) ::
    deltaEvents onToken (feedFrames B.codec { provider := B.opts.provider } a.frames).2

/-- The ways a request can go. -/
theorem post_cases (messages wire : List Value) (onToken : Bool) (a : Attempt) :
    B.post messages wire onToken a = ([], .stop .thrown messages) ∨
    ∃ body, B.Posts wire body ∧
      (B.post messages wire onToken a = (B.sentEvents onToken a body, .stop .thrown messages) ∨
      (a.posted = .ok ∧ B.post messages wire onToken a = (B.sentEvents onToken a body ++ [.response none],
        B.record messages (B.answer a.frames))) ∨
      ∃ e, a.posted = .failed e ∧ B.post messages wire onToken a =
        (B.sentEvents onToken a body ++ [.response (some e)],
          afterFailure messages a
            (!(feedFrames B.codec { provider := B.opts.provider } a.frames).2.isEmpty) e)) := by
  unfold post buildRequestBody
  cases hb : requestBody B.codec B.opts.model B.convOpts wire true B.opts.strictTools with
  | error e => exact Or.inl rfl
  | ok body =>
    refine Or.inr ⟨body, hb, ?_⟩
    cases hp : a.posted with
    | thrown => exact Or.inl rfl
    | ok => exact Or.inr (Or.inl ⟨rfl, rfl⟩)
    | failed e => exact Or.inr (Or.inr ⟨e, rfl, rfl⟩)

theorem record_stop {canonical : String} {o : Outcome} {ms' : List Value}
    (h : B.record messages canonical = .stop o ms') :
    ms' = messages ∨ ∃ assistant, toOpenAiMessages B.codec canonical = .ok assistant ∧ ms' = messages ++ assistant := by
  unfold record at h
  rcases hc : toOpenAiMessages B.codec canonical with (e | e) | assistant
  · rw [hc] at h
    exact Or.inl (Next.stop.inj h).2.symm
  · rw [hc] at h
    exact Or.inl (Next.stop.inj h).2.symm
  · rw [hc] at h
    exact Or.inr ⟨assistant, rfl, (Next.stop.inj h).2.symm⟩

theorem afterFailure_stop {emitted : Bool} {e : Status.Error} {o : Outcome} {ms' : List Value}
    (h : afterFailure messages a emitted e = .stop o ms') : ms' = messages := by
  unfold afterFailure at h
  split_ifs at h
  all_goals exact (Next.stop.inj h).2.symm

/-- What an attempt that ends the call leaves: the history with the turn, the
history before it with some images expired, or the turn and its answer. -/
theorem attempt_stop {o : Outcome} {ms' : List Value}
    (h : (B.attempt previous messages onToken a).2 = .stop o ms') :
    ms' = messages ∨ (∃ missing, ms' = markImageRefsExpired previous missing) ∨
      ∃ assistant, toOpenAiMessages B.codec (B.answer a.frames) = .ok assistant ∧ ms' = messages ++ assistant := by
  rcases B.attempt_cases previous messages onToken a with ⟨-, ha⟩ | ha | ⟨e, missing, ha, -⟩ | ⟨wire, -, ha, -⟩
  · rw [ha] at h
    exact Or.inl (Next.stop.inj h).2.symm
  · rw [ha] at h
    exact Or.inl (Next.stop.inj h).2.symm
  · rw [ha] at h
    exact Or.inr (Or.inl ⟨missing, (Next.stop.inj h).2.symm⟩)
  · rw [ha] at h
    rcases B.post_cases messages wire onToken a with hp | ⟨body, -, hp | ⟨-, hp⟩ | ⟨e, -, hp⟩⟩
    · rw [hp] at h
      exact Or.inl (Next.stop.inj h).2.symm
    · rw [hp] at h
      exact Or.inl (Next.stop.inj h).2.symm
    · rw [hp] at h
      rcases B.record_stop h with hr | ⟨assistant, hc, hr⟩
      · exact Or.inl hr
      · exact Or.inr (Or.inr ⟨assistant, hc, hr⟩)
    · rw [hp] at h
      exact Or.inl (afterFailure_stop h)

/-- What can be seen during the attempts with a given history. -/
def Seen (messages : List Value) : Event → Prop
  | .received _ => False
  | .asked keys => keys = collectImageRefKeys messages
  | .missing keys => keys ⊆ collectImageRefKeys messages
  | .request r => ∃ wire body, Sent messages wire ∧ B.Posts wire body ∧ r = B.httpRequest (B.codec.dump body)
  | .delta _ => True
  | .token _ => True
  | .response _ => True

theorem seen_asks {e : Event} (h : e ∈ B.asks messages) : B.Seen messages e := by
  unfold asks at h
  split_ifs at h
  · obtain rfl := List.mem_singleton.mp h
    rfl
  · simp at h

theorem mem_deltaEvents {deltas : List String} {e : Event} (h : e ∈ deltaEvents onToken deltas) :
    ∃ d ∈ deltas, e = .delta d ∨ e = .token d := by
  obtain ⟨d, hd, he⟩ := List.mem_flatMap.mp h
  refine ⟨d, hd, ?_⟩
  split_ifs at he
  · simpa using he
  · exact Or.inl (by simpa using he)

theorem seen_post {wire : List Value} (hs : Sent messages wire) {e : Event}
    (h : e ∈ (B.post messages wire onToken a).1) : B.Seen messages e := by
  have hsent : ∀ {body}, B.Posts wire body → e ∈ B.sentEvents onToken a body → B.Seen messages e := by
    intro body hb he
    rcases List.mem_cons.mp he with rfl | he
    · exact ⟨wire, body, hs, hb, rfl⟩
    · obtain ⟨d, -, rfl | rfl⟩ := mem_deltaEvents he
      · trivial
      · trivial
  rcases B.post_cases messages wire onToken a with hp | ⟨body, hb, hp | ⟨-, hp⟩ | ⟨f, -, hp⟩⟩
  · rw [hp] at h; simp at h
  · rw [hp] at h
    exact hsent hb h
  · rw [hp] at h
    rcases List.mem_append.mp h with h | h
    · exact hsent hb h
    · obtain rfl := List.mem_singleton.mp h
      trivial
  · rw [hp] at h
    rcases List.mem_append.mp h with h | h
    · exact hsent hb h
    · obtain rfl := List.mem_singleton.mp h
      trivial

theorem seen_attempt {e : Event} (h : e ∈ (B.attempt previous messages onToken a).1) : B.Seen messages e := by
  rcases B.attempt_cases previous messages onToken a with ⟨-, ha⟩ | ha | ⟨f, missing, ha, hm⟩ | ⟨wire, hs, ha, -⟩
  · rw [ha] at h; simp at h
  · rw [ha] at h
    exact B.seen_asks h
  · rw [ha] at h
    rcases List.mem_append.mp h with h | h
    · exact B.seen_asks h
    · unfold missingEvents at h
      split_ifs at h
      · simp at h
      · obtain rfl := List.mem_singleton.mp h
        exact hm
  · rw [ha] at h
    rcases List.mem_append.mp h with h | h
    · exact B.seen_asks h
    · exact B.seen_post hs h

/-! ### The retry loop -/

/-- What holds of the history the loop starts with, and of what any attempt
leaves, holds of what the loop leaves. -/
theorem retry_messages {Q : List Value → Prop} (h0 : Q messages)
    (hstop : ∀ a o ms', (B.attempt previous messages onToken a).2 = .stop o ms' → Q ms') :
    ∀ (n : ℕ) (attempts : ℕ → Attempt) (last : Status.Error),
      Q (B.retry previous messages onToken n attempts last).messages
  | 0, _, _ => h0
  | n + 1, attempts, last => by
    rw [retry]
    cases h : (B.attempt previous messages onToken (attempts 0)).2 with
    | stop o ms' => exact hstop _ o ms' h
    | again e => exact retry_messages h0 hstop n _ e

/-- What any attempt shows is all that the loop shows. -/
theorem retry_events {P : Event → Prop}
    (h : ∀ a, ∀ e ∈ (B.attempt previous messages onToken a).1, P e) :
    ∀ (n : ℕ) (attempts : ℕ → Attempt) (last : Status.Error),
      ∀ e ∈ (B.retry previous messages onToken n attempts last).events, P e
  | 0, _, _, e, he => by simp [retry] at he
  | n + 1, attempts, last, e, he => by
    rw [retry] at he
    cases hn : (B.attempt previous messages onToken (attempts 0)).2 with
    | stop o ms' =>
      rw [hn] at he
      exact h _ e he
    | again e' =>
      rw [hn] at he
      rcases List.mem_append.mp he with he | he
      · exact h _ e he
      · exact retry_events h n _ e' e he

/-- The ways a call can go: the message is turned down before it is
appended, the repair throws, there are too many images, or the attempts are
made. -/
theorem sendAsync_cases (messages : List Value) (call : Call) :
    (∃ o, B.sendAsync messages call = ⟨messages, [], o⟩ ∧ (∀ canonical, o ≠ .ok canonical) ∧
      ∀ incoming, toOpenAiMessages B.codec call.messageJson ≠ .ok incoming) ∨
    ∃ incoming repaired thrown, toOpenAiMessages B.codec call.messageJson = .ok incoming ∧
      repairToolCallPairing (messages ++ incoming) = (repaired, thrown) ∧
      ((thrown.isSome = true ∧ B.sendAsync messages call = ⟨repaired, [], .thrown⟩) ∨
      (thrown = none ∧ 20 < (collectImageRefKeys repaired).length ∧ ∃ e, B.sendAsync messages call =
        ⟨if collectImageRefKeys incoming ≠ [] then messages else repaired, [], .failed e⟩) ∨
      (thrown = none ∧ (collectImageRefKeys repaired).length ≤ 20 ∧ B.sendAsync messages call =
        B.retry messages repaired call.onToken B.opts.maxRetries.toNat call.attempts
          ⟨.unknown, "no attempt made"⟩)) := by
  unfold sendAsync
  rcases hc : toOpenAiMessages B.codec call.messageJson with (e | e) | incoming
  · exact Or.inl ⟨_, rfl, by simp, by simp⟩
  · exact Or.inl ⟨_, rfl, by simp, by simp⟩
  right
  rcases hr : repairToolCallPairing (messages ++ incoming) with ⟨repaired, _ | e⟩
  · refine ⟨incoming, repaired, none, rfl, hr, Or.inr ?_⟩
    by_cases hk : 20 < (collectImageRefKeys repaired).length
    · refine Or.inl ⟨rfl, hk, ⟨.invalidArgument, "too many images in session (max 20)"⟩, ?_⟩
      simp only [hr, if_pos hk]
    · exact Or.inr ⟨rfl, Nat.le_of_not_lt hk, by simp only [hr, if_neg hk]⟩
  · exact ⟨incoming, repaired, some e, rfl, hr, Or.inl ⟨rfl, by simp only [hr]⟩⟩

/-- A conversation with few texts, no tools and no limit on the output. -/
def small (texts : List (String × Value)) (resolver : Bool) : Conversation where
  codec := Codec.ofTable (("[]", .arr []) :: texts)
  opts := ⟨"https://api.example.com/v1", "", "m", .openAi, 3, false⟩
  convOpts := ⟨"", "[]", 0, resolver⟩

/-- An attempt whose request fails with a status that is not worth another. -/
def refused : Attempt := ⟨false, .urls [], [], .failed ⟨.invalidArgument, "bad request"⟩, false⟩

end Conversation

end AgentFlow.Openai
