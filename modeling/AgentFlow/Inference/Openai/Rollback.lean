/-
# Which rejected turns enter the history

`SendAsync` saves the history before it appends a turn, and restores it when
the images of the turn are rejected. The other exits that return an error
from inside the retry loop do not: a cancellation, a request that fails, and
running out of attempts leave the turn in the history. `LosesTurn` says this
of the inputs: which attempt is the last one made (all before it are
`Retried`) and how it fails (`FailsOnWire`).

Key definitions: `Restores`, `ImagesResolve`, `Retried`, `FailsOnWire`,
`LosesTurn`.
Key theorems: `Conversation.restores_iff_not_losesTurn`.
-/
import AgentFlow.Inference.Openai.Images
import AgentFlow.Inference.Openai.Streaming

namespace AgentFlow.Openai

open Json

theorem markImageRefsExpired_nil (ms : List Value) : markImageRefsExpired ms [] = ms := by
  have hitem : expireItem [] = id := by
    funext item
    unfold expireItem
    cases imageRefKey? item <;> simp
  have hm : ∀ m : Value, mapContent (expireItem []) m = m := by
    intro m
    unfold mapContent Value.modify
    cases m with
    | obj members =>
      refine congrArg Value.obj (OrderedMap.modify_id fun b _ => ?_)
      cases b.2 <;> simp [hitem]
    | _ => rfl
  unfold markImageRefsExpired
  rw [List.map_congr_left fun m _ => hm m, List.map_id']

namespace Conversation

variable (B : Conversation)

/-- A call that returns an error leaves the history as it was, but for images
that it reported missing. -/
def Restores (messages : List Value) (call : Call) : Prop :=
  ∀ e, (B.sendAsync messages call).outcome = .failed e →
    ∃ ks, (∀ k ∈ ks, ∃ ks', .missing ks' ∈ (B.sendAsync messages call).events ∧ k ∈ ks') ∧
      (B.sendAsync messages call).messages = markImageRefsExpired messages ks

/-! ### The conditions on the inputs -/

/-- The resolver has a URL for every image of the history. -/
def ImagesResolve (messages : List Value) (a : Attempt) : Prop :=
  collectImageRefKeys messages = [] ∨
    (B.convOpts.imageRefResolver = true ∧ ∃ urls, a.resolved = .urls urls ∧
      ∀ k ∈ collectImageRefKeys messages, (urls.lookup k).isSome = true)

/-- The tools can be put into a request. -/
def ToolsBuild : Prop :=
  ∀ t ts, B.codec.parse B.convOpts.toolsJson = some (.arr (t :: ts)) →
    ∃ tools, wireTools B.opts.model B.opts.strictTools (t :: ts) = .ok tools

/-- Some frame of the attempt carries text. -/
def ShowsText (a : Attempt) : Prop := (B.accumulated a.frames).2 ≠ []

/-- The attempt is followed by another, if there is one left. -/
def Retried (messages : List Value) (a : Attempt) : Prop :=
  a.cancelled = false ∧ B.ImagesResolve messages a ∧ B.ToolsBuild ∧
    ∃ e, a.posted = .failed e ∧ a.cancelledAfter = false ∧ ¬ B.ShowsText a ∧ isRetryable e = true

/-- The attempt ends the call with an error that is not about its images. -/
def FailsOnWire (messages : List Value) (a : Attempt) : Prop :=
  a.cancelled = true ∨
    (a.cancelled = false ∧ B.ImagesResolve messages a ∧ B.ToolsBuild ∧
      ∃ e, a.posted = .failed e ∧ (a.cancelledAfter = true ∨ B.ShowsText a ∨ isRetryable e = false))

/-- The last attempt made fails on the wire, or the attempts run out. -/
def EndsOnWire (messages : List Value) (n : ℕ) (attempts : ℕ → Attempt) : Prop :=
  ∃ k ≤ n, (∀ j < k, B.Retried messages (attempts j)) ∧ (k = n ∨ B.FailsOnWire messages (attempts k))

/-- A turn that changes the history and is rejected without being rolled
back. -/
def LosesTurn (messages : List Value) (call : Call) : Prop :=
  ∃ incoming repaired, toOpenAiMessages B.codec call.messageJson = .ok incoming ∧
    repairToolCallPairing (messages ++ incoming) = (repaired, none) ∧ repaired ≠ messages ∧
    ((20 < (collectImageRefKeys repaired).length ∧ collectImageRefKeys incoming = []) ∨
      ((collectImageRefKeys repaired).length ≤ 20 ∧
        B.EndsOnWire repaired B.opts.maxRetries.toNat call.attempts))

/-! ### One attempt -/

variable {B} {previous messages : List Value} {onToken : Bool} {a : Attempt}

theorem resolveImages_of_imagesResolve (h : B.ImagesResolve messages a) :
    ∃ wire, B.resolveImages messages a = (B.asks messages, .send wire) := by
  unfold resolveImages asks
  rcases h with h | ⟨hr, urls, hu, hall⟩
  · exact ⟨messages, by simp [h]⟩
  · have hm : (substituteImageRefs messages urls).2 = [] := by
      refine List.filter_eq_nil_iff.mpr fun k hk => ?_
      obtain ⟨url, hurl⟩ := Option.isSome_iff_exists.mp (hall k hk)
      rw [hurl]
      simp
    by_cases hk : collectImageRefKeys messages = []
    · exact ⟨messages, by simp [hk]⟩
    · exact ⟨(substituteImageRefs messages urls).1, by simp [hk, hr, hu, hm]⟩

theorem imagesResolve_of_send {evs : List Event} {wire : List Value}
    (h : B.resolveImages messages a = (evs, .send wire)) : B.ImagesResolve messages a := by
  unfold resolveImages at h
  by_cases hk : collectImageRefKeys messages = []
  · exact Or.inl hk
  by_cases hr : B.convOpts.imageRefResolver = true
  · simp only [if_neg hk, if_pos hr] at h
    cases hres : a.resolved with
    | thrown => rw [hres] at h; cases (Prod.mk.inj h).2
    | failed e => rw [hres] at h; cases (Prod.mk.inj h).2
    | urls m =>
      rw [hres] at h
      dsimp only at h
      split_ifs at h with hm
      · refine Or.inr ⟨hr, m, hres, fun k hk => ?_⟩
        have := List.filter_eq_nil_iff.mp hm k hk
        simpa [Option.isSome_iff_ne_none] using this
      · cases (Prod.mk.inj h).2
  · simp only [if_neg hk, if_neg hr] at h
    cases (Prod.mk.inj h).2

theorem posts_of_toolsBuild (h : B.ToolsBuild) (wire : List Value) : ∃ body, B.Posts wire body := by
  unfold Posts requestBody
  split
  · rename_i t ts hp
    obtain ⟨tools, ht⟩ := h t ts hp
    exact ⟨_, by rw [ht]; rfl⟩
  · exact ⟨_, rfl⟩

theorem toolsBuild_of_posts {wire : List Value} {body : Value} (h : B.Posts wire body) : B.ToolsBuild := by
  intro t ts hp
  unfold Posts requestBody at h
  rw [hp] at h
  cases ht : wireTools B.opts.model B.opts.strictTools (t :: ts) with
  | error e => simp [ht, bind, Except.bind] at h
  | ok tools => exact ⟨tools, rfl⟩

/-- An attempt whose request is made and fails. -/
theorem attempt_of_failed (previous : List Value) (onToken : Bool) (hc : a.cancelled = false)
    (hi : B.ImagesResolve messages a) (ht : B.ToolsBuild)
    {e : Status.Error} (hp : a.posted = .failed e) :
    (∀ ks, .missing ks ∉ (B.attempt previous messages onToken a).1) ∧
      (B.attempt previous messages onToken a).2 =
        afterFailure messages a (!(B.accumulated a.frames).2.isEmpty) e := by
  obtain ⟨wire, hw⟩ := resolveImages_of_imagesResolve hi
  obtain ⟨body, hb⟩ := posts_of_toolsBuild ht wire
  have ha : B.attempt previous messages onToken a =
      (B.asks messages ++ (B.post messages wire onToken a).1, (B.post messages wire onToken a).2) := by
    unfold attempt
    rw [if_neg (by simp [hc])]
    simp only [hw]
  refine ⟨fun ks hm => ?_, ?_⟩
  · rw [ha] at hm
    rcases List.mem_append.mp hm with hm | hm
    · exact missing_notMem_asks ks hm
    · exact missing_notMem_post ks hm
  · rw [ha]
    unfold post buildRequestBody
    rw [show requestBody B.codec B.opts.model B.convOpts wire true B.opts.strictTools = .ok body from hb, hp]
    rfl

theorem attempt_of_retried (previous : List Value) (onToken : Bool) (h : B.Retried messages a) :
    (∀ ks, .missing ks ∉ (B.attempt previous messages onToken a).1) ∧
      ∃ e, (B.attempt previous messages onToken a).2 = .again e := by
  obtain ⟨hc, hi, ht, e, hp, hca, hs, hr⟩ := h
  obtain ⟨hm, hn⟩ := attempt_of_failed previous onToken hc hi ht hp
  refine ⟨hm, e, ?_⟩
  have hshow : (B.accumulated a.frames).2 = [] := not_not.mp hs
  rw [hn, afterFailure, if_neg (by simp [hca]), if_neg (by simp [hshow]), if_pos hr]

theorem attempt_of_failsOnWire (previous : List Value) (onToken : Bool) (h : B.FailsOnWire messages a) :
    (∀ ks, .missing ks ∉ (B.attempt previous messages onToken a).1) ∧
      ∃ e, (B.attempt previous messages onToken a).2 = .stop (.failed e) messages := by
  rcases h with hc | ⟨hc, hi, ht, e, hp, hf⟩
  · have ha : B.attempt previous messages onToken a = ([], .stop (.failed cancelledError) messages) := by
      unfold attempt
      rw [if_pos hc]
    rw [ha]
    exact ⟨by simp, _, rfl⟩
  · obtain ⟨hm, hn⟩ := attempt_of_failed previous onToken hc hi ht hp
    refine ⟨hm, ?_⟩
    rw [hn, afterFailure]
    split_ifs with h1 h2 h3
    · exact ⟨_, rfl⟩
    · exact ⟨_, rfl⟩
    · rcases hf with hf | hf | hf
      · exact absurd hf h1
      · exact absurd (by simpa using h2) hf
      · rw [hf] at h3
        cases h3
    · exact ⟨_, rfl⟩

/-- A request that fails either is worth another or ends the call. -/
theorem retried_or_failsOnWire (hc : a.cancelled = false) (hi : B.ImagesResolve messages a) (ht : B.ToolsBuild)
    {e : Status.Error} (hp : a.posted = .failed e) : B.Retried messages a ∨ B.FailsOnWire messages a := by
  by_cases h : a.cancelledAfter = true ∨ B.ShowsText a ∨ isRetryable e = false
  · exact Or.inr (Or.inr ⟨hc, hi, ht, e, hp, h⟩)
  · push Not at h
    exact Or.inl ⟨hc, hi, ht, e, hp, by simpa using h.1, h.2.1, by simpa using h.2.2⟩

theorem record_ne {canonical : String} : ∀ x, B.record messages canonical ≠ .again x ∧
    ∀ ms', B.record messages canonical ≠ .stop (.failed x) ms' := by
  intro x
  unfold record
  split
  · exact ⟨by simp, by simp⟩
  · exact ⟨by simp, by simp⟩
  · exact ⟨by simp, by simp⟩

/-- What the result of an attempt says about it: it was worth another, it
failed on the wire, or it has restored the history. -/
theorem attempt_inv (previous messages : List Value) (onToken : Bool) (a : Attempt) :
    B.Retried messages a ∨ B.FailsOnWire messages a ∨
    (∃ e ks, (B.attempt previous messages onToken a).2 = .stop (.failed e) (markImageRefsExpired previous ks) ∧
      ∀ k ∈ ks, .missing ks ∈ (B.attempt previous messages onToken a).1) ∨
    ∃ o ms', (B.attempt previous messages onToken a).2 = .stop o ms' ∧ ∀ e, o ≠ .failed e := by
  rcases B.attempt_cases previous messages onToken a with ⟨hc, -⟩ | ha | ⟨f, ks, ha, -⟩ | ⟨wire, -, ha, hc, hw⟩
  · exact Or.inr (Or.inl (Or.inl hc))
  · exact Or.inr (Or.inr (Or.inr ⟨.thrown, messages, by rw [ha], by simp⟩))
  · refine Or.inr (Or.inr (Or.inl ⟨f, ks, by rw [ha], fun k hk => ?_⟩))
    rw [ha, missingEvents, if_neg (List.ne_nil_of_mem hk)]
    simp
  · have hi := imagesResolve_of_send hw
    rcases B.post_cases messages wire onToken a with hp | ⟨body, hb, hp | ⟨-, hp⟩ | ⟨f, hf, -⟩⟩
    · exact Or.inr (Or.inr (Or.inr ⟨.thrown, messages, by rw [ha, hp], by simp⟩))
    · exact Or.inr (Or.inr (Or.inr ⟨.thrown, messages, by rw [ha, hp], by simp⟩))
    · right; right; right
      rw [ha, hp]
      cases hr : B.record messages (B.answer a.frames) with
      | stop o ms' => exact ⟨o, ms', rfl, fun e he => (record_ne e).2 ms' (he ▸ hr)⟩
      | again e => exact absurd hr (record_ne e).1
    · rcases retried_or_failsOnWire hc hi (toolsBuild_of_posts hb) hf with h | h
      · exact Or.inl h
      · exact Or.inr (Or.inl h)

/-! ### The call -/

/-- A call that ends on the wire leaves the turn, and reports nothing
missing. -/
theorem retry_of_endsOnWire (previous : List Value) (onToken : Bool) :
    ∀ (n : ℕ) (attempts : ℕ → Attempt) (last : Status.Error),
    B.EndsOnWire messages n attempts →
    (B.retry previous messages onToken n attempts last).messages = messages ∧
    (∃ e, (B.retry previous messages onToken n attempts last).outcome = .failed e) ∧
    ∀ ks, .missing ks ∉ (B.retry previous messages onToken n attempts last).events
  | 0, _, last, _ => ⟨rfl, ⟨last, rfl⟩, by simp [retry]⟩
  | n + 1, attempts, last, ⟨k, hk, hret, hend⟩ => by
    rw [retry]
    cases k with
    | zero =>
      have hf : B.FailsOnWire messages (attempts 0) := hend.resolve_left (by omega)
      obtain ⟨hm, e, he⟩ := attempt_of_failsOnWire previous onToken hf
      rw [he]
      exact ⟨rfl, ⟨e, rfl⟩, hm⟩
    | succ k =>
      obtain ⟨hm, e, he⟩ := attempt_of_retried previous onToken (hret 0 (by omega))
      have hrest : B.EndsOnWire messages n (fun j => attempts (j + 1)) :=
        ⟨k, by omega, fun j hj => hret (j + 1) (by omega), hend.imp_left (by omega)⟩
      obtain ⟨h1, h2, h3⟩ := retry_of_endsOnWire previous onToken n _ e hrest
      rw [he]
      refine ⟨h1, h2, fun ks hks => ?_⟩
      rcases List.mem_append.mp hks with hks | hks
      · exact hm ks hks
      · exact h3 ks hks

/-- A call that returns an error and does not end on the wire has restored
the history. -/
theorem retry_restores : ∀ (n : ℕ) (attempts : ℕ → Attempt) (last e : Status.Error),
    (B.retry previous messages onToken n attempts last).outcome = .failed e →
    ¬ B.EndsOnWire messages n attempts →
    ∃ ks, (∀ k ∈ ks, .missing ks ∈ (B.retry previous messages onToken n attempts last).events) ∧
      (B.retry previous messages onToken n attempts last).messages = markImageRefsExpired previous ks
  | 0, _, _, _, _, hw => absurd ⟨0, le_rfl, by simp, Or.inl rfl⟩ hw
  | n + 1, attempts, last, e, h, hw => by
    rw [retry] at h ⊢
    rcases attempt_inv previous messages onToken (attempts 0) with hr | hf | ⟨f, ks, hs, hm⟩ | ⟨o, ms', hs, ho⟩
    · obtain ⟨-, f, hf⟩ := attempt_of_retried previous onToken hr
      rw [hf] at h ⊢
      have hrest : ¬ B.EndsOnWire messages n (fun j => attempts (j + 1)) := by
        rintro ⟨k, hk, hret, hend⟩
        refine hw ⟨k + 1, by omega, fun j hj => ?_, hend.imp_left (by omega)⟩
        cases j with
        | zero => exact hr
        | succ j => exact hret j (by omega)
      obtain ⟨ks, hks, hms⟩ := retry_restores n _ f e h hrest
      exact ⟨ks, fun k hk => List.mem_append_right _ (hks k hk), hms⟩
    · exact absurd ⟨0, by omega, by simp, Or.inr hf⟩ hw
    · rw [hs]
      exact ⟨ks, hm, rfl⟩
    · rw [hs] at h
      exact absurd h (ho e)

/-- A turn that is appended and repaired is over the limit or is sent. -/
theorem sendAsync_of_repaired {call : Call} {incoming repaired : List Value}
    (hi : toOpenAiMessages B.codec call.messageJson = .ok incoming)
    (hr : repairToolCallPairing (messages ++ incoming) = (repaired, none)) :
    B.sendAsync messages call =
      if 20 < (collectImageRefKeys repaired).length then
        ⟨if collectImageRefKeys incoming ≠ [] then messages else repaired, [],
          .failed ⟨.invalidArgument, "too many images in session (max 20)"⟩⟩
      else
        B.retry messages repaired call.onToken B.opts.maxRetries.toNat call.attempts
          ⟨.unknown, "no attempt made"⟩ := by
  unfold sendAsync
  rw [hi]
  simp only [hr]

/-- A call that reports nothing missing restores the history only by leaving
it as it was. -/
theorem Restores.eq {call : Call} {e : Status.Error} (h : B.Restores messages call)
    (ho : (B.sendAsync messages call).outcome = .failed e)
    (hm : ∀ ks, .missing ks ∉ (B.sendAsync messages call).events) :
    (B.sendAsync messages call).messages = messages := by
  obtain ⟨ks, hks, hms⟩ := h e ho
  have hnil : ks = [] := by
    refine List.eq_nil_iff_forall_not_mem.mpr fun k hk => ?_
    obtain ⟨ks', hmem, -⟩ := hks k hk
    exact hm ks' hmem
  rw [hms, hnil, markImageRefsExpired_nil]

/-- **Which rejected turns enter the history.** A call leaves the history as
it was whenever it returns an error, exactly if it does not lose its turn. -/
theorem restores_iff_not_losesTurn (B : Conversation) (messages : List Value) (call : Call) :
    B.Restores messages call ↔ ¬ B.LosesTurn messages call := by
  constructor
  · rintro h ⟨incoming, repaired, hi, hr, hne, hcase⟩
    have hs := sendAsync_of_repaired hi hr
    rcases hcase with ⟨hlong, hnone⟩ | ⟨hfew, hwire⟩
    · rw [if_pos hlong, if_neg (by simpa using hnone)] at hs
      have heq := h.eq (by rw [hs]) (by rw [hs]; simp)
      rw [hs] at heq
      exact hne heq
    · rw [if_neg (by omega)] at hs
      obtain ⟨hms, ⟨e, he⟩, hm⟩ := retry_of_endsOnWire messages call.onToken B.opts.maxRetries.toNat call.attempts
        ⟨.unknown, "no attempt made"⟩ hwire
      have heq := h.eq (by rw [hs]; exact he) (by rw [hs]; exact hm)
      rw [hs, hms] at heq
      exact hne heq
  · intro h e he
    rcases B.sendAsync_cases messages call with ⟨o, hs, -⟩ | ⟨incoming, repaired, thrown, hi, hr, hs⟩
    · rw [hs]
      exact ⟨[], by simp, (markImageRefsExpired_nil messages).symm⟩
    rcases hs with ⟨-, hs⟩ | ⟨rfl, hlong, f, hs⟩ | ⟨rfl, hfew, hs⟩
    · rw [hs] at he
      cases he
    · rw [hs]
      refine ⟨[], by simp, ?_⟩
      rw [markImageRefsExpired_nil]
      dsimp only
      split_ifs with hk
      · rfl
      · by_contra hne
        exact h ⟨incoming, repaired, hi, hr, hne, Or.inl ⟨hlong, not_not.mp hk⟩⟩
    · by_cases hw : B.EndsOnWire repaired B.opts.maxRetries.toNat call.attempts
      · have heq : repaired = messages := by
          by_contra hne
          exact h ⟨incoming, repaired, hi, hr, hne, Or.inr ⟨hfew, hw⟩⟩
        refine ⟨[], by simp, ?_⟩
        rw [hs, markImageRefsExpired_nil, (retry_of_endsOnWire _ _ _ _ _ hw).1, heq]
      · rw [hs] at he ⊢
        obtain ⟨ks, hks, hms⟩ := retry_restores _ _ _ e he hw
        exact ⟨ks, fun k hk => ⟨ks, hks k hk, hk⟩, hms⟩

/-- A turn that the endpoint refuses stays in the history. -/
def refusedCall : Call := ⟨helloText, false, fun _ => refused⟩

theorem not_restores_refused :
    (helloConversation.sendAsync [] refusedCall).outcome = .failed ⟨.invalidArgument, "bad request"⟩ ∧
    (helloConversation.sendAsync [] refusedCall).messages =
      [.object [("role", .str "user"), ("content", .str "hello")]] ∧
    ¬ helloConversation.Restores [] refusedCall := by
  have ho : (helloConversation.sendAsync [] refusedCall).outcome = .failed ⟨.invalidArgument, "bad request"⟩ := by
    decide +kernel
  have hm : (helloConversation.sendAsync [] refusedCall).messages =
      [.object [("role", .str "user"), ("content", .str "hello")]] := by decide +kernel
  refine ⟨ho, hm, fun h => ?_⟩
  obtain ⟨ks, -, hks⟩ := h _ ho
  rw [hm] at hks
  simp [markImageRefsExpired] at hks

end Conversation

end AgentFlow.Openai
