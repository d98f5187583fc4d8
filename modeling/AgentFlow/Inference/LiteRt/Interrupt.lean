/-
# Cancelling a turn

A cancelled conversation closes its channel of chunks, and an error of the
engine does too. A call that waits for a chunk, or that comes for the next
one when the channel has run dry, then finds it closed, which is an exception
to `NextTokenAsync` and an internal error to `SendAsync`. So what a call
returns is OK or cancelled as long as the channel is closed on no call that
has the slot and whose end of turn is still to come (`Orderly`).

`awaited` is what `NextTokenAsync` will return or throw as things stand; the
invariant is that a call which has the slot does not come to an exception
before the end of its turn (`Calm`).

Key definitions: `Result.OkOrCancelled`, `Conversation.awaited`, `fails`,
`ends`, `Conversation.Orderly`, `Conversation.Calm`.
Key theorems: `Conversation.calm_step`, `Conversation.calm`.
-/
import AgentFlow.Inference.LiteRt.Delivery

namespace AgentFlow.LiteRt

open Json

/-- A status that stopping a turn may lead to. -/
def Result.OkOrCancelled : Result → Prop
  | .ok _ => True
  | .error e => e.code = .cancelled
  | .thrown => False

/-- An exception comes, before the end of the turn. -/
def fails : List (Option String) → Bool
  | [] => false
  | none :: _ => true
  | some tok :: rest => tok ≠ "" && fails rest

/-- The end of the turn comes, before an exception. -/
def ends : List (Option String) → Bool
  | [] => false
  | none :: _ => false
  | some tok :: rest => tok = "" || ends rest

theorem fails_append_of_ends (xs : List (Option String)) :
    ∀ l : List (Option String), ends l = true → fails (l ++ xs) = false
  | [], h => by cases h
  | none :: _, h => by cases h
  | some tok :: rest, h => by
    by_cases ht : tok = ""
    · simp [fails, ht]
    · have hrest : ends rest = true := by simpa [ends, ht] using h
      simp [fails, fails_append_of_ends xs rest hrest]

theorem fails_append_some (tok : String) : ∀ l : List (Option String), fails (l ++ [some tok]) = fails l
  | [] => by simp [fails]
  | none :: _ => rfl
  | some t :: rest => by simp [fails, fails_append_some tok rest]

namespace Conversation

/-- What the next calls of `NextTokenAsync` return or throw. -/
def awaited (c : Conversation) : List (Option String) :=
  c.completed.toList.map nextToken ++ c.channel.buffer.map (fun m => nextToken (.value m)) ++
    if c.channel.closed then [none] else []

instance (c : Conversation) : Decidable c.Awake :=
  match h : c.call with
  | none => isFalse fun ⟨_, hc, _⟩ => by rw [h] at hc; cases hc
  | some pc => decidable_of_iff (pc.holdsSlot = true) ⟨fun hp => ⟨pc, h, hp⟩, fun ⟨pc', hc, hp⟩ => by
      rw [h, Option.some.injEq] at hc
      rwa [hc]⟩

/-- The channel is closed on no call that still waits for the end of its
turn, a call that gets the slot finds it open, and neither the engine's
answer at once nor the sink fails. -/
def Orderly (B : Settings) (c : Conversation) : Choice → Prop
  | .slot (.value ()) started response =>
    if Pc.streams B then
      if started || c.cancelled then fails c.awaited = false else ends c.awaited = true
    else response.isSome
  | .handle => c.posted.head? = some .error → c.Awake → ends c.awaited = true
  | .close => c.Awake → ends c.awaited = true
  | .sunk threw => threw = false
  | .slot .closed _ _ | .slot .aborted _ _ | .call _ | .callback _ | .resume | .abort | .mark => True

/-! ### The channel and its receiver -/

/-- A receive is under way or completed while the call waits for a chunk, and
at no other time. -/
structure Seated (c : Conversation) : Prop where
  wf : c.channel.WF channelCapacity
  token : ∀ acc, c.call = some (.token acc) → c.Expecting
  other : (∀ acc, c.call ≠ some (.token acc)) → c.Unexpecting

theorem Seated.seat {c : Conversation} (h : c.Seated) : c.Expecting ∨ c.Unexpecting := by
  by_cases ht : ∃ acc, c.call = some (.token acc)
  · obtain ⟨acc, hc⟩ := ht
    exact Or.inl (h.token acc hc)
  · exact Or.inr (h.other fun acc hc => ht ⟨acc, hc⟩)

theorem seated_fresh : fresh.Seated :=
  ⟨Chan.wf_empty, fun _ hc => absurd hc (by simp [fresh]), fun _ => ⟨rfl, rfl⟩⟩

/-- A receiver that waits has nothing else to go on with. -/
theorem Seated.waits {c : Conversation} (h : c.Seated) {r : Unit} {rs : List Unit} (hw : c.channel.waiting = r :: rs) :
    c.completed = none ∧ rs = [] ∧ c.channel.buffer = [] ∧ c.channel.closed = false := by
  have hb : c.channel.buffer = [] := h.wf.served.resolve_left (by simp [hw])
  have hc : c.channel.closed = false := by
    by_contra hcl
    have hnil := h.wf.ended (by simpa using hcl)
    rw [hw] at hnil
    cases hnil
  rcases h.seat with (⟨hn, hw'⟩ | ⟨-, hw'⟩) | ⟨-, hw'⟩
  · rw [hw'] at hw
    exact ⟨hn, (List.cons.inj hw).2.symm, hb, hc⟩
  · rw [hw'] at hw
    cases hw
  · rw [hw'] at hw
    cases hw

/-- A change of the channel that leaves the call where it is. -/
theorem Seated.of_call {c c' : Conversation} (h : c.Seated) (hcall : c'.call = c.call)
    (hwf : c'.channel.WF channelCapacity) (hexp : c.Expecting → c'.Expecting) (hunexp : c.Unexpecting → c'.Unexpecting) :
    c'.Seated :=
  ⟨hwf, fun acc hc => hexp (h.token acc (hcall ▸ hc)), fun hc => hunexp (h.other fun acc => hcall ▸ hc acc)⟩

/-- A message is the last that is awaited, or it is dropped. -/
theorem Seated.trySend {c : Conversation} (h : c.Seated) (m : Message) :
    (c.trySend m).Seated ∧ (c.trySend m).call = c.call ∧
      ((c.trySend m).awaited = c.awaited ∨ (c.trySend m).awaited = c.awaited ++ [nextToken (.value m)]) := by
  have hwf := h.wf.trySend m
  unfold Conversation.trySend
  rcases Chan.trySend_cases channelCapacity m c.channel with ⟨-, he⟩ | ⟨r, rs, -, hw, he⟩ | ⟨hc, -, -, he⟩
  · rw [he]
    exact ⟨h, rfl, Or.inl rfl⟩
  · obtain ⟨hn, rfl, hb, hc⟩ := h.waits hw
    rw [he] at hwf ⊢
    refine ⟨h.of_call rfl hwf (fun _ => Or.inr ⟨rfl, rfl⟩) (fun hu => ?_), rfl, Or.inr ?_⟩
    · rw [hu.2] at hw
      cases hw
    · simp [awaited, hn, hb, hc]
  · rw [he] at hwf ⊢
    exact ⟨h.of_call rfl hwf id id, rfl, Or.inr (by simp [awaited, hc])⟩

theorem Seated.close {c : Conversation} (h : c.Seated) :
    c.close.Seated ∧ c.close.call = c.call ∧ ∃ xs, c.close.awaited = c.awaited ++ xs := by
  have hwf := h.wf.close
  unfold Conversation.close
  cases hw : c.channel.waiting with
  | nil =>
    simp only [Chan.close, hw] at hwf ⊢
    refine ⟨h.of_call rfl hwf (fun he => ?_) (fun hu => ⟨hu.1, rfl⟩), trivial, ?_⟩
    · rcases he with ⟨-, hw'⟩ | ⟨hs, -⟩
      · rw [hw] at hw'
        cases hw'
      · exact Or.inr ⟨hs, rfl⟩
    · cases hc : c.channel.closed with
      | true => exact ⟨[], by simp [awaited, hc]⟩
      | false => exact ⟨[none], by simp [awaited, hc]⟩
  | cons r rs =>
    obtain ⟨hn, rfl, hb, hc⟩ := h.waits hw
    simp only [Chan.close, hw] at hwf ⊢
    refine ⟨h.of_call rfl hwf (fun _ => Or.inr ⟨rfl, rfl⟩) (fun hu => ?_), trivial, [none, none], ?_⟩
    · rw [hu.2] at hw
      cases hw
    · simp [awaited, hn, hb, hc, nextToken]

/-- The call goes on, from where it waits for nothing. -/
theorem Seated.goOn {c : Conversation} (hwf : c.channel.WF channelCapacity) (hw : c.channel.waiting = []) (pc : Pc) :
    (c.goOn pc).Seated ∧ (c.goOn pc).call = some pc ∧
      fails (c.goOn pc).awaited = fails ({ c with completed := none } : Conversation).awaited := by
  have hother : (∀ acc, pc ≠ .token acc) → (c.goOn pc) = { c with completed := none, call := some pc } := by
    intro hpc
    cases pc with
    | token acc => exact absurd rfl (hpc acc)
    | _ => rfl
  by_cases hpc : ∃ acc, pc = .token acc
  · obtain ⟨acc, rfl⟩ := hpc
    have hwf' := hwf.receive ()
    simp only [Conversation.goOn]
    rcases Chan.receive_cases () c.channel with ⟨m, ms, hb, he⟩ | ⟨hb, hc, he⟩ | ⟨hb, hc, he⟩
    · rw [he] at hwf' ⊢
      exact ⟨⟨hwf', fun _ _ => Or.inr ⟨rfl, hw⟩, fun hne => absurd rfl (hne acc)⟩, trivial, by simp [awaited, hb]⟩
    · rw [he] at hwf' ⊢
      exact ⟨⟨hwf', fun _ _ => Or.inr ⟨rfl, hw⟩, fun hne => absurd rfl (hne acc)⟩, trivial,
        by simp [awaited, hb, hc, nextToken, fails]⟩
    · rw [he] at hwf' ⊢
      refine ⟨⟨hwf', fun _ _ => Or.inl ⟨rfl, ?_⟩, fun hne => absurd rfl (hne acc)⟩, trivial, by simp [awaited, hb]⟩
      simp [hw]
  · rw [hother fun acc he => hpc ⟨acc, he⟩]
    refine ⟨⟨hwf, fun acc hc => absurd ⟨acc, Option.some.inj hc⟩ hpc, fun _ => ⟨rfl, hw⟩⟩, rfl, rfl⟩

/-! ### The invariant -/

/-- A call that has the slot comes to no exception before the end of its
turn, and what a call returned is OK or cancelled. -/
structure Calm (c : Conversation) : Prop where
  seated : c.Seated
  flowing : c.Awake → fails c.awaited = false
  returned : ∀ r, c.call = some (.returned r) → r.OkOrCancelled

variable {B : Settings} {c c' : Conversation}

theorem calm_fresh : fresh.Calm :=
  ⟨seated_fresh, fun ⟨_, hc, _⟩ => absurd hc (by simp [fresh]), fun _ hc => absurd hc (by simp [fresh])⟩

theorem Awake.congr (h : c.call = c'.call) : c.Awake ↔ c'.Awake := by
  unfold Awake
  rw [h]

/-- Something happens to the channel while the call stays where it is. -/
theorem Calm.of_call (h : c.Calm) (hseated : c'.Seated) (hcall : c'.call = c.call)
    (hf : c.Awake → fails c.awaited = false → fails c'.awaited = false) : c'.Calm := by
  refine ⟨hseated, fun hawake => ?_, fun r hr => h.returned r (hcall ▸ hr)⟩
  have hc := (Awake.congr hcall).mp hawake
  exact hf hc (h.flowing hc)

/-- The call goes on to a place that is not an error. -/
theorem Calm.goOn (hwf : c.channel.WF channelCapacity) (hw : c.channel.waiting = []) (pc : Pc)
    (hf : pc.holdsSlot → fails ({ c with completed := none } : Conversation).awaited = false)
    (hr : ∀ r, pc = .returned r → r.OkOrCancelled) : (c.goOn pc).Calm := by
  obtain ⟨hseated, hcall, hfails⟩ := Seated.goOn hwf hw pc
  refine ⟨hseated, fun hawake => ?_, fun r hc => ?_⟩
  · obtain ⟨pc', hc, hp⟩ := hawake
    rw [hcall, Option.some.injEq] at hc
    subst hc
    rw [hfails]
    exact hf hp
  · rw [hcall, Option.some.injEq] at hc
    exact hr r hc

theorem calm_call (h : c.Calm) (hidle : c.idle) (fired : Bool) : (c.startCall fired).Calm := by
  obtain ⟨c₁, hc₁, hs⟩ : ∃ c₁ : Conversation,
      (if !c.hooked && fired then close { c with cancelled := true } else c) = c₁ ∧ c₁.Seated ∧ c₁.Unexpecting := by
    have hu : c.Unexpecting := h.seated.other fun acc hc => by simp [idle, hc] at hidle
    have hseated : ({ c with cancelled := true } : Conversation).Seated := ⟨h.seated.wf, h.seated.token, h.seated.other⟩
    refine ⟨_, rfl, ?_⟩
    split_ifs
    · refine ⟨hseated.close.1, hseated.close.1.other fun acc hc => ?_⟩
      have hcall : c.call = some (.token acc) := hseated.close.2.1.symm.trans hc
      simp [idle, hcall] at hidle
    · exact ⟨h.seated, hu⟩
  have hstart : c.startCall fired =
      { c₁ with hooked := true, call := some (Pc.begin fired), completed := none, called := [], yielded := [] } := by
    simp only [startCall, hc₁]
  rw [hstart]
  obtain ⟨hseated, -, hw⟩ := hs
  refine ⟨⟨hseated.wf, fun acc hc => ?_, fun _ => ⟨rfl, hw⟩⟩, fun hawake => ?_, fun r hr => ?_⟩
  · cases fired <;> simp [Pc.begin] at hc
  · obtain ⟨pc, hc, hp⟩ := hawake
    cases fired with
    | true =>
      obtain rfl : pc = .returned (.error cancelledError) := by simpa [Pc.begin, eq_comm] using hc
      cases hp
    | false =>
      obtain rfl : pc = .slot := by simpa [Pc.begin, eq_comm] using hc
      cases hp
  · cases fired with
    | true =>
      obtain rfl : r = .error cancelledError := by simpa [Pc.begin, eq_comm] using hr
      rfl
    | false => simp [Pc.begin] at hr

/-- An error is the last message, and the channel is closed. -/
theorem Seated.fail (h : c.Seated) :
    (c.trySend (.error ())).close.Seated ∧ (c.trySend (.error ())).close.call = c.call ∧
      ∃ xs, (c.trySend (.error ())).close.awaited = c.awaited ++ xs := by
  obtain ⟨hs, hcall, ha⟩ := h.trySend (.error ())
  obtain ⟨hs', hcall', xs, ha'⟩ := hs.close
  refine ⟨hs', hcall'.trans hcall, ?_⟩
  rcases ha with ha | ha
  · exact ⟨xs, by rw [ha', ha]⟩
  · exact ⟨_, by rw [ha', ha, List.append_assoc]⟩

theorem Unexpecting.awaited (h : c.Unexpecting) :
    ({ c with completed := none } : Conversation).awaited = c.awaited := by
  simp [Conversation.awaited, h.1]

/-- The turn starts, or cannot. -/
theorem Seated.sendMessage (h : c.Seated) (hc : c.call = some .slot) {started : Bool}
    (ho : if started || c.cancelled then fails c.awaited = false else ends c.awaited = true) :
    (c.sendMessage started).Seated ∧ (c.sendMessage started).call = some .slot ∧
      fails (c.sendMessage started).awaited = false := by
  have hs : ({ c with accum := "" } : Conversation).Seated := ⟨h.wf, h.token, h.other⟩
  unfold Conversation.sendMessage
  by_cases hcn : c.cancelled
  · rw [if_pos hcn]
    rw [if_pos (by simp [hcn])] at ho
    exact ⟨h, hc, ho⟩
  · rw [if_neg hcn]
    cases started with
    | true =>
      rw [if_pos (by simp)] at ho ⊢
      exact ⟨⟨h.wf, h.token, h.other⟩, hc, ho⟩
    | false =>
      rw [if_neg (by simpa using hcn)] at ho
      rw [if_neg (by simp)]
      obtain ⟨hs', hcall, xs, ha⟩ := hs.fail
      refine ⟨hs', hcall.trans hc, ?_⟩
      rw [ha]
      exact fails_append_of_ends xs _ ho

theorem calm_slot (h : c.Calm) (hc : c.call = some .slot) {r : Completion Unit} {started : Bool}
    {response : Option String} (ho : c.Orderly B (.slot r started response)) :
    (c.slotDone B started response r).Calm := by
  have hu : c.Unexpecting := h.seated.other fun acc hc' => by simp [hc] at hc'
  have hcancelled : ∀ r, (.returned (.error cancelledError) : Pc) = .returned r → r.OkOrCancelled := by
    intro r hr
    cases hr
    rfl
  cases r with
  | closed => exact Calm.goOn h.seated.wf hu.2 (.returned (.error cancelledError)) (fun hp => by cases hp) hcancelled
  | aborted => exact Calm.goOn h.seated.wf hu.2 (.returned (.error cancelledError)) (fun hp => by cases hp) hcancelled
  | value u =>
    simp only [Orderly] at ho
    by_cases hB : Pc.streams B
    · rw [if_pos hB] at ho
      obtain ⟨hs, hcall, hf⟩ := h.seated.sendMessage hc ho
      have hu' := hs.other fun acc hc' => by simp [hcall] at hc'
      have hdone : c.slotDone B started response (.value u) = (c.sendMessage started).goOn (.token {}) := by
        simp [slotDone, Pc.slotDone, hB]
      rw [hdone]
      exact Calm.goOn hs.wf hu'.2 (.token {}) (fun _ => (congrArg fails hu'.awaited).trans hf) (fun r hr => by cases hr)
    · rw [if_neg hB] at ho
      obtain ⟨json, rfl⟩ := Option.isSome_iff_exists.mp ho
      have hdone : c.slotDone B started (some json) (.value u) =
          ({ c with accum := json } : Conversation).goOn (.returned (.ok (decodeSpecialTokens json B.specialTokens))) := by
        simp [slotDone, Pc.slotDone, hB, Pc.sendSync, Pc.sendMessageSync]
      rw [hdone]
      refine Calm.goOn (c := { c with accum := json }) h.seated.wf hu.2 (.returned _) (fun hp => by cases hp) fun r hr => ?_
      cases hr
      exact trivial

/-- A handler runs; an error closes the channel. -/
theorem calm_handle (h : c.Calm) {g : Handler} {posted : List Handler} (hp : c.posted = g :: posted)
    (ho : c.Orderly B .handle) : (({ c with posted } : Conversation).handle g).Calm := by
  have hs : ({ c with posted } : Conversation).Seated := ⟨h.seated.wf, h.seated.token, h.seated.other⟩
  have hsend : ∀ {d : Conversation}, d.Seated → ∀ tok, (d.trySend (.ok tok)).Seated ∧
      (d.trySend (.ok tok)).call = d.call ∧ fails (d.trySend (.ok tok)).awaited = fails d.awaited := by
    intro d hd tok
    obtain ⟨hs', hcall, ha⟩ := hd.trySend (.ok tok)
    refine ⟨hs', hcall, ?_⟩
    rcases ha with ha | ha
    · rw [ha]
    · rw [ha]
      exact fails_append_some tok _
  cases g with
  | error =>
    obtain ⟨hs', hcall, xs, ha⟩ := hs.fail
    refine h.of_call hs' hcall fun hawake _ => ?_
    have hends : ends ({ c with posted } : Conversation).awaited = true := ho (by simp [hp]) hawake
    exact (congrArg fails ha).trans (fails_append_of_ends xs _ hends)
  | chunk text isFinal =>
    obtain ⟨c₁, hc₁, hs₁, hcall₁, hf₁⟩ : ∃ c₁ : Conversation,
        (if text = "" then ({ c with posted } : Conversation) else
          ({ c with posted, accum := c.accum ++ text } : Conversation).trySend (.ok text)) = c₁ ∧
        c₁.Seated ∧ c₁.call = c.call ∧ fails c₁.awaited = fails c.awaited := by
      refine ⟨_, rfl, ?_⟩
      split_ifs
      · exact ⟨hs, rfl, rfl⟩
      · exact hsend (d := { c with posted, accum := c.accum ++ text })
          ⟨h.seated.wf, h.seated.token, h.seated.other⟩ text
    have hhandle : ({ c with posted } : Conversation).handle (.chunk text isFinal) =
        if isFinal then c₁.trySend (.ok "") else c₁ := by
      rw [← hc₁]
      rfl
    rw [hhandle]
    cases isFinal with
    | false => exact h.of_call hs₁ hcall₁ fun _ hf => hf₁.trans hf
    | true =>
      obtain ⟨hs₂, hcall₂, hf₂⟩ := hsend hs₁ ""
      exact h.of_call hs₂ (hcall₂.trans hcall₁) fun _ hf => hf₂.trans (hf₁.trans hf)

/-- The call goes on with the chunk it waited for, which is no exception. -/
theorem calm_resume (h : c.Calm) {acc : LiteRtStreamAssembler} {r : Completion Message}
    (hc : c.call = some (.token acc)) (hr : c.completed = some r) : (c.tokenDone B acc r).Calm := by
  have hw : c.channel.waiting = [] := by
    rcases h.seated.token acc hc with ⟨hn, -⟩ | ⟨-, hw⟩
    · rw [hr] at hn
      cases hn
    · exact hw
  have hf := h.flowing ⟨_, hc, rfl⟩
  have haw : c.awaited = nextToken r :: ({ c with completed := none } : Conversation).awaited := by
    simp [awaited, hr]
  rw [haw] at hf
  unfold tokenDone
  cases hn : nextToken r with
  | none =>
    rw [hn] at hf
    cases hf
  | some chunk =>
    rw [hn] at hf
    by_cases ht : chunk = ""
    · have hpc : Pc.tokenDone B acc (some chunk) =
          .returned (.ok (decodeSpecialTokens (acc.canonical B.codec) B.specialTokens)) := by simp [Pc.tokenDone, ht]
      rw [hpc]
      refine Calm.goOn (c := { c with yielded := c.yielded ++ [chunk] }) h.seated.wf hw (.returned _)
        (fun hp => by cases hp) fun r hr' => ?_
      cases hr'
      exact trivial
    · refine Calm.goOn (c := { c with yielded := c.yielded ++ [chunk] }) h.seated.wf hw _ (fun _ => ?_) fun r hr' => ?_
      · have hrest : fails ({ c with completed := none } : Conversation).awaited = false := by simpa [fails, ht] using hf
        exact hrest
      · simp only [Pc.tokenDone, ht, if_false] at hr'
        cases hd : List.drop acc.deltas.length (acc.feed B.codec chunk).deltas <;> simp [Pc.forward, hd] at hr'

theorem calm_sunk (h : c.Calm) {acc : LiteRtStreamAssembler} {delta : String} {rest : List String}
    (hc : c.call = some (.sink acc delta rest)) : (c.goOn (Pc.sinkDone acc rest false)).Calm := by
  have hu : c.Unexpecting := h.seated.other fun acc' hc' => by simp [hc] at hc'
  refine Calm.goOn h.seated.wf hu.2 _ (fun _ => hu.awaited ▸ h.flowing ⟨_, hc, rfl⟩) fun r hr => ?_
  cases rest <;> simp [Pc.sinkDone, Pc.forward] at hr

theorem calm_abort (h : c.Calm) (hw : c.channel.waiting ≠ []) :
    ({ c with channel := c.channel.abort (), completed := some .aborted } : Conversation).Calm := by
  obtain ⟨r, rs, hw⟩ := List.exists_cons_of_ne_nil hw
  obtain ⟨-, rfl, hb, hcl⟩ := h.seated.waits hw
  have hnil : (c.channel.abort ()).waiting = [] := by simp [Chan.abort, hw]
  refine h.of_call (h.seated.of_call rfl (h.seated.wf.abort ()) (fun _ => Or.inr ⟨rfl, hnil⟩) fun hu => ?_) rfl
    fun _ _ => ?_
  · rw [hu.2] at hw
    cases hw
  · simp [awaited, nextToken, fails]

theorem calm_step {choice : Choice} (h : c.Calm) (ho : c.Orderly B choice) (hs : step B choice c = some c') :
    c'.Calm := by
  cases choice with
  | call fired =>
    simp only [step] at hs
    split_ifs at hs with hidle
    cases hs
    exact calm_call h hidle fired
  | slot r started response =>
    simp only [step] at hs
    split at hs
    · next hc =>
      cases hs
      exact calm_slot h hc ho
    · cases hs
  | callback g =>
    simp only [step] at hs
    split_ifs at hs
    cases hs
    exact h.of_call ⟨h.seated.wf, h.seated.token, h.seated.other⟩ rfl fun _ hf => hf
  | handle =>
    simp only [step] at hs
    split at hs
    · cases hs
    · next g posted hp =>
      cases hs
      exact calm_handle h hp ho
  | resume =>
    simp only [step] at hs
    split at hs
    · next acc r hc hr =>
      cases hs
      exact calm_resume h hc hr
    · cases hs
  | sunk threw =>
    obtain rfl : threw = false := ho
    simp only [step] at hs
    split at hs
    · next acc delta rest hc =>
      cases hs
      exact calm_sunk h hc
    · cases hs
  | abort =>
    simp only [step] at hs
    split_ifs at hs with hw
    cases hs
    exact calm_abort h hw
  | mark =>
    simp only [step] at hs
    cases hs
    exact h.of_call ⟨h.seated.wf, h.seated.token, h.seated.other⟩ rfl fun _ hf => hf
  | close =>
    simp only [step] at hs
    cases hs
    obtain ⟨hseated, hcall, xs, ha⟩ := h.seated.close
    refine h.of_call hseated hcall fun hawake _ => ?_
    rw [ha]
    exact fails_append_of_ends xs _ (ho hawake)

theorem calm {choices : List Choice} (h : Stepping.Run (step B) (Orderly B) fresh choices c) : c.Calm :=
  h.invariant (fun _ _ _ hx hok hs => calm_step hx hok hs) calm_fresh

/-- A call on a closed channel is not left waiting for a chunk: it goes on
until it has returned. -/
theorem Calm.not_waiting (h : c.Calm) (hclosed : c.channel.closed = true) (hrest : c.AtRest B) : ¬ c.Awake := by
  rintro ⟨pc, hc, hp⟩
  cases pc with
  | slot => cases hp
  | returned r => cases hp
  | sink acc delta rest =>
    have hsunk := hrest (.sunk false) trivial
    simp [step, hc] at hsunk
  | token acc =>
    rcases h.seated.token acc hc with ⟨-, hw⟩ | ⟨hsome, -⟩
    · rw [h.seated.wf.ended hclosed] at hw
      cases hw
    · obtain ⟨r, hr⟩ := Option.isSome_iff_exists.mp hsome
      have hresume := hrest .resume trivial
      simp [step, hc, hr] at hresume

end Conversation

end AgentFlow.LiteRt
