/-
# The order of forwarded deltas

What the sub-agent of a `delegate` call has streamed is on the run-wide stream
or ahead of it, in order, and the sentinel comes after it (`Carried`); the
forwarding coroutine and the consumer, left alone, soon have nothing to do, and
then it is all on the stream. That the parent's deltas come after it holds in
the runs in which the parent streams when nothing but the sentinel is left to
forward, and in no others (`delivered_iff_careful`).

Key definitions: `Forwarding.Carried`, `Forwarding.Careful`, `Forwarding.Delivered`.
Key theorems: `Forwarding.Carried.step`, `Forwarding.Wired.settled`,
`Forwarding.delivered_iff_careful`, `Forwarding.not_delivered_slow`.
-/
import AgentFlow.Workflow.TokenForwarding

namespace AgentFlow.Workflow

open Stepping

namespace Forwarding

/-! ### What has been streamed -/

theorem subTexts_append (l l' : List Delta) : subTexts (l ++ l') = subTexts l ++ subTexts l' := by
  rw [subTexts, List.filter_append, List.map_append]
  rfl

/-- The first empty text is the sentinel, when no delta is empty. -/
theorem eq_of_sentinel {l r m t : List String} (hm : ∀ u ∈ m, u ≠ "") (ht : t = [] ∨ t = [""])
    (h : l ++ "" :: r = m ++ t) : l = m ∧ r = [] ∧ t = [""] := by
  rcases ht with rfl | rfl
  · have hmem : "" ∈ m := by
      rw [List.append_nil] at h
      rw [← h]
      simp
    exact absurd rfl (hm "" hmem)
  · obtain ⟨h1, -, h3⟩ := (List.append_cons_inj_of_notMem (fun hu => hm "" hu rfl) (by simp)).mp h.symm
    exact ⟨h1.symm, h3.symm, rfl⟩

/-- What the sub-agent has streamed is on the stream or ahead of it, in order,
and the sentinel comes after all of it. -/
structure Carried (x : Forwarding) : Prop where
  nonempty : ∀ t ∈ x.emitted, t ≠ ""
  sent : ∀ t ∈ subTexts x.stream, t ≠ ""
  flow : x.drain ≠ .ended → subTexts x.stream ++ x.ahead = x.emitted ++ if x.call.finished then [""] else []
  ended : x.drain = .ended → subTexts x.stream = x.emitted ∧ x.call.finished = true ∧ x.ahead = []
  /-- The parent goes on when the call has returned. -/
  parents : x.call.finished = false → ∀ d ∈ x.stream, d.streamer ≠ .parent

/-- What the parent streams comes after all that the sub-agent streamed. -/
def Ordered (x : Forwarding) : Prop :=
  ∀ p d q, x.stream = p ++ d :: q → d.streamer = .parent → subTexts p = x.emitted

/-- The delta is not empty. -/
def Choice.nonempty : Choice → Prop
  | .onToken delta => delta ≠ ""
  | _ => True

/-- No delta of the sub-agent is empty, and the parent streams only when
nothing but the sentinel is left to forward. -/
def Careful (x : Forwarding) : Choice → Prop
  | .onToken delta => delta ≠ ""
  | .parentOnToken _ => ∀ t ∈ x.ahead, t = ""
  | _ => True

instance : ∀ c : Choice, Decidable c.nonempty
  | .onToken delta => inferInstanceAs (Decidable (delta ≠ ""))
  | .runAsyncReturns => isTrue trivial
  | .drain => isTrue trivial
  | .parentOnToken _ => isTrue trivial
  | .consume => isTrue trivial

instance (x : Forwarding) : ∀ c : Choice, Decidable (Careful x c)
  | .onToken delta => inferInstanceAs (Decidable (delta ≠ ""))
  | .runAsyncReturns => isTrue trivial
  | .drain => isTrue trivial
  | .parentOnToken _ => inferInstanceAs (Decidable (∀ t ∈ x.ahead, t = ""))
  | .consume => isTrue trivial

/-- Delegation output is complete and ordered. -/
structure Delivered (K : ℕ) (x : Forwarding) : Prop where
  /-- The sub-agent's deltas on the stream are its first, each once and in order. -/
  inOrder : subTexts x.stream <+: x.emitted
  /-- They precede those of the parent. -/
  before : Ordered x
  /-- They are all there when the forwarding coroutine and the consumer have nothing left to do, -/
  settled : step K .drain x = none → step K .consume x = none → subTexts x.stream = x.emitted
  /-- and that they soon have. -/
  soon : ∀ cs z, Run (step K) (fun _ c => c = .drain ∨ c = .consume) x cs z → cs.length ≤ x.work

variable {K : ℕ} {x y : Forwarding} {c : Choice}

theorem subTexts_start (older : List String) : subTexts (start older).stream = [] := by
  have hnone : ((start older).stream.filter fun d => d.streamer = .subAgent) = [] := by
    rw [List.filter_eq_nil_iff]
    intro d hd
    obtain ⟨t, -, rfl⟩ : ∃ t ∈ older, Delta.mk .earlier t = d := by simpa [stream, start, Pipe.contents] using hd
    simp
  rw [subTexts, hnone]
  rfl

namespace Carried

theorem start (older : List String) : Carried (start older) where
  nonempty t ht := by cases ht
  sent t ht := by
    rw [subTexts_start] at ht
    cases ht
  flow _ := by
    rw [subTexts_start]
    rfl
  ended h := by cases h
  parents _ d hd := by
    obtain ⟨t, -, rfl⟩ : ∃ t ∈ older, Delta.mk .earlier t = d := by
      simpa [stream, Forwarding.start, Pipe.contents] using hd
    simp

theorem tail_cases (b : Bool) : (if b then [""] else []) = ([] : List String) ∨ (if b then [""] else []) = [""] := by
  cases b <;> simp

/-- While `RunAsync` goes on so does the forwarding coroutine. -/
theorem not_ended (h : Carried x) (hf : x.call.finished = false) : x.drain ≠ .ended := fun hd => by
  rw [(h.ended hd).2.1] at hf
  cases hf

theorem step (h : Carried x) (hf : Flows c x y) (hc : c.nonempty) : Carried y := by
  cases hf with
  | @emit _ _ d ho ho' hs ha he hd =>
    have hflow := h.flow (h.not_ended ho)
    rw [ho] at hflow
    refine ⟨fun t ht => ?_, fun t ht => h.sent t (hs ▸ ht), fun _ => ?_, fun hd' => ?_, fun _ => hs ▸ h.parents ho⟩
    · rw [he, List.mem_append, List.mem_singleton] at ht
      rcases ht with ht | rfl
      · exact h.nonempty t ht
      · exact hc
    · rw [hs, ha, ho', he, ← List.append_assoc, hflow]
      simp
    · exact absurd (hd.mp hd') (h.not_ended ho)
  | close ho ho' hs ha he hd =>
    have hflow := h.flow (h.not_ended ho)
    rw [ho] at hflow
    refine ⟨fun t ht => h.nonempty t (he ▸ ht), fun t ht => h.sent t (hs ▸ ht), fun _ => ?_, fun hd' => ?_, fun hf => ?_⟩
    · rw [hs, ha, ho', he, ← List.append_assoc, hflow]
      simp
    · exact absurd (hd.mp hd') (h.not_ended ho)
    · rw [ho'] at hf
      cases hf
  | @forward _ _ v hv ho hs ha he hd hd' =>
    have hsub : subTexts y.stream = subTexts x.stream ++ [v] := by
      rw [hs, subTexts_append]
      rfl
    refine ⟨fun t ht => h.nonempty t (he ▸ ht), fun t ht => ?_, fun _ => ?_, fun h' => absurd h' hd', fun hf d hmem => ?_⟩
    · rw [hsub, List.mem_append, List.mem_singleton] at ht
      rcases ht with ht | rfl
      · exact h.sent t ht
      · exact hv
    · rw [hsub, ho, he, ← h.flow hd, ha, List.append_assoc]
      rfl
    · rw [hs, List.mem_append, List.mem_singleton] at hmem
      rcases hmem with hmem | rfl
      · exact h.parents (ho ▸ hf) d hmem
      · simp
  | stop ho hs ha he hd hd' =>
    have hflow := h.flow hd
    rw [ha] at hflow
    obtain ⟨h1, h2, h3⟩ := eq_of_sentinel h.nonempty (tail_cases _) hflow
    have hfin : x.call.finished = true := by
      cases hf : x.call.finished with
      | true => rfl
      | false => simp [hf] at h3
    refine ⟨fun t ht => h.nonempty t (he ▸ ht), fun t ht => h.sent t (hs ▸ ht), fun h' => absurd hd' h',
      fun _ => ⟨by rw [hs, he, h1], ho.trans hfin, h2⟩, fun hf => ?_⟩
    rw [ho, hfin] at hf
    cases hf
  | pass _ ho hs ha he hd =>
    refine ⟨fun t ht => h.nonempty t (he ▸ ht), fun t ht => h.sent t (hs ▸ ht), fun h' => ?_, fun h' => ?_, fun hf => ?_⟩
    · rw [hs, ha, ho, he]
      exact h.flow fun hx => h' (hd.mpr hx)
    · rw [hs, ha, ho, he]
      exact h.ended (hd.mp h')
    · rw [hs]
      exact h.parents (ho ▸ hf)
  | @parent _ _ d ho ho' hs ha he hd =>
    have hsub : subTexts y.stream = subTexts x.stream := by
      rw [hs, subTexts_append]
      exact List.append_nil _
    refine ⟨fun t ht => h.nonempty t (he ▸ ht), fun t ht => h.sent t (hsub ▸ ht), fun h' => ?_, fun h' => ?_, fun hf => ?_⟩
    · rw [hsub, ha, ho'.trans ho.symm, he]
      exact h.flow (hd ▸ h')
    · rw [hsub, ha, ho'.trans ho.symm, he]
      exact h.ended (hd ▸ h')
    · rw [ho'] at hf
      cases hf

theorem inOrder (h : Carried x) : subTexts x.stream <+: x.emitted := by
  by_cases hd : x.drain = .ended
  · rw [(h.ended hd).1]
  · have hpre : subTexts x.stream <+: x.emitted ++ if x.call.finished then [""] else [] :=
      ⟨x.ahead, h.flow hd⟩
    rcases tail_cases x.call.finished with ht | ht <;> rw [ht] at hpre
    · rwa [List.append_nil] at hpre
    · rcases List.prefix_concat_iff.mp hpre with heq | hpre
      · exact absurd rfl (h.sent "" (by rw [heq]; simp))
      · exact hpre

/-- Once the call has returned, all is on the stream when nothing but the sentinel is ahead of it. -/
theorem sent_iff (h : Carried x) (hf : x.call.finished = true) :
    subTexts x.stream = x.emitted ↔ ∀ t ∈ x.ahead, t = "" := by
  by_cases hd : x.drain = .ended
  · obtain ⟨h1, -, h3⟩ := h.ended hd
    simp [h1, h3]
  have hflow := h.flow hd
  rw [hf, if_pos rfl] at hflow
  constructor
  · intro heq
    rw [heq] at hflow
    rw [List.append_cancel_left hflow]
    simp
  · intro hall
    cases ha : x.ahead with
    | nil =>
      rw [ha, List.append_nil] at hflow
      exact absurd rfl (h.sent "" (by rw [hflow]; simp))
    | cons t r =>
      obtain rfl : t = "" := hall t (by rw [ha]; exact List.mem_cons_self)
      rw [ha] at hflow
      exact (eq_of_sentinel h.nonempty (Or.inr rfl) hflow).1

end Carried

/-- The parent's deltas keep their place. -/
theorem Ordered.step (h : Ordered x) (hx : Carried x) (hf : Flows c x y) (hc : Careful x c) : Ordered y := by
  cases hf with
  | emit ho _ hs =>
    intro p d q hp hd
    exact absurd hd (hx.parents ho d (by rw [← hs, hp]; simp))
  | close _ _ hs _ he => rwa [Ordered, hs, he]
  | stop _ hs _ he => rwa [Ordered, hs, he]
  | pass _ _ hs _ he => rwa [Ordered, hs, he]
  | forward _ _ hs _ he =>
    intro p d q hp hd
    rw [hs] at hp
    rcases List.eq_nil_or_concat q with rfl | ⟨q', e, rfl⟩
    · obtain ⟨-, he'⟩ := List.append_inj' hp rfl
      obtain rfl := (List.cons.inj he').1
      cases hd
    · rw [List.concat_eq_append, ← List.cons_append, ← List.append_assoc] at hp
      rw [he]
      exact h p d q' (List.append_inj' hp rfl).1 hd
  | parent ho _ hs _ he =>
    intro p d q hp hd
    rw [hs] at hp
    rcases List.eq_nil_or_concat q with rfl | ⟨q', e, rfl⟩
    · -- the delta that is sent in this step
      rw [he, ← (List.append_inj' hp rfl).1]
      exact (hx.sent_iff ho).mpr hc
    · rw [List.concat_eq_append, ← List.cons_append, ← List.append_assoc] at hp
      rw [he]
      exact h p d q' (List.append_inj' hp rfl).1 hd

/-- What is out of place stays so. -/
theorem Ordered.of_step (h : Ordered y) (hx : Carried x) (hf : Flows c x y) (hc : c.nonempty) :
    Ordered x ∧ Careful x c := by
  have hback : ∀ l, y.stream = x.stream ++ l → y.emitted = x.emitted → Ordered x := by
    intro l hs he p d q hp hd
    rw [← he]
    exact h p d (q ++ l) (by rw [hs, hp, List.append_assoc, List.cons_append]) hd
  cases hf with
  | emit ho =>
    refine ⟨fun p d q hp hd => ?_, hc⟩
    exact absurd hd (hx.parents ho d (by rw [hp]; simp))
  | close _ _ hs _ he => exact ⟨hback [] (by rw [hs, List.append_nil]) he, trivial⟩
  | stop _ hs _ he => exact ⟨hback [] (by rw [hs, List.append_nil]) he, trivial⟩
  | pass hc' _ hs _ he =>
    refine ⟨hback [] (by rw [hs, List.append_nil]) he, ?_⟩
    rcases hc' with rfl | rfl <;> trivial
  | forward _ _ hs _ he => exact ⟨hback _ hs he, trivial⟩
  | parent ho _ hs _ he => exact ⟨hback _ hs he, (hx.sent_iff ho).mp (he ▸ h x.stream _ [] hs rfl)⟩

/-- When the forwarding coroutine and the consumer both wait, or the one has
ended, everything is on the stream. -/
theorem Wired.settled (h : Wired K x) (hx : Carried x) (hd : Forwarding.step K .drain x = none)
    (hc : Forwarding.step K .consume x = none) : subTexts x.stream = x.emitted := by
  have hempty : x.top.contents = [] := by
    have hw := h.consumerWaits
    cases hcw : x.consumerWaiting with
    | true =>
      rw [hcw] at hw
      exact h.top.served.resolve_left (by simp [hw])
    | false =>
      simp only [Forwarding.step, hcw, Bool.false_eq_true, if_false] at hc
      split at hc <;> cases hc
  cases hpc : x.drain with
  | ended => exact (hx.ended hpc).1
  | waiting =>
    have hw := h.drainWaits
    rw [hpc, if_pos rfl] at hw
    have hcontents : x.subCh.contents = [] := h.sub.served.resolve_left (by simp [hw])
    have hflow := hx.flow (by simp [hpc])
    rw [ahead, hpc, hcontents, show DrainPc.held .waiting = [] from rfl, List.append_nil, List.append_nil] at hflow
    rcases Carried.tail_cases x.call.finished with ht | ht <;> rw [ht] at hflow
    · rwa [List.append_nil] at hflow
    · exact absurd rfl (hx.sent "" (by rw [hflow]; simp))
  | sending =>
    have hsends := h.drainSends
    rw [hpc, if_pos rfl, (List.append_eq_nil_iff.mp hempty) |>.2 |> List.map_eq_nil_iff.mp] at hsends
    cases hsends
  | receive =>
    simp only [Forwarding.step, Forwarding.drainStep, hpc] at hd
    split at hd <;> cases hd
  | holding tok =>
    simp only [Forwarding.step, Forwarding.drainStep, hpc] at hd
    split_ifs at hd

/-- The forwarding coroutine and the consumer alone come to a rest. -/
theorem Wired.soon (h : Wired K x) {cs : List Choice} {z : Forwarding}
    (hr : Run (Forwarding.step K) (fun _ c => c = .drain ∨ c = .consume) x cs z) : cs.length ≤ x.work := by
  have hle := hr.length_le (I := Wired K) (fun _ _ _ hI _ hs => (hI.step hs).1) (μ := work)
    (fun _ _ _ hI hc hs => by
      rcases hc with rfl | rfl
      · exact (hI.drainStep hs).2.2
      · exact (hI.consume hs).2.2) h
  exact (Nat.le_add_right _ _).trans hle

/-! ### Runs -/

/-- What every run without empty deltas keeps. -/
theorem carried_run {older : List String} (hK : older.length ≤ K) {cs : List Choice}
    (hr : Run (step K) (fun _ c => c.nonempty) (start older) cs y) : Wired K y ∧ Carried y :=
  hr.invariant (I := fun x => Wired K x ∧ Carried x)
    (fun _ _ _ hI hc hs => ⟨(hI.1.step hs).1, hI.2.step (hI.1.step hs).2 hc⟩) ⟨.start K hK, .start older⟩

theorem Careful.nonempty (h : Careful x c) : c.nonempty := by
  cases c <;> first | exact h | trivial

theorem delivered_of_ordered (h : Wired K x) (hx : Carried x) (ho : Ordered x) : Delivered K x :=
  ⟨hx.inOrder, ho, h.settled hx, fun _ _ => h.soon⟩

theorem ordered_run {older : List String} (hK : older.length ≤ K) {cs : List Choice}
    (hr : Run (step K) Careful (start older) cs y) : Ordered y := by
  have hstart : Ordered (start older) := fun p d q hp hd =>
    absurd hd ((Carried.start older).parents rfl d (by rw [hp]; simp))
  refine (hr.invariant (I := fun x => (Wired K x ∧ Carried x) ∧ Ordered x) (fun x c z hI hc hs => ?_)
    ⟨⟨.start K hK, .start older⟩, hstart⟩).2
  obtain ⟨⟨hw, hx⟩, ho⟩ := hI
  obtain ⟨hw', hf⟩ := hw.step hs
  exact ⟨⟨hw', hx.step hf hc.nonempty⟩, ho.step hx hf hc⟩

/-- A run that ends in order was careful. -/
theorem careful_of_ordered {older : List String} (hK : older.length ≤ K) {cs : List Choice}
    (hr : Run (step K) (fun _ c => c.nonempty) (start older) cs y) (h : Ordered y) :
    Run (step K) Careful (start older) cs y := by
  induction hr with
  | nil => exact Run.nil _
  | snoc hr hc hs ih =>
    obtain ⟨hw, hx⟩ := carried_run hK hr
    obtain ⟨ho, hcareful⟩ := h.of_step hx (hw.step hs).2 hc
    exact Run.snoc (ih ho) hcareful hs

/-- **Delegation output is complete and ordered in the careful runs, and
without empty deltas in no others.** -/
theorem delivered_iff_careful (K : ℕ) (older : List String) (hK : older.length ≤ K) (cs : List Choice) (y : Forwarding) :
    (Run (step K) Careful (start older) cs y → Delivered K y) ∧
      (Run (step K) (fun _ c => c.nonempty) (start older) cs y → Delivered K y →
        Run (step K) Careful (start older) cs y) := by
  refine ⟨fun hr => ?_, fun hr h => careful_of_ordered hK hr h.before⟩
  obtain ⟨hw, hx⟩ := carried_run hK (hr.mono fun _ _ hc => hc.nonempty)
  exact delivered_of_ordered hw hx (ordered_run hK hr)

/-- The parent streams when the sub-agent's deltas have gone. -/
theorem delivered_careful : ∃ cs y, Run (step 1) Careful (start ["Hi"]) cs y ∧
    y.stream.map Delta.text = ["Hi", "Hel", "lo", "Done"] ∧ Delivered 1 y := by
  have h : (check (step 1) (fun x c => decide (Careful x c))
      [.onToken "Hel", .drain, .drain, .onToken "lo", .runAsyncReturns, .consume, .drain, .drain, .consume, .drain,
        .parentOnToken "Done"] (start ["Hi"])).any
      (fun y => decide (y.stream.map Delta.text = ["Hi", "Hel", "lo", "Done"])) = true := by
    decide
  obtain ⟨y, hr, hy⟩ := Run.exists_of_check Careful h fun _ _ hc => of_decide_eq_true hc
  exact ⟨_, y, hr, of_decide_eq_true hy, (delivered_iff_careful 1 _ le_rfl _ y).1 hr⟩

/-- The consumer is slow: the forwarding coroutine waits with `"lo"`, `"!"` is
left in the channel of the call, and the parent's delta gets in before it. -/
theorem not_delivered_slow : ∃ cs y, Run (step 1) (fun _ c => c.nonempty) (start []) cs y ∧
    y.received.map Delta.text = ["Hel", "lo", "Done", "!"] ∧ y.emitted = ["Hel", "lo", "!"] ∧ ¬ Delivered 1 y := by
  have h : (check (step 1) (fun _ c => decide c.nonempty)
      [.drain, .onToken "Hel", .drain, .drain, .onToken "lo", .drain, .onToken "!", .runAsyncReturns,
        .parentOnToken "Done", .consume, .consume, .drain, .drain, .consume, .consume] (start [])).any
      (fun y => decide (y.stream = [⟨.subAgent, "Hel"⟩, ⟨.subAgent, "lo"⟩, ⟨.parent, "Done"⟩, ⟨.subAgent, "!"⟩] ∧
        y.received = y.stream ∧ y.emitted = ["Hel", "lo", "!"])) = true := by
    decide
  obtain ⟨y, hr, hy⟩ := Run.exists_of_check (fun _ c => Choice.nonempty c) h fun _ _ hc => of_decide_eq_true hc
  obtain ⟨hstream, hrecv, hem⟩ := of_decide_eq_true hy
  refine ⟨_, y, hr, by rw [hrecv, hstream]; rfl, hem, fun hdel => ?_⟩
  have hall := hdel.before [⟨.subAgent, "Hel"⟩, ⟨.subAgent, "lo"⟩] ⟨.parent, "Done"⟩ [⟨.subAgent, "!"⟩] hstream rfl
  rw [hem] at hall
  exact absurd hall (by decide)

end Forwarding

end AgentFlow.Workflow
