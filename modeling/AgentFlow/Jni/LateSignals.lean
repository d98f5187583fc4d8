/-
# Host tools: signals of runs that have ended

A run deletes its references when it has ended (`DeleteGlobalRef` of
`jni/agentflow_jni.cc`), and it waits for its calls, but not for the jobs that
set its signal. Such a job may still be on its way, and the token outlives the
run: as long as its id is registered, `nativeCancel` finds the callbacks of the
run. So a worker may yet write to the signal through a reference that is
deleted, and exactly in these two cases (`late_write_iff`).

Key theorems: `hooks_of_did`, `late_write_iff`.
-/
import AgentFlow.Jni.Starvation

namespace AgentFlow
namespace Jni

open Stepping WorkerPool History

variable {s s' s₁ s₂ : Bridge} {r : ℕ} {id : ℤ}

/-! ### What a run that has ended leaves behind -/

/-- No call of a run that has ended begins to wait. -/
theorem hooks_of_did {a : Choice} (hd : Did s a s') (h : Settled s) (hended : .ended r ∈ s.log) :
    s'.hooks r = s.hooks r := by
  cases hd with
  | newCancel | cancel | cancelAgain | freeCancel | start | call | receive | finish => exact Bridge.hooks_other rfl rfl
  | fire | fired => rfl
  | @hook c hc hstage =>
    have hne : (s.calls c).run ≠ r := by
      rintro rfl
      exact h.not_ended hc (fun _ hret => by cases hstage.symm.trans hret) hended
    refine (hooks_onCancel _ _ r).trans ?_
    rw [if_pos (.inr hne), Nat.add_zero]
    rfl
  | @take w j p _ =>
    cases j with
    | invoke d => exact Bridge.hooks_other rfl rfl
    | flip q => rfl
  | @done w u j p _ =>
    cases j with
    | invoke d => exact Bridge.hooks_other rfl rfl
    | flip q =>
      rw [Bridge.finishJob]
      split_ifs <;> exact Bridge.hooks_other rfl rfl

/-- The run has a token that cannot be cancelled any more. -/
structure Dead (s : Bridge) (r : ℕ) (id : ℤ) : Prop where
  token : HasToken s.log r id
  unregistered : ¬ Registered s.log id
  unfired : ¬ Fired s.log id

theorem dead_of_did {a : Choice} (hd : Did s a s') (hl : Ledger s) (h : Dead s r id) : Dead s' r id := by
  rcases log_of_did hd with hlog | ⟨e, hlog, hnew⟩
  · exact ⟨hlog ▸ h.token, hlog ▸ h.unregistered, hlog ▸ h.unfired⟩
  · have hne : e ≠ .newCancel id := fun he => hl.ne_next (.inr (.inr ⟨r, h.token⟩)) (hnew id he)
    refine ⟨hlog ▸ hasToken_snoc.mpr (.inl h.token), ?_, ?_⟩
    · rw [hlog, registered_snoc, not_or, not_and]
      exact ⟨hne, fun hr => absurd hr h.unregistered⟩
    · rw [hlog, fired_snoc, not_or, not_and]
      exact ⟨h.unfired, fun _ => h.unregistered⟩

/-- What is the same in all states after the end of a run. -/
structure After (r : ℕ) (s s' : Bridge) : Prop where
  settled : Settled s'
  cancels : Cancels s'
  hooks : s'.hooks r = s.hooks r
  dead : ∀ id, Dead s r id → Dead s' r id

theorem after_of_run {n : ℕ} {cs as : List Choice} (h : Reaches n cs s) (hended : .ended r ∈ s.log)
    (hrun : Run step (fun _ _ => True) s as s') : After r s s' := by
  refine (hrun.invariant (I := fun s₁ => .ended r ∈ s₁.log ∧ After r s s₁) (fun s₁ _ s₂ h _ hs => ?_) ⟨hended, ?_⟩).2
  · obtain ⟨hended, h⟩ := h
    have hd := did_of_step hs
    exact ⟨(isPrefix_log_of_did hd).mem hended, settled_of_did hd h.settled, cancels_of_did hd h.cancels,
      (hooks_of_did hd h.settled hended).trans h.hooks,
      fun id hdead => dead_of_did hd h.cancels.ledger (h.dead id hdead)⟩
  · exact ⟨settled_of_reaches h, cancels_of_reaches h, rfl, fun _ => id⟩

/-- A write that comes late was on its way, or its token can be cancelled. -/
theorem After.late (h : After r s s') (hs : Cancels s) (hlt : s.writes r < s'.writes r) :
    0 < s.onTheWay r ∨ 0 < s.waiting r ∧ ∃ id, HasToken s.log r id ∧ Registered s.log id ∧ ¬ Fired s.log id := by
  have hle : s'.writes r ≤ s.hooks r := by
    have hbalance := h.cancels.posted.balance r
    rw [h.hooks, Bridge.taken] at hbalance
    omega
  have hhooks := hs.heard.hooks r
  have hbalance := hs.posted.balance r
  rw [Bridge.taken] at hbalance
  cases hsource : (s.runs r).source with
  | none =>
    rw [if_pos hsource] at hhooks
    omega
  | some id =>
    rw [hsource, if_neg (Option.some_ne_none id)] at hhooks
    have htoken := (hs.ledger.token r id).mp hsource
    by_cases hway : 0 < s.onTheWay r
    · exact .inl hway
    refine .inr ⟨by omega, id, htoken, ?_⟩
    by_contra hno
    by_cases hfired : Fired s.log id
    · -- the callbacks were taken
      have hnone : s.callbacks r = 0 := by
        rw [Bridge.callbacks_eq hsource, hs.posted.emptied id ((hs.ledger.fired id).mpr hfired), List.count_nil]
      omega
    · have hdead := h.dead id ⟨htoken, fun hreg => hno ⟨hreg, hfired⟩, hfired⟩
      obtain ⟨id', hid', hc⟩ := h.cancels.posted.moved r (Nat.add_pos_left (Nat.zero_lt_of_lt hlt) _)
      have hid : id' = id := by
        have hsome := hid'.symm.trans ((h.cancels.ledger.token r id).mpr hdead.token)
        exact Option.some.inj hsome
      exact hdead.unfired (hid ▸ (h.cancels.ledger.fired id').mp hc)

/-! ### How a write comes late -/

/-- `nativeCancel` has run its callbacks. -/
theorem exists_fired (l : List ℕ) (s : Bridge) (h : s.firing = some l) :
    ∃ as s', Run step (fun _ _ => True) s as s' ∧ s'.firing = none ∧ s'.log = s.log ∧ s'.runs = s.runs ∧
      s'.sources = s.sources ∧ s'.cancels = s.cancels ∧
      ∀ r, s'.pool.holds (Job.flips r) = s.pool.holds (Job.flips r) + l.count r := by
  induction l generalizing s with
  | nil =>
    have hstep : step .fire s = some { s with firing := none } := by rw [step, h]
    exact ⟨_, _, Run.cons trivial hstep (Run.nil _), rfl, rfl, rfl, rfl, rfl, fun _ => rfl⟩
  | cons q l ih =>
    have hstep : step .fire s = some ({ s with firing := some l }.post (.flip q)) := by rw [step, h]
    obtain ⟨as, s', hrun, hnone, hlog, hruns, hsources, hcancels, hholds⟩ :=
      ih ({ s with firing := some l }.post (.flip q)) rfl
    refine ⟨_, s', Run.cons trivial hstep hrun, hnone, hlog, hruns, hsources, hcancels, fun r => ?_⟩
    have hcons : (q :: l).count r = l.count r + if (Job.flip q).flips r = true then 1 else 0 := by
      rw [List.count_cons]
      simp [Job.flips]
    rw [hholds, hcons]
    refine (congrArg (· + l.count r) (Pool.holds_post s.pool (.flip q) (Job.flips r))).trans ?_
    omega

/-- A job that the pool has is done. -/
theorem exists_write_of_holds (h : Settled s) (hn : 0 < s.pool.workers.length)
    (hholds : 0 < s.pool.holds (Job.flips r)) :
    ∃ as s' es, Run step (fun _ _ => True) s as s' ∧ s'.log = s.log ++ es ∧ .wrote r true ∈ es := by
  have hflip {j : Job} (hj : j.flips r = true) : j = .flip r := by
    cases j with
    | invoke c => cases hj
    | flip q => exact congrArg Job.flip (of_decide_eq_true hj)
  rcases Nat.eq_zero_or_pos (s.pool.atWork (Job.flips r)) with hwork | hwork
  · -- the job waits in the queue
    have hqueued : 0 < s.pool.queued (Job.flips r) := by
      rw [Pool.holds, hwork] at hholds
      exact hholds
    obtain ⟨j, hj, hf⟩ := List.countP_pos_iff.mp hqueued
    obtain ⟨front, rest, hjobs⟩ := List.append_of_mem (hflip hf ▸ hj)
    have hfree (j : Job) : s.stuck (fun _ => false) j = false := by
      cases j <;> simp [Bridge.stuck]
    have hnone : s.pool.atWork (s.stuck fun _ => false) + front.countP (s.stuck fun _ => false) = 0 := by
      rw [funext hfree]
      refine Nat.add_eq_zero_iff.mpr ⟨List.countP_eq_zero.mpr fun o _ => ?_, List.countP_eq_zero.mpr (by simp)⟩
      cases o <;> simp
    obtain ⟨as, s₁, s', hrun, hworked, hlog⟩ := exists_write_of_jobs (fun _ => false) h hjobs (hnone.trans_lt hn)
    have hrun' : Run step (fun _ _ => True) s as s' := hrun.mono fun _ _ _ => trivial
    obtain ⟨es, hes⟩ := hworked.log
    exact ⟨as, s', es ++ [.wrote r true], hrun', by rw [hlog, ← hes, List.append_assoc], by simp⟩
  · -- the job is at work
    obtain ⟨o, ho, hany⟩ := List.countP_pos_iff.mp hwork
    obtain ⟨w, hw, hget⟩ := List.getElem_of_mem ho
    have hjob : s.pool.workers[w]? = some (some (.flip r)) := by
      cases o with
      | none => cases hany
      | some j => rw [List.getElem?_eq_getElem hw, hget, hflip hany]
    obtain ⟨s', hstep, -, hlog⟩ := exists_write (fun _ => false) hjob
    exact ⟨_, s', _, Run.cons trivial hstep (Run.nil _), hlog, List.mem_singleton_self _⟩

/-- `nativeCancel` has returned; the callbacks on their way are in the pool. -/
theorem exists_idle (s : Bridge) : ∃ as s', Run step (fun _ _ => True) s as s' ∧ s'.firing = none ∧ s'.log = s.log ∧
    s'.runs = s.runs ∧ s'.sources = s.sources ∧ s'.cancels = s.cancels ∧
    ∀ r, s'.pool.holds (Job.flips r) = s.onTheWay r := by
  cases hfiring : s.firing with
  | none =>
    refine ⟨[], s, Run.nil s, hfiring, rfl, rfl, rfl, rfl, fun r => ?_⟩
    rw [Bridge.onTheWay, hfiring]
    rfl
  | some l =>
    obtain ⟨as, s', hrun, hnone, hlog, hruns, hsources, hcancels, hholds⟩ := exists_fired l s hfiring
    refine ⟨as, s', hrun, hnone, hlog, hruns, hsources, hcancels, fun r => ?_⟩
    rw [hholds, Bridge.onTheWay, hfiring]
    rfl

/-- A callback that is on its way ends with a write. -/
theorem exists_write_of_onTheWay {n : ℕ} {cs : List Choice} (h : Reaches n cs s) (hn : 0 < n)
    (hway : 0 < s.onTheWay r) :
    ∃ as s' es, Run step (fun _ _ => True) s as s' ∧ s'.log = s.log ++ es ∧ .wrote r true ∈ es := by
  obtain ⟨as, s₁, hrun, -, hlog, -, -, -, hholds⟩ := exists_idle s
  have hreach := h.append hrun
  obtain ⟨as', s', es, hrun', hes, hmem⟩ := exists_write_of_holds (r := r) (settled_of_reaches hreach)
    (hn.trans_eq (length_workers hreach).symm) (hway.trans_eq (hholds r).symm)
  exact ⟨as ++ as', s', es, hrun.append hrun', hlog ▸ hes, hmem⟩

/-- **A write through a deleted reference.** After a run has ended a worker may
still set its signal exactly if a callback of the run is on its way, or if calls
of the run waited and its id is registered and was not cancelled. -/
theorem late_write_iff {n : ℕ} {cs : List Choice} (h : Reaches n cs s) (hn : 0 < n) (hended : .ended r ∈ s.log) :
    (∃ as s' es, Run step (fun _ _ => True) s as s' ∧ s'.log = s.log ++ es ∧ .wrote r true ∈ es) ↔
      0 < s.onTheWay r ∨
        0 < s.waiting r ∧ ∃ id, HasToken s.log r id ∧ Registered s.log id ∧ ¬ Fired s.log id := by
  have hs := cancels_of_reaches h
  constructor
  · rintro ⟨as, s', es, hrun, hlog, hmem⟩
    refine (after_of_run h hended hrun).late hs ?_
    have hpos : 0 < es.countP (Event.writes r) := List.countP_pos_iff.mpr ⟨_, hmem, decide_eq_true rfl⟩
    rw [Bridge.writes, Bridge.writes, hlog, List.countP_append]
    omega
  · rintro (hway | ⟨hwaiting, id, htoken, hreg, hfired⟩)
    · exact exists_write_of_onTheWay h hn hway
    have hsource := (hs.ledger.token r id).mpr htoken
    -- the callbacks of the run wait for the cancel
    have hcallbacks : 0 < (s.sources id).onCancelCbs.count r := by
      have hhooks := hs.heard.hooks r
      have hbalance := hs.posted.balance r
      rw [hsource, if_neg (Option.some_ne_none id)] at hhooks
      rw [Bridge.callbacks_eq hsource] at hbalance
      have htaken : s.taken r = 0 := by
        by_contra hpos
        obtain ⟨id', hid', hc⟩ := hs.posted.moved r (Nat.pos_of_ne_zero hpos)
        rw [Option.some.inj (hid'.symm.trans hsource)] at hc
        exact hfired ((hs.ledger.fired id).mp hc)
      omega
    obtain ⟨as, s₁, hrun, hnone, hlog, hruns, hsources, hcancels, -⟩ := exists_idle s
    have hnew : (s₁.sources id).cancelled = false :=
      hsources ▸ Bool.eq_false_iff.mpr fun hc => hfired ((hs.ledger.fired id).mp hc)
    have hstep : step (.cancel id) s₁ = some (({ s₁ with firing := some (s₁.sources id).onCancelCbs }.setSource id
        ⟨true, []⟩).record (.cancel id)) := by
      rw [step, if_pos hnone, if_pos ⟨hcancels ▸ (hs.ledger.cancels id).mpr hreg, hnew⟩]
    have hreach := Run.snoc (h.append hrun) trivial hstep
    have hway : 0 < (({ s₁ with firing := some (s₁.sources id).onCancelCbs }.setSource id
        ⟨true, []⟩).record (.cancel id)).onTheWay r := Nat.add_pos_right _ (hsources ▸ hcallbacks)
    obtain ⟨as', s', es, hrun', hes, hmem⟩ := exists_write_of_onTheWay hreach hn hway
    refine ⟨_, s', .cancel id :: es, (Run.snoc hrun trivial hstep).append hrun', ?_, List.mem_cons_of_mem _ hmem⟩
    rw [hes, ← hlog]
    exact List.append_assoc _ _ _

/-- A run whose only call waited has ended, and its id is registered. -/
def endedRun : List Choice :=
  [.newCancel, .start 1, .call 0 "a" "", .hook 0, .take 0, .done 0 .null, .receive 0, .finish 0]

theorem late_write_ended : ∃ s, Reaches 2 endedRun s ∧ .ended 0 ∈ s.log ∧
    ∃ as s' es, Run step (fun _ _ => True) s as s' ∧ s'.log = s.log ++ es ∧ .wrote 0 true ∈ es := by
  have h : (check step (fun _ _ => true) endedRun (Bridge.start 2)).any (fun s =>
      .ended 0 ∈ s.log ∧ 0 < s.waiting 0 ∧ (s.runs 0).source = some 1 ∧ 1 ∈ s.cancels ∧
        (s.sources 1).cancelled = false) = true := by
    decide
  obtain ⟨s, hrun, hs⟩ := Run.exists_of_check (fun _ _ => True) h fun _ _ _ => trivial
  obtain ⟨hended, hwaiting, hsource, hmem, hnew⟩ := of_decide_eq_true hs
  have hledger := (cancels_of_reaches hrun).ledger
  have hfired : ¬ Fired s.log 1 := fun hf => by cases hnew.symm.trans ((hledger.fired 1).mpr hf)
  exact ⟨s, hrun, hended, (late_write_iff hrun (by decide) hended).mpr
    (.inr ⟨hwaiting, 1, (hledger.token 0 1).mp hsource, (hledger.cancels 1).mp hmem, hfired⟩)⟩

end Jni
end AgentFlow
