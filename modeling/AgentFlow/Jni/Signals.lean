/-
# Host tools: cancelling a run

`nativeNewCancel`, `nativeCancel` and `nativeFreeCancel` of
`jni/agentflow_jni.cc`, and what a cancel does to the runs: the callbacks that
the calls hooked to the token post jobs to the pool of workers, and these set
the signals.

What the registry knows can be read off the log (`Ledger`): an id is registered
since `nativeNewCancel` returned it, a run has the token of an id that was
registered when it began, and a source is cancelled once `nativeCancel` found
it. No callback is lost or doubled on its way to the signal (`Posted`), so a
cancel sets the signal for every call of the run (`cancel_delivered`).

Key definitions: `Registered`, `HasToken`, `Fired`, `Ledger`, `Posted`.
Key theorems: `ledger_of_did`, `posted_of_did`, `cancel_delivered`.
-/
import AgentFlow.Jni.HostTools

namespace AgentFlow
namespace Jni

open Stepping WorkerPool History

/-! ### The registry -/

def Registered (log : List Event) (id : ℤ) : Prop := Since (.newCancel id) (.freeCancel id) log

/-- The run took the token of the id. -/
def HasToken (log : List Event) (r : ℕ) (id : ℤ) : Prop := Once (Registered · id) (.began r id) log

/-- `nativeCancel` found the id. -/
def Fired (log : List Event) (id : ℤ) : Prop := Once (Registered · id) (.cancel id) log

section
variable {log : List Event} {e : Event} {id : ℤ} {r : ℕ}

theorem registered_snoc : Registered (log ++ [e]) id ↔ e = .newCancel id ∨ (Registered log id ∧ e ≠ .freeCancel id) :=
  since_snoc (by simp)

theorem hasToken_snoc : HasToken (log ++ [e]) r id ↔ HasToken log r id ∨ (e = .began r id ∧ Registered log id) :=
  once_snoc

theorem fired_snoc : Fired (log ++ [e]) id ↔ Fired log id ∨ (e = .cancel id ∧ Registered log id) :=
  once_snoc

theorem registered_other (hn : e ≠ .newCancel id) (hf : e ≠ .freeCancel id) :
    Registered (log ++ [e]) id ↔ Registered log id := by
  rw [registered_snoc, or_iff_right hn, and_iff_left hf]

theorem hasToken_other (h : e ≠ .began r id) : HasToken (log ++ [e]) r id ↔ HasToken log r id := by
  rw [hasToken_snoc, or_iff_left fun he => h he.1]

theorem fired_other (h : e ≠ .cancel id) : Fired (log ++ [e]) id ↔ Fired log id := by
  rw [fired_snoc, or_iff_left fun he => h he.1]

/-- The id was registered at some time. -/
def Known (log : List Event) (id : ℤ) : Prop := Registered log id ∨ Fired log id ∨ ∃ r, HasToken log r id

theorem known_of_snoc (h : Known (log ++ [e]) id) : e = .newCancel id ∨ Known log id := by
  rcases h with hreg | hfired | ⟨r, htok⟩
  · exact (registered_snoc.mp hreg).imp_right fun h => .inl h.1
  · rcases fired_snoc.mp hfired with h | ⟨-, h⟩
    · exact .inr (.inr (.inl h))
    · exact .inr (.inl h)
  · rcases hasToken_snoc.mp htok with h | ⟨-, h⟩
    · exact .inr (.inr (.inr ⟨r, h⟩))
    · exact .inr (.inl h)

theorem not_known_nil : ¬ Known [] id := by
  rintro (h | h | ⟨r, h⟩)
  · exact not_since_nil h
  · exact not_once_nil h
  · exact not_once_nil h

end

/-- What the registry and the runs know, as the log says it. -/
structure Ledger (s : Bridge) : Prop where
  cancels : ∀ id, id ∈ s.cancels ↔ Registered s.log id
  nodup : s.cancels.Nodup
  token : ∀ r id, (s.runs r).source = some id ↔ HasToken s.log r id
  fired : ∀ id, (s.sources id).cancelled = true ↔ Fired s.log id
  issued : ∀ id, Known s.log id → 0 < id ∧ id < s.nextCancelId
  first : 0 < s.nextCancelId
  unborn : ∀ r, s.nRuns ≤ r → (s.runs r).source = none

variable {s s' : Bridge}

/-- The event says nothing about the registry. -/
def Event.silent : Event → Bool
  | .newCancel _ | .cancel _ | .freeCancel _ | .began _ _ => false
  | _ => true

theorem silent_snoc {e : Event} (he : e.silent = true) (log : List Event) :
    (∀ id, Registered (log ++ [e]) id ↔ Registered log id) ∧ (∀ r id, HasToken (log ++ [e]) r id ↔ HasToken log r id) ∧
      ∀ id, Fired (log ++ [e]) id ↔ Fired log id := by
  have hne {f : Event} (hf : f.silent = false) : e ≠ f := by
    rintro rfl
    cases he.symm.trans hf
  exact ⟨fun _ => registered_other (hne rfl) (hne rfl), fun _ _ => hasToken_other (hne rfl),
    fun _ => fired_other (hne rfl)⟩

namespace Ledger

/-- Nothing that the registry is about has changed. -/
theorem same (h : Ledger s) (hcancels : s'.cancels = s.cancels) (hnext : s'.nextCancelId = s.nextCancelId)
    (hnRuns : s'.nRuns = s.nRuns) (hruns : ∀ r, (s'.runs r).source = (s.runs r).source)
    (hsources : ∀ id, (s'.sources id).cancelled = (s.sources id).cancelled)
    (hlog : s'.log = s.log ∨ ∃ e, e.silent = true ∧ s'.log = s.log ++ [e]) : Ledger s' := by
  obtain ⟨hreg, htok, hfired⟩ : (∀ id, Registered s'.log id ↔ Registered s.log id) ∧
      (∀ r id, HasToken s'.log r id ↔ HasToken s.log r id) ∧ ∀ id, Fired s'.log id ↔ Fired s.log id := by
    rcases hlog with hlog | ⟨e, he, hlog⟩
    · rw [hlog]
      exact ⟨fun _ => Iff.rfl, fun _ _ => Iff.rfl, fun _ => Iff.rfl⟩
    · rw [hlog]
      exact silent_snoc he s.log
  constructor
  · intro id
    rw [hcancels, hreg, h.cancels]
  · rw [hcancels]
    exact h.nodup
  · intro r id
    rw [hruns, htok, h.token]
  · intro id
    rw [hsources, hfired, h.fired]
  · intro id hid
    rw [hnext]
    exact h.issued id (by simpa only [Known, hreg, htok, hfired] using hid)
  · exact hnext ▸ h.first
  · intro r hr
    rw [hruns]
    exact h.unborn r (hnRuns ▸ hr)

/-- An id that is known is not the next one. -/
theorem ne_next (h : Ledger s) {id : ℤ} (hid : Known s.log id) : id ≠ s.nextCancelId := (h.issued id hid).2.ne

theorem newCancel (h : Ledger s) :
    Ledger (({ s with nextCancelId := s.nextCancelId + 1, cancels := s.nextCancelId :: s.cancels }.setSource
      s.nextCancelId {}).record (.newCancel s.nextCancelId)) := by
  constructor
  · intro id
    rw [Bridge.record, registered_snoc, and_iff_left (by simp)]
    exact List.mem_cons.trans (or_congr (by simp [eq_comm]) (h.cancels id))
  · exact List.nodup_cons.mpr ⟨fun hmem => h.ne_next (.inl ((h.cancels _).mp hmem)) rfl, h.nodup⟩
  · exact fun r id => (h.token r id).trans (hasToken_other (by simp)).symm
  · intro id
    refine Iff.trans ?_ (fired_other (by simp)).symm
    by_cases hid : id = s.nextCancelId
    · subst hid
      exact iff_of_false (by simp [Bridge.record, Bridge.setSource]) fun hf => h.ne_next (.inr (.inl hf)) rfl
    · exact Iff.trans (by simp [Bridge.record, Bridge.setSource, Function.update_of_ne hid]) (h.fired id)
  · intro id hid
    rcases known_of_snoc hid with he | hid
    · obtain rfl := Event.newCancel.inj he
      exact ⟨h.first, Int.lt_succ _⟩
    · obtain ⟨hpos, hlt⟩ := h.issued id hid
      exact ⟨hpos, hlt.trans (Int.lt_succ _)⟩
  · exact h.first.trans (Int.lt_succ _)
  · exact h.unborn

theorem cancel (h : Ledger s) {id : ℤ} (hid : id ∈ s.cancels) (firing : Option (List ℕ)) :
    Ledger (({ s with firing := firing }.setSource id ⟨true, []⟩).record (.cancel id)) := by
  have hreg := (h.cancels id).mp hid
  constructor
  · exact fun id' => (h.cancels id').trans (registered_other (by simp) (by simp)).symm
  · exact h.nodup
  · exact fun r id' => (h.token r id').trans (hasToken_other (by simp)).symm
  · intro id'
    by_cases hne : id' = id
    · subst hne
      exact iff_of_true (by simp [Bridge.record, Bridge.setSource]) (fired_snoc.mpr (.inr ⟨rfl, hreg⟩))
    · refine Iff.trans ?_ (fired_other (by simpa using Ne.symm hne)).symm
      exact Iff.trans (by simp [Bridge.record, Bridge.setSource, Function.update_of_ne hne]) (h.fired id')
  · exact fun id' hid' => h.issued id' ((known_of_snoc hid').resolve_left (by simp))
  · exact h.first
  · exact h.unborn

/-- `nativeCancel` finds nothing, or a source that is cancelled. -/
theorem cancelAgain (h : Ledger s) {id : ℤ} (hno : id ∈ s.cancels → (s.sources id).cancelled = true) :
    Ledger (s.record (.cancel id)) := by
  constructor
  · exact fun id' => (h.cancels id').trans (registered_other (by simp) (by simp)).symm
  · exact h.nodup
  · exact fun r id' => (h.token r id').trans (hasToken_other (by simp)).symm
  · intro id'
    refine (h.fired id').trans (Iff.trans (iff_self_or.mpr ?_) fired_snoc.symm)
    rintro ⟨he, hreg⟩
    obtain rfl := Event.cancel.inj he
    exact (h.fired id).mp (hno ((h.cancels id).mpr hreg))
  · exact fun id' hid' => h.issued id' ((known_of_snoc hid').resolve_left (by simp))
  · exact h.first
  · exact h.unborn

theorem freeCancel (h : Ledger s) (id : ℤ) :
    Ledger ({ s with cancels := s.cancels.erase id }.record (.freeCancel id)) := by
  constructor
  · intro id'
    rw [Bridge.record, registered_snoc, or_iff_right (by simp), ← h.cancels]
    refine h.nodup.mem_erase_iff.trans (and_comm.trans (and_congr_right fun _ => ?_))
    simp [eq_comm]
  · exact h.nodup.erase id
  · exact fun r id' => (h.token r id').trans (hasToken_other (by simp)).symm
  · exact fun id' => (h.fired id').trans (fired_other (by simp)).symm
  · exact fun id' hid' => h.issued id' ((known_of_snoc hid').resolve_left (by simp))
  · exact h.first
  · exact h.unborn

/-- A run takes the token of an id that is registered. -/
theorem start (h : Ledger s) (id : ℤ) :
    Ledger (({ s with nRuns := s.nRuns + 1 }.setRun s.nRuns
      { source := if id ≠ 0 ∧ id ∈ s.cancels then some id else none }).record (.began s.nRuns id)) := by
  have hself := { s with nRuns := s.nRuns + 1 }.runs_setRun_self s.nRuns
    { source := if id ≠ 0 ∧ id ∈ s.cancels then some id else none }
  have hother {r : ℕ} (hr : r ≠ s.nRuns) := { s with nRuns := s.nRuns + 1 }.runs_setRun_of_ne
    { source := if id ≠ 0 ∧ id ∈ s.cancels then some id else none } hr
  constructor
  · exact fun id' => (h.cancels id').trans (registered_other (by simp) (by simp)).symm
  · exact h.nodup
  · intro r id'
    refine Iff.trans ?_ (hasToken_snoc : HasToken (s.log ++ [_]) r id' ↔ _).symm
    by_cases hr : r = s.nRuns
    · subst hr
      have hnew : ¬ HasToken s.log s.nRuns id' := fun htok => by
        cases ((h.token _ _).mpr htok).symm.trans (h.unborn _ le_rfl)
      have htaken : id ≠ 0 ∧ id ∈ s.cancels ↔ Registered s.log id := by
        rw [h.cancels, and_iff_right_iff_imp]
        exact fun hreg => (h.issued id (.inl hreg)).1.ne'
      rw [or_iff_right hnew]
      refine (congrArg (·.source = some id') hself).to_iff.trans ?_
      simp only [htaken, Option.ite_none_right_eq_some, Option.some.injEq, Event.began.injEq, true_and]
      exact ⟨fun ⟨hreg, hid⟩ => ⟨hid, hid ▸ hreg⟩, fun ⟨hid, hreg⟩ => ⟨hid ▸ hreg, hid⟩⟩
    · rw [or_iff_left fun he => hr (Event.began.inj he.1).1.symm]
      exact (congrArg (·.source = some id') (hother hr)).to_iff.trans (h.token r id')
  · exact fun id' => (h.fired id').trans (fired_other (by simp)).symm
  · exact fun id' hid' => h.issued id' ((known_of_snoc hid').resolve_left (by simp))
  · exact h.first
  · intro r (hr : s.nRuns + 1 ≤ r)
    exact (congrArg HostRun.source (hother (by omega))).trans (h.unborn r (by omega))

end Ledger

/-- `OnCancel` cancels nothing. -/
theorem cancelled_onCancel (s : Bridge) (r : ℕ) (id : ℤ) :
    ((s.onCancel r).sources id).cancelled = (s.sources id).cancelled := by
  rw [Bridge.onCancel]
  split
  · rfl
  · split_ifs
    · rfl
    · refine s.field_setSource Source.cancelled ?_ id
      rfl

theorem Ledger.onCancel (h : Ledger s) (r : ℕ) : Ledger (s.onCancel r) := by
  refine h.same ?_ ?_ ?_ (fun q => ?_) (cancelled_onCancel s r) ?_
  all_goals
    rw [Bridge.onCancel]
    split
    · first | rfl | exact .inl rfl
    · split_ifs <;> first | rfl | exact .inr ⟨.hooked r, rfl, rfl⟩

/-- **What a step does to the registry.** -/
theorem ledger_of_did {a : Choice} (hd : Did s a s') (h : Ledger s) : Ledger s' := by
  cases hd with
  | newCancel => exact h.newCancel
  | cancel _ hid _ => exact h.cancel hid _
  | cancelAgain hno => exact h.cancelAgain hno
  | @freeCancel id => exact h.freeCancel id
  | @start id => exact h.start id
  | fire | fired => exact h.same rfl rfl rfl (fun _ => rfl) (fun _ => rfl) (.inl rfl)
  | call | receive => exact h.same rfl rfl rfl (fun _ => rfl) (fun _ => rfl) (.inr ⟨_, rfl, rfl⟩)
  | @hook c _ _ =>
    have hcall : Ledger (s.setCall c { s.calls c with stage := .waiting }) :=
      h.same rfl rfl rfl (fun _ => rfl) (fun _ => rfl) (.inl rfl)
    exact hcall.onCancel _
  | @take w j p _ =>
    cases j with
    | invoke d => exact h.same rfl rfl rfl (fun _ => rfl) (fun _ => rfl) (.inr ⟨_, rfl, rfl⟩)
    | flip r => exact h.same rfl rfl rfl (fun _ => rfl) (fun _ => rfl) (.inl rfl)
  | @done w u j p _ =>
    cases j with
    | invoke d => exact h.same rfl rfl rfl (fun _ => rfl) (fun _ => rfl) (.inr ⟨_, rfl, rfl⟩)
    | flip r =>
      rw [Bridge.finishJob]
      split_ifs
      · exact h.same rfl rfl rfl (fun _ => rfl) (fun _ => rfl) (.inr ⟨_, rfl, rfl⟩)
      · exact h.same rfl rfl rfl (Bridge.field_setRun _ HostRun.source rfl) (fun _ => rfl) (.inr ⟨_, rfl, rfl⟩)
  | @finish r _ _ _ =>
    exact h.same rfl rfl rfl (Bridge.field_setRun _ HostRun.source rfl) (fun _ => rfl) (.inr ⟨_, rfl, rfl⟩)

theorem ledger_of_reaches {n : ℕ} {cs : List Choice} (h : Reaches n cs s) : Ledger s := by
  refine h.invariant (I := Ledger) (fun _ _ _ h _ hs => ledger_of_did (did_of_step hs) h) ?_
  constructor
  · exact fun id => iff_of_false List.not_mem_nil not_since_nil
  · exact List.nodup_nil
  · exact fun r id => iff_of_false (fun h => by cases h) not_once_nil
  · exact fun id => iff_of_false Bool.false_ne_true not_once_nil
  · exact fun id hid => absurd hid not_known_nil
  · exact Int.one_pos
  · exact fun _ _ => rfl

/-! ### Callbacks on their way -/

def Job.flips (r : ℕ) : Job → Bool
  | .flip q => q = r
  | .invoke _ => false

/-- A call of the run gave its callback to the token. -/
def Event.hooks (r : ℕ) : Event → Bool
  | .hooked q => q = r
  | _ => false

/-- A worker is done with a callback of the run. -/
def Event.writes (r : ℕ) : Event → Bool
  | .wrote q _ => q = r
  | _ => false

namespace Bridge

def hooks (s : Bridge) (r : ℕ) : ℕ := s.log.countP (Event.hooks r)

def writes (s : Bridge) (r : ℕ) : ℕ := s.log.countP (Event.writes r)

/-- The callbacks of the run that a worker has yet to do. -/
def onTheWay (s : Bridge) (r : ℕ) : ℕ := s.pool.holds (Job.flips r) + (s.firing.getD []).count r

/-- The callbacks of the run that a cancel has taken. -/
def taken (s : Bridge) (r : ℕ) : ℕ := s.writes r + s.onTheWay r

/-- The callbacks of the run that wait for a cancel. -/
def callbacks (s : Bridge) (r : ℕ) : ℕ :=
  match (s.runs r).source with
  | none => 0
  | some id => (s.sources id).onCancelCbs.count r

theorem callbacks_eq_zero {s : Bridge} {r : ℕ} (h : (s.runs r).source = none) : s.callbacks r = 0 := by
  rw [callbacks, h]

theorem callbacks_eq {s : Bridge} {r : ℕ} {id : ℤ} (h : (s.runs r).source = some id) :
    s.callbacks r = (s.sources id).onCancelCbs.count r := by
  rw [callbacks, h]

theorem callbacks_congr {s s' : Bridge} {r : ℕ} (hsource : (s'.runs r).source = (s.runs r).source)
    (hcount : ∀ id, (s.runs r).source = some id →
      (s'.sources id).onCancelCbs.count r = (s.sources id).onCancelCbs.count r) : s'.callbacks r = s.callbacks r := by
  cases hr : (s.runs r).source with
  | none => rw [callbacks_eq_zero hr, callbacks_eq_zero (hsource.trans hr)]
  | some id => rw [callbacks_eq hr, callbacks_eq (hsource.trans hr), hcount id hr]

theorem callbacks_eq_zero_of_notMem {s : Bridge} {r : ℕ} (h : ∀ id, r ∉ (s.sources id).onCancelCbs) :
    s.callbacks r = 0 := by
  cases hr : (s.runs r).source with
  | none => exact callbacks_eq_zero hr
  | some id => rw [callbacks_eq hr, List.count_eq_zero.mpr (h id)]

theorem onTheWay_post (s : Bridge) (j : Job) (r : ℕ) :
    (s.post j).onTheWay r = s.onTheWay r + if j.flips r = true then 1 else 0 := by
  have hpost := Pool.holds_post s.pool j (Job.flips r)
  simp only [onTheWay, post]
  omega

theorem hooks_record (s : Bridge) (e : Event) (r : ℕ) :
    (s.record e).hooks r = s.hooks r + if e.hooks r = true then 1 else 0 := by
  rw [hooks, hooks, record, List.countP_append, List.countP_singleton]

theorem writes_record (s : Bridge) (e : Event) (r : ℕ) :
    (s.record e).writes r = s.writes r + if e.writes r = true then 1 else 0 := by
  rw [writes, writes, record, List.countP_append, List.countP_singleton]

theorem hooks_other {s s₁ : Bridge} {e : Event} {r : ℕ} (hlog : s₁.log = s.log) (he : e.hooks r = false) :
    (s₁.record e).hooks r = s.hooks r := by
  rw [hooks_record, he, if_neg Bool.false_ne_true, Nat.add_zero, hooks, hlog, hooks]

theorem writes_other {s s₁ : Bridge} {e : Event} {r : ℕ} (hlog : s₁.log = s.log) (he : e.writes r = false) :
    (s₁.record e).writes r = s.writes r := by
  rw [writes_record, he, if_neg Bool.false_ne_true, Nat.add_zero, writes, hlog, writes]

/-- An event that is not the end of a callback. -/
theorem taken_other {s s₁ : Bridge} {e : Event} {r : ℕ} (hlog : s₁.log = s.log) (hway : s₁.onTheWay r = s.onTheWay r)
    (he : e.writes r = false) : (s₁.record e).taken r = s.taken r :=
  congrArg₂ (· + ·) (writes_other hlog he) hway

end Bridge

/-- No callback is lost or doubled: those that were hooked wait or are taken,
and they are taken when the source is cancelled. -/
structure Posted (s : Bridge) : Prop where
  homed : ∀ id r, r ∈ (s.sources id).onCancelCbs → (s.runs r).source = some id
  emptied : ∀ id, (s.sources id).cancelled = true → (s.sources id).onCancelCbs = []
  balance : ∀ r, s.hooks r = s.taken r + s.callbacks r
  moved : ∀ r, 0 < s.taken r → ∃ id, (s.runs r).source = some id ∧ (s.sources id).cancelled = true

namespace Posted

/-- Nothing that the callbacks are about has changed. -/
theorem same (h : Posted s) (hruns : ∀ r, (s'.runs r).source = (s.runs r).source) (hsources : s'.sources = s.sources)
    (hhooks : ∀ r, s'.hooks r = s.hooks r) (htaken : ∀ r, s'.taken r = s.taken r) : Posted s' := by
  constructor
  · intro id r hr
    rw [hruns]
    exact h.homed id r (hsources ▸ hr)
  · rw [hsources]
    exact h.emptied
  · intro r
    rw [hhooks, htaken, h.balance, Bridge.callbacks_congr (hruns r) fun _ _ => by rw [hsources]]
  · intro r hr
    rw [hruns, hsources]
    exact h.moved r (htaken r ▸ hr)

/-- The same, with an event that is not about them. -/
theorem same_record (h : Posted s) {s₁ : Bridge} {e : Event} (hruns : ∀ r, (s₁.runs r).source = (s.runs r).source)
    (hsources : s₁.sources = s.sources) (hlog : s₁.log = s.log) (hway : ∀ r, s₁.onTheWay r = s.onTheWay r)
    (hh : ∀ r, e.hooks r = false) (hw : ∀ r, e.writes r = false) : Posted (s₁.record e) :=
  h.same hruns hsources (fun r => Bridge.hooks_other hlog (hh r)) fun r => Bridge.taken_other hlog (hway r) (hw r)

/-- A worker is done with a callback. -/
theorem write (h : Posted s) {s₁ : Bridge} {r : ℕ} {attached : Bool}
    (hruns : ∀ q, (s₁.runs q).source = (s.runs q).source) (hsources : s₁.sources = s.sources) (hlog : s₁.log = s.log)
    (hway : ∀ q, s₁.onTheWay q + (if (Job.flip r).flips q = true then 1 else 0) = s.onTheWay q) :
    Posted (s₁.record (.wrote r attached)) := by
  refine h.same hruns hsources (fun q => Bridge.hooks_other hlog rfl) fun q => ?_
  have hwrites := s₁.writes_record (.wrote r attached) q
  rw [Bridge.writes, Bridge.writes, hlog] at hwrites
  calc (s₁.record (.wrote r attached)).taken q
      = s.writes q + (if (Job.flip r).flips q = true then 1 else 0) + s₁.onTheWay q :=
        congrArg (· + s₁.onTheWay q) hwrites
    _ = s.taken q := by rw [Nat.add_right_comm, Nat.add_assoc, hway, Bridge.taken]

/-- A callback that a worker does was taken. -/
theorem taken_pos {w r : ℕ} {p : Pool Job} (hd : s.pool.done w = some (.flip r, p)) : 0 < s.taken r := by
  have hholds := Pool.holds_done hd (Job.flips r)
  have hflips : (Job.flip r).flips r = true := decide_eq_true rfl
  rw [hflips, if_pos rfl] at hholds
  rw [Bridge.taken, Bridge.onTheWay]
  omega

/-- One source changes: only runs that have its token wait there, and what it loses was taken. -/
theorem replace (h : Posted s) {s₁ : Bridge} (id : ℤ) (src : Source) (hruns : s₁.runs = s.runs)
    (hsources : s₁.sources = Function.update s.sources id src)
    (hhomed : ∀ r ∈ src.onCancelCbs, (s.runs r).source = some id)
    (hemptied : src.cancelled = true → src.onCancelCbs = [])
    (hstill : (s.sources id).cancelled = true → src.cancelled = true)
    (hbalance : ∀ r, s₁.hooks r + s.taken r + (s.sources id).onCancelCbs.count r =
      s.hooks r + s₁.taken r + src.onCancelCbs.count r)
    (hmoved : ∀ r, 0 < s₁.taken r → 0 < s.taken r ∨ (s.runs r).source = some id ∧ src.cancelled = true) :
    Posted s₁ := by
  have hself : s₁.sources id = src := hsources ▸ Function.update_self ..
  have hother {id' : ℤ} (hne : id' ≠ id) : s₁.sources id' = s.sources id' := hsources ▸ Function.update_of_ne hne ..
  constructor
  · intro id' r hr
    rw [hruns]
    by_cases hne : id' = id
    · rw [hne, hself] at hr
      exact hne ▸ hhomed r hr
    · rw [hother hne] at hr
      exact h.homed id' r hr
  · intro id' hc
    by_cases hne : id' = id
    · rw [hne, hself] at hc ⊢
      exact hemptied hc
    · rw [hother hne] at hc ⊢
      exact h.emptied id' hc
  · intro r
    have hb := hbalance r
    have hbefore := h.balance r
    by_cases hr : (s.runs r).source = some id
    · rw [Bridge.callbacks_eq hr] at hbefore
      rw [Bridge.callbacks_eq (hruns ▸ hr), hself]
      omega
    · -- a run without the token has no callback here, before and after
      rw [List.count_eq_zero.mpr fun hmem => hr (h.homed id r hmem),
        List.count_eq_zero.mpr fun hmem => hr (hhomed r hmem)] at hb
      have hcallbacks : s₁.callbacks r = s.callbacks r := by
        refine Bridge.callbacks_congr (congrArg (fun f => (f r).source) hruns) fun id' hid' => ?_
        rw [hother fun he => hr (he ▸ hid')]
      omega
  · intro r hr
    rw [hruns]
    rcases hmoved r hr with hr | ⟨hid, hc⟩
    · obtain ⟨id', hid', hc⟩ := h.moved r hr
      by_cases hne : id' = id
      · exact ⟨id', hid', hne ▸ hself ▸ hstill (hne ▸ hc)⟩
      · exact ⟨id', hid', (congrArg Source.cancelled (hother hne)).trans hc⟩
    · exact ⟨id, hid, (congrArg Source.cancelled hself).trans hc⟩

/-- The registry makes a source that is new. -/
theorem newCancel (h : Posted s) (hl : Ledger s) :
    Posted (({ s with nextCancelId := s.nextCancelId + 1, cancels := s.nextCancelId :: s.cancels }.setSource
      s.nextCancelId {}).record (.newCancel s.nextCancelId)) := by
  have hnone (r : ℕ) : (s.sources s.nextCancelId).onCancelCbs.count r = 0 := List.count_eq_zero.mpr fun hmem =>
    hl.ne_next (.inr (.inr ⟨r, (hl.token r _).mp (h.homed _ r hmem)⟩)) rfl
  have htaken (r : ℕ) : ((s.setSource s.nextCancelId {}).record (.newCancel s.nextCancelId)).taken r = s.taken r :=
    Bridge.taken_other rfl rfl rfl
  have hhooks (r : ℕ) : ((s.setSource s.nextCancelId {}).record (.newCancel s.nextCancelId)).hooks r = s.hooks r :=
    Bridge.hooks_other rfl rfl
  refine h.replace s.nextCancelId {} rfl rfl (fun _ hr => ?_) (fun _ => rfl) (fun hc => ?_) (fun r => ?_)
    fun r hr => .inl (htaken r ▸ hr)
  · cases hr
  · exact absurd rfl (hl.ne_next (.inr (.inl ((hl.fired _).mp hc))))
  · rw [hnone]
    exact congrArg₂ (· + ·) (congrArg₂ (· + ·) (hhooks r) (htaken r).symm) rfl

/-- `CancelSource::Cancel` takes the callbacks of its source. -/
theorem cancel (h : Posted s) (hfiring : s.firing = none) (id : ℤ) :
    Posted (({ s with firing := some (s.sources id).onCancelCbs }.setSource id ⟨true, []⟩).record (.cancel id)) := by
  have htaken (r : ℕ) : (Bridge.record ({ s with firing := some (s.sources id).onCancelCbs }.setSource id ⟨true, []⟩)
      (.cancel id)).taken r = s.taken r + (s.sources id).onCancelCbs.count r := by
    have hway : s.onTheWay r = s.pool.holds (Job.flips r) := by
      rw [Bridge.onTheWay, hfiring]
      rfl
    calc _ = s.writes r + (s.pool.holds (Job.flips r) + (s.sources id).onCancelCbs.count r) :=
            congrArg (· + _) (Bridge.writes_other rfl rfl)
      _ = s.taken r + (s.sources id).onCancelCbs.count r := by rw [Bridge.taken, hway, Nat.add_assoc]
  refine h.replace id ⟨true, []⟩ rfl rfl (fun _ hr => ?_) (fun _ => rfl) (fun _ => rfl) (fun r => ?_)
    fun r hr => ?_
  · cases hr
  · rw [htaken, Nat.add_assoc]
    exact congrArg (· + _) (Bridge.hooks_other rfl rfl)
  · rw [htaken] at hr
    by_cases hmem : r ∈ (s.sources id).onCancelCbs
    · exact .inr ⟨h.homed id r hmem, rfl⟩
    · rw [List.count_eq_zero.mpr hmem] at hr
      exact .inl hr

/-- A run that begins has no callbacks. -/
theorem start (h : Posted s) (hl : Ledger s) (id : ℤ) :
    Posted (({ s with nRuns := s.nRuns + 1 }.setRun s.nRuns
      { source := if id ≠ 0 ∧ id ∈ s.cancels then some id else none }).record (.began s.nRuns id)) := by
  have hother {r : ℕ} (hr : r ≠ s.nRuns) := { s with nRuns := s.nRuns + 1 }.runs_setRun_of_ne
    { source := if id ≠ 0 ∧ id ∈ s.cancels then some id else none } hr
  have hnone (id' : ℤ) : s.nRuns ∉ (s.sources id').onCancelCbs := fun hmem => by
    cases (h.homed id' _ hmem).symm.trans (hl.unborn _ le_rfl)
  have htaken (r : ℕ) : ((s.setRun s.nRuns
      { source := if id ≠ 0 ∧ id ∈ s.cancels then some id else none }).record (.began s.nRuns id)).taken r =
        s.taken r :=
    Bridge.taken_other rfl rfl rfl
  constructor
  · intro id' r (hr : r ∈ (s.sources id').onCancelCbs)
    have hne : r ≠ s.nRuns := fun he => hnone id' (he ▸ hr)
    exact (congrArg HostRun.source (hother hne)).trans (h.homed id' r hr)
  · exact h.emptied
  · intro r
    have hcallbacks : (s.setRun s.nRuns
        { source := if id ≠ 0 ∧ id ∈ s.cancels then some id else none }).callbacks r = s.callbacks r := by
      by_cases hr : r = s.nRuns
      · subst hr
        rw [Bridge.callbacks_eq_zero (hl.unborn _ le_rfl)]
        exact Bridge.callbacks_eq_zero_of_notMem hnone
      · exact Bridge.callbacks_congr (congrArg HostRun.source (hother hr)) fun _ _ => rfl
    exact (Bridge.hooks_other rfl rfl).trans ((h.balance r).trans (congrArg₂ (· + ·) (htaken r) hcallbacks).symm)
  · intro r hr
    obtain ⟨id', hid', hc⟩ := h.moved r ((htaken r).symm.trans_gt hr)
    have hne : r ≠ s.nRuns := fun he => by cases hid'.symm.trans (hl.unborn r he.ge)
    exact ⟨id', (congrArg HostRun.source (hother hne)).trans hid', hc⟩

/-- A callback is hooked to a source that is not cancelled. -/
theorem push (h : Posted s) {r : ℕ} {id : ℤ} (hid : (s.runs r).source = some id)
    (hc : (s.sources id).cancelled = false) :
    Posted ((s.setSource id
      { s.sources id with onCancelCbs := (s.sources id).onCancelCbs ++ [r] }).record (.hooked r)) := by
  have htaken (q : ℕ) : (Bridge.record (s.setSource id
      { s.sources id with onCancelCbs := (s.sources id).onCancelCbs ++ [r] }) (.hooked r)).taken q = s.taken q :=
    Bridge.taken_other rfl rfl rfl
  refine h.replace id { s.sources id with onCancelCbs := (s.sources id).onCancelCbs ++ [r] } rfl rfl
    (fun q hq => ?_) (fun hcancelled => ?_) (fun hcancelled => hcancelled) (fun q => ?_) fun q hq => .inl (htaken q ▸ hq)
  · rcases List.mem_append.mp hq with hq | hq
    · exact h.homed id q hq
    · exact List.mem_singleton.mp hq ▸ hid
  · cases hc.symm.trans hcancelled
  · have hhooks : (Bridge.record (s.setSource id
        { s.sources id with onCancelCbs := (s.sources id).onCancelCbs ++ [r] }) (.hooked r)).hooks q =
          s.hooks q + if (Event.hooked r).hooks q = true then 1 else 0 :=
      Bridge.hooks_record _ _ q
    rw [htaken, hhooks, List.count_append, List.count_singleton]
    simp only [Event.hooks, beq_iff_eq, decide_eq_true_eq]
    omega

/-- A callback of a source that is cancelled is posted at once. -/
theorem late (h : Posted s) {r : ℕ} {id : ℤ} (hid : (s.runs r).source = some id)
    (hc : (s.sources id).cancelled = true) :
    Posted ((s.post (.flip r)).record (.hooked r)) := by
  have htaken (q : ℕ) : ((s.post (.flip r)).record (.hooked r)).taken q =
      s.taken q + if (Event.hooked r).hooks q = true then 1 else 0 := by
    refine (congrArg₂ (· + ·) (Bridge.writes_other rfl rfl) (s.onTheWay_post (.flip r) q)).trans ?_
    exact (Nat.add_assoc _ _ _).symm
  refine ⟨h.homed, h.emptied, fun q => ?_, fun q hq => ?_⟩
  · rw [htaken]
    refine (Bridge.hooks_record _ _ q).trans ((congrArg (· + _) (h.balance q)).trans ?_)
    exact Nat.add_right_comm _ _ _
  · by_cases hr : q = r
    · exact ⟨id, hr ▸ hid, hc⟩
    · have hother : (Event.hooked r).hooks q = false := decide_ne hr
      rw [htaken, hother] at hq
      exact h.moved q hq

theorem onCancel (h : Posted s) (r : ℕ) : Posted (s.onCancel r) := by
  rw [Bridge.onCancel]
  split
  · exact h
  · rename_i id hid
    split_ifs with hc
    · exact h.late hid hc
    · exact h.push hid (Bool.eq_false_iff.mpr hc)

end Posted

/-- **What a step does to the callbacks.** -/
theorem posted_of_did {a : Choice} (hd : Did s a s') (hl : Ledger s) (h : Posted s) : Posted s' := by
  cases hd with
  | newCancel => exact h.newCancel hl
  | @cancel id hfiring _ _ => exact h.cancel hfiring id
  | @start id => exact h.start hl id
  | cancelAgain | freeCancel | receive =>
    exact h.same_record (fun _ => rfl) rfl rfl (fun _ => rfl) (fun _ => rfl) fun _ => rfl
  | @fire r rest hfiring =>
    refine h.same (fun _ => rfl) rfl (fun _ => rfl) fun q => congrArg (s.writes q + ·) ?_
    have hcons : (r :: rest).count q = rest.count q + if (Job.flip r).flips q = true then 1 else 0 := by
      rw [List.count_cons]
      simp [Job.flips]
    have hway : s.onTheWay q = s.pool.holds (Job.flips q) + (r :: rest).count q := by
      rw [Bridge.onTheWay, hfiring]
      rfl
    rw [Bridge.onTheWay_post, hway, hcons]
    exact Nat.add_assoc _ _ _
  | fired hfiring =>
    refine h.same (fun _ => rfl) rfl (fun _ => rfl) fun q => congrArg (s.writes q + ·) ?_
    rw [Bridge.onTheWay, Bridge.onTheWay, hfiring]
    rfl
  | @call r toolCallId args =>
    exact h.same_record (fun _ => rfl) rfl rfl (fun q => Bridge.onTheWay_post _ (.invoke s.nCalls) q) (fun _ => rfl)
      fun _ => rfl
  | @hook c _ _ =>
    have hcall : Posted (s.setCall c { s.calls c with stage := .waiting }) :=
      h.same (fun _ => rfl) rfl (fun _ => rfl) fun _ => rfl
    exact hcall.onCancel _
  | @take w j p ht =>
    have hway (q : ℕ) : Bridge.onTheWay { s with pool := p } q = s.onTheWay q :=
      congrArg (· + (s.firing.getD []).count q) (Pool.holds_take ht (Job.flips q))
    cases j with
    | invoke d => exact h.same_record (fun _ => rfl) rfl rfl hway (fun _ => rfl) fun _ => rfl
    | flip r => exact h.same (fun _ => rfl) rfl (fun _ => rfl) fun q => congrArg (s.writes q + ·) (hway q)
  | @done w u j p hd =>
    have hway (q : ℕ) :
        Bridge.onTheWay { s with pool := p } q + (if j.flips q = true then 1 else 0) = s.onTheWay q := by
      have hholds := Pool.holds_done hd (Job.flips q)
      simp only [Bridge.onTheWay]
      omega
    cases j with
    | invoke d => exact h.same_record (fun _ => rfl) rfl rfl hway (fun _ => rfl) fun _ => rfl
    | flip r =>
      rw [Bridge.finishJob]
      split_ifs
      · exact h.write (fun _ => rfl) rfl rfl hway
      · exact h.write (Bridge.field_setRun _ HostRun.source rfl) rfl rfl hway
  | @finish r _ _ _ =>
    exact h.same_record (Bridge.field_setRun _ HostRun.source rfl) rfl rfl (fun _ => rfl) (fun _ => rfl) fun _ => rfl

theorem posted_of_reaches {n : ℕ} {cs : List Choice} (h : Reaches n cs s) : Posted s := by
  refine (h.invariant (I := fun s => Ledger s ∧ Posted s) (fun _ _ _ h _ hs => ?_) ?_).2
  · exact ⟨ledger_of_did (did_of_step hs) h.1, posted_of_did (did_of_step hs) h.1 h.2⟩
  · refine ⟨ledger_of_reaches (Run.nil _), ⟨fun _ _ hr => ?_, fun _ _ => rfl, fun r => ?_, fun r hr => ?_⟩⟩
    · cases hr
    · simp [Bridge.hooks, Bridge.taken, Bridge.writes, Bridge.onTheWay, Bridge.callbacks, Bridge.start, Pool.holds,
        Pool.queued, Pool.atWork, List.countP_replicate]
    · simp [Bridge.taken, Bridge.writes, Bridge.onTheWay, Bridge.start, Pool.holds,
        Pool.queued, Pool.atWork, List.countP_replicate] at hr

/-! ### The calls that wait, and their signal -/

/-- The call is of the run and past `cancel.OnCancel`. -/
def Call.waits (call : Call) (r : ℕ) : Bool := call.run = r ∧ call.stage ≠ .posted

/-- How many calls of the run are past `cancel.OnCancel`. -/
def Bridge.waiting (s : Bridge) (r : ℕ) : ℕ := (List.range s.nCalls).countP fun c => (s.calls c).waits r

theorem countP_range_change {f g : ℕ → Bool} {n c : ℕ} (hc : c < n) (hf : f c = false) (hg : g c = true)
    (hne : ∀ d ≠ c, g d = f d) : (List.range n).countP g = (List.range n).countP f + 1 := by
  induction n with
  | zero => cases hc
  | succ n ih =>
    rw [List.range_succ, List.countP_append, List.countP_append, List.countP_singleton, List.countP_singleton]
    by_cases hn : c = n
    · subst hn
      have hrest : (List.range c).countP g = (List.range c).countP f :=
        List.countP_congr fun d hd => by rw [hne d (List.mem_range.mp hd).ne]
      rw [hrest, hf, hg]
      rfl
    · rw [ih (by omega), hne n (Ne.symm hn)]
      omega

/-- `OnCancel` takes one callback, if there is a token. -/
theorem hooks_onCancel (s : Bridge) (r q : ℕ) :
    (s.onCancel r).hooks q = s.hooks q + if (s.runs r).source = none ∨ r ≠ q then 0 else 1 := by
  rw [Bridge.onCancel]
  split
  · rename_i hnone
    rw [if_pos (.inl hnone), Nat.add_zero]
  · rename_i id hid
    have hone : (if (Event.hooked r).hooks q = true then 1 else 0) =
        if (s.runs r).source = none ∨ r ≠ q then 0 else 1 := by
      by_cases hq : r = q
      · subst hq
        simp [Event.hooks, hid]
      · simp [Event.hooks, hq]
    rw [← hone]
    by_cases hc : (s.sources id).cancelled = true
    · rw [if_pos hc]
      exact Bridge.hooks_record _ _ q
    · rw [if_neg hc]
      exact Bridge.hooks_record _ _ q

/-- The calls that wait have given their callback to the token, if there is one. -/
structure Heard (s : Bridge) : Prop where
  made : ∀ c < s.nCalls, (s.calls c).run < s.nRuns
  hooks : ∀ r, s.hooks r = if (s.runs r).source = none then 0 else s.waiting r

namespace Heard

/-- No call begins to wait. -/
theorem same (h : Heard s) (hnCalls : s'.nCalls = s.nCalls) (hnRuns : s'.nRuns = s.nRuns)
    (hcalls : ∀ c, (s'.calls c).run = (s.calls c).run ∧ ((s'.calls c).stage = .posted ↔ (s.calls c).stage = .posted))
    (hruns : ∀ r, (s'.runs r).source = (s.runs r).source) (hhooks : ∀ r, s'.hooks r = s.hooks r) : Heard s' := by
  refine ⟨fun c hc => ?_, fun r => ?_⟩
  · rw [(hcalls c).1, hnRuns]
    exact h.made c (hnCalls ▸ hc)
  · have hwaiting : s'.waiting r = s.waiting r := by
      rw [Bridge.waiting, Bridge.waiting, hnCalls]
      refine List.countP_congr fun c _ => ?_
      simp only [Call.waits, (hcalls c).1, ne_eq, (hcalls c).2]
    rw [hhooks, hruns, hwaiting, h.hooks]

theorem start (h : Heard s) (hl : Ledger s) (id : ℤ) :
    Heard (({ s with nRuns := s.nRuns + 1 }.setRun s.nRuns
      { source := if id ≠ 0 ∧ id ∈ s.cancels then some id else none }).record (.began s.nRuns id)) := by
  refine ⟨fun c hc => (h.made c hc).trans (Nat.lt_succ_self _), fun r =>
    (Bridge.hooks_other rfl rfl).trans ((h.hooks r).trans ?_)⟩
  have hother {r : ℕ} (hr : r ≠ s.nRuns) := { s with nRuns := s.nRuns + 1 }.runs_setRun_of_ne
    { source := if id ≠ 0 ∧ id ∈ s.cancels then some id else none } hr
  by_cases hr : r = s.nRuns
  · subst hr
    have hnone : s.waiting s.nRuns = 0 := by
      refine List.countP_eq_zero.mpr fun c hc hwaits => ?_
      exact (h.made c (List.mem_range.mp hc)).ne (of_decide_eq_true hwaits).1
    rw [if_pos (hl.unborn _ le_rfl)]
    exact (ite_eq_left_iff.mpr fun _ => hnone).symm
  · exact congrArg (fun run : HostRun => if run.source = none then 0 else s.waiting r) (hother hr).symm

theorem call (h : Heard s) {r : ℕ} (hr : r < s.nRuns) (toolCallId args : String) :
    Heard ((({ s with nCalls := s.nCalls + 1 }.setCall s.nCalls { run := r, toolCallId, args }).post
        (.invoke s.nCalls)).record (.called s.nCalls r toolCallId args)) := by
  have hself := s.calls_setCall_self s.nCalls { run := r, toolCallId, args }
  have hother {c : ℕ} (hc : c < s.nCalls) := s.calls_setCall_of_ne { run := r, toolCallId, args } hc.ne
  refine ⟨fun c hc => ?_, fun q => (Bridge.hooks_other rfl rfl).trans ((h.hooks q).trans ?_)⟩
  · rcases Nat.lt_succ_iff_lt_or_eq.mp hc with hc | rfl
    · exact (congrArg Call.run (hother hc)).trans_lt (h.made c hc)
    · exact (congrArg Call.run hself).trans_lt hr
  · have hwaiting : (List.range (s.nCalls + 1)).countP (fun c =>
        ((s.setCall s.nCalls { run := r, toolCallId, args }).calls c).waits q) = s.waiting q := by
      have hnew : Call.waits { run := r, toolCallId, args } q = false := by simp [Call.waits]
      rw [List.range_succ, List.countP_append, List.countP_singleton, hself, hnew, if_neg Bool.false_ne_true,
        Nat.add_zero, Bridge.waiting]
      refine List.countP_congr fun c hc => ?_
      rw [hother (List.mem_range.mp hc)]
    exact congrArg (if (s.runs q).source = none then 0 else ·) hwaiting.symm

theorem hook (h : Heard s) {c : ℕ} (hc : c < s.nCalls) (hstage : (s.calls c).stage = .posted) :
    Heard ((s.setCall c { s.calls c with stage := .waiting }).onCancel (s.calls c).run) := by
  obtain ⟨hcalls, hnCalls, hruns, hnRuns, -⟩ :=
    did_onCancel (s.setCall c { s.calls c with stage := .waiting }) (s.calls c).run
  have hself := s.calls_setCall_self c { s.calls c with stage := .waiting }
  have hother {d : ℕ} (hd : d ≠ c) := s.calls_setCall_of_ne { s.calls c with stage := .waiting } hd
  refine ⟨fun d hd => ?_, fun q => ?_⟩
  · rw [hnRuns, hcalls]
    rw [hnCalls] at hd
    by_cases hdc : d = c
    · subst hdc
      exact (congrArg Call.run hself).trans_lt (h.made d hc)
    · exact (congrArg Call.run (hother hdc)).trans_lt (h.made d hd)
  · have hwaiting : ((s.setCall c { s.calls c with stage := .waiting }).onCancel (s.calls c).run).waiting q =
        s.waiting q + if (s.calls c).run = q then 1 else 0 := by
      rw [Bridge.waiting, hnCalls, hcalls]
      by_cases hq : (s.calls c).run = q
      · rw [if_pos hq]
        refine countP_range_change (c := c) hc ?_ ?_ fun d hd => by rw [hother hd]
        · simp [Call.waits, hstage]
        · rw [hself]
          simp [Call.waits, hq]
      · rw [if_neg hq]
        refine List.countP_congr fun d _ => ?_
        by_cases hd : d = c
        · rw [hd, hself]
          simp [Call.waits, hq]
        · rw [hother hd]
    have hhooks := hooks_onCancel (s.setCall c { s.calls c with stage := .waiting }) (s.calls c).run q
    have hold : (s.setCall c { s.calls c with stage := .waiting }).hooks q = s.hooks q := rfl
    have hsource : (s.setCall c { s.calls c with stage := .waiting }).runs = s.runs := rfl
    rw [hhooks, hruns, hsource, hold, hwaiting, h.hooks]
    by_cases hq : (s.calls c).run = q
    · subst hq
      by_cases hnone : (s.runs (s.calls c).run).source = none <;> simp [hnone]
    · simp [hq]

end Heard

/-- **What a step does to the calls that wait.** -/
theorem heard_of_did {a : Choice} (hd : Did s a s') (hl : Ledger s) (h : Heard s) : Heard s' := by
  have hkeep (c : ℕ) :
      (s.calls c).run = (s.calls c).run ∧ ((s.calls c).stage = .posted ↔ (s.calls c).stage = .posted) :=
    ⟨rfl, Iff.rfl⟩
  cases hd with
  | newCancel | cancel | cancelAgain | freeCancel =>
    exact h.same rfl rfl hkeep (fun _ => rfl) fun _ => Bridge.hooks_other rfl rfl
  | fire | fired => exact h.same rfl rfl hkeep (fun _ => rfl) fun _ => rfl
  | @start id => exact h.start hl id
  | call hr => exact h.call hr _ _
  | hook hc hstage => exact h.hook hc hstage
  | @take w j p _ =>
    cases j with
    | invoke d => exact h.same rfl rfl hkeep (fun _ => rfl) fun _ => Bridge.hooks_other rfl rfl
    | flip r => exact h.same rfl rfl hkeep (fun _ => rfl) fun _ => rfl
  | @done w u j p _ =>
    cases j with
    | invoke d =>
      refine h.same rfl rfl (fun c => ⟨?_, ?_⟩) (fun _ => rfl) fun _ => Bridge.hooks_other rfl rfl
      · refine s.field_setCall Call.run { s.calls d with completion := some u.result } ?_ c
        rfl
      · refine (s.field_setCall (·.stage = .posted) { s.calls d with completion := some u.result } ?_ c).to_iff
        rfl
    | flip r =>
      rw [Bridge.finishJob]
      split_ifs
      · exact h.same rfl rfl hkeep (fun _ => rfl) fun _ => Bridge.hooks_other rfl rfl
      · exact h.same rfl rfl hkeep (Bridge.field_setRun _ HostRun.source rfl) fun _ => Bridge.hooks_other rfl rfl
  | @receive d result hstage _ =>
    refine h.same rfl rfl (fun c => ⟨?_, ?_⟩) (fun _ => rfl) fun _ => Bridge.hooks_other rfl rfl
    · refine s.field_setCall Call.run _ ?_ c
      rfl
    · refine (s.field_setCall (·.stage = .posted) _ ?_ c).to_iff
      simp [hstage]
  | @finish r _ _ _ =>
    exact h.same rfl rfl hkeep (Bridge.field_setRun _ HostRun.source rfl) fun _ => Bridge.hooks_other rfl rfl

/-- The signal of a run is set by the workers. -/
structure Signals (s : Bridge) : Prop where
  written : ∀ r, (s.runs r).cancelled = true ↔ .wrote r true ∈ s.log
  unborn : ∀ r, s.nRuns ≤ r → (s.runs r).cancelled = false

theorem Signals.same (h : Signals s) (hnRuns : s.nRuns ≤ s'.nRuns)
    (hruns : ∀ r, (s'.runs r).cancelled = (s.runs r).cancelled)
    (hlog : ∀ r, .wrote r true ∈ s'.log ↔ .wrote r true ∈ s.log) : Signals s' := by
  refine ⟨fun r => ?_, fun r hr => ?_⟩
  · rw [hruns, hlog, h.written]
  · rw [hruns]
    exact h.unborn r (hnRuns.trans hr)

/-- A worker writes to the signal of a run. -/
theorem Signals.write (h : Signals s) {r : ℕ} (hr : r < s.nRuns) {s₁ : Bridge} (hnRuns : s₁.nRuns = s.nRuns)
    (hruns : s₁.runs = (s.setRun r { s.runs r with cancelled := true }).runs) (hlog : s₁.log = s.log) :
    Signals (s₁.record (.wrote r true)) := by
  have hself : (s₁.runs r).cancelled = true := by rw [hruns, s.runs_setRun_self]
  have hother {q : ℕ} (hq : q ≠ r) : s₁.runs q = s.runs q := by rw [hruns, s.runs_setRun_of_ne _ hq]
  refine ⟨fun q => ?_, fun q hq => ?_⟩
  · by_cases hne : q = r
    · subst hne
      exact iff_of_true hself (List.mem_append_right _ (List.mem_singleton_self _))
    · rw [mem_record _ (by simpa using hne), hlog, ← h.written, ← hother hne]
      rfl
  · exact (congrArg HostRun.cancelled (hother (hr.trans_le (hnRuns ▸ hq)).ne')).trans (h.unborn q (hnRuns ▸ hq))

/-- **What a step does to the signals.** -/
theorem signals_of_did {a : Choice} (hd : Did s a s') (hl : Ledger s) (hp : Posted s) (h : Signals s) : Signals s' := by
  cases hd with
  | newCancel | cancel | cancelAgain | freeCancel | call | receive =>
    exact h.same le_rfl (fun _ => rfl) fun r => mem_record _ (by simp)
  | fire | fired => exact h.same le_rfl (fun _ => rfl) fun _ => Iff.rfl
  | @start id =>
    refine h.same (Nat.le_succ _) (Bridge.field_setRun _ HostRun.cancelled ?_) fun r => mem_record _ (by simp)
    exact (h.unborn s.nRuns le_rfl).symm
  | @hook c _ _ =>
    obtain ⟨-, -, hruns, hnRuns, hlog⟩ :=
      did_onCancel (s.setCall c { s.calls c with stage := .waiting }) (s.calls c).run
    exact h.same hnRuns.ge (fun r => by rw [hruns]; rfl) fun r => hlog (.wrote r true) (by simp)
  | @take w j p _ =>
    cases j with
    | invoke d => exact h.same le_rfl (fun _ => rfl) fun r => mem_record _ (by simp)
    | flip r => exact h.same le_rfl (fun _ => rfl) fun _ => Iff.rfl
  | @done w u j p hd =>
    cases j with
    | invoke d => exact h.same le_rfl (fun _ => rfl) fun r => mem_record _ (by simp)
    | flip r =>
      rw [Bridge.finishJob]
      split_ifs
      · exact h.same le_rfl (fun _ => rfl) fun r => mem_record _ (by simp)
      · refine h.write (not_le.mp fun hle => ?_) rfl rfl rfl
        obtain ⟨id, hid, -⟩ := hp.moved r (Posted.taken_pos hd)
        cases hid.symm.trans (hl.unborn r hle)
  | @finish r _ _ _ =>
    exact h.same le_rfl (Bridge.field_setRun _ HostRun.cancelled rfl) fun r => mem_record _ (by simp)

/-- What holds in every state about a cancel. -/
structure Cancels (s : Bridge) : Prop where
  ledger : Ledger s
  posted : Posted s
  heard : Heard s
  signals : Signals s

theorem cancels_of_did {a : Choice} (hd : Did s a s') (h : Cancels s) : Cancels s' :=
  ⟨ledger_of_did hd h.ledger, posted_of_did hd h.ledger h.posted, heard_of_did hd h.ledger h.heard,
    signals_of_did hd h.ledger h.posted h.signals⟩

theorem cancels_of_reaches {n : ℕ} {cs : List Choice} (h : Reaches n cs s) : Cancels s := by
  refine h.invariant (I := Cancels) (fun _ _ _ h _ hs => cancels_of_did (did_of_step hs) h)
    ⟨ledger_of_reaches (Run.nil _), posted_of_reaches (Run.nil _), ?_, ?_⟩
  · exact ⟨fun _ hc => absurd hc (Nat.not_lt_zero _), fun _ => rfl⟩
  · exact ⟨fun r => by simp [Bridge.start], fun _ _ => rfl⟩

end Jni
end AgentFlow
