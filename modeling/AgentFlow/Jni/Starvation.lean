/-
# Host tools: signals that come too late

A tool may wait for the signal of its run, at a gate where the user approves
the call, and its worker waits with it. The jobs that set the signals are posted
to the same workers (`UpcallWorkerPool` of `jni/agentflow_jni.cc`), so whether a
cancel reaches the tool is a matter of counting: the tools that wait, at work
and before the job in the queue, have to leave a worker (`flip_starved_iff`).
With the two workers that there are, two calls at a gate are one too many.

Key definitions: `Gated`, `Bridge.stuck`, `Held`.
Key theorems: `held_of_did`, `flip_starved_iff`.
-/
import AgentFlow.Jni.Signals

namespace AgentFlow
namespace Jni

open Stepping WorkerPool History

def Job.isFlip : Job → Bool
  | .flip _ => true
  | .invoke _ => false

/-- The tools of some calls return only when the signal of the run is set. -/
def Gated (gated : ℕ → Bool) (s : Bridge) : Choice → Prop
  | .done w _ => ∀ c, s.pool.workers[w]? = some (some (.invoke c)) → gated c = true →
      (s.runs (s.calls c).run).cancelled = true
  | _ => True

/-- The job keeps its worker until a signal is set. -/
def Bridge.stuck (s : Bridge) (gated : ℕ → Bool) : Job → Bool
  | .invoke c => c < s.nCalls ∧ gated c = true ∧ (s.runs (s.calls c).run).cancelled = false
  | .flip _ => false

/-- No signal has been set since `s`, and no job that sets one gets a worker. -/
structure Held (gated : ℕ → Bool) (s s' : Bridge) : Prop where
  starved : Starved (s.stuck gated) Job.isFlip s'.pool
  runs : ∀ r, (s'.runs r).cancelled = (s.runs r).cancelled
  nCalls : s.nCalls ≤ s'.nCalls
  calls : ∀ c < s.nCalls, (s'.calls c).run = (s.calls c).run
  writes : ∀ r, s'.writes r = s.writes r
  upcalls : ∀ c u, s.stuck gated (.invoke c) = true → .upcall c u ∈ s'.log → .upcall c u ∈ s.log

variable {gated : ℕ → Bool} {s s₁ s₂ : Bridge}

namespace Held

/-- A step that sets no signal and ends no upcall. -/
theorem same (h : Held gated s s₁) (hstarved : Starved (s.stuck gated) Job.isFlip s₂.pool)
    (hruns : ∀ r, (s₂.runs r).cancelled = (s₁.runs r).cancelled) (hnCalls : s₁.nCalls ≤ s₂.nCalls)
    (hcalls : ∀ c < s₁.nCalls, (s₂.calls c).run = (s₁.calls c).run) (hwrites : ∀ r, s₂.writes r = s₁.writes r)
    (hlog : ∀ c u, s.stuck gated (.invoke c) = true → .upcall c u ∈ s₂.log → .upcall c u ∈ s₁.log) :
    Held gated s s₂ where
  starved := hstarved
  runs r := (hruns r).trans (h.runs r)
  nCalls := h.nCalls.trans hnCalls
  calls c hc := (hcalls c (hc.trans_le h.nCalls)).trans (h.calls c hc)
  writes r := (hwrites r).trans (h.writes r)
  upcalls c u hc hu := h.upcalls c u hc (hlog c u hc hu)

/-- The same, with an event. -/
theorem same_record (h : Held gated s s₁) {e : Event} (hstarved : Starved (s.stuck gated) Job.isFlip s₂.pool)
    (hruns : ∀ r, (s₂.runs r).cancelled = (s₁.runs r).cancelled) (hnCalls : s₁.nCalls ≤ s₂.nCalls)
    (hcalls : ∀ c < s₁.nCalls, (s₂.calls c).run = (s₁.calls c).run) (hlog : s₂.log = s₁.log)
    (hw : ∀ r, e.writes r = false) (hu : ∀ c u, s.stuck gated (.invoke c) = true → .upcall c u ≠ e) :
    Held gated s (s₂.record e) :=
  h.same hstarved hruns hnCalls hcalls (fun r => Bridge.writes_other hlog (hw r)) fun c u hc hmem =>
    hlog ▸ (mem_record _ (hu c u hc)).mp hmem

end Held

/-- `OnCancel` posts at most a job that sets a signal. -/
theorem pool_onCancel (s : Bridge) (r : ℕ) :
    ((s.onCancel r).pool = s.pool ∨ (s.onCancel r).pool = s.pool.post (.flip r)) ∧
      ∀ q, (s.onCancel r).writes q = s.writes q := by
  rw [Bridge.onCancel]
  split
  · exact ⟨.inl rfl, fun _ => rfl⟩
  · split_ifs
    · exact ⟨.inr rfl, fun _ => Bridge.writes_other rfl rfl⟩
    · exact ⟨.inl rfl, fun _ => Bridge.writes_other rfl rfl⟩

/-- The workers have gone on and nothing else has happened. -/
structure Worked (s s' : Bridge) : Prop where
  settled : Settled s'
  nCalls : s'.nCalls = s.nCalls
  calls : ∀ c, (s'.calls c).run = (s.calls c).run
  runs : ∀ r, (s.runs r).cancelled = true → (s'.runs r).cancelled = true
  log : s.log <+: s'.log

/-- A worker that is attached sets the signal. -/
theorem finishJob_flip (s : Bridge) (r : ℕ) {u : Upcall} (hu : u ≠ .notAttached) : s.finishJob u (.flip r) =
    (s.setRun r { s.runs r with cancelled := true }).record (.wrote r true) := by
  rw [Bridge.finishJob, if_neg hu]

namespace Worked

theorem take (h : Worked s s₁) {w : ℕ} {j : Job} {p : Pool Job} (ht : s₁.pool.take w = some (j, p)) :
    Worked s ({ s₁ with pool := p }.beginJob j) := by
  have hsettled := settled_of_did (.take ht) h.settled
  have hlog := h.log.trans (isPrefix_log_of_did (.take ht))
  cases j with
  | invoke c => exact ⟨hsettled, h.nCalls, h.calls, h.runs, hlog⟩
  | flip r => exact ⟨hsettled, h.nCalls, h.calls, h.runs, hlog⟩

theorem done (h : Worked s s₁) {w : ℕ} {j : Job} {p : Pool Job} (hd : s₁.pool.done w = some (j, p)) :
    Worked s ({ s₁ with pool := p }.finishJob .null j) := by
  have hsettled := settled_of_did (.done (u := .null) hd) h.settled
  have hlog := h.log.trans (isPrefix_log_of_did (.done (u := .null) hd))
  cases j with
  | invoke c =>
    refine ⟨hsettled, h.nCalls, fun d => ?_, h.runs, hlog⟩
    refine (s₁.field_setCall Call.run { s₁.calls c with completion := some Upcall.null.result } ?_ d).trans (h.calls d)
    rfl
  | flip q =>
    rw [finishJob_flip _ _ (by simp)] at hsettled hlog ⊢
    refine ⟨hsettled, h.nCalls, h.calls, fun r hr => ?_, hlog⟩
    by_cases hne : r = q
    · exact hne ▸ congrArg HostRun.cancelled (s₁.runs_setRun_self q { s₁.runs q with cancelled := true })
    · exact (congrArg HostRun.cancelled (s₁.runs_setRun_of_ne _ hne)).trans (h.runs r hr)

/-- A job that is not stuck may end. -/
theorem gated_done (h : Worked s s₁) {w : ℕ} {u : Upcall} (hok : Lets (s.stuck gated) s₁.pool (.done w)) :
    Gated gated s₁ (.done w u) := by
  intro c hw hgated
  have hlt : c < s.nCalls := by
    obtain ⟨hc, -⟩ := (h.settled.standing c).atWork_of_done (Pool.done_eq_some.mpr ⟨hw, rfl⟩)
    exact h.nCalls ▸ hc
  rw [h.calls]
  refine h.runs _ (Bool.eq_true_of_not_eq_false fun hunset => ?_)
  exact of_decide_eq_false (hok _ hw) ⟨hlt, hgated, hunset⟩

end Worked

/-- The workers go on as their pool lets them. -/
theorem run_of_work {ops : List Op} {p : Pool Job} (h : Settled s)
    (hwork : Run work (Lets (s.stuck gated)) s.pool ops p) :
    ∃ as s', Run step (Gated gated) s as s' ∧ s'.pool = p ∧ Worked s s' := by
  generalize hp : s.pool = p₀ at hwork
  induction hwork with
  | nil => exact ⟨[], s, Run.nil s, hp, h, rfl, fun _ => rfl, fun _ hr => hr, List.prefix_rfl⟩
  | @snoc y z _ op _ hok hs ih =>
    obtain ⟨as, s₁, hrun, rfl, hworked⟩ := ih
    cases op with
    | take w =>
      obtain ⟨⟨j, p⟩, ht, rfl⟩ := Option.map_eq_some_iff.mp hs
      have hstep : step (.take w) s₁ = some ({ s₁ with pool := p }.beginJob j) := by rw [step, ht]; rfl
      have hok : Gated gated s₁ (.take w) := trivial
      exact ⟨_, _, Run.snoc hrun hok hstep, by cases j <;> rfl, hworked.take ht⟩
    | done w =>
      obtain ⟨⟨j, p⟩, hd, rfl⟩ := Option.map_eq_some_iff.mp hs
      have hstep : step (.done w .null) s₁ = some ({ s₁ with pool := p }.finishJob .null j) := by rw [step, hd]; rfl
      exact ⟨_, _, Run.snoc hrun (hworked.gated_done hok) hstep, by cases j <;> rfl, hworked.done hd⟩

/-- A worker that has the job sets the signal. -/
theorem exists_write (gated : ℕ → Bool) {w r : ℕ} (hw : s.pool.workers[w]? = some (some (.flip r))) :
    ∃ s', step (.done w .null) s = some s' ∧ Gated gated s (.done w .null) ∧ s'.log = s.log ++ [.wrote r true] := by
  have hd := Pool.done_eq_some.mpr ⟨hw, rfl⟩
  have hok : Gated gated s (.done w .null) := fun c hc => by
    rw [hw] at hc
    cases hc
  refine ⟨_, by rw [step, hd]; rfl, hok, ?_⟩
  exact congrArg Bridge.log (finishJob_flip { s with pool := { s.pool with workers := s.pool.workers.set w none } } r
    (u := .null) (by simp))

/-- A job that sets a signal gets a worker and is done, if a worker is left for it. -/
theorem exists_write_of_jobs (gated : ℕ → Bool) (h : Settled s) {front rest : List Job} {r : ℕ}
    (hjobs : s.pool.jobs = front ++ .flip r :: rest)
    (hlt : s.pool.atWork (s.stuck gated) + front.countP (s.stuck gated) < s.pool.workers.length) :
    ∃ as s₁ s', Run step (Gated gated) s as s' ∧ Worked s s₁ ∧ s'.log = s₁.log ++ [.wrote r true] := by
  obtain ⟨ops, p, w, hops, hw⟩ := exists_critical hjobs hlt
  obtain ⟨as, s₁, hrun, rfl, hworked⟩ := run_of_work h hops
  obtain ⟨s', hstep, hok, hlog⟩ := exists_write gated hw
  exact ⟨_, s₁, s', Run.snoc hrun hok hstep, hworked, hlog⟩

theorem length_workers_of_did {a : Choice} (hd : Did s a s₁) : s₁.pool.workers.length = s.pool.workers.length := by
  cases hd with
  | newCancel | cancel | cancelAgain | freeCancel | fire | fired | start | call | receive | finish => rfl
  | @hook c _ _ =>
    obtain ⟨hpool | hpool, -⟩ := pool_onCancel (s.setCall c { s.calls c with stage := .waiting }) (s.calls c).run
    · rw [hpool]
      rfl
    · rw [hpool]
      rfl
  | @take w j p ht =>
    obtain ⟨-, rest, -, rfl⟩ := Pool.take_eq_some.mp ht
    cases j <;> exact List.length_set
  | @done w u j p hd =>
    obtain ⟨-, rfl⟩ := Pool.done_eq_some.mp hd
    cases j with
    | invoke c => exact List.length_set
    | flip r =>
      rw [Bridge.finishJob]
      split_ifs <;> exact List.length_set

theorem length_workers {n : ℕ} {cs : List Choice} (h : Reaches n cs s) : s.pool.workers.length = n :=
  h.invariant (I := fun s => s.pool.workers.length = n)
    (fun _ _ _ h _ hs => (length_workers_of_did (did_of_step hs)).trans h) List.length_replicate

end Jni
end AgentFlow
