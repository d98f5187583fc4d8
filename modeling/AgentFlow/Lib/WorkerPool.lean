/-
# Pools of workers with one queue

A worker that is free takes the first job of the queue, and is free again when
the job has ended. No job is lost or doubled on the way (`holds`). Some jobs
are stuck: they end only when a job of another kind, a critical one, has been
taken. Whether that can happen is a matter of counting: the stuck jobs at work
and before the first critical one have to leave a worker (`exists_critical`,
`Starved`).

Key definitions: `Pool`, `Pool.holds`, `Starved`.
Key theorems: `Starved.take`, `exists_critical`.
-/
import AgentFlow.Lib.Run

namespace WorkerPool

open Stepping

structure Pool (J : Type*) where
  jobs : List J := []
  workers : List (Option J)

variable {J : Type*}

namespace Pool

def post (p : Pool J) (j : J) : Pool J := { p with jobs := p.jobs ++ [j] }

/-- A free worker takes the first job. -/
def take (w : ℕ) (p : Pool J) : Option (J × Pool J) :=
  match p.workers[w]?, p.jobs with
  | some none, j :: rest => some (j, ⟨rest, p.workers.set w (some j)⟩)
  | _, _ => none

/-- The job of a worker ends. -/
def done (w : ℕ) (p : Pool J) : Option (J × Pool J) :=
  match p.workers[w]? with
  | some (some j) => some (j, { p with workers := p.workers.set w none })
  | _ => none

variable {p p' : Pool J} {w : ℕ} {j : J}

theorem take_eq_some : p.take w = some (j, p') ↔ p.workers[w]? = some none ∧
    ∃ rest, p.jobs = j :: rest ∧ p' = ⟨rest, p.workers.set w (some j)⟩ := by
  constructor
  · intro h
    rw [take] at h
    split at h
    · rename_i hw hjobs
      obtain ⟨rfl, rfl⟩ := Prod.mk.inj (Option.some.inj h)
      exact ⟨hw, _, hjobs, rfl⟩
    · cases h
  · rintro ⟨hw, rest, hjobs, rfl⟩
    rw [take, hw, hjobs]

theorem done_eq_some : p.done w = some (j, p') ↔
    p.workers[w]? = some (some j) ∧ p' = { p with workers := p.workers.set w none } := by
  constructor
  · intro h
    rw [done] at h
    split at h
    · rename_i hw
      obtain ⟨rfl, rfl⟩ := Prod.mk.inj (Option.some.inj h)
      exact ⟨hw, rfl⟩
    · cases h
  · rintro ⟨hw, rfl⟩
    rw [done, hw]

/-! ### What is in the pool -/

/-- How often a job of a kind waits in the queue. -/
def queued (p : Pool J) (f : J → Bool) : ℕ := p.jobs.countP f

/-- How often a job of a kind is at work. -/
def atWork (p : Pool J) (f : J → Bool) : ℕ := p.workers.countP (·.any f)

def holds (p : Pool J) (f : J → Bool) : ℕ := p.queued f + p.atWork f

theorem countP_set {α : Type*} {l : List α} {i : ℕ} {a b : α} (h : l[i]? = some a) (f : α → Bool) :
    (l.set i b).countP f + (if f a then 1 else 0) = l.countP f + (if f b then 1 else 0) := by
  induction l generalizing i with
  | nil => cases h
  | cons c l ih =>
    cases i with
    | zero =>
      obtain rfl : c = a := Option.some.inj h
      rw [List.set_cons_zero, List.countP_cons, List.countP_cons]
      omega
    | succ i =>
      have hrest := ih (i := i) h
      rw [List.set_cons_succ, List.countP_cons, List.countP_cons]
      omega

/-- A free worker gets a job. -/
theorem countP_begin {l : List (Option J)} (h : l[w]? = some none) (j : J) (f : J → Bool) :
    (l.set w (some j)).countP (·.any f) = l.countP (·.any f) + (if f j then 1 else 0) := by
  have hcount := countP_set (b := some j) h (·.any f)
  simpa only [Option.any_none, Option.any_some, Bool.false_eq_true, if_false, Nat.add_zero] using hcount

/-- A worker gets free. -/
theorem countP_end {l : List (Option J)} (h : l[w]? = some (some j)) (f : J → Bool) :
    (l.set w none).countP (·.any f) + (if f j then 1 else 0) = l.countP (·.any f) := by
  have hcount := countP_set (b := none) h (·.any f)
  simpa only [Option.any_none, Option.any_some, Bool.false_eq_true, if_false, Nat.add_zero] using hcount

theorem queued_post (p : Pool J) (j : J) (f : J → Bool) :
    (p.post j).queued f = p.queued f + (if f j then 1 else 0) := by
  simp only [queued, post, List.countP_append, List.countP_singleton]

theorem queued_take (h : p.take w = some (j, p')) (f : J → Bool) :
    p'.queued f + (if f j then 1 else 0) = p.queued f := by
  obtain ⟨-, rest, hjobs, rfl⟩ := take_eq_some.mp h
  rw [queued, queued, hjobs, List.countP_cons]

theorem atWork_take (h : p.take w = some (j, p')) (f : J → Bool) :
    p'.atWork f = p.atWork f + (if f j then 1 else 0) := by
  obtain ⟨hw, rest, -, rfl⟩ := take_eq_some.mp h
  exact countP_begin hw j f

theorem atWork_done (h : p.done w = some (j, p')) (f : J → Bool) :
    p'.atWork f + (if f j then 1 else 0) = p.atWork f := by
  obtain ⟨hw, rfl⟩ := done_eq_some.mp h
  exact countP_end hw f

theorem jobs_done (h : p.done w = some (j, p')) : p'.jobs = p.jobs := by
  obtain ⟨-, rfl⟩ := done_eq_some.mp h
  rfl

theorem holds_post (p : Pool J) (j : J) (f : J → Bool) :
    (p.post j).holds f = p.holds f + (if f j then 1 else 0) := by
  have hwork : (p.post j).atWork f = p.atWork f := rfl
  rw [holds, holds, queued_post, hwork]
  omega

theorem holds_take (h : p.take w = some (j, p')) (f : J → Bool) : p'.holds f = p.holds f := by
  have hqueue := queued_take h f
  have hwork := atWork_take h f
  rw [holds, holds]
  omega

theorem holds_done (h : p.done w = some (j, p')) (f : J → Bool) :
    p'.holds f + (if f j then 1 else 0) = p.holds f := by
  have hwork := atWork_done h f
  rw [holds, holds, queued, queued, jobs_done h]
  omega

end Pool

/-! ### Stuck jobs -/

variable (stuck critical : J → Bool)

/-- The stuck jobs at work and at the front of the queue, before any critical one, take all workers. -/
def Starved (p : Pool J) : Prop :=
  ∃ front rest, p.jobs = front ++ rest ∧ (∀ j ∈ front, critical j = false) ∧
    (∀ j, some j ∈ p.workers → critical j = false) ∧
    p.workers.length ≤ p.atWork stuck + front.countP stuck

variable {stuck critical} {p p' : Pool J} {w : ℕ} {j : J}

theorem Starved.post (h : Starved stuck critical p) (j : J) : Starved stuck critical (p.post j) := by
  obtain ⟨front, rest, hjobs, hfront, hwork, hle⟩ := h
  refine ⟨front, rest ++ [j], ?_, hfront, hwork, hle⟩
  rw [Pool.post, hjobs, List.append_assoc]

/-- No worker is free once the stuck jobs are at work. -/
theorem none_notMem_workers (hle : p.workers.length ≤ p.atWork stuck) : none ∉ p.workers := by
  intro hmem
  have hall := List.countP_eq_length.mp (le_antisymm List.countP_le_length hle) _ hmem
  cases hall

/-- The job that is taken is not critical. -/
theorem Starved.take (h : Starved stuck critical p) (ht : p.take w = some (j, p')) :
    critical j = false ∧ Starved stuck critical p' := by
  obtain ⟨front, rest, hjobs, hfront, hwork, hle⟩ := h
  obtain ⟨hw, tail, hhead, rfl⟩ := Pool.take_eq_some.mp ht
  cases front with
  | nil => exact absurd (List.mem_of_getElem? hw) (none_notMem_workers hle)
  | cons i front =>
    obtain ⟨rfl, rfl⟩ := List.cons.inj (hhead.symm.trans hjobs)
    rw [List.forall_mem_cons] at hfront
    refine ⟨hfront.1, front, rest, rfl, hfront.2, fun i hi => ?_, ?_⟩
    · rcases List.mem_or_eq_of_mem_set hi with hi | hi
      · exact hwork i hi
      · exact Option.some.inj hi ▸ hfront.1
    · rw [List.countP_cons] at hle
      rw [List.length_set, Pool.atWork, Pool.countP_begin hw]
      rw [Pool.atWork] at hle
      omega

/-- A job that is not stuck ends. -/
theorem Starved.done (h : Starved stuck critical p) (hd : p.done w = some (j, p')) (hj : stuck j = false) :
    critical j = false ∧ Starved stuck critical p' := by
  obtain ⟨front, rest, hjobs, hfront, hwork, hle⟩ := h
  obtain ⟨hw, rfl⟩ := Pool.done_eq_some.mp hd
  have hcount := Pool.countP_end hw stuck
  rw [hj, if_neg Bool.false_ne_true, Nat.add_zero] at hcount
  refine ⟨hwork j (List.mem_of_getElem? hw), front, rest, hjobs, hfront, fun i hi => ?_, ?_⟩
  · rcases List.mem_or_eq_of_mem_set hi with hi | hi
    · exact hwork i hi
    · cases hi
  · rw [List.length_set, Pool.atWork, hcount]
    exact hle

/-! ### A worker for the critical job -/

inductive Op
  | take (w : ℕ)
  | done (w : ℕ)

/-- What a pool does by itself. -/
def work : Op → Pool J → Option (Pool J)
  | .take w, p => (p.take w).map (·.2)
  | .done w, p => (p.done w).map (·.2)

variable (stuck) in
/-- Jobs that are stuck do not end. -/
def Lets (p : Pool J) : Op → Prop
  | .take _ => True
  | .done w => ∀ j, p.workers[w]? = some (some j) → stuck j = false

/-- Unless all workers have stuck jobs, one of them gets free. -/
theorem exists_free (stuck : J → Bool) (h : p.atWork stuck < p.workers.length) :
    ∃ (ops : List Op) (p' : Pool J) (w : ℕ), Run work (Lets stuck) p ops p' ∧ p'.workers[w]? = some none ∧
      p'.jobs = p.jobs ∧ p'.workers.length = p.workers.length ∧ p'.atWork stuck = p.atWork stuck := by
  obtain ⟨o, ho, hfree⟩ : ∃ o ∈ p.workers, ¬ o.any stuck = true := by
    by_contra hnone
    have hall : ∀ o ∈ p.workers, o.any stuck = true := fun o ho => by_contra fun hfree => hnone ⟨o, ho, hfree⟩
    exact absurd (List.countP_eq_length.mpr hall) h.ne
  obtain ⟨w, hw, rfl⟩ := List.getElem_of_mem ho
  have hget : p.workers[w]? = some p.workers[w] := List.getElem?_eq_getElem hw
  cases hjob : p.workers[w] with
  | none => exact ⟨[], p, w, Run.nil p, by rw [hget, hjob], rfl, rfl, rfl⟩
  | some j =>
    rw [hjob] at hget hfree
    have hj : stuck j = false := Bool.eq_false_iff.mpr hfree
    have hdone := Pool.done_eq_some.mpr ⟨hget, rfl⟩
    have hcount := Pool.countP_end hget stuck
    rw [hj, if_neg Bool.false_ne_true, Nat.add_zero] at hcount
    refine ⟨[.done w], { p with workers := p.workers.set w none }, w,
      Run.cons (fun i hi => ?_) (by rw [work, hdone]; rfl) (Run.nil _), ?_, rfl, ?_, hcount⟩
    · rw [hget] at hi
      exact Option.some.inj (Option.some.inj hi) ▸ hj
    · rw [List.getElem?_set_self hw]
    · rw [List.length_set]

/-- A free worker takes the job it finds. -/
theorem run_take (hfree : p.workers[w]? = some none) {rest : List J} (hjobs : p.jobs = j :: rest) :
    Run work (Lets stuck) p [.take w] ⟨rest, p.workers.set w (some j)⟩ := by
  have hok : Lets stuck p (.take w) := trivial
  exact Run.cons hok (by rw [work, Pool.take_eq_some.mpr ⟨hfree, rest, hjobs, rfl⟩]; rfl) (Run.nil _)

/-- **A critical job is taken** after some work, if the stuck jobs leave a worker for it. -/
theorem exists_critical {front rest : List J} {c : J} (hjobs : p.jobs = front ++ c :: rest)
    (h : p.atWork stuck + front.countP stuck < p.workers.length) :
    ∃ (ops : List Op) (p' : Pool J) (w : ℕ), Run work (Lets stuck) p ops p' ∧ p'.workers[w]? = some (some c) := by
  induction front generalizing p with
  | nil =>
    obtain ⟨ops, p₁, w, hrun, hfree, hsame, -, -⟩ := exists_free stuck (p := p) h
    refine ⟨ops ++ [.take w], _, w, hrun.append (run_take hfree (hsame.trans hjobs)), ?_⟩
    rw [List.getElem?_set_self (List.getElem?_eq_some_iff.mp hfree).1]
  | cons j front ih =>
    rw [List.countP_cons] at h
    obtain ⟨ops, p₁, w, hrun, hfree, hsame, hlen, hcount⟩ := exists_free stuck (p := p) (by omega)
    have hset := Pool.countP_begin hfree j stuck
    have hless : (p₁.workers.set w (some j)).countP (·.any stuck) + front.countP stuck <
        (p₁.workers.set w (some j)).length := by
      rw [List.length_set, hset]
      simp only [Pool.atWork] at hcount h
      omega
    obtain ⟨ops', p₂, w', hrun', hwork⟩ := ih (p := ⟨front ++ c :: rest, p₁.workers.set w (some j)⟩) rfl hless
    exact ⟨_, p₂, w', (hrun.append (run_take hfree (hsame.trans hjobs))).append hrun', hwork⟩

end WorkerPool
