/-
# What a failure stops

When a node throws, the exception is kept in `first_error_` and the nodes in
flight go on; the loop throws once none is left. It does not stop draining
before that: a scan that finds a node ready launches it, failure or not, and
so does the rest of a batch in which a node threw inline. A run in which
neither happens (`calm`) stops at its first failure (`FailStop`), and a run
that has stopped so was calm.

Key definitions: `calm`, `FailStop`.
-/
import AgentFlow.Core.Resume

namespace AgentFlow

variable {L : Libs}

open History Stepping

/-! ### Calm runs -/

/-- No node throws inline while its batch is still being launched, and no
scan after a failure finds a node ready. -/
def calm (S : Setup) (x : Exec L) : Choice L → Bool
  | .finish _ (.error _) _ =>
    match x.pc with
    | .launching (_ :: _) _ => false
    | _ => true
  | .main =>
    match x.pc with
    | .scan => x.impl.firstError.isNone || (ready S x.impl).isEmpty
    | _ => true
  | _ => true

def Choice.isCancel : Choice L → Bool
  | .cancel => true
  | _ => false

/-- What the run does once a node has thrown. -/
structure FailStop (S : Setup) (loop : Loop) (cs : List (Choice L)) (y : Exec L) : Prop where
  /-- Nothing is launched any more. -/
  quiet : ∀ p n q, y.log = p ++ .nodeFailed n :: q → ∀ v, .launch v ∉ q
  /-- The run does not get stuck: the loop moves on, or a node in flight ends, however it does. -/
  goesOn : y.pc.finished = false → ∀ res, ∃ c z,
    (c = .main ∨ c = .start ∨ c = .finish 0 res none) ∧ step S loop c y = some z
  /-- Without a launch it is soon over. -/
  soon : ∀ cs' z, Run (step S loop) (fun x c => launches x c = false) y cs' z →
    (cs'.filter fun c => !c.isCancel).length ≤ load y
  /-- It ends with nothing in flight, `GRAPH_DONE(failed)` and the first exception. -/
  rethrown : ∀ e, firstThrown cs = some e → y.pc.finished = true →
    y.tasks = [] ∧ y.pc = .thrown e ∧ ∃ p, y.log = p ++ [.graphDone true]

/-- No failure comes before the launch. -/
def LaunchOk (before : List (Event L)) (ev : Event L) : Prop :=
  ∀ v, ev = .launch v → ∀ n, .nodeFailed n ∉ before

theorem each_launchOk_iff {log : List (Event L)} :
    Each LaunchOk log ↔ ∀ p n q, log = p ++ .nodeFailed n :: q → ∀ v, .launch v ∉ q := by
  constructor
  · intro h p n q hl v hv
    obtain ⟨q₁, q₂, rfl⟩ := List.append_of_mem hv
    exact h (p ++ .nodeFailed n :: q₁) (.launch v) q₂ (by rw [hl]; simp) v rfl n (by simp)
  · rintro h p ev q hl v rfl n hn
    obtain ⟨p₁, p₂, rfl⟩ := List.append_of_mem hn
    exact h p₁ n (p₂ ++ .launch v :: q) (by rw [hl]; simp) v (by simp)

section calm

variable {S : Setup} {loop : Loop} {c : Choice L} {x y : Exec L}

/-- The log shows a failure exactly when `first_error_` is set. -/
def Shown (x : Exec L) : Prop := (∃ n, .nodeFailed n ∈ x.log) ↔ x.impl.firstError.isSome = true

theorem Shown.step (h : Shown x) (hs : Moves S loop c x y) : Shown y := by
  have hf := nodeFailed_mem_stepEvents hs
  unfold Shown at h ⊢
  rw [step_log hs, step_firstError hs, Option.isSome_or, Bool.or_eq_true, ← h, ← hf, ← exists_or]
  simp only [List.mem_append]

/-- Only a launch is logged as one. -/
theorem launch_notMem_stepEvents (hs : Moves S loop c x y) (hl : launches x c = false) (v : Id) :
    .launch v ∉ stepEvents S loop x c := by
  intro hv
  rcases hs.split with ⟨n, rest, last, rfl, hpc, -⟩ | ⟨k, t, res, cut, rfl, hk, -, -⟩ | hp
  · simp [launches, hpc] at hl
  · simp only [stepEvents, hk] at hv
    rcases mem_completionEvents hv with he | ⟨b, he⟩ | he
    · cases res <;> cases he
    · cases he
    · cases he
  · rcases hp.events _ hv with ⟨n, i, he⟩ | he | ⟨b, he⟩ <;> cases he

/-- What a calm run keeps: with the error set there is nothing to launch. -/
structure Calmed (x : Exec L) : Prop where
  shown : Shown x
  batch : x.impl.firstError.isSome = true → ∀ b last, x.pc = .launching b last → b = []
  launchOk : Each LaunchOk x.log

theorem Calmed.step (h : Calmed x) (hc : calm S x c = true) (hs : Moves S loop c x y) : Calmed y := by
  have hlog := step_log hs
  have herr := step_firstError hs
  have hother : launches x c = false → Each LaunchOk y.log := fun hl => by
    rw [hlog]
    refine h.launchOk.append_of_forall fun ev hev p v hv => ?_
    subst hv
    exact absurd hev (launch_notMem_stepEvents hs hl v)
  refine ⟨h.shown.step hs, fun hsome b last hb => ?_, ?_⟩
  · cases hs with
    | @launch _ n rest last' hpc =>
      have := h.batch hsome _ _ hpc
      cases this
    | batch hpc hr =>
      have hsome' : x.impl.firstError.isSome = true := hsome
      cases hb
      simp only [calm, hpc, Bool.or_eq_true, List.isEmpty_iff] at hc
      rcases hc with hn | hn
      · rw [Option.isNone_iff_eq_none] at hn
        rw [hn] at hsome'
        cases hsome'
      · exact absurd hn hr
    | leave hpc h0 =>
      have hfin := (leave_rest x).2.2.2.2.2
      rw [hb] at hfin; cases hfin
    | receive hpc hd =>
      rcases received_cases { x with done := x.done - 1 } with ⟨e, -, -, hr⟩ | ⟨-, hr⟩ <;> rw [hr] at hb <;> cases hb
    | start hq hrun => exact h.batch hsome b last hb
    | @finish _ k t res cut hk hrun =>
      rw [(complete_keeps S loop t.node res cut _).1] at hb
      cases res with
      | ok out =>
        refine h.batch ?_ b last hb
        rw [herr] at hsome
        simpa [Choice.thrown?, thrownBy] using hsome
      | error e =>
        have hb' : x.pc = .launching b last := hb
        cases b with
        | nil => rfl
        | cons n rest => simp [calm, hb'] at hc
    | cancel hpc =>
      rw [(Exec.cancelIf_keeps x true).pc] at hb
      exact h.batch (by simpa using hsome) b last hb
    | batchDone | drained | wait => cases hb
  · cases hl : launches x c with
    | false => exact hother hl
    | true =>
      -- the launch: the batch is not empty, so no node has failed
      cases hs with
      | @launch _ n rest last hpc =>
        refine each_snoc.mpr ⟨h.launchOk, fun v _ m hm => ?_⟩
        have := h.batch (h.shown.mp ⟨m, hm⟩) _ _ hpc
        cases this
      | batchDone hpc | drained hpc | batch hpc | leave hpc | wait hpc | receive hpc => simp [launches, hpc] at hl
      | _ => cases hl

/-- A launch after a failure has happened, or is the next thing the loop does. -/
def Doomed (x : Exec L) : Prop :=
  ¬ Each LaunchOk x.log ∨ (x.impl.firstError.isSome = true ∧ ∃ n rest last, x.pc = .launching (n :: rest) last)

theorem Doomed.step (h : Doomed x) (hsh : Shown x) (hs : Moves S loop c x y) : Doomed y := by
  have hlog := step_log hs
  have herr := step_firstError hs
  rcases h with h | ⟨hsome, n, rest, last, hpc⟩
  · left
    intro hy
    rw [hlog] at hy
    exact h (each_append.mp hy).1
  have hsome' : y.impl.firstError.isSome = true := by rw [herr, Option.isSome_or, hsome]; rfl
  cases hs with
  | @launch _ n' rest' last' hpc' =>
    left
    intro hy
    obtain ⟨m, hm⟩ := hsh.mpr hsome
    exact (each_snoc.mp hy).2 n' rfl m hm
  | start hq hrun => exact Or.inr ⟨hsome', n, rest, last, hpc⟩
  | @finish _ k t res cut hk hrun =>
    exact Or.inr ⟨hsome', n, rest, last, by rw [(complete_keeps S loop t.node res cut _).1]; exact hpc⟩
  | cancel hf => exact Or.inr ⟨hsome', n, rest, last, by rw [(Exec.cancelIf_keeps x true).pc]; exact hpc⟩
  | batchDone h' | drained h' | batch h' | leave h' | wait h' | receive h' => rw [hpc] at h'; cases h'

/-- The step that is not calm dooms the run. -/
theorem doomed_of_not_calm (hc : calm S x c = false) (hs : Moves S loop c x y) : Doomed y := by
  have herr := step_firstError hs
  right
  cases hs with
  | batch hpc hr =>
    simp only [calm, hpc, Bool.or_eq_false_iff, Option.isNone_eq_false_iff] at hc
    obtain ⟨n, rest, hn⟩ := List.exists_cons_of_ne_nil hr
    exact ⟨hc.1, n, rest, none, by rw [hn]⟩
  | drained hpc hr => simp [calm, hpc, hr] at hc
  | @finish _ k t res cut hk hrun =>
    cases res with
    | ok out => cases hc
    | error e =>
      simp only [calm] at hc
      split at hc
      · rename_i n rest last hpc
        refine ⟨by rw [herr, Option.isSome_or]; simp [Choice.thrown?, thrownBy], n, rest, last, ?_⟩
        rw [(complete_keeps S loop t.node _ cut _).1]
        exact hpc
      · cases hc
  | launch hpc | batchDone hpc | leave hpc | wait hpc | receive hpc => simp [calm, hpc] at hc
  | _ => cases hc

theorem calm_or_doomed {cs : List (Choice L)} (hr : Run (step S loop) (fun _ _ => True) x cs y) (hx : Shown x) :
    Run (step S loop) (fun x c => calm S x c = true) x cs y ∨ Doomed y := by
  induction hr with
  | nil => exact Or.inl (Run.nil _)
  | @snoc y z cs c hr _ hs ih =>
    have hm := step_eq_some.mp hs
    rcases ih with ih | ih
    · cases hc : calm S y c with
      | true => exact Or.inl (ih.snoc hc hs)
      | false => exact Or.inr (doomed_of_not_calm hc hm)
    · have hsh : Shown y := hr.invariant (I := Shown) (fun _ _ _ hI _ hs => hI.step (step_eq_some.mp hs)) hx
      exact Or.inr (ih.step hsh hm)

/-- Steps that launch nothing, cancellations apart, are bounded by the load. -/
theorem run_load {cs : List (Choice L)} (hr : Run (step S loop) (fun x c => launches x c = false) x cs y) :
    (cs.filter fun c => !c.isCancel).length + load y ≤ load x := by
  induction hr with
  | nil => simp
  | @snoc y z cs c _ hl hs ih =>
    rw [List.filter_append, List.length_append]
    by_cases hc : c = .cancel
    · subst hc
      have hm := step_eq_some.mp hs
      cases hm with
      | cancel hpc =>
        obtain ⟨e1, e2, e3, e4⟩ := Exec.cancelIf_keeps y true
        have hz : load (y.cancelIf true) = load y := by simp only [load, e1, e2, e3, e4]
        rw [hz]
        simpa [Choice.isCancel] using ih
    · have := load_lt (step_eq_some.mp hs) hl hc
      have hlen : ([c].filter fun c => !c.isCancel).length ≤ 1 := List.length_filter_le _ _
      omega

end calm

/-- **Fail-stop, exactly in the calm runs.** A calm run stops at its first
failure; and a run that is over and has stopped so was calm. -/
theorem failStop_iff_calm (S : Setup) (loop : Loop) (x₀ : Exec L) (h₀ : Origin S loop x₀) (cs : List (Choice L))
    (y : Exec L) (hr : Run (step S loop) (fun _ _ => True) x₀ cs y) :
    (Run (step S loop) (fun x c => calm S x c = true) x₀ cs y → FailStop S loop cs y) ∧
      (y.pc.finished = true → FailStop S loop cs y →
        Run (step S loop) (fun x c => calm S x c = true) x₀ cs y) := by
  obtain ⟨m, batch, rfl, hidle, hnone, hnd⟩ := h₀.begin
  have hsh : Shown (Exec.begin m batch) := by simp [Shown, Exec.begin, hnone]
  constructor
  · intro hcalm
    have hcd : Calmed (Exec.begin m batch) :=
      ⟨hsh, fun h => by simp [Exec.begin, hnone] at h, each_nil⟩
    have hy : Calmed y := hcalm.invariant (fun _ _ _ hI hc hs => hI.step hc (step_eq_some.mp hs)) hcd
    have htasks := Tasks.run hr (Tasks.begin hidle hnd)
    have hexit := Exits.run hr (Exits.begin m batch)
    refine ⟨each_launchOk_iff.mp hy.launchOk, fun hf res => exists_step S loop htasks hf res, fun cs' z hz => ?_,
      fun e he hf => ?_⟩
    · have := run_load hz
      omega
    · have herr : y.impl.firstError = some e := by
        rw [run_firstError hr, he]
        simp [Exec.begin, hnone]
      obtain ⟨p, hp, -⟩ := hexit.last hf
      exact ⟨htasks.ended hf, hexit.thrown e herr hf, p, by rw [hp, herr]; rfl⟩
  · intro hf hstop
    refine (calm_or_doomed hr hsh).resolve_right ?_
    rintro (hd | ⟨-, n, rest, last, hpc⟩)
    · exact hd (each_launchOk_iff.mpr hstop.quiet)
    · rw [hpc] at hf; cases hf

/-- On the join, `a` throws and `b` completes: the run throws what `a` threw. -/
theorem failStop_join : ∃ cs y, y.pc.finished = true ∧ firstThrown cs = some "boom" ∧
    FailStop (Setup.plain .join) .run (cs : List (Choice Libs.text)) y := by
  have h : (check (step (Setup.plain .join) .run) (fun x c => calm (Setup.plain .join) x c)
      [.main, .main, .main, .main, .main, .start, .start, .finish 0 (.error "boom") none, .main, .main, .main,
        .finish 0 (.ok (Libs.text.state [1])) none, .main]
      (runStart (Setup.plain .join) .fresh (Libs.text.state [0]))).any (fun y => y.pc.finished) = true := by
    decide
  obtain ⟨y, hr, hf⟩ := Run.exists_of_check (fun x c => calm (Setup.plain .join) x c = true) h fun _ _ hc => hc
  exact ⟨_, y, hf, rfl, (failStop_iff_calm _ _ _ (.run _) _ y (hr.mono fun _ _ _ => trivial)).1 hr⟩

/-- Three entry nodes: `a` throws while `d` is in flight, `b` completes, and
its successor `c` is launched. -/
theorem launch_after_failure : ∃ cs y, Run (step (Setup.plain .branches) .run) (fun _ _ => True)
      (runStart (Setup.plain .branches) .fresh (Libs.text.state [0])) cs y ∧
    ¬ FailStop (Setup.plain .branches) .run cs y := by
  have h : (check (step (Setup.plain .branches) .run) (fun _ _ => true)
      [.main, .main, .main, .main, .main, .main, .start, .start, .start, .finish 0 (.error "boom") none,
        .finish 0 (.ok (Libs.text.state [1])) none, .main, .main, .main]
      (runStart (Setup.plain .branches) .fresh (Libs.text.state [0]))).any
      (fun y => decide ((y.log.drop 6).head?.bind Event.failed? = some "a") &&
        decide ("c" ∈ launched (y.log.drop 6).tail)) = true := by
    decide
  obtain ⟨y, hr, hy⟩ := Run.exists_of_check (fun _ _ => True) h fun _ _ _ => trivial
  simp only [Bool.and_eq_true, decide_eq_true_eq] at hy
  obtain ⟨h1, h2⟩ := hy
  refine ⟨_, y, hr, fun hstop => ?_⟩
  obtain ⟨ev, hev, hf⟩ := Option.bind_eq_some_iff.mp h1
  obtain ⟨q, hq⟩ := List.head?_eq_some_iff.mp hev
  rw [hq] at h2
  rw [Event.failed?_eq_some.mp hf] at hq
  exact hstop.quiet (y.log.take 6) "a" q (by rw [← hq, List.take_append_drop]) "c" (mem_launched.mp h2)

end AgentFlow
