/-
# Runs of an executable step function

A system is a function `step : γ → σ → Option σ`: in a state the environment
makes a choice `γ`, and the choice leads to one state or is not enabled. A
`Run` is a list of choices each of which is allowed (`ok`) and enabled in the
state it is made in. What holds of every run is proved by the rules below:
an inductive invariant (`Run.invariant`), a measure that every step lowers
(`Run.length_le`), a simulation between two systems (`Run.simulate`).

Key definitions: `Run`, `check`, `observations`.
-/
import Mathlib.Data.Set.Basic
import Mathlib.Tactic

namespace Stepping

variable {σ τ γ ω : Type*}

/-- From the first state the choices lead to the last, each of them allowed
by `ok` in the state it is made in. -/
inductive Run (step : γ → σ → Option σ) (ok : σ → γ → Prop) : σ → List γ → σ → Prop
  | nil (x : σ) : Run step ok x [] x
  | snoc {x y z : σ} {cs : List γ} {c : γ} :
      Run step ok x cs y → ok y c → step c y = some z → Run step ok x (cs ++ [c]) z

variable {step : γ → σ → Option σ} {ok : σ → γ → Prop}

theorem Run.cons {x y z : σ} {cs : List γ} {c : γ} (hc : ok x c) (hs : step c x = some y)
    (h : Run step ok y cs z) : Run step ok x (c :: cs) z := by
  induction h with
  | nil => exact Run.snoc (Run.nil x) hc hs
  | snoc _ hok hst ih => exact Run.snoc ih hok hst

theorem Run.append {x y z : σ} {cs ds : List γ} (h : Run step ok x cs y) (h' : Run step ok y ds z) :
    Run step ok x (cs ++ ds) z := by
  induction h' with
  | nil =>
    rw [List.append_nil]
    exact h
  | snoc _ hc hs ih =>
    rw [← List.append_assoc]
    exact Run.snoc ih hc hs

/-- A run of a stricter system is a run. -/
theorem Run.mono {ok' : σ → γ → Prop} (hok : ∀ x c, ok x c → ok' x c) {x y : σ} {cs : List γ}
    (h : Run step ok x cs y) : Run step ok' x cs y := by
  induction h with
  | nil => exact Run.nil _
  | snoc _ hc hs ih => exact Run.snoc ih (hok _ _ hc) hs

/-- The same, for the choices that are made. -/
theorem Run.mono_of_mem {ok' : σ → γ → Prop} {x y : σ} {cs : List γ} (h : Run step ok x cs y)
    (hok : ∀ c ∈ cs, ∀ z, ok z c → ok' z c) : Run step ok' x cs y := by
  induction h with
  | nil => exact Run.nil _
  | snoc _ hc hs ih =>
    refine Run.snoc (ih fun c hc => hok c (List.mem_append_left _ hc)) (hok _ ?_ _ hc) hs
    exact List.mem_append_right _ (List.mem_singleton.mpr rfl)

/-- What holds first and is kept by every allowed step holds of every state
reached. -/
theorem Run.invariant {I : σ → Prop} (hstep : ∀ x c y, I x → ok x c → step c x = some y → I y)
    {x y : σ} {cs : List γ} (h : Run step ok x cs y) (h0 : I x) : I y := by
  induction h with
  | nil => exact h0
  | snoc _ hc hs ih => exact hstep _ _ _ ih hc hs

/-- A relation between the first state and the state reached. -/
theorem Run.relates {R : σ → σ → Prop} (hrefl : ∀ x, R x x) (htrans : ∀ x y z, R x y → R y z → R x z)
    (hstep : ∀ x c y, ok x c → step c x = some y → R x y)
    {x y : σ} {cs : List γ} (h : Run step ok x cs y) : R x y := by
  induction h with
  | nil => exact hrefl _
  | snoc _ hc hs ih => exact htrans _ _ _ ih (hstep _ _ _ hc hs)

/-- Each step lowers `μ`, so a run is no longer than `μ` of its first state. -/
theorem Run.length_le {I : σ → Prop} {μ : σ → ℕ}
    (hstep : ∀ x c y, I x → ok x c → step c x = some y → I y)
    (hμ : ∀ x c y, I x → ok x c → step c x = some y → μ y < μ x)
    {x y : σ} {cs : List γ} (h : Run step ok x cs y) (h0 : I x) : cs.length + μ y ≤ μ x := by
  induction h with
  | nil => simp
  | snoc hr hc hs ih =>
    have hy := hr.invariant hstep h0
    have hlt := hμ _ _ _ hy hc hs
    simp only [List.length_append, List.length_singleton]
    omega

/-- The steps of one kind lower `μ` and no step raises it, so a run has no
more of them than `μ` of its first state. -/
theorem Run.countP_le {I : σ → Prop} {μ : σ → ℕ} {p : γ → Bool}
    (hstep : ∀ x c y, I x → ok x c → step c x = some y → I y)
    (hμ : ∀ x c y, I x → ok x c → step c x = some y → μ y + (if p c then 1 else 0) ≤ μ x)
    {x y : σ} {cs : List γ} (h : Run step ok x cs y) (h0 : I x) : cs.countP p + μ y ≤ μ x := by
  induction h with
  | nil => simp
  | snoc hr hc hs ih =>
    have hle := hμ _ _ _ (hr.invariant hstep h0) hc hs
    rw [List.countP_append, List.countP_singleton]
    omega

/-- When every state that is not final has an allowed step, and each step
lowers `μ`, a final state is reached. -/
theorem Run.exists_final {I : σ → Prop} {μ : σ → ℕ} {final : σ → Prop}
    (hstep : ∀ x c y, I x → ok x c → step c x = some y → I y)
    (hμ : ∀ x c y, I x → ok x c → step c x = some y → μ y < μ x)
    (hgo : ∀ x, I x → ¬ final x → ∃ c y, ok x c ∧ step c x = some y) :
    ∀ (n : ℕ) (x : σ), μ x ≤ n → I x → ∃ cs y, Run step ok x cs y ∧ final y
  | n, x, hn, hx => by
    by_cases hf : final x
    · exact ⟨[], x, Run.nil x, hf⟩
    obtain ⟨c, y, hc, hs⟩ := hgo x hx hf
    have hlt := hμ x c y hx hc hs
    cases n with
    | zero => omega
    | succ n =>
      obtain ⟨cs, z, hr, hz⟩ := Run.exists_final hstep hμ hgo n y (by omega) (hstep x c y hx hc hs)
      exact ⟨c :: cs, z, Run.cons hc hs hr, hz⟩

/-- A run of one system is followed by a run of another, choice by choice,
along a relation that the steps keep. -/
theorem Run.simulate {step' : γ → τ → Option τ} {ok' : τ → γ → Prop} {R : σ → τ → Prop}
    (hsim : ∀ x x' c y, R x x' → ok x c → step c x = some y →
      ∃ y', ok' x' c ∧ step' c x' = some y' ∧ R y y')
    {x y : σ} {x' : τ} {cs : List γ} (h : Run step ok x cs y) (h0 : R x x') :
    ∃ y', Run step' ok' x' cs y' ∧ R y y' := by
  induction h with
  | nil => exact ⟨x', Run.nil _, h0⟩
  | snoc _ hc hs ih =>
    obtain ⟨y', hr', hR⟩ := ih
    obtain ⟨z', hc', hs', hR'⟩ := hsim _ _ _ _ hR hc hs
    exact ⟨z', Run.snoc hr' hc' hs', hR'⟩

/-- The run of a list of choices, computed. -/
def check (step : γ → σ → Option σ) (ok : σ → γ → Bool) : List γ → σ → Option σ
  | [], x => some x
  | c :: cs, x => if ok x c then (step c x).bind (check step ok cs) else none

theorem Run.of_check {okb : σ → γ → Bool} (hok : ∀ x c, okb x c = true → ok x c) :
    ∀ (cs : List γ) (x y : σ), check step okb cs x = some y → Run step ok x cs y
  | [], x, y, h => by
    obtain rfl : x = y := by simpa [check] using h
    exact Run.nil _
  | c :: cs, x, y, h => by
    rw [check] at h
    split_ifs at h with hc
    cases hs : step c x with
    | none => simp [hs] at h
    | some z =>
      rw [hs, Option.bind_some] at h
      exact Run.cons (hok _ _ hc) hs (Run.of_check hok cs z y h)

/-- A state with a given property is reached by a run that is computed. -/
theorem Run.exists_of_check (ok : σ → γ → Prop) {okb : σ → γ → Bool} {cs : List γ} {x : σ} {p : σ → Bool}
    (h : (check step okb cs x).any p = true) (hok : ∀ x c, okb x c = true → ok x c) :
    ∃ y, Run step ok x cs y ∧ p y = true := by
  cases hc : check step okb cs x with
  | none => simp [hc] at h
  | some y => exact ⟨y, Run.of_check hok cs x y hc, by simpa [hc] using h⟩

/-- What an observer can see of the runs from a state: the observations of
all states they reach. -/
def observations (step : γ → σ → Option σ) (ok : σ → γ → Prop) (obs : σ → ω) (x : σ) : Set ω :=
  {o | ∃ cs y, Run step ok x cs y ∧ obs y = o}

/-- A simulation that the observer does not notice only adds observations. -/
theorem observations_subset {step' : γ → τ → Option τ} {ok' : τ → γ → Prop} {R : σ → τ → Prop}
    {obs : σ → ω} {obs' : τ → ω}
    (hsim : ∀ x x' c y, R x x' → ok x c → step c x = some y →
      ∃ y', ok' x' c ∧ step' c x' = some y' ∧ R y y')
    (hobs : ∀ x x', R x x' → obs x = obs' x') {x : σ} {x' : τ} (h0 : R x x') :
    observations step ok obs x ⊆ observations step' ok' obs' x' := by
  rintro o ⟨cs, y, hr, rfl⟩
  obtain ⟨y', hr', hR⟩ := hr.simulate hsim h0
  exact ⟨cs, y', hr', (hobs _ _ hR).symm⟩

end Stepping
