/-
# Runs

The maximal runs of equal symbols in a list, and induction on a list run by
run.

Key definitions: `runs`.
Key theorems: `runs_replicate_append`, `runs_induction`.
-/
import Mathlib.Data.List.SplitBy
import Mathlib.Tactic

namespace Runs

variable {α : Type*} [DecidableEq α]

/-- The maximal runs of equal symbols, in order. -/
def runs (xs : List α) : List (List α) := xs.splitBy fun a b => a == b

theorem runs_nil : runs ([] : List α) = [] := List.splitBy_nil _

/-- The first run, where it ends before another symbol. -/
theorem runs_replicate_append {n : ℕ} {c : α} {rest : List α} (hn : n ≠ 0) (hrest : rest.head? ≠ some c) :
    runs (List.replicate n c ++ rest) = List.replicate n c :: runs rest := by
  have hne : List.replicate n c ≠ [] := by simpa using hn
  have hchain : (List.replicate n c).IsChain fun a b => a == b :=
    List.isChain_replicate_of_rel n (by simp)
  rw [runs, List.splitBy_append, List.splitBy_of_isChain hne hchain]
  · rfl
  · intro x hx y hy
    obtain rfl := List.eq_of_mem_replicate (List.mem_of_mem_getLast? hx)
    have hxy : x ≠ y := by
      rintro rfl
      exact hrest hy
    simpa using hxy

/-- A list that is not empty begins with a run. -/
theorem exists_run (a : α) (xs : List α) :
    ∃ n rest, n ≠ 0 ∧ rest.head? ≠ some a ∧ a :: xs = List.replicate n a ++ rest := by
  induction xs with
  | nil => exact ⟨1, [], by simp, by simp, rfl⟩
  | cons b xs ih =>
    by_cases hb : b = a
    · obtain ⟨n, rest, -, hrest, heq⟩ := ih
      refine ⟨n + 1, rest, by simp, hrest, ?_⟩
      rw [hb, heq]
      rfl
    · exact ⟨1, b :: xs, by simp, by simpa using hb, rfl⟩

/-- Induction run by run. -/
theorem runs_induction {P : List α → Prop} (nil : P [])
    (run : ∀ n c rest, n ≠ 0 → rest.head? ≠ some c → P rest → P (List.replicate n c ++ rest)) (xs : List α) : P xs := by
  induction hlen : xs.length using Nat.strong_induction_on generalizing xs with
  | _ len ih =>
    cases xs with
    | nil => exact nil
    | cons a xs =>
      obtain ⟨n, rest, hn, hrest, heq⟩ := exists_run a xs
      have hshorter : rest.length < len := by
        rw [← hlen, heq, List.length_append, List.length_replicate]
        omega
      rw [heq]
      exact run n a rest hn hrest (ih rest.length hshorter rest rfl)

end Runs
