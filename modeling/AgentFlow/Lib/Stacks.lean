/-
# Stacks of several threads

Each thread is a stack of frames. What all frames weigh together changes with
what is put on a stack and taken off it, and so does what holds of all frames.

Key definitions: `weigh`, `Everywhere`.
Key theorems: `weigh_set`, `weigh_eq_zero`, `Everywhere.set`.
-/
import Mathlib.Tactic

namespace Stacks

variable {F : Type} {threads : List (List F)} {stack rest : List F} {frame : F} {t : ℕ}

/-! ### The weights of frames -/

/-- The weights of all frames. -/
def weigh (w : F → ℕ) (threads : List (List F)) : ℕ := (threads.map fun stack => (stack.map w).sum).sum

/-- A stack is replaced. -/
theorem weigh_set (w : F → ℕ) (h : threads[t]? = some stack) (stack' : List F) :
    weigh w (threads.set t stack') + (stack.map w).sum = weigh w threads + (stack'.map w).sum := by
  induction threads generalizing t with
  | nil => simp at h
  | cons first threads ih =>
    cases t with
    | zero =>
      obtain rfl : first = stack := by simpa using h
      simp only [List.set_cons_zero, weigh, List.map_cons, List.sum_cons]
      omega
    | succ t =>
      have hrest := ih (by simpa using h)
      simp only [List.set_cons_succ, weigh, List.map_cons, List.sum_cons] at hrest ⊢
      omega

theorem weigh_push (w : F → ℕ) (h : threads[t]? = some stack) (f : F) :
    weigh w (threads.set t (f :: stack)) = weigh w threads + w f := by
  have hset := weigh_set w h (f :: stack)
  simp only [List.map_cons, List.sum_cons] at hset
  omega

theorem weigh_pop (w : F → ℕ) (h : threads[t]? = some (frame :: rest)) :
    weigh w (threads.set t rest) + w frame = weigh w threads := by
  have hset := weigh_set w h rest
  simp only [List.map_cons, List.sum_cons] at hset
  omega

/-- The frame on top is replaced. -/
theorem weigh_top (w : F → ℕ) (h : threads[t]? = some (frame :: rest)) (f : F) :
    weigh w (threads.set t (f :: rest)) + w frame = weigh w threads + w f := by
  have hset := weigh_set w h (f :: rest)
  simp only [List.map_cons, List.sum_cons] at hset
  omega

/-- The frame on top is replaced, and another one put on it. -/
theorem weigh_call (w : F → ℕ) (h : threads[t]? = some (frame :: rest)) (callee f : F) :
    weigh w (threads.set t (callee :: f :: rest)) + w frame = weigh w threads + w callee + w f := by
  have hset := weigh_set w h (callee :: f :: rest)
  simp only [List.map_cons, List.sum_cons] at hset
  omega

theorem weigh_thread (w : F → ℕ) (threads : List (List F)) : weigh w (threads ++ [[]]) = weigh w threads := by
  simp [weigh]

/-! ### What holds of all frames -/

def Everywhere (P : F → Prop) (threads : List (List F)) : Prop := ∀ stack ∈ threads, ∀ f ∈ stack, P f

theorem weigh_eq_zero {w : F → ℕ} : weigh w threads = 0 ↔ Everywhere (fun f => w f = 0) threads := by
  simp [weigh, Everywhere, List.sum_eq_zero_iff]

namespace Everywhere

variable {P Q : F → Prop}

theorem mono (h : Everywhere P threads) (hPQ : ∀ f, P f → Q f) : Everywhere Q threads :=
  fun stack hstack f hf => hPQ f (h stack hstack f hf)

theorem of_get (h : Everywhere P threads) (hstack : threads[t]? = some stack) : ∀ f ∈ stack, P f :=
  h stack (List.mem_of_getElem? hstack)

theorem set (h : Everywhere P threads) (hstack : ∀ f ∈ stack, P f) : Everywhere P (threads.set t stack) := by
  intro st hst
  rcases List.mem_or_eq_of_mem_set hst with hmem | rfl
  · exact h st hmem
  · exact hstack

/-- The top of a stack is replaced. -/
theorem top (h : Everywhere P threads) (hstack : threads[t]? = some (frame :: rest)) (top : List F)
    (htop : ∀ f ∈ top, P f) : Everywhere P (threads.set t (top ++ rest)) := by
  refine h.set fun f hf => ?_
  rcases List.mem_append.mp hf with hmem | hmem
  · exact htop f hmem
  · exact h.of_get hstack f (List.mem_cons_of_mem _ hmem)

theorem thread (h : Everywhere P threads) : Everywhere P (threads ++ [[]]) := by
  intro stack hstack
  rcases List.mem_append.mp hstack with hmem | hmem
  · exact h stack hmem
  · obtain rfl := List.mem_singleton.mp hmem
    simp

end Everywhere

end Stacks
