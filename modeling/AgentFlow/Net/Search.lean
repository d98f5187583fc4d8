/-
# Searching for a separator

What the parsers of the network modules do with text that was put together:
the search passes over a part that does not have the separator (`Passes`), and
`SplitOnce` takes the text apart where it was joined.

Key definition: `Passes`.
-/
import AgentFlow.Net.Framing

namespace AgentFlow
namespace Net

variable {sep a b m l : List Char}

/-- The search passes over `a` when `m` follows. -/
def Passes (sep a m : List Char) : Prop := find sep (a ++ m) = (find sep m).map (· + a.length)

theorem Passes.nil : Passes sep [] m := by
  show find sep m = (find sep m).map (· + 0)
  simp

theorem Passes.append (ha : Passes sep a (b ++ m)) (hb : Passes sep b m) : Passes sep (a ++ b) m := by
  unfold Passes at *
  rw [List.append_assoc, ha, hb, Option.map_map, List.length_append]
  congr 1
  funext n
  simp only [Function.comp_apply]
  omega

theorem Passes.cons {c : Char} (hc : ¬ sep <+: c :: (a ++ m)) (ha : Passes sep a m) : Passes sep (c :: a) m := by
  unfold Passes at *
  rw [List.cons_append, find, if_neg (by rwa [List.isPrefixOf_iff_prefix]), ha, Option.map_map, List.length_cons]
  congr 1

/-- Characters that do not start the separator are passed over. -/
theorem passes_of_forall_ne {x : Char} (hx : ∀ c ∈ a, c ≠ x) : Passes (x :: sep) a m := by
  induction a with
  | nil => exact .nil
  | cons c a ih =>
    refine .cons (fun h => ?_) (ih fun c hc => hx c (List.mem_cons_of_mem _ hc))
    exact hx c List.mem_cons_self (List.cons_prefix_cons.mp h).1.symm

theorem find_eq_none_iff_infix : find sep l = none ↔ ¬ sep <:+: l := by
  rw [find_eq_none_iff]
  constructor
  · rintro h ⟨s, t, rfl⟩
    refine h s.length (by simp) ?_
    rw [List.append_assoc, List.drop_left]
    exact List.prefix_append _ _
  · intro h j _ hp
    exact h (hp.isInfix.trans (List.drop_suffix j l).isInfix)

/-- The first place of a character. -/
theorem find_cons_of_not_mem {x : Char} (h : x ∉ a) : find [x] (a ++ x :: b) = some a.length := by
  have hp : find [x] (a ++ x :: b) = (find [x] (x :: b)).map (· + a.length) :=
    passes_of_forall_ne fun c hc he => h (he ▸ hc)
  have hfind : find [x] (x :: b) = some 0 := by simp [find]
  rw [hp, hfind]
  simp

theorem find_of_not_mem {x : Char} (h : x ∉ l) : find [x] l = none :=
  find_eq_none_iff_infix.mpr fun hi => h (hi.subset List.mem_cons_self)

/-- A text has the character, with a first place, or not. -/
theorem first_cases (x : Char) (l : List Char) : x ∉ l ∨ ∃ a b, l = a ++ x :: b ∧ x ∉ a := by
  by_cases h : x ∈ l
  · exact .inr (List.eq_append_cons_of_mem h)
  · exact .inl h

/-- The halves at the first of a character. -/
theorem splitOnce_cons_of_not_mem {x : Char} (h : x ∉ a) : splitOnce (a ++ x :: m) [x] = (a, m) := by
  rw [splitOnce, find_cons_of_not_mem h]
  simp

theorem infix_splitOnce (s sep : List Char) : (splitOnce s sep).1 <:+: s ∧ (splitOnce s sep).2 <:+: s := by
  unfold splitOnce
  cases find sep s with
  | none => exact ⟨List.infix_rfl, List.nil_infix⟩
  | some i => exact ⟨(List.take_prefix _ _).isInfix, (List.drop_suffix _ _).isInfix⟩

/-- The first half does not hold the separator. -/
theorem not_infix_splitOnce (hsep : sep ≠ []) (s : List Char) : ¬ sep <:+: (splitOnce s sep).1 := by
  unfold splitOnce
  cases hf : find sep s with
  | none => exact find_eq_none_iff_infix.mp hf
  | some i =>
    rintro ⟨p, q, hpq⟩
    obtain ⟨hle, -, hmin⟩ := find_eq_some_iff.mp hf
    have hlen := congrArg List.length hpq
    have hpos : 0 < sep.length := List.length_pos_of_ne_nil hsep
    simp only [List.length_append, List.length_take] at hlen
    refine hmin p.length (by omega) ?_
    have hwhole : s = p ++ (sep ++ (q ++ s.drop i)) := by
      have hpq' : p ++ sep ++ q = s.take i := hpq
      rw [← List.append_assoc, ← List.append_assoc, hpq', List.take_append_drop]
    rw [hwhole, List.drop_left]
    exact List.prefix_append _ _

theorem not_mem_splitOnce (x : Char) (s : List Char) : x ∉ (splitOnce s [x]).1 := fun h => by
  obtain ⟨p, q, hpq⟩ := List.append_of_mem h
  exact not_infix_splitOnce (List.cons_ne_nil x []) s ⟨p, q, by rw [hpq, List.append_assoc]; rfl⟩

end Net
end AgentFlow
