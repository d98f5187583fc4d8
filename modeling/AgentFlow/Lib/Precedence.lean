/-
# Precedence: what must come before what

A relation `r a b`, "`a` comes before `b`", on finitely many points. An
acyclic one is well founded (`wellFounded_of_acyclic`), so what is inherited
from all predecessors holds everywhere. A list in which no point comes before
a predecessor of it is `InOrder`: an execution order. It grows by points whose
predecessors are all in it (`InOrder.snoc`), and when it holds every point it
is a topological order.

Key definitions: `Acyclic`, `InOrder`.
-/
import AgentFlow.Lib.History
import Mathlib.Data.Fintype.Order
import Mathlib.Logic.Relation
import Mathlib.Order.WellFounded
import Mathlib.Tactic

namespace Precedence

open History

variable {α : Type*} {r : α → α → Prop}

/-- No point comes, in any number of steps, before itself. -/
def Acyclic (r : α → α → Prop) : Prop := ∀ a, ¬ Relation.TransGen r a a

/-- A relation along which a number grows is acyclic. -/
theorem Acyclic.of_rank (f : α → ℕ) (h : ∀ a b, r a b → f a < f b) : Acyclic r := by
  have hlt : ∀ a b, Relation.TransGen r a b → f a < f b := fun a b hab => by
    induction hab with
    | single hab => exact h _ _ hab
    | tail _ hbc ih => exact ih.trans (h _ _ hbc)
  exact fun a ha => lt_irrefl _ (hlt a a ha)

/-- An acyclic relation between the points of a list is well founded. -/
theorem wellFounded_of_acyclic {l : List α} (hl : ∀ a b, r a b → a ∈ l ∧ b ∈ l) (h : Acyclic r) :
    WellFounded r := by
  classical
  let s : {a // a ∈ l} → {a // a ∈ l} → Prop := fun a b => Relation.TransGen r a.1 b.1
  have : Finite {a // a ∈ l} := List.finite_toSet l
  have : IsTrans _ s := ⟨fun _ _ _ hab hbc => Relation.TransGen.trans hab hbc⟩
  have : Std.Irrefl s := ⟨fun a => h a.1⟩
  have hs : WellFounded s := Finite.wellFounded_of_trans_of_irrefl s
  have hmem : ∀ a : {a // a ∈ l}, Acc r a.1 := fun a => by
    induction a using hs.induction with
    | _ a ih => exact ⟨_, fun b hb => ih ⟨b, (hl b a.1 hb).1⟩ (Relation.TransGen.single hb)⟩
  refine ⟨fun a => ⟨_, fun b hb => ?_⟩⟩
  exact hmem ⟨b, (hl b a hb).1⟩

/-- No point of the list comes before one of its predecessors: each is
preceded by all of them. -/
def InOrder (r : α → α → Prop) (l : List α) : Prop := Each (fun p b => ∀ a, r a b → a ∈ p) l

theorem inOrder_nil : InOrder r [] := each_nil

theorem InOrder.snoc {l : List α} (h : InOrder r l) {b : α} (hb : ∀ a, r a b → a ∈ l) :
    InOrder r (l ++ [b]) :=
  each_snoc.mpr ⟨h, hb⟩

/-- The points of an execution order are closed under predecessors. -/
theorem InOrder.closed {l : List α} (h : InOrder r l) {a b : α} (hab : r a b) (hb : b ∈ l) : a ∈ l := by
  obtain ⟨p, s, rfl, hp⟩ := Each.of_mem h hb
  exact List.mem_append_left _ (hp a hab)

/-- In an execution order of all points, the last one comes before nothing. -/
theorem InOrder.last_maximal {l : List α} {b : α} (h : InOrder r (l ++ [b])) (hn : (l ++ [b]).Nodup) {c : α}
    (hc : c ∈ l ++ [b]) : ¬ r b c := by
  intro hbc
  obtain ⟨hl, hb⟩ := each_snoc.mp h
  have hbl : b ∉ l := fun hm => (List.nodup_append.mp hn).2.2 b hm b (by simp) rfl
  rcases List.mem_append.mp hc with hc | hc
  · exact hbl (InOrder.closed hl hbc hc)
  · rw [List.mem_singleton.mp hc] at hbc
    exact hbl (hb b hbc)

theorem InOrder.of_isPrefix {l l' : List α} (h : InOrder r l) (hp : l' <+: l) : InOrder r l' :=
  Each.of_isPrefix h hp

end Precedence
