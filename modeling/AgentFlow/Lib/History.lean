/-
# Histories: lists that grow at their end

A log, a trace or an execution order only ever grows at its end, so what can
be said of an entry is what held of the entries before it. `Each P l`: every
entry of `l` is in relation `P` to the part of the list before it. It holds of
the empty list and is kept by appending an entry that is in relation `P` to
the whole list (`each_snoc`), so it is an invariant of everything that logs.

Two more relations look back: an entry was made when something held (`Once`),
and an entry was made that no later one has revoked (`Since`).

Key definitions: `Each`, `Once`, `Since`.
-/
import Mathlib.Data.List.Nodup
import Mathlib.Tactic

namespace History

variable {α β : Type*}

/-- Every entry is in relation `P` to the entries before it. -/
def Each (P : List α → α → Prop) (l : List α) : Prop := ∀ p a s, l = p ++ a :: s → P p a

variable {P : List α → α → Prop}

theorem each_nil : Each P [] := by
  intro p a s h
  simp at h

/-- A list that has grown is split before its last entry or there. -/
theorem snoc_eq_append_cons {l p s : List α} {a b : α} (h : l ++ [b] = p ++ a :: s) :
    (s = [] ∧ b = a ∧ l = p) ∨ ∃ s', s = s' ++ [b] ∧ l = p ++ a :: s' := by
  rcases List.eq_nil_or_concat s with rfl | ⟨s', d, rfl⟩
  · obtain ⟨hp, hb⟩ := List.append_inj' h rfl
    exact .inl ⟨rfl, (List.cons.inj hb).1, hp⟩
  · have h' : l ++ [b] = (p ++ a :: s') ++ [d] := by simpa using h
    obtain ⟨hp, hb⟩ := List.append_inj' h' rfl
    exact .inr ⟨s', by rw [(List.cons.inj hb).1, List.concat_eq_append], hp⟩

theorem each_snoc {l : List α} {b : α} : Each P (l ++ [b]) ↔ Each P l ∧ P l b := by
  constructor
  · intro h
    exact ⟨fun p a s hs => h p a (s ++ [b]) (by rw [hs]; simp), h l b [] rfl⟩
  · rintro ⟨hl, hb⟩ p a s hs
    rcases snoc_eq_append_cons hs with ⟨-, rfl, rfl⟩ | ⟨s', -, hs'⟩
    · exact hb
    · exact hl p a s' hs'

/-- The entries of a second part are related to the first part and to those
before them. -/
theorem each_append {l l' : List α} :
    Each P (l ++ l') ↔ Each P l ∧ Each (fun p a => P (l ++ p) a) l' := by
  induction l' using List.reverseRecOn with
  | nil => simp [each_nil]
  | append_singleton l' b ih =>
    rw [← List.append_assoc, each_snoc, ih, each_snoc, and_assoc]

theorem each_cons {l : List α} {b : α} : Each P (b :: l) ↔ P [] b ∧ Each (fun p a => P (b :: p) a) l := by
  have h : Each P [b] ↔ P [] b := by simpa [each_nil] using each_snoc (P := P) (l := []) (b := b)
  rw [← List.singleton_append, each_append, h]
  rfl

theorem Each.of_isPrefix {l l' : List α} (h : Each P l) (hp : l' <+: l) : Each P l' := by
  obtain ⟨t, rfl⟩ := hp
  exact (each_append.mp h).1

/-- Entries that `P` says nothing about. -/
theorem Each.append_of_forall {l l' : List α} (h : Each P l) (hl : ∀ a ∈ l', ∀ p, P p a) :
    Each P (l ++ l') := by
  refine each_append.mpr ⟨h, fun p a s hs => hl a ?_ _⟩
  rw [hs]; simp

theorem Each.of_mem {l : List α} (h : Each P l) {a : α} (ha : a ∈ l) : ∃ p s, l = p ++ a :: s ∧ P p a := by
  obtain ⟨p, s, rfl⟩ := List.append_of_mem ha
  exact ⟨p, s, rfl, h p a s rfl⟩

/-- An entry that is not in the first part of a list is in the second. -/
theorem split_of_notMem {l t p s : List α} {a : α} (h : l ++ t = p ++ a :: s) (ha : a ∉ l) :
    ∃ p', p = l ++ p' ∧ t = p' ++ a :: s := by
  rcases List.append_eq_append_iff.mp h with ⟨p', hp, ht⟩ | ⟨c, hl, hc⟩
  · exact ⟨p', hp, ht⟩
  · cases c with
    | nil => exact ⟨[], by simpa using hl.symm, by simpa using hc.symm⟩
    | cons b c =>
      obtain ⟨rfl, -⟩ := List.cons.inj hc
      exact absurd (by rw [hl]; simp) ha

/-! ### Looking back -/

/-- The entry was made after entries of which `P` holds. -/
def Once (P : List α → Prop) (a : α) (l : List α) : Prop := ∃ p s, l = p ++ a :: s ∧ P p

/-- The entry `on` was made, and no `off` after it. -/
def Since (on off : α) (l : List α) : Prop := ∃ p s, l = p ++ on :: s ∧ off ∉ s

theorem not_once_nil {P : List α → Prop} {a : α} : ¬ Once P a [] := by
  rintro ⟨p, s, h, -⟩
  simp at h

theorem not_since_nil {on off : α} : ¬ Since on off ([] : List α) := by
  rintro ⟨p, s, h, -⟩
  simp at h

theorem once_snoc {P : List α → Prop} {l : List α} {a b : α} : Once P a (l ++ [b]) ↔ Once P a l ∨ (b = a ∧ P l) := by
  constructor
  · rintro ⟨p, s, h, hp⟩
    rcases snoc_eq_append_cons h with ⟨-, rfl, rfl⟩ | ⟨s', -, hl⟩
    · exact .inr ⟨rfl, hp⟩
    · exact .inl ⟨p, s', hl, hp⟩
  · rintro (⟨p, s, rfl, hp⟩ | ⟨rfl, hp⟩)
    · exact ⟨p, s ++ [b], by simp, hp⟩
    · exact ⟨l, [], rfl, hp⟩

theorem since_snoc {l : List α} {on off b : α} (hne : on ≠ off) :
    Since on off (l ++ [b]) ↔ b = on ∨ (Since on off l ∧ b ≠ off) := by
  constructor
  · rintro ⟨p, s, h, hs⟩
    rcases snoc_eq_append_cons h with ⟨-, rfl, -⟩ | ⟨s', rfl, hl⟩
    · exact .inl rfl
    · rw [List.mem_append, not_or, List.mem_singleton] at hs
      exact .inr ⟨⟨p, s', hl, hs.1⟩, fun hb => hs.2 hb.symm⟩
  · rintro (rfl | ⟨⟨p, s, rfl, hs⟩, hb⟩)
    · exact ⟨l, [], rfl, List.not_mem_nil⟩
    · refine ⟨p, s ++ [b], by simp, ?_⟩
      rw [List.mem_append, not_or, List.mem_singleton]
      exact ⟨hs, fun h => hb h.symm⟩

end History
