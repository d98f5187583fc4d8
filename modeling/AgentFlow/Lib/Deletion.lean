/-
# Deleting words from words

A word becomes shorter by deleting other words from strictly inside it, one
after the other (`Shrinks`). Among words that neither contain nor overlap one
another (`LapFree`) the order does not matter: where `y ++ w ++ z` is a text
and `w` shrinks to one of the words, an occurrence of another one lies in `y`,
in `z` or in `w` (`Shrinks.place`), and deleting it from inside `w` leaves what
still shrinks to the same word (`Shrinks.delete_inside`).

Key definitions: `Shrinks`, `LapFree`, `Marked`.
Key theorems: `lapFree_of_marked`, `LapFree.occurrences`, `Shrinks.place`, `Shrinks.delete_inside`.
-/
import Mathlib.Data.List.Infix

namespace Deletion

variable {α : Type*}

/-- The words `ds` are deleted from `w`, one after the other, each from
strictly inside what is left, and `v` remains. -/
inductive Shrinks : List (List α) → List α → List α → Prop
  | refl (v : List α) : Shrinks [] v v
  | delete {ds : List (List α)} {p s v : List α} (d : List α) (hp : p ≠ []) (hs : s ≠ [])
      (h : Shrinks ds (p ++ s) v) : Shrinks (d :: ds) (p ++ d ++ s) v

theorem Shrinks.trans {ds es : List (List α)} {u w v : List α} (h : Shrinks ds u w) (h' : Shrinks es w v) :
    Shrinks (ds ++ es) u v := by
  induction h with
  | refl _ => exact h'
  | delete d hp hs _ ih => exact Shrinks.delete d hp hs (ih h')

/-- What remains is no longer than the text. -/
theorem Shrinks.length_le {ds : List (List α)} {w v : List α} (h : Shrinks ds w v) : v.length ≤ w.length := by
  induction h with
  | refl _ => exact le_rfl
  | delete d _ _ _ ih =>
    simp only [List.length_append] at ih ⊢
    omega

theorem Shrinks.ne_nil {ds : List (List α)} {w v : List α} (h : Shrinks ds w v) (hv : v ≠ []) : w ≠ [] := by
  have hle := h.length_le
  have hpos := List.length_pos_iff.mpr hv
  exact List.length_pos_iff.mp (by omega)

/-- The first word deleted, or what remains, occurs in the text. -/
theorem Shrinks.infix_mem {ds : List (List α)} {w v : List α} (h : Shrinks ds w v) : ∃ n ∈ v :: ds, n <:+: w := by
  cases h with
  | refl _ => exact ⟨_, List.mem_cons_self, List.infix_rfl⟩
  | delete d _ _ _ => exact ⟨d, List.mem_cons_of_mem _ List.mem_cons_self, List.infix_append _ d _⟩

/-- No word lies within another one, and no end of one is a beginning of
another. -/
def LapFree (ns : List (List α)) : Prop :=
  ∀ n ∈ ns, ∀ m ∈ ns, (n <:+: m → n = m) ∧ ∀ s, s ≠ [] → s <:+ n → s <+: m → s = n

variable {ns : List (List α)}

/-- A word between two marks that it does not hold otherwise. -/
def Marked (a b : α) (n : List α) : Prop :=
  n.head? = some a ∧ n.getLast? = some b ∧ a ∉ n.tail ∧ b ∉ n.dropLast

/-- Words between the same marks neither contain nor overlap one another. -/
theorem lapFree_of_marked {a b : α} (h : ∀ n ∈ ns, Marked a b n) : LapFree ns := by
  have hbegins : ∀ n ∈ ns, ∀ m ∈ ns, n <+: m → n = m := by
    rintro n hn m hm ⟨rest, rfl⟩
    by_contra hne
    have hrest : rest ≠ [] := fun hnil => hne (by rw [hnil, List.append_nil])
    have hb : b ∈ n := List.mem_of_getLast? (h n hn).2.1
    refine (h _ hm).2.2.2 ?_
    rw [List.dropLast_append_of_ne_nil hrest]
    exact List.mem_append_left _ hb
  have honly : ∀ n ∈ ns, ∀ s, s.head? = some a → s <:+ n → s = n := by
    rintro n hn s hs ⟨p, rfl⟩
    cases p with
    | nil => rfl
    | cons c p =>
      have ha : a ∈ s := List.mem_of_mem_head? hs
      exact absurd (List.mem_append_right p ha) (h _ hn).2.2.1
  intro n hn m hm
  constructor
  · rintro ⟨p, s, rfl⟩
    have hend : n ++ s = p ++ n ++ s := by
      refine honly _ hm (n ++ s) ?_ ⟨p, by simp⟩
      rw [List.head?_append, (h n hn).1]
      rfl
    exact hbegins n hn _ hm (hend ▸ List.prefix_append n s)
  · intro s hs hsn hsm
    refine honly n hn s ?_ hsn
    obtain ⟨c, cs, rfl⟩ := List.exists_cons_of_ne_nil hs
    obtain ⟨rest, rfl⟩ := hsm
    simpa using (h _ hm).1

/-- An occurrence that begins no earlier than another one is that one, or
comes after it. -/
theorem LapFree.occurrences_of_le (h : LapFree ns) {n m t s s' : List α} (hn : n ∈ ns) (hm : m ∈ ns)
    (heq : n ++ s = t ++ (m ++ s')) : (t = [] ∧ n = m ∧ s = s') ∨ ∃ q, t = n ++ q ∧ s = q ++ (m ++ s') := by
  rcases List.append_eq_append_iff.mp heq with ⟨q, hq, hs⟩ | ⟨r, hr, hs⟩
  · exact Or.inr ⟨q, hq, hs⟩
  · by_cases hnil : r = []
    · subst hnil
      exact Or.inr ⟨[], by simpa using hr.symm, by simpa using hs.symm⟩
    -- `r` ends the one word and begins at the other
    have same : r = n ∧ n = m := by
      rcases List.append_eq_append_iff.mp hs with ⟨q, hq, -⟩ | ⟨q, hq, -⟩
      · have hin : m <:+: n := ⟨t, q, by rw [hr, hq, List.append_assoc]⟩
        have hmn := (h m hm n hn).1 hin
        have hlen := congrArg List.length hr
        have hlen' := congrArg List.length hq
        simp only [List.length_append] at hlen hlen'
        rw [hmn] at hlen'
        have ht : t = [] := List.length_eq_zero_iff.mp (by omega)
        exact ⟨by rw [hr, ht, List.nil_append], hmn.symm⟩
      · have hrn := (h n hn m hm).2 r hnil ⟨t, hr.symm⟩ ⟨q, hq.symm⟩
        have hin : n <:+: m := ⟨[], q, by rw [List.nil_append, ← hrn, hq]⟩
        exact ⟨hrn, (h n hn m hm).1 hin⟩
    obtain ⟨rfl, rfl⟩ := same
    have ht : t = [] := List.self_eq_append_left.mp hr
    subst ht
    exact Or.inl ⟨rfl, rfl, by simpa using hs.symm⟩

/-- Two occurrences in a text are the same, or one comes after the other. -/
theorem LapFree.occurrences (h : LapFree ns) {n m p s p' s' : List α} (hn : n ∈ ns) (hm : m ∈ ns)
    (heq : p ++ n ++ s = p' ++ m ++ s') :
    (p = p' ∧ n = m ∧ s = s') ∨ (∃ q, p' = p ++ n ++ q ∧ s = q ++ m ++ s') ∨
      ∃ q, p = p' ++ m ++ q ∧ s' = q ++ n ++ s := by
  rw [List.append_assoc, List.append_assoc] at heq
  rcases List.append_eq_append_iff.mp heq with ⟨t, ht, hs⟩ | ⟨t, ht, hs⟩
  · rcases h.occurrences_of_le hn hm hs with ⟨rfl, hnm, hss⟩ | ⟨q, rfl, hss⟩
    · exact Or.inl ⟨by rw [ht, List.append_nil], hnm, hss⟩
    · exact Or.inr (Or.inl ⟨q, by rw [ht, List.append_assoc], by rw [hss, List.append_assoc]⟩)
  · rcases h.occurrences_of_le hm hn hs with ⟨rfl, hnm, hss⟩ | ⟨q, rfl, hss⟩
    · exact Or.inl ⟨by rw [ht, List.append_nil], hnm.symm, hss.symm⟩
    · exact Or.inr (Or.inr ⟨q, by rw [ht, List.append_assoc], by rw [hss, List.append_assoc]⟩)

/-- Around a text that shrinks to a word, every occurrence of a word lies
before the text, after it, or in it; in it, it reaches both ends or neither. -/
theorem Shrinks.place (h : LapFree ns) {ds : List (List α)} {w m c : List α} (hshrinks : Shrinks ds w m)
    (hds : ∀ d ∈ ds, d ∈ ns) (hm : m ∈ ns) (hc : c ∈ ns) {y z p s : List α} (heq : y ++ w ++ z = p ++ c ++ s) :
    (∃ q, y = p ++ c ++ q) ∨ (∃ q, z = q ++ c ++ s) ∨
      ∃ q r, w = q ++ c ++ r ∧ p = y ++ q ∧ s = r ++ z ∧ (q = [] ↔ r = []) := by
  induction hshrinks generalizing y z p s with
  | refl m =>
    rcases h.occurrences hm hc heq with ⟨rfl, rfl, rfl⟩ | ⟨q, -, hq⟩ | ⟨q, hq, -⟩
    · exact Or.inr (Or.inr ⟨[], [], by simp, by simp, by simp, Iff.rfl⟩)
    · exact Or.inr (Or.inl ⟨q, hq⟩)
    · exact Or.inl ⟨q, hq⟩
  | @delete ds a b m d ha hb _ ih =>
    rw [List.forall_mem_cons] at hds
    have heq' : (y ++ a) ++ d ++ (b ++ z) = p ++ c ++ s := by simpa using heq
    rcases h.occurrences hds.1 hc heq' with ⟨rfl, rfl, rfl⟩ | ⟨q, rfl, hq⟩ | ⟨q, hq, rfl⟩
    · exact Or.inr (Or.inr ⟨a, b, rfl, rfl, rfl, by simp [ha, hb]⟩)
    · -- the occurrence comes after the word deleted first
      have hrest : y ++ (a ++ b) ++ z = (y ++ a ++ q) ++ c ++ s := by simp [hq]
      rcases ih hds.2 hm hrest with ⟨q', hy⟩ | hz | ⟨q', r, hw, hp, hs, hiff⟩
      · have hlen := congrArg List.length hy
        have hpos := List.length_pos_iff.mpr ha
        simp only [List.length_append] at hlen
        omega
      · exact Or.inr (Or.inl hz)
      · have hq' : a ++ q = q' := List.append_cancel_left (by rw [← hp, List.append_assoc])
        subst hq'
        have hcut : a ++ b = a ++ (q ++ c ++ r) := by
          rw [hw]
          simp
        have hb' : b = q ++ c ++ r := List.append_cancel_left hcut
        refine Or.inr (Or.inr ⟨a ++ d ++ q, r, by rw [hb']; simp, by simp, hs, ?_⟩)
        have hr : r ≠ [] := fun hnil => by simpa [ha] using hiff.mpr hnil
        simp [ha, hr]
    · -- it comes before
      have hrest : y ++ (a ++ b) ++ z = p ++ c ++ (q ++ (b ++ z)) := by
        rw [← List.append_assoc y a b, hq]
        simp
      rcases ih hds.2 hm hrest with hy | ⟨q', hz⟩ | ⟨q', r, hw, hp, hs, hiff⟩
      · exact Or.inl hy
      · have hlen := congrArg List.length hz
        have hpos := List.length_pos_iff.mpr hb
        simp only [List.length_append] at hlen
        omega
      · have hr : q ++ b = r := List.append_cancel_right (by rw [← hs, List.append_assoc])
        subst hr
        have hcut : a ++ b = (q' ++ c ++ q) ++ b := by
          rw [hw]
          simp
        have ha' : a = q' ++ c ++ q := List.append_cancel_right hcut
        refine Or.inr (Or.inr ⟨q', q ++ d ++ b, by rw [ha']; simp, hp, by simp, ?_⟩)
        have hq' : q' ≠ [] := fun hnil => by simpa [hb] using hiff.mp hnil
        simp [hq', hb]

/-- A word itself cannot shrink. -/
theorem Shrinks.nil_of_mem (h : LapFree ns) {ds : List (List α)} {w m : List α} (hshrinks : Shrinks ds w m)
    (hds : ∀ d ∈ ds, d ∈ ns) (hw : w ∈ ns) : ds = [] ∧ w = m := by
  cases hshrinks with
  | refl _ => exact ⟨rfl, rfl⟩
  | @delete _ a b _ d ha _ _ =>
    have heq := (h d (hds d List.mem_cons_self) _ hw).1 (List.infix_append a d b)
    have hlen := congrArg List.length heq
    have hpos := List.length_pos_iff.mpr ha
    simp only [List.length_append] at hlen
    omega

/-- Deleting an occurrence from strictly inside leaves what still shrinks to
the word, and the other deletions are still to be made. -/
theorem Shrinks.delete_inside (h : LapFree ns) {ds : List (List α)} {w m c : List α} (hshrinks : Shrinks ds w m)
    (hds : ∀ d ∈ ds, d ∈ ns) (hm : m ∈ ns) (hc : c ∈ ns) {p s : List α} (hp : p ≠ []) (hs : s ≠ [])
    (heq : w = p ++ c ++ s) :
    ∃ es, Shrinks es (p ++ s) m ∧ (∀ d ∈ es, d ∈ ds) ∧ ∀ d ∈ ds, d ≠ c → d ∈ es := by
  induction hshrinks generalizing p s with
  | refl m =>
    have hcm := (h c hc m hm).1 (by rw [heq]; exact List.infix_append p c s)
    have hlen := congrArg List.length heq
    have hpos := List.length_pos_iff.mpr hp
    rw [hcm] at hlen
    simp only [List.length_append] at hlen
    omega
  | @delete ds a b m d ha hb hrest ih =>
    rw [List.forall_mem_cons] at hds
    have hcons : ∀ {es : List (List α)}, (∀ x ∈ ds, x ≠ c → x ∈ es) → ∀ x ∈ d :: ds, x ≠ c → x ∈ d :: es := by
      intro es hkeep x hx hne
      rcases List.mem_cons.mp hx with rfl | hx
      · exact List.mem_cons_self
      · exact List.mem_cons_of_mem d (hkeep x hx hne)
    rcases h.occurrences hds.1 hc heq with ⟨rfl, rfl, rfl⟩ | ⟨q, rfl, rfl⟩ | ⟨q, rfl, rfl⟩
    · refine ⟨ds, hrest, fun d' hd' => List.mem_cons_of_mem _ hd', fun d' hd' hne => ?_⟩
      exact (List.mem_cons.mp hd').resolve_left hne
    · obtain ⟨es, hes, hsub, hkeep⟩ := ih hds.2 hm (p := a ++ q) (s := s) (by simp [ha]) hs (by simp)
      have hback : Shrinks (d :: es) (a ++ d ++ (q ++ s)) m :=
        Shrinks.delete d ha (by simp [hs]) (by simpa using hes)
      exact ⟨d :: es, by simpa using hback, List.cons_subset_cons d hsub, hcons hkeep⟩
    · obtain ⟨es, hes, hsub, hkeep⟩ := ih hds.2 hm (p := p) (s := q ++ b) hp (by simp [hb]) (by simp)
      have hback : Shrinks (d :: es) ((p ++ q) ++ d ++ b) m :=
        Shrinks.delete d (by simp [hp]) hb (by simpa using hes)
      exact ⟨d :: es, by simpa using hback, List.cons_subset_cons d hsub, hcons hkeep⟩

end Deletion
