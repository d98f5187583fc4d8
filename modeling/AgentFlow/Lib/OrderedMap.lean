/-
# Ordered maps as sorted association lists

A map over a linearly ordered key type, iterated in the order of its keys: a
list of bindings. `insert` is one pass that replaces a binding or puts a new
one at its place, so that what a lookup finds afterwards (`lookup_insert`)
needs no assumption on the list; that the keys stay strictly increasing is
`Sorted.insert`.

Key definitions: `insert`, `erase`, `modify`, `Sorted`.
-/
import Mathlib.Data.List.Lookmap
import Mathlib.Tactic

namespace OrderedMap

variable {κ ν : Type*} [LinearOrder κ]

/-- Binds `k` to `v`, in place of what it was bound to. -/
def insert (k : κ) (v : ν) : List (κ × ν) → List (κ × ν)
  | [] => [(k, v)]
  | (k', v') :: rest =>
    if k < k' then (k, v) :: (k', v') :: rest
    else if k = k' then (k, v) :: rest
    else (k', v') :: insert k v rest

def erase (k : κ) (m : List (κ × ν)) : List (κ × ν) := m.filter fun b => b.1 ≠ k

/-- Changes what `k` is bound to, if it is bound. -/
def modify (k : κ) (f : ν → ν) (m : List (κ × ν)) : List (κ × ν) :=
  m.map fun b => if b.1 = k then (b.1, f b.2) else b

def Sorted (m : List (κ × ν)) : Prop := m.Pairwise fun a b => a.1 < b.1

theorem insert_nil (k : κ) (v : ν) : insert k v [] = [(k, v)] := rfl

theorem insert_cons (k k' : κ) (v v' : ν) (rest : List (κ × ν)) : insert k v ((k', v') :: rest) =
    if k < k' then (k, v) :: (k', v') :: rest
    else if k = k' then (k, v) :: rest
    else (k', v') :: insert k v rest := rfl

theorem sorted_nil : Sorted ([] : List (κ × ν)) := List.Pairwise.nil

theorem mem_insert {k : κ} {v : ν} {b : κ × ν} : ∀ {m : List (κ × ν)}, b ∈ insert k v m → b = (k, v) ∨ b ∈ m
  | [], h => Or.inl (List.mem_singleton.mp h)
  | (k', v') :: rest, h => by
    rw [insert_cons] at h
    split_ifs at h with h1 h2
    · rcases List.mem_cons.mp h with h | h
      · exact Or.inl h
      · exact Or.inr h
    · rcases List.mem_cons.mp h with h | h
      · exact Or.inl h
      · exact Or.inr (List.mem_cons_of_mem _ h)
    · rcases List.mem_cons.mp h with h | h
      · exact Or.inr (by rw [h]; exact List.mem_cons_self)
      · exact (mem_insert h).imp_right (List.mem_cons_of_mem _)

theorem lookup_cons (k k' : κ) (v : ν) (m : List (κ × ν)) :
    ((k, v) :: m).lookup k' = if k' = k then some v else m.lookup k' := by
  split_ifs with h
  · rw [List.lookup_cons, beq_iff_eq.mpr h]
  · rw [List.lookup_cons, beq_false_of_ne h]

/-- What is bound after an insertion. -/
@[simp]
theorem lookup_insert (k k' : κ) (v : ν) : ∀ m : List (κ × ν),
    (insert k v m).lookup k' = if k' = k then some v else m.lookup k'
  | [] => lookup_cons k k' v []
  | (k₀, v₀) :: rest => by
    rw [insert_cons]
    split
    · rw [lookup_cons]
    split
    case isTrue h2 =>
      subst h2
      rw [lookup_cons, lookup_cons]
      split_ifs <;> rfl
    case isFalse h2 =>
      rw [lookup_cons, lookup_insert k k' v rest, lookup_cons]
      by_cases h4 : k' = k₀
      · rw [if_pos h4, if_pos h4, if_neg (fun h => h2 (h.symm.trans h4))]
      · rw [if_neg h4, if_neg h4]

theorem Sorted.insert (k : κ) (v : ν) : ∀ {m : List (κ × ν)}, Sorted m → Sorted (insert k v m)
  | [], _ => List.pairwise_singleton _ _
  | (k', v') :: rest, h => by
    obtain ⟨hk', hrest⟩ := List.pairwise_cons.mp h
    rw [insert_cons]
    split_ifs with h1 h2
    · refine List.pairwise_cons.mpr ⟨fun b hb => ?_, h⟩
      rcases List.mem_cons.mp hb with rfl | hb
      · exact h1
      · exact h1.trans (hk' b hb)
    · subst h2
      exact List.pairwise_cons.mpr ⟨hk', hrest⟩
    · refine List.pairwise_cons.mpr ⟨fun b hb => ?_, Sorted.insert k v hrest⟩
      rcases mem_insert hb with rfl | hb
      · exact lt_of_le_of_ne (not_lt.mp h1) (Ne.symm h2)
      · exact hk' b hb

@[simp]
theorem lookup_modify (k k' : κ) (f : ν → ν) : ∀ m : List (κ × ν),
    (modify k f m).lookup k' = if k' = k then (m.lookup k').map f else m.lookup k'
  | [] => by simp [modify]
  | (k₀, v₀) :: rest => by
    have ih := lookup_modify k k' f rest
    rw [modify] at ih
    rw [modify, List.map_cons, lookup_cons]
    by_cases h0 : k₀ = k
    · rw [if_pos h0, lookup_cons, ih]
      by_cases h : k' = k₀
      · rw [if_pos h, if_pos h, if_pos (h.trans h0), Option.map_some]
      · rw [if_neg h, if_neg h]
    · rw [if_neg h0, lookup_cons, ih]
      by_cases h : k' = k₀
      · rw [if_pos h, if_pos h, if_neg (fun hk => h0 (h.symm.trans hk))]
      · rw [if_neg h, if_neg h]

/-- A binding of a list that binds no key twice. -/
theorem lookup_of_mem {k : κ} {v : ν} : ∀ {m : List (κ × ν)}, (m.map Prod.fst).Nodup → (k, v) ∈ m →
    m.lookup k = some v
  | (k', v') :: rest, hn, hm => by
    rw [List.map_cons, List.nodup_cons] at hn
    rw [lookup_cons]
    rcases List.mem_cons.mp hm with heq | hm
    · cases heq
      rw [if_pos rfl]
    · have hne : k ≠ k' := fun heq => hn.1 (List.mem_map.mpr ⟨(k, v), hm, heq⟩)
      rw [if_neg hne, lookup_of_mem hn.2 hm]

theorem lookup_eq_none_of_notMem {m : List (κ × ν)} {k : κ} (h : k ∉ m.map Prod.fst) : m.lookup k = none := by
  cases hl : m.lookup k with
  | none => rfl
  | some v =>
    obtain ⟨l, r, rfl, -⟩ := List.lookup_eq_some_iff.mp hl
    exact absurd (by simp) h

/-- A key below all the bound ones is not bound. -/
theorem lookup_of_lt {k : κ} : ∀ {m : List (κ × ν)}, (∀ b ∈ m, k < b.1) → m.lookup k = none
  | [], _ => rfl
  | (k', v') :: rest, h => by
    have hne : k ≠ k' := (h (k', v') List.mem_cons_self).ne
    rw [lookup_cons, if_neg hne]
    exact lookup_of_lt fun b hb => h b (List.mem_cons_of_mem _ hb)

@[simp]
theorem lookup_erase (k k' : κ) : ∀ m : List (κ × ν),
    (erase k m).lookup k' = if k' = k then none else m.lookup k'
  | [] => by simp [erase]
  | (k₀, v₀) :: rest => by
    have ih := lookup_erase k k' rest
    rw [erase] at ih
    rw [erase, List.filter_cons, lookup_cons]
    by_cases h0 : k₀ = k
    · rw [if_neg (by simpa using h0), ih]
      by_cases h : k' = k
      · rw [if_pos h, if_pos h]
      · rw [if_neg h, if_neg h, if_neg (fun h' => h (h'.trans h0))]
    · rw [if_pos (by simpa using h0), lookup_cons, ih]
      by_cases h : k' = k₀
      · rw [if_pos h, if_pos h, if_neg (fun hk => h0 (h.symm.trans hk))]
      · rw [if_neg h, if_neg h]

theorem Sorted.erase (k : κ) {m : List (κ × ν)} (h : Sorted m) : Sorted (erase k m) := List.Pairwise.filter _ h

/-- A sorted map is what its lookups say. -/
theorem Sorted.ext : ∀ {m m' : List (κ × ν)}, Sorted m → Sorted m' → (∀ k, m.lookup k = m'.lookup k) → m = m'
  | [], [], _, _, _ => rfl
  | [], (k, v) :: m', _, _, h => by
    have hk := h k
    rw [lookup_cons, if_pos rfl] at hk
    cases hk
  | (k, v) :: m, [], _, _, h => by
    have hk := h k
    rw [lookup_cons, if_pos rfl] at hk
    cases hk
  | (k, v) :: m, (k', v') :: m', hs, hs', h => by
    obtain ⟨hk, hm⟩ := List.pairwise_cons.mp hs
    obtain ⟨hk', hm'⟩ := List.pairwise_cons.mp hs'
    have h1 := h k
    have h2 := h k'
    rw [lookup_cons, lookup_cons, if_pos rfl] at h1
    rw [lookup_cons, lookup_cons, if_pos rfl] at h2
    -- the smaller of the two heads is bound by one map only
    rcases lt_trichotomy k k' with hlt | rfl | hlt
    · rw [if_neg hlt.ne, lookup_of_lt fun b hb => hlt.trans (hk' b hb)] at h1
      cases h1
    · rw [if_pos rfl] at h1
      obtain rfl := Option.some.inj h1
      rw [Sorted.ext hm hm' fun k₁ => ?_]
      have h3 := h k₁
      rw [lookup_cons, lookup_cons] at h3
      by_cases he : k₁ = k
      · rw [he, lookup_of_lt hk, lookup_of_lt hk']
      · rwa [if_neg he, if_neg he] at h3
    · rw [if_neg hlt.ne, lookup_of_lt fun b hb => hlt.trans (hk b hb)] at h2
      cases h2

/-- Binding a key to what it is bound to. -/
theorem Sorted.insert_of_lookup {k : κ} {v : ν} {m : List (κ × ν)} (hs : Sorted m) (h : m.lookup k = some v) :
    OrderedMap.insert k v m = m := by
  refine Sorted.ext (hs.insert k v) hs fun k' => ?_
  rw [lookup_insert]
  split_ifs with hk
  · rw [hk, h]
  · rfl

/-- The last binding has the greatest key. -/
theorem Sorted.le_getLast? : ∀ {m : List (κ × ν)} {b : κ × ν}, Sorted m → m.getLast? = some b →
    m.lookup b.1 = some b.2 ∧ ∀ k v, m.lookup k = some v → k ≤ b.1
  | [c], b, _, h => by
    obtain rfl : c = b := by simpa using h
    refine ⟨by rw [lookup_cons, if_pos rfl], fun k v hk => ?_⟩
    rw [lookup_cons] at hk
    split_ifs at hk with heq
    · exact heq.le
    · cases hk
  | c :: d :: m, b, hs, h => by
    obtain ⟨hc, hm⟩ := List.pairwise_cons.mp hs
    rw [List.getLast?_cons_cons] at h
    obtain ⟨hb, hle⟩ := Sorted.le_getLast? hm h
    have hcb : c.1 < b.1 := hc b (List.mem_of_getLast? h)
    refine ⟨by rw [lookup_cons, if_neg hcb.ne', hb], fun k v hk => ?_⟩
    rw [lookup_cons] at hk
    split_ifs at hk with heq
    · exact heq ▸ hcb.le
    · exact hle k v hk

/-- Leaving every bound value as it is. -/
theorem modify_id {k : κ} {f : ν → ν} {m : List (κ × ν)} (h : ∀ b ∈ m, f b.2 = b.2) : modify k f m = m := by
  rw [modify]
  conv_rhs => rw [← List.map_id m]
  refine List.map_congr_left fun b hb => ?_
  split_ifs
  · rw [h b hb]; rfl
  · rfl

end OrderedMap
