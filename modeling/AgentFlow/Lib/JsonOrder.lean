/-
# Values that differ in the order of members

Two values are the same up to the order of the members of their objects, at
every depth (`Value.Same`), if and only if they are equal once sorted
(`same_iff_sort_eq`), as long as no object has a key twice.

Key definitions: `Value.Same`, `Value.without`.
Key theorems: `Value.same_iff_sort_eq`.
-/
import AgentFlow.Lib.JsonSort

namespace Json

mutual

/-- Equal up to the order of members. -/
def Value.Same : Value → Value → Prop
  | .arr items, w => ∃ items', w = .arr items' ∧ sameItems items items'
  | .obj ms, w => ∃ ns ns', w = .obj ns ∧ ns'.Perm ns ∧ sameMembers ms ns'
  | .null, w => w = .null
  | .bool b, w => w = .bool b
  | .int i, w => w = .int i
  | .float bits, w => w = .float bits
  | .str s, w => w = .str s

def sameItems : List Value → List Value → Prop
  | [], ws => ws = []
  | v :: vs, ws => ∃ w ws', ws = w :: ws' ∧ v.Same w ∧ sameItems vs ws'

def sameMembers : List (String × Value) → List (String × Value) → Prop
  | [], ns => ns = []
  | (k, v) :: ms, ns => ∃ w ns', ns = (k, w) :: ns' ∧ v.Same w ∧ sameMembers ms ns'

end

/-- The object without its member `k`. -/
def Value.without (k : String) : Value → Value
  | .obj ms => .obj (OrderedMap.erase k ms)
  | v => v

/-! ### Keys -/

/-- The order of members does not matter for a look-up, if no key is there twice. -/
theorem lookup_perm {ms ns : List (String × Value)} (hp : ms.Perm ns) (hn : (ns.map Prod.fst).Nodup) (k : String) :
    ms.lookup k = ns.lookup k := by
  have hm : (ms.map Prod.fst).Nodup := (hp.map Prod.fst).nodup_iff.mpr hn
  cases hk : ns.lookup k with
  | none =>
    cases hk' : ms.lookup k with
    | none => rfl
    | some v =>
      obtain ⟨l, r, rfl, -⟩ := List.lookup_eq_some_iff.mp hk'
      rw [OrderedMap.lookup_of_mem hn (hp.mem_iff.mp (by simp : (k, v) ∈ l ++ (k, v) :: r))] at hk
      cases hk
  | some v =>
    obtain ⟨l, r, rfl, -⟩ := List.lookup_eq_some_iff.mp hk
    exact OrderedMap.lookup_of_mem hm (hp.mem_iff.mpr (by simp))

theorem sortMembers_perm {ms ns : List (String × Value)} (hp : ms.Perm ns) (hn : (ns.map Prod.fst).Nodup) :
    sortMembers ms = sortMembers ns := by
  refine OrderedMap.Sorted.ext (sorted_sortMembers ms) (sorted_sortMembers ns) fun k => ?_
  rw [lookup_sortMembers, lookup_sortMembers, lookup_perm hp hn]

theorem membersKeyed_perm {ms ns : List (String × Value)} (hp : ms.Perm ns) : membersKeyed ms ↔ membersKeyed ns := by
  rw [membersKeyed_iff, membersKeyed_iff]
  exact ⟨fun h b hb => h b (hp.mem_iff.mpr hb), fun h b hb => h b (hp.mem_iff.mp hb)⟩

theorem Value.Keyed.erase {ms : List (String × Value)} (h : (Value.obj ms).Keyed) (k : String) :
    (Value.obj (OrderedMap.erase k ms)).Keyed := by
  refine ⟨List.Nodup.sublist (List.Sublist.map _ List.filter_sublist) h.1, membersKeyed_iff.mpr fun b hb => ?_⟩
  exact membersKeyed_iff.mp h.2 b (List.mem_filter.mp hb).1

theorem Value.Keyed.without {v : Value} (h : v.Keyed) (k : String) : (v.without k).Keyed := by
  cases v with
  | obj ms => exact h.erase k
  | _ => exact h

/-- The members of a keyed value are keyed. -/
theorem Value.Keyed.find? {v w : Value} {k : String} (h : v.Keyed) (hw : v.find? k = some w) : w.Keyed := by
  cases v with
  | obj ms =>
    obtain ⟨l, r, rfl, -⟩ := List.lookup_eq_some_iff.mp hw
    exact membersKeyed_iff.mp h.2 (k, w) (by simp)
  | _ => cases hw

/-! ### Sorting -/

theorem sort_eq_arr {v : Value} {items : List Value} (h : (Value.arr items).sort = v.sort) :
    ∃ items', v = .arr items' := by
  cases v with
  | arr items' => exact ⟨items', rfl⟩
  | _ => simp [Value.sort] at h

theorem sort_eq_obj {v : Value} {ms : List (String × Value)} (h : (Value.obj ms).sort = v.sort) :
    ∃ ns, v = .obj ns := by
  cases v with
  | obj ns => exact ⟨ns, rfl⟩
  | _ => simp [Value.sort] at h

mutual

theorem Value.same_of_sort_eq : ∀ {a b : Value}, a.Keyed → b.Keyed → a.sort = b.sort → a.Same b
  | .arr items, b, ha, hb, h => by
    obtain ⟨items', rfl⟩ := sort_eq_arr h
    rw [Value.sort, Value.sort] at h
    exact ⟨items', rfl, sameItems_of_sort_eq ha hb (Value.arr.inj h)⟩
  | .obj ms, b, ha, hb, h => by
    obtain ⟨ns, rfl⟩ := sort_eq_obj h
    rw [Value.sort, Value.sort] at h
    obtain ⟨ns', hp, hs⟩ := sameMembers_of_sort_eq ha hb (Value.obj.inj h)
    exact ⟨ns, ns', rfl, hp, hs⟩
  | .null, b, _, _, h => by cases b <;> simp [Value.sort, Value.Same] at h ⊢
  | .bool _, b, _, _, h => by cases b <;> simp [Value.sort, Value.Same] at h ⊢; exact h.symm
  | .int _, b, _, _, h => by cases b <;> simp [Value.sort, Value.Same] at h ⊢; exact h.symm
  | .float _, b, _, _, h => by cases b <;> simp [Value.sort, Value.Same] at h ⊢; exact h.symm
  | .str _, b, _, _, h => by cases b <;> simp [Value.sort, Value.Same] at h ⊢; exact h.symm

theorem sameItems_of_sort_eq : ∀ {as bs : List Value}, itemsKeyed as → itemsKeyed bs → sortItems as = sortItems bs →
    sameItems as bs
  | [], bs, _, _, h => by
    cases bs with
    | nil => rfl
    | cons b bs => cases h
  | a :: as, bs, ha, hb, h => by
    cases bs with
    | nil => cases h
    | cons b bs =>
      obtain ⟨h₁, h₂⟩ := List.cons.inj h
      exact ⟨b, bs, rfl, Value.same_of_sort_eq ha.1 hb.1 h₁, sameItems_of_sort_eq ha.2 hb.2 h₂⟩

/-- The members of the second are put in the order of the first. -/
theorem sameMembers_of_sort_eq : ∀ {ms ns : List (String × Value)}, (Value.obj ms).Keyed → (Value.obj ns).Keyed →
    sortMembers ms = sortMembers ns → ∃ ns' : List (String × Value), ns'.Perm ns ∧ sameMembers ms ns'
  | [], ns, _, _, h => by
    have hnil : ns = [] := by
      cases ns with
      | nil => rfl
      | cons b ns =>
        have hlookup := congrArg (List.lookup b.1) h
        rw [lookup_sortMembers, lookup_sortMembers, OrderedMap.lookup_cons, if_pos rfl] at hlookup
        cases hlookup
    exact ⟨[], by rw [hnil], rfl⟩
  | (k, v) :: ms, ns, ha, hb, h => by
    have hkeys := ha.1
    rw [List.map_cons, List.nodup_cons] at hkeys
    -- the member of the same key
    have hlookup := congrArg (List.lookup k) h
    rw [lookup_sortMembers, lookup_sortMembers, OrderedMap.lookup_cons, if_pos rfl, Option.map_some] at hlookup
    obtain ⟨w, hw, hvw⟩ := Option.map_eq_some_iff.mp hlookup.symm
    obtain ⟨l, r, rfl, -⟩ := List.lookup_eq_some_iff.mp hw
    have hmiddle : (l ++ (k, w) :: r).Perm ((k, w) :: (l ++ r)) := List.perm_middle
    have hb' : (((k, w) :: (l ++ r)).map Prod.fst).Nodup := (hmiddle.map Prod.fst).nodup_iff.mp hb.1
    have hbrest := (membersKeyed_perm hmiddle).mp hb.2
    have hrest : sortMembers ms = sortMembers (l ++ r) := by
      rw [sortMembers_perm hmiddle hb'] at h
      rw [List.map_cons, List.nodup_cons] at hb'
      refine OrderedMap.Sorted.ext (sorted_sortMembers _) (sorted_sortMembers _) fun k' => ?_
      have hk' := congrArg (List.lookup k') h
      rw [lookup_sortMembers, lookup_sortMembers, OrderedMap.lookup_cons, OrderedMap.lookup_cons] at hk'
      rw [lookup_sortMembers, lookup_sortMembers]
      by_cases heq : k' = k
      · rw [heq, OrderedMap.lookup_eq_none_of_notMem hkeys.1, OrderedMap.lookup_eq_none_of_notMem hb'.1]
      · rwa [if_neg heq, if_neg heq] at hk'
    rw [List.map_cons, List.nodup_cons] at hb'
    obtain ⟨ns', hp, hs⟩ := @sameMembers_of_sort_eq ms _ ⟨hkeys.2, ha.2.2⟩ ⟨hb'.2, hbrest.2⟩ hrest
    exact ⟨(k, w) :: ns', (hp.cons _).trans hmiddle.symm, w, ns', rfl,
      Value.same_of_sort_eq ha.2.1 hbrest.1 hvw.symm, hs⟩

end

mutual

theorem Value.sort_eq_of_same : ∀ {a b : Value}, b.Keyed → a.Same b → a.sort = b.sort
  | .arr items, b, hb, h => by
    obtain ⟨items', rfl, hs⟩ := h
    rw [Value.sort, Value.sort, sortItems_eq_of_same hb hs]
  | .obj ms, b, hb, h => by
    obtain ⟨ns, ns', rfl, hp, hs⟩ := h
    rw [Value.sort, Value.sort, sortMembers_eq_of_same ((membersKeyed_perm hp).mpr hb.2) hs, sortMembers_perm hp hb.1]
  | .null, b, _, h => by rw [show b = .null from h]
  | .bool x, b, _, h => by rw [show b = .bool x from h]
  | .int i, b, _, h => by rw [show b = .int i from h]
  | .float bits, b, _, h => by rw [show b = .float bits from h]
  | .str s, b, _, h => by rw [show b = .str s from h]

theorem sortItems_eq_of_same : ∀ {as bs : List Value}, itemsKeyed bs → sameItems as bs → sortItems as = sortItems bs
  | [], bs, _, h => by rw [show bs = [] from h]
  | a :: as, bs, hb, h => by
    obtain ⟨b, bs, rfl, hab, hs⟩ := h
    rw [sortItems, sortItems, Value.sort_eq_of_same hb.1 hab, sortItems_eq_of_same hb.2 hs]

theorem sortMembers_eq_of_same : ∀ {ms ns : List (String × Value)}, membersKeyed ns → sameMembers ms ns →
    sortMembers ms = sortMembers ns
  | [], ns, _, h => by rw [show ns = [] from h]
  | (k, v) :: ms, ns, hb, h => by
    obtain ⟨w, ns, rfl, hvw, hs⟩ := h
    rw [sortMembers, sortMembers, Value.sort_eq_of_same hb.1 hvw, sortMembers_eq_of_same hb.2 hs]

end

/-- **Sorting forgets the order of members, and nothing else.** -/
theorem Value.same_iff_sort_eq {a b : Value} (ha : a.Keyed) (hb : b.Keyed) : a.Same b ↔ a.sort = b.sort :=
  ⟨Value.sort_eq_of_same hb, Value.same_of_sort_eq ha hb⟩

end Json
