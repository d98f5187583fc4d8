/-
# Outstanding requests

A client that talks to a peer keeps a table of the requests it waits for: a
counter that gives each request an id, the ids still pending, and for each
request a channel that takes one answer or is closed. The proofs of what the
three have to do with each other are fields of `Table`, so that every table
there is keeps them.

`Records t h`: the table is what the history `h` of its operations leads to.
Along it no id is given twice (`registered_nodup`), and each request is
completed at most once, by an answer or by closing it (`completed_nodup`).

Key definitions: `Slot`, `Table`, `Table.register`, `Table.deliver`,
`Table.close`, `Table.closeAll`, `Records`.
-/
import Mathlib.Data.List.Nodup
import Mathlib.Tactic

namespace Requests

variable {α : Type*}

/-- A channel for one answer. -/
inductive Slot (α : Type*)
  | waiting
  | delivered (v : α)
  | closed

/-- Every pending request has a waiting channel and the other way round; an
id not given yet has none. -/
structure Table (α : Type*) where
  next : ℕ
  pending : List ℕ
  slot : ℕ → Option (Slot α)
  nodup : pending.Nodup
  mem_pending : ∀ id, id ∈ pending ↔ slot id = some .waiting
  fresh : ∀ id, next ≤ id → slot id = none

namespace Table

variable {t : Table α} {id k : ℕ}

/-- No request yet; the first one gets the id `first`. -/
def empty (first : ℕ) : Table α where
  next := first
  pending := []
  slot := fun _ => none
  nodup := List.nodup_nil
  mem_pending := by simp
  fresh := by simp

theorem lt_next_of_mem (h : id ∈ t.pending) : id < t.next := by
  by_contra hle
  have hnone := t.fresh id (by omega)
  rw [(t.mem_pending id).mp h] at hnone
  simp at hnone

theorem next_not_mem : t.next ∉ t.pending := fun h => absurd (lt_next_of_mem h) (lt_irrefl _)

/-- A new request, with the id `t.next`. -/
def register (t : Table α) : Table α where
  next := t.next + 1
  pending := t.pending ++ [t.next]
  slot := Function.update t.slot t.next (some .waiting)
  nodup := by
    rw [List.nodup_append]
    refine ⟨t.nodup, by simp, ?_⟩
    intro a ha b hb hab
    obtain rfl : b = t.next := by simpa using hb
    exact next_not_mem (hab ▸ ha)
  mem_pending := by
    intro id
    by_cases h : id = t.next
    · simp [h]
    · simp [h, t.mem_pending id]
  fresh := by
    intro id h
    rw [Function.update_of_ne (by omega)]
    exact t.fresh id (by omega)

/-- The request `k` leaves the table and its channel becomes `r`. -/
def complete (t : Table α) (k : ℕ) (r : Slot α) (hr : r ≠ .waiting) : Table α :=
  if hk : k ∈ t.pending then
    { next := t.next
      pending := t.pending.erase k
      slot := Function.update t.slot k (some r)
      nodup := t.nodup.erase k
      mem_pending := by
        intro id
        by_cases h : id = k
        · simp [h, hr, t.nodup.mem_erase_iff]
        · simp [h, List.mem_erase_of_ne h, t.mem_pending id]
      fresh := by
        intro id h
        have hlt := lt_next_of_mem hk
        rw [Function.update_of_ne (by omega)]
        exact t.fresh id h }
  else t

/-- The answer `v` to the request `k`, if it is pending. -/
def deliver (t : Table α) (k : ℕ) (v : α) : Table α := t.complete k (.delivered v) (by simp)

/-- Closes the channel of the request `k`, if it is pending. -/
def close (t : Table α) (k : ℕ) : Table α := t.complete k .closed (by simp)

/-- Closes the channels of all pending requests. -/
def closeAll (t : Table α) : Table α where
  next := t.next
  pending := []
  slot := fun id => if id ∈ t.pending then some .closed else t.slot id
  nodup := List.nodup_nil
  mem_pending := by
    intro id
    by_cases h : id ∈ t.pending
    · simp [h]
    · simp [h, ← t.mem_pending id]
  fresh := by
    intro id h
    have hid : id ∉ t.pending := fun hp => absurd (lt_next_of_mem hp) (by omega)
    simp [hid, t.fresh id h]

@[simp]
theorem pending_empty (first : ℕ) : (empty first : Table α).pending = [] := rfl

@[simp]
theorem slot_empty (first : ℕ) : (empty first : Table α).slot id = none := rfl

@[simp]
theorem next_register : t.register.next = t.next + 1 := rfl

@[simp]
theorem pending_register : t.register.pending = t.pending ++ [t.next] := rfl

theorem slot_register : t.register.slot id = if id = t.next then some .waiting else t.slot id := by
  simp [register, Function.update_apply]

@[simp]
theorem next_closeAll : t.closeAll.next = t.next := rfl

@[simp]
theorem pending_closeAll : t.closeAll.pending = [] := rfl

theorem slot_closeAll : t.closeAll.slot id = if id ∈ t.pending then some .closed else t.slot id := rfl

section Complete

variable {r : Slot α} {hr : r ≠ .waiting}

theorem pending_complete (h : k ∈ t.pending) : (t.complete k r hr).pending = t.pending.erase k := by
  simp [complete, h]

theorem next_complete : (t.complete k r hr).next = t.next := by
  unfold complete
  split_ifs <;> rfl

theorem slot_complete (h : k ∈ t.pending) :
    (t.complete k r hr).slot id = if id = k then some r else t.slot id := by
  simp [complete, h, Function.update_apply]

theorem mem_pending_complete (h : id ∈ t.pending) (hne : id ≠ k) : id ∈ (t.complete k r hr).pending := by
  unfold complete
  split_ifs with hk
  · exact (List.mem_erase_of_ne hne).mpr h
  · exact h

end Complete

@[simp]
theorem next_deliver (v : α) : (t.deliver k v).next = t.next := next_complete

@[simp]
theorem next_close : (t.close k).next = t.next := next_complete

theorem mem_pending_deliver (v : α) (h : id ∈ t.pending) (hne : id ≠ k) : id ∈ (t.deliver k v).pending :=
  mem_pending_complete h hne

theorem mem_pending_close (h : id ∈ t.pending) (hne : id ≠ k) : id ∈ (t.close k).pending :=
  mem_pending_complete h hne

theorem slot_deliver (v : α) (h : k ∈ t.pending) :
    (t.deliver k v).slot id = if id = k then some (.delivered v) else t.slot id := slot_complete h

theorem slot_close (h : k ∈ t.pending) :
    (t.close k).slot id = if id = k then some .closed else t.slot id := slot_complete h

end Table

/-- What is done to a table. -/
inductive Event (α : Type*)
  | registered (id : ℕ)
  | delivered (id : ℕ) (v : α)
  | closed (id : ℕ)

/-- The request an entry registers. -/
def Event.registered? : Event α → Option ℕ
  | .registered id => some id
  | _ => none

/-- The request an entry completes. -/
def Event.completed? : Event α → Option ℕ
  | .delivered id _ => some id
  | .closed id => some id
  | .registered _ => none

/-- The table is what the history leads to. -/
structure Records (t : Table α) (h : List (Event α)) : Prop where
  registered : ∀ id, Event.registered id ∈ h ↔ t.slot id ≠ none
  delivered : ∀ id v, Event.delivered id v ∈ h ↔ t.slot id = some (.delivered v)
  closed : ∀ id, Event.closed id ∈ h ↔ t.slot id = some .closed
  registered_nodup : (h.filterMap Event.registered?).Nodup
  completed_nodup : (h.filterMap Event.completed?).Nodup

namespace Records

variable {t : Table α} {h : List (Event α)} {id : ℕ}

theorem empty (first : ℕ) : Records (Table.empty first : Table α) [] where
  registered := by simp
  delivered := by simp
  closed := by simp
  registered_nodup := by simp
  completed_nodup := by simp

/-- Only given ids are registered, so the next one is new. -/
theorem mem_registered (hr : Records t h) :
    id ∈ h.filterMap Event.registered? ↔ t.slot id ≠ none := by
  rw [← hr.registered, List.mem_filterMap]
  constructor
  · rintro ⟨e, he, hid⟩
    cases e with
    | registered k =>
      obtain rfl : k = id := by simpa [Event.registered?] using hid
      exact he
    | delivered k v => simp [Event.registered?] at hid
    | closed k => simp [Event.registered?] at hid
  · intro he
    exact ⟨_, he, rfl⟩

theorem lt_next (hr : Records t h) (hid : id ∈ h.filterMap Event.registered?) : id < t.next := by
  by_contra hle
  exact hr.mem_registered.mp hid (t.fresh id (by omega))

/-- A completed request has something in its channel. -/
theorem slot_of_completed (hr : Records t h) (hid : id ∈ h.filterMap Event.completed?) :
    ∃ r, t.slot id = some r ∧ r ≠ .waiting := by
  rw [List.mem_filterMap] at hid
  obtain ⟨e, he, hid⟩ := hid
  cases e with
  | registered k => simp [Event.completed?] at hid
  | delivered k v =>
    obtain rfl : k = id := by simpa [Event.completed?] using hid
    exact ⟨_, (hr.delivered _ _).mp he, by simp⟩
  | closed k =>
    obtain rfl : k = id := by simpa [Event.completed?] using hid
    exact ⟨_, (hr.closed _).mp he, by simp⟩

theorem not_pending (hr : Records t h) (hid : id ∈ h.filterMap Event.completed?) : id ∉ t.pending := by
  intro hp
  obtain ⟨r, hs, hne⟩ := hr.slot_of_completed hid
  rw [(t.mem_pending id).mp hp] at hs
  exact hne (Option.some.inj hs).symm

/-- Only requests are completed. -/
theorem completed_subset (hr : Records t h) : h.filterMap Event.completed? ⊆ h.filterMap Event.registered? := by
  intro id hid
  obtain ⟨r, hs, -⟩ := hr.slot_of_completed hid
  rw [hr.mem_registered, hs]
  simp

theorem register (hr : Records t h) : Records t.register (h ++ [.registered t.next]) where
  registered := by
    intro id
    rw [List.mem_append, hr.registered, Table.slot_register]
    by_cases hid : id = t.next
    · simp [hid]
    · simp [hid]
  delivered := by
    intro id v
    have hnone := t.fresh t.next le_rfl
    rw [List.mem_append, hr.delivered, Table.slot_register]
    by_cases hid : id = t.next
    · simp [hid, hnone]
    · simp [hid]
  closed := by
    intro id
    have hnone := t.fresh t.next le_rfl
    rw [List.mem_append, hr.closed, Table.slot_register]
    by_cases hid : id = t.next
    · simp [hid, hnone]
    · simp [hid]
  registered_nodup := by
    rw [List.filterMap_append, List.nodup_append]
    refine ⟨hr.registered_nodup, by simp [Event.registered?], ?_⟩
    intro a ha b hb hab
    obtain rfl : b = t.next := by simpa [Event.registered?, List.filterMap_cons] using hb
    exact absurd (hr.lt_next (hab ▸ ha)) (lt_irrefl _)
  completed_nodup := by
    simpa [List.filterMap_append, List.filterMap_cons, Event.completed?] using hr.completed_nodup

private theorem snoc_completed {e : Event α} {k : ℕ} (hr : Records t h) (hk : k ∈ t.pending)
    (he : e.completed? = some k) : ((h ++ [e]).filterMap Event.completed?).Nodup := by
  rw [List.filterMap_append, List.nodup_append]
  refine ⟨hr.completed_nodup, by simp [he], ?_⟩
  intro a ha b hb hab
  obtain rfl : b = k := by simpa [he, List.filterMap_cons] using hb
  exact hr.not_pending (hab ▸ ha) hk

theorem deliver (hr : Records t h) {k : ℕ} (v : α) (hk : k ∈ t.pending) :
    Records (t.deliver k v) (h ++ [.delivered k v]) where
  registered := by
    intro id
    rw [List.mem_append, hr.registered, Table.slot_deliver v hk]
    by_cases hid : id = k
    · simp [hid, (t.mem_pending k).mp hk]
    · simp [hid]
  delivered := by
    intro id w
    rw [List.mem_append, hr.delivered, Table.slot_deliver v hk]
    by_cases hid : id = k
    · simp [hid, (t.mem_pending k).mp hk, eq_comm]
    · simp [hid]
  closed := by
    intro id
    rw [List.mem_append, hr.closed, Table.slot_deliver v hk]
    by_cases hid : id = k
    · simp [hid, (t.mem_pending k).mp hk]
    · simp [hid]
  registered_nodup := by
    simpa [List.filterMap_append, List.filterMap_cons, Event.registered?] using hr.registered_nodup
  completed_nodup := hr.snoc_completed hk rfl

theorem close (hr : Records t h) {k : ℕ} (hk : k ∈ t.pending) :
    Records (t.close k) (h ++ [.closed k]) where
  registered := by
    intro id
    rw [List.mem_append, hr.registered, Table.slot_close hk]
    by_cases hid : id = k
    · simp [hid, (t.mem_pending k).mp hk]
    · simp [hid]
  delivered := by
    intro id w
    rw [List.mem_append, hr.delivered, Table.slot_close hk]
    by_cases hid : id = k
    · simp [hid, (t.mem_pending k).mp hk]
    · simp [hid]
  closed := by
    intro id
    rw [List.mem_append, hr.closed, Table.slot_close hk]
    by_cases hid : id = k
    · simp [hid]
    · simp [hid]
  registered_nodup := by
    simpa [List.filterMap_append, List.filterMap_cons, Event.registered?] using hr.registered_nodup
  completed_nodup := hr.snoc_completed hk rfl

theorem closeAll (hr : Records t h) : Records t.closeAll (h ++ t.pending.map .closed) where
  registered := by
    intro id
    rw [List.mem_append, hr.registered, Table.slot_closeAll]
    by_cases hid : id ∈ t.pending
    · simp [hid, (t.mem_pending id).mp hid]
    · simp [hid]
  delivered := by
    intro id w
    rw [List.mem_append, hr.delivered, Table.slot_closeAll]
    by_cases hid : id ∈ t.pending
    · simp [hid, (t.mem_pending id).mp hid]
    · simp [hid]
  closed := by
    intro id
    rw [List.mem_append, hr.closed, Table.slot_closeAll]
    by_cases hid : id ∈ t.pending
    · simp [hid]
    · simp [hid]
  registered_nodup := by
    simpa [List.filterMap_append, List.filterMap_map, Function.comp_def, Event.registered?]
      using hr.registered_nodup
  completed_nodup := by
    have hmap : (t.pending.map Event.closed).filterMap (Event.completed? (α := α)) = t.pending := by
      simp [List.filterMap_map, Function.comp_def, Event.completed?]
    rw [List.filterMap_append, hmap, List.nodup_append]
    refine ⟨hr.completed_nodup, t.nodup, ?_⟩
    rintro a ha b hb rfl
    exact hr.not_pending ha hb

end Records

end Requests
