/-
# Bounded channels

A channel buffers up to a capacity of values between senders that do not wait
and receivers that do. A value that is sent goes to the receiver that waits
longest, else into the buffer, else nowhere: `trySend` says which. A receiver
takes the oldest value or is queued; closing the channel ends the wait of all
that are queued, and what is buffered may still be received.

What the channel completes a receive with (`Completion`) it only hands over:
when the receiver goes on is up to the system that the channel is part of.

A channel with one value in it is a lock: whoever receives the value holds
the lock until it sends the value back (`Chan.Lock`).

Key definitions: `Chan`, `Chan.trySend`, `Chan.receive`, `Chan.close`,
`Chan.abort`, `Chan.WF`, `Chan.Lock`.
Key theorems: `Chan.trySend_cases`, `Chan.receive_cases`, `Chan.Lock.receive`,
`Chan.Lock.release`, `Chan.Lock.encard`.
-/
import Mathlib.Data.List.Basic
import Mathlib.Data.Set.Card
import Mathlib.Tactic

/-- How a receive completes. -/
inductive Completion (α : Type*)
  | value (v : α)
  | closed
  | aborted
  deriving DecidableEq, Repr

/-- A channel of values `α` with receivers named by `ρ`, the longest waiting
one first. -/
structure Chan (ρ α : Type*) where
  buffer : List α
  waiting : List ρ
  closed : Bool
  deriving DecidableEq, Repr

/-- Where a value went. -/
inductive Sent (ρ : Type*)
  | rejected
  | buffered
  | handed (r : ρ)
  deriving DecidableEq, Repr

namespace Chan

variable {ρ α : Type*}

def empty : Chan ρ α := ⟨[], [], false⟩

def trySend (capacity : ℕ) (v : α) (ch : Chan ρ α) : Chan ρ α × Sent ρ :=
  if ch.closed then (ch, .rejected)
  else
    match ch.waiting with
    | r :: rs => ({ ch with waiting := rs }, .handed r)
    | [] =>
      if ch.buffer.length < capacity then ({ ch with buffer := ch.buffer ++ [v] }, .buffered)
      else (ch, .rejected)

/-- Nothing if the receiver has to wait. -/
def receive (r : ρ) (ch : Chan ρ α) : Chan ρ α × Option (Completion α) :=
  match ch.buffer with
  | v :: vs => ({ ch with buffer := vs }, some (.value v))
  | [] => if ch.closed then (ch, some .closed) else ({ ch with waiting := ch.waiting ++ [r] }, none)

/-- The receivers whose wait ends. -/
def close (ch : Chan ρ α) : Chan ρ α × List ρ := ({ ch with waiting := [], closed := true }, ch.waiting)

/-- The receiver gives up. -/
def abort [DecidableEq ρ] (r : ρ) (ch : Chan ρ α) : Chan ρ α := { ch with waiting := ch.waiting.erase r }

/-- Nobody waits while there is something to receive, the buffer keeps to the
capacity, and nobody waits at a closed channel. -/
structure WF (capacity : ℕ) (ch : Chan ρ α) : Prop where
  served : ch.waiting = [] ∨ ch.buffer = []
  bounded : ch.buffer.length ≤ capacity
  ended : ch.closed = true → ch.waiting = []

variable {capacity : ℕ} {v : α} {r : ρ} {ch : Chan ρ α}

theorem wf_empty : (empty : Chan ρ α).WF capacity := ⟨Or.inl rfl, Nat.zero_le _, fun _ => rfl⟩

/-- A value that cannot be sent finds the channel closed, or full and no
receiver waiting. -/
def Full (capacity : ℕ) (ch : Chan ρ α) : Prop :=
  ch.closed = true ∨ ch.waiting = [] ∧ capacity ≤ ch.buffer.length

instance : Decidable (ch.Full capacity) :=
  inferInstanceAs (Decidable (ch.closed = true ∨ ch.waiting = [] ∧ capacity ≤ ch.buffer.length))

theorem trySend_cases (capacity : ℕ) (v : α) (ch : Chan ρ α) :
    (ch.Full capacity ∧ ch.trySend capacity v = (ch, .rejected)) ∨
    (∃ r rs, ch.closed = false ∧ ch.waiting = r :: rs ∧
      ch.trySend capacity v = ({ ch with waiting := rs }, .handed r)) ∨
    (ch.closed = false ∧ ch.waiting = [] ∧ ch.buffer.length < capacity ∧
      ch.trySend capacity v = ({ ch with buffer := ch.buffer ++ [v] }, .buffered)) := by
  unfold trySend
  cases hc : ch.closed with
  | true => exact Or.inl ⟨Or.inl hc, rfl⟩
  | false =>
    cases hw : ch.waiting with
    | cons r rs => exact Or.inr (Or.inl ⟨r, rs, rfl, rfl, rfl⟩)
    | nil =>
      by_cases hlt : ch.buffer.length < capacity
      · refine Or.inr (Or.inr ⟨rfl, rfl, hlt, ?_⟩)
        simp only [hlt, if_true, Bool.false_eq_true, if_false]
      · refine Or.inl ⟨Or.inr ⟨hw, not_lt.mp hlt⟩, ?_⟩
        simp only [hlt, Bool.false_eq_true, if_false]

theorem receive_cases (r : ρ) (ch : Chan ρ α) :
    (∃ v vs, ch.buffer = v :: vs ∧ ch.receive r = ({ ch with buffer := vs }, some (.value v))) ∨
    (ch.buffer = [] ∧ ch.closed = true ∧ ch.receive r = (ch, some .closed)) ∨
    (ch.buffer = [] ∧ ch.closed = false ∧ ch.receive r = ({ ch with waiting := ch.waiting ++ [r] }, none)) := by
  unfold receive
  cases hb : ch.buffer with
  | cons v vs => exact Or.inl ⟨v, vs, rfl, rfl⟩
  | nil =>
    cases hc : ch.closed with
    | true => exact Or.inr (Or.inl ⟨rfl, rfl, rfl⟩)
    | false => exact Or.inr (Or.inr ⟨rfl, rfl, rfl⟩)

namespace WF

theorem trySend (h : ch.WF capacity) (v : α) : (ch.trySend capacity v).1.WF capacity := by
  rcases trySend_cases capacity v ch with ⟨-, he⟩ | ⟨r, rs, hc, hw, he⟩ | ⟨hc, hw, hlt, he⟩
  · rw [he]
    exact h
  · rw [he]
    have hb : ch.buffer = [] := h.served.resolve_left (by simp [hw])
    exact ⟨Or.inr hb, h.bounded, fun hcl => absurd (hc.symm.trans hcl) (by decide)⟩
  · rw [he]
    refine ⟨Or.inl hw, ?_, fun _ => hw⟩
    simpa using hlt

theorem receive (h : ch.WF capacity) (r : ρ) : (ch.receive r).1.WF capacity := by
  rcases receive_cases r ch with ⟨v, vs, hb, he⟩ | ⟨hb, hc, he⟩ | ⟨hb, hc, he⟩
  · rw [he]
    have hw : ch.waiting = [] := h.served.resolve_right (by simp [hb])
    have hlen := h.bounded
    rw [hb, List.length_cons] at hlen
    exact ⟨Or.inl hw, (Nat.le_succ _).trans hlen, fun _ => hw⟩
  · rw [he]
    exact h
  · rw [he]
    exact ⟨Or.inr hb, h.bounded, fun hcl => absurd (hc.symm.trans hcl) (by decide)⟩

theorem close (h : ch.WF capacity) : ch.close.1.WF capacity := ⟨Or.inl rfl, h.bounded, fun _ => rfl⟩

theorem abort [DecidableEq ρ] (h : ch.WF capacity) (r : ρ) : (ch.abort r).WF capacity := by
  have hnil : ch.waiting = [] → (ch.abort r).waiting = [] := fun hw => by simp [Chan.abort, hw]
  exact ⟨h.served.imp_left hnil, h.bounded, fun hc => hnil (h.ended hc)⟩

end WF

/-! ### One value as a lock -/

/-- The one value is in the channel, or with the one who holds it. -/
structure Lock (ch : Chan ρ Unit) (holds : ρ → Prop) : Prop where
  wf : ch.WF 1
  unclosed : ch.closed = false
  one : (ch.buffer = [()] ∧ ∀ k, ¬ holds k) ∨ (ch.buffer = [] ∧ ∃ k, holds k ∧ ∀ j, holds j → j = k)

namespace Lock

variable {ch : Chan ρ Unit} {holds : ρ → Prop} {k : ρ}

theorem init : Lock ((empty : Chan ρ Unit).trySend 1 ()).1 fun _ => False :=
  ⟨wf_empty.trySend (), rfl, Or.inl ⟨rfl, fun _ => id⟩⟩

theorem congr (h : Lock ch holds) {holds' : ρ → Prop} (hh : ∀ j, holds' j ↔ holds j) : Lock ch holds' := by
  obtain rfl : holds' = holds := funext fun j => propext (hh j)
  exact h

/-- The value in the channel and its holders are one. -/
theorem encard (h : Lock ch holds) : (ch.buffer.length : ℕ∞) + {j | holds j}.encard = 1 := by
  rcases h.one with ⟨hb, hnone⟩ | ⟨hb, k, hk, honly⟩
  · have hset : {j | holds j} = ∅ := Set.eq_empty_of_forall_notMem hnone
    rw [hb, hset, Set.encard_empty]
    rfl
  · have hset : {j | holds j} = {k} := Set.ext fun j => ⟨honly j, fun hj => by rw [hj]; exact hk⟩
    rw [hb, hset, Set.encard_singleton]
    rfl

theorem unique (h : Lock ch holds) {j : ρ} (hj : holds j) (hk : holds k) : j = k := by
  rcases h.one with ⟨-, hnone⟩ | ⟨-, i, -, honly⟩
  · exact absurd hj (hnone j)
  · rw [honly j hj, honly k hk]

/-- A receive takes the value, of which nobody was the holder, or waits. -/
theorem receive (h : Lock ch holds) (k : ρ) :
    (∃ ch', ch.receive k = (ch', some (.value ())) ∧ ch'.waiting = ch.waiting ∧ (∀ j, ¬ holds j) ∧
      Lock ch' (· = k)) ∨
    (ch.receive k = ({ ch with waiting := ch.waiting ++ [k] }, none) ∧
      Lock { ch with waiting := ch.waiting ++ [k] } holds) := by
  have hwf := h.wf.receive k
  rcases receive_cases k ch with ⟨v, vs, hb, he⟩ | ⟨-, hc, -⟩ | ⟨hb, hc, he⟩
  · rcases h.one with ⟨hb', hnone⟩ | ⟨hb', -⟩
    · rw [hb'] at hb
      obtain ⟨rfl, rfl⟩ := List.cons.inj hb
      rw [he] at hwf ⊢
      exact Or.inl ⟨_, rfl, rfl, hnone, hwf, h.unclosed, Or.inr ⟨rfl, k, rfl, fun _ => id⟩⟩
    · rw [hb'] at hb
      cases hb
  · rw [h.unclosed] at hc
    cases hc
  · rw [he] at hwf ⊢
    exact Or.inr ⟨rfl, hwf, h.unclosed, h.one⟩

/-- The holder sends the value back: the one who waits longest is the next
holder, else there is none. The value is never rejected. -/
theorem release (h : Lock ch holds) (hk : holds k) :
    (∃ r rs, ch.waiting = r :: rs ∧ ch.trySend 1 () = ({ ch with waiting := rs }, .handed r) ∧
      Lock { ch with waiting := rs } (· = r)) ∨
    (ch.trySend 1 () = ({ ch with buffer := [()] }, .buffered) ∧ Lock { ch with buffer := [()] } fun _ => False) := by
  have hwf := h.wf.trySend ()
  have hb : ch.buffer = [] := by
    rcases h.one with ⟨-, hnone⟩ | ⟨hb, -⟩
    · exact absurd hk (hnone k)
    · exact hb
  rcases trySend_cases 1 () ch with ⟨hfull, -⟩ | ⟨r, rs, -, hw, he⟩ | ⟨-, -, -, he⟩
  · rcases hfull with hc | ⟨-, hle⟩
    · rw [h.unclosed] at hc
      cases hc
    · simp [hb] at hle
  · rw [he] at hwf
    exact Or.inl ⟨r, rs, hw, he, hwf, h.unclosed, Or.inr ⟨hb, r, rfl, fun _ => id⟩⟩
  · rw [hb, List.nil_append] at he
    rw [he] at hwf
    exact Or.inr ⟨he, hwf, h.unclosed, Or.inl ⟨rfl, fun _ => id⟩⟩

theorem abort [DecidableEq ρ] (h : Lock ch holds) (k : ρ) : Lock (ch.abort k) holds :=
  ⟨h.wf.abort k, h.unclosed, h.one⟩

end Lock

end Chan
