/-
# Bounded channels whose senders wait

A value that is sent goes to the receiver that waits longest, else into the
buffer; when the buffer is full its sender waits with it. A receiver takes the
oldest value, and the sender that waits longest then puts its value into the
buffer and goes on. So buffer and waiting senders are one queue (`contents`):
a send adds to its end, or finds it empty and a receiver there, and a receive
takes its first value, or finds it empty. A capacity of 0 is a rendezvous.

Who goes on (`Placed`, the sender that `receive` returns) is told to the
system that the channel is part of.

Key definitions: `Pipe`, `Pipe.send`, `Pipe.receive`, `Pipe.contents`, `Pipe.WF`.
Key theorems: `Pipe.WF.send`, `Pipe.WF.receive`.
-/
import Mathlib.Data.List.Basic
import Mathlib.Tactic

/-- A channel of values `α` with senders named by `σ` and receivers by `ρ`,
those that wait longest first. -/
structure Pipe (σ ρ α : Type*) where
  buffer : List α
  senders : List (σ × α)
  receivers : List ρ
  deriving DecidableEq, Repr

namespace Pipe

variable {σ ρ α : Type*}

/-- Where a value went. -/
inductive Placed (ρ : Type*)
  | handed (r : ρ)
  | buffered
  | waits
  deriving DecidableEq, Repr

def empty : Pipe σ ρ α := ⟨[], [], []⟩

def send (capacity : ℕ) (s : σ) (v : α) (p : Pipe σ ρ α) : Pipe σ ρ α × Placed ρ :=
  match p.receivers with
  | r :: rs => ({ p with receivers := rs }, .handed r)
  | [] =>
    if p.buffer.length < capacity then ({ p with buffer := p.buffer ++ [v] }, .buffered)
    else ({ p with senders := p.senders ++ [(s, v)] }, .waits)

/-- The value with the sender that goes on, or nothing if the receiver has to wait. -/
def receive (r : ρ) (p : Pipe σ ρ α) : Pipe σ ρ α × Option (α × Option σ) :=
  match p.buffer, p.senders with
  | v :: vs, [] => ({ p with buffer := vs }, some (v, none))
  | v :: vs, (s, w) :: ss => ({ p with buffer := vs ++ [w], senders := ss }, some (v, some s))
  | [], (s, w) :: ss => ({ p with senders := ss }, some (w, some s))
  | [], [] => ({ p with receivers := p.receivers ++ [r] }, none)

/-- What is on its way, the oldest value first. -/
def contents (p : Pipe σ ρ α) : List α := p.buffer ++ p.senders.map Prod.snd

/-- The buffer keeps to the capacity, senders wait when it is full only, and
nobody waits to receive while there is something to receive. -/
structure WF (capacity : ℕ) (p : Pipe σ ρ α) : Prop where
  bounded : p.buffer.length ≤ capacity
  full : p.senders ≠ [] → p.buffer.length = capacity
  served : p.receivers = [] ∨ p.contents = []

variable {capacity : ℕ} {p : Pipe σ ρ α}

theorem wf_buffered {vs : List α} (h : vs.length ≤ capacity) : WF capacity (⟨vs, [], []⟩ : Pipe σ ρ α) :=
  ⟨h, fun hs => absurd rfl hs, Or.inl rfl⟩

theorem send_of_receivers (s : σ) (v : α) {r : ρ} {rs : List ρ} (hr : p.receivers = r :: rs) :
    p.send capacity s v = ({ p with receivers := rs }, .handed r) := by
  simp only [send, hr]

theorem send_of_room (s : σ) (v : α) (hr : p.receivers = []) (hlt : p.buffer.length < capacity) :
    p.send capacity s v = ({ p with buffer := p.buffer ++ [v] }, .buffered) := by
  simp only [send, hr, if_pos hlt]

theorem send_of_full (s : σ) (v : α) (hr : p.receivers = []) (hge : ¬ p.buffer.length < capacity) :
    p.send capacity s v = ({ p with senders := p.senders ++ [(s, v)] }, .waits) := by
  simp only [send, hr, if_neg hge]

namespace WF

/-- A send finds a receiver, and nothing on its way, or adds to the end. -/
theorem send (h : p.WF capacity) (s : σ) (v : α) : (p.send capacity s v).1.WF capacity ∧
    ((∃ r rs, p.receivers = r :: rs ∧ p.contents = [] ∧ p.send capacity s v = ({ p with receivers := rs }, .handed r)) ∨
      ∃ p' placed, p.send capacity s v = (p', placed) ∧ p.receivers = [] ∧ p'.receivers = [] ∧
        p'.contents = p.contents ++ [v] ∧
        (placed = .buffered ∧ p'.senders = p.senders ∨ placed = .waits ∧ p'.senders = p.senders ++ [(s, v)])) := by
  by_cases hr : p.receivers = []
  · by_cases hlt : p.buffer.length < capacity
    · have hs : p.senders = [] := by
        by_contra hs
        exact absurd (h.full hs) hlt.ne
      rw [send_of_room s v hr hlt]
      refine ⟨⟨by simpa using hlt, fun hs' => absurd hs hs', Or.inl hr⟩,
        Or.inr ⟨_, _, rfl, hr, hr, ?_, Or.inl ⟨rfl, rfl⟩⟩⟩
      simp [contents, hs]
    · rw [send_of_full s v hr hlt]
      refine ⟨⟨h.bounded, fun _ => le_antisymm h.bounded (not_lt.mp hlt), Or.inl hr⟩,
        Or.inr ⟨_, _, rfl, hr, hr, ?_, Or.inr ⟨rfl, rfl⟩⟩⟩
      simp [contents]
  · obtain ⟨r, rs, hrs⟩ := List.exists_cons_of_ne_nil hr
    have hc : p.contents = [] := h.served.resolve_left hr
    rw [send_of_receivers s v hrs]
    exact ⟨⟨h.bounded, h.full, Or.inr hc⟩, Or.inl ⟨r, rs, hrs, hc, rfl⟩⟩

/-- A receive takes the oldest value and lets the first sender go on, or finds nothing. -/
theorem receive (h : p.WF capacity) (r : ρ) : (p.receive r).1.WF capacity ∧
    ((∃ p' v, p.receive r = (p', some (v, p.senders.head?.map Prod.fst)) ∧ p.contents = v :: p'.contents ∧
        p'.receivers = p.receivers ∧ p'.senders = p.senders.tail) ∨
      (p.contents = [] ∧ p.receive r = ({ p with receivers := p.receivers ++ [r] }, none))) := by
  have hserved : ∀ {v vs}, p.contents = v :: vs → p.receivers = [] := fun hc =>
    h.served.resolve_right (by simp [hc])
  obtain ⟨hb, hf, -⟩ := h
  obtain ⟨buffer, senders, receivers⟩ := p
  cases buffer with
  | nil =>
    cases senders with
    | nil => exact ⟨⟨hb, hf, Or.inr rfl⟩, Or.inr ⟨rfl, rfl⟩⟩
    | cons sw ss =>
      refine ⟨⟨hb, fun _ => hf (by simp), Or.inl (hserved rfl)⟩, Or.inl ⟨_, _, rfl, rfl, rfl, rfl⟩⟩
  | cons v vs =>
    cases senders with
    | nil =>
      refine ⟨⟨(Nat.le_succ _).trans hb, fun hs => absurd rfl hs, Or.inl (hserved rfl)⟩,
        Or.inl ⟨_, _, rfl, rfl, rfl, rfl⟩⟩
    | cons sw ss =>
      have hlen : (vs ++ [sw.2]).length = (v :: vs).length := by simp
      refine ⟨⟨hlen.trans_le hb, fun _ => hlen.trans (hf (by simp)), Or.inl (hserved rfl)⟩,
        Or.inl ⟨_, _, rfl, ?_, rfl, rfl⟩⟩
      simp [contents]

end WF

end Pipe
