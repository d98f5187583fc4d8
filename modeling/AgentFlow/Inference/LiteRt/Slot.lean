/-
# One conversation at a time

The calls of all conversations of a backend share one engine slot, a channel
with one value in it (`litert_lm_chat_backend.h`). Whatever chunks,
exceptions and aborted waits the calls meet, and in whatever order they go
on, the value is in the channel or with exactly one call (`Sound.lock`), and
the calls that get it give it back once each, one after the other
(`Alternating`).

Key definitions: `Backend`, `Backend.step`, `Backend.Holds`, `Alternating`,
`Backend.Sound`.
Key theorems: `Backend.sound_step`, `Backend.engine_slot`.
-/
import AgentFlow.Inference.LiteRt.SendAsync
import AgentFlow.Lib.Run
import Mathlib.Logic.Function.Basic

namespace AgentFlow.LiteRt

open Stepping (Run)

variable {κ : Type*}

/-- A call of `SendAsync`, and what its receive of the slot has completed
with if it has not gone on since. -/
structure Call where
  pc : Pc
  completed : Option (Completion Unit)
  deriving DecidableEq, Repr

/-- The slot is taken, or given back. -/
inductive Event (κ : Type*)
  | acquired (k : κ)
  | released (k : κ)
  deriving DecidableEq, Repr

/-- The slot of `LiteRtLmChatBackend`, and the calls that have been made. -/
structure Backend (κ : Type*) where
  slot : Chan κ Unit
  calls : κ → Option Call
  log : List (Event κ)

namespace Backend

/-- What may happen next. -/
inductive Choice (κ : Type*)
  /-- `SendAsync` is called, with a token that has fired or has not. -/
  | call (k : κ) (fired : Bool)
  /-- The call goes on from the slot; the engine's answer if it asks for one. -/
  | slot (k : κ) (response : Option String)
  /-- The wait for the slot is aborted. -/
  | abort (k : κ)
  /-- `NextTokenAsync` returns a chunk, or throws. -/
  | token (k : κ) (chunk : Option String)
  /-- The sink has taken a delta, or thrown. -/
  | sunk (k : κ) (threw : Bool)
  /-- Anything else throws while the call has the slot. -/
  | throw (k : κ)
  deriving DecidableEq, Repr

/-- The constructor: one free slot. -/
def start : Backend κ := ⟨(Chan.empty.trySend 1 ()).1, fun _ => none, []⟩

def acquire (s : Backend κ) (k : κ) : Backend κ := { s with log := s.log ++ [.acquired k] }

section Steps

variable [DecidableEq κ]

def setCall (s : Backend κ) (k : κ) (call : Call) : Backend κ :=
  { s with calls := Function.update s.calls k (some call) }

/-- `SendAsync` up to its first wait. -/
def begin (s : Backend κ) (k : κ) (fired : Bool) : Backend κ :=
  match Pc.begin fired with
  | .slot =>
    let (slot, completed) := s.slot.receive k
    ({ s with slot } : Backend κ).setCall k ⟨.slot, completed⟩
  | pc => s.setCall k ⟨pc, none⟩

/-- `~SlotRelease`: the slot goes to the call that waits longest, or is
free. -/
def release (s : Backend κ) (k : κ) : Backend κ :=
  match s.slot.trySend 1 () with
  | (slot, .handed j) =>
    ({ s with slot, log := s.log ++ [.released k] } : Backend κ).setCall j ⟨.slot, some (.value ())⟩
  | (slot, .buffered) | (slot, .rejected) => { s with slot, log := s.log ++ [.released k] }

/-- A call that has the slot goes on, and gives it back if it leaves. -/
def goOn (s : Backend κ) (k : κ) (pc : Pc) : Backend κ :=
  if pc.holdsSlot then s.setCall k ⟨pc, none⟩ else (s.setCall k ⟨pc, none⟩).release k

/-- What a choice does, if it is possible. -/
def step (B : κ → Settings) (choice : Choice κ) (s : Backend κ) : Option (Backend κ) :=
  match choice with
  | .call k fired => if (s.calls k).isNone then some (s.begin k fired) else none
  | .slot k response =>
    match s.calls k with
    | some ⟨.slot, some (.value ())⟩ => some ((s.acquire k).goOn k (Pc.slotDone (B k) response (.value ())))
    | some ⟨.slot, some r⟩ => some (s.setCall k ⟨Pc.slotDone (B k) response r, none⟩)
    | _ => none
  | .abort k =>
    match s.calls k with
    | some ⟨.slot, none⟩ => some (({ s with slot := s.slot.abort k } : Backend κ).setCall k ⟨.slot, some .aborted⟩)
    | _ => none
  | .token k chunk =>
    match s.calls k with
    | some ⟨.token acc, _⟩ => some (s.goOn k (Pc.tokenDone (B k) acc chunk))
    | _ => none
  | .sunk k threw =>
    match s.calls k with
    | some ⟨.sink acc _ rest, _⟩ => some (s.goOn k (Pc.sinkDone acc rest threw))
    | _ => none
  | .throw k =>
    match s.calls k with
    | some ⟨.slot, some (.value ())⟩ => some ((s.acquire k).goOn k (.returned .thrown))
    | some ⟨.token _, _⟩ | some ⟨.sink _ _ _, _⟩ => some (s.goOn k (.returned .thrown))
    | _ => none

end Steps

/-- The call is between taking the slot and giving it back. -/
def Inside (s : Backend κ) (k : κ) : Prop := ∃ call, s.calls k = some call ∧ call.pc.holdsSlot

/-- The slot is the call's, which may not have gone on yet. -/
def Holds (s : Backend κ) (k : κ) : Prop :=
  ∃ call, s.calls k = some call ∧ (call.completed = some (.value ()) ∨ call.pc.holdsSlot)

end Backend

/-- The slot is taken and given back in turn; `o` has it at the end. -/
inductive Alternating : List (Event κ) → Option κ → Prop
  | nil : Alternating [] none
  | acquired {l : List (Event κ)} (k : κ) (h : Alternating l none) : Alternating (l ++ [.acquired k]) (some k)
  | released {l : List (Event κ)} {k : κ} (h : Alternating l (some k)) : Alternating (l ++ [.released k]) none

namespace Backend

/-- What holds in every state: the slot is in one place, the calls that wait
are those queued at it, and it is taken and given back in turn. -/
structure Sound (s : Backend κ) : Prop where
  lock : s.slot.Lock s.Holds
  waiting : ∀ k, k ∈ s.slot.waiting ↔ s.calls k = some ⟨.slot, none⟩
  nodup : s.slot.waiting.Nodup
  log : ∃ o, Alternating s.log o ∧ ∀ k, s.Inside k ↔ o = some k

/-- The same while `k` has the slot. -/
structure Held (s : Backend κ) (k : κ) : Prop where
  lock : s.slot.Lock s.Holds
  waiting : ∀ j, j ∈ s.slot.waiting ↔ s.calls j = some ⟨.slot, none⟩
  nodup : s.slot.waiting.Nodup
  holds : s.Holds k
  log : Alternating s.log (some k)

variable {s s' : Backend κ} {k : κ}

theorem Inside.holds (h : s.Inside k) : s.Holds k := by
  obtain ⟨call, hc, hpc⟩ := h
  exact ⟨call, hc, Or.inr hpc⟩

/-- A call that has the slot does not wait for it. -/
theorem Holds.ne_waiting (h : s.Holds k) : s.calls k ≠ some ⟨.slot, none⟩ := by
  intro hw
  obtain ⟨call, hc, hh⟩ := h
  rw [hw, Option.some.injEq] at hc
  subst hc
  simp [Pc.holdsSlot] at hh

theorem sound_start : (start : Backend κ).Sound := by
  have hlock : (start : Backend κ).slot.Lock fun _ => False := Chan.Lock.init
  refine ⟨hlock.congr fun j => ?_, fun k => ?_, List.nodup_nil, none, .nil, fun k => ?_⟩
  · simp [Holds, start]
  · simp [start, Chan.trySend, Chan.empty]
  · simp [Inside, start]

/-- Nobody else is between taking the slot and giving it back. -/
theorem Held.not_inside (h : s.Held k) {j : κ} (hj : j ≠ k) : ¬ s.Inside j := fun hi =>
  hj (h.lock.unique hi.holds h.holds)

/-- A call that has been handed the slot goes on. -/
theorem Sound.acquire (h : s.Sound) (hc : s.calls k = some ⟨.slot, some (.value ())⟩) : (s.acquire k).Held k := by
  have hk : s.Holds k := ⟨_, hc, Or.inl rfl⟩
  obtain ⟨o, hlog, hinside⟩ := h.log
  have hnone : o = none := by
    cases o with
    | none => rfl
    | some j =>
      -- whoever is inside holds the slot, and that is this call
      have hj := (hinside j).mpr rfl
      obtain rfl : j = k := h.lock.unique hj.holds hk
      obtain ⟨call, hc', hpc⟩ := hj
      rw [hc, Option.some.injEq] at hc'
      rw [← hc'] at hpc
      cases hpc
  subst hnone
  exact ⟨h.lock, h.waiting, h.nodup, hk, .acquired k hlog⟩

theorem Sound.held (h : s.Sound) (hi : s.Inside k) : s.Held k := by
  obtain ⟨o, hlog, hinside⟩ := h.log
  obtain rfl := (hinside k).mp hi
  exact ⟨h.lock, h.waiting, h.nodup, hi.holds, hlog⟩

variable [DecidableEq κ]

@[simp]
theorem setCall_self (s : Backend κ) (k : κ) (call : Call) : (s.setCall k call).calls k = some call :=
  Function.update_self ..

@[simp]
theorem setCall_of_ne (s : Backend κ) {j k : κ} (h : j ≠ k) (call : Call) : (s.setCall k call).calls j = s.calls j :=
  Function.update_of_ne h ..

/-- The call keeps the slot. -/
theorem Held.stay (h : s.Held k) {pc : Pc} (hp : pc.holdsSlot) : (s.setCall k ⟨pc, none⟩).Sound := by
  have hk : s.calls k ≠ some ⟨.slot, none⟩ := h.holds.ne_waiting
  have hpc : pc ≠ .slot := fun he => by rw [he] at hp; cases hp
  have hholds : ∀ j, (s.setCall k ⟨pc, none⟩).Holds j ↔ s.Holds j := by
    intro j
    by_cases hj : j = k
    · subst hj
      exact ⟨fun _ => h.holds, fun _ => ⟨_, setCall_self .., Or.inr hp⟩⟩
    · simp only [Holds, setCall_of_ne s hj]
  refine ⟨h.lock.congr hholds, fun j => ?_, h.nodup, some k, h.log, fun j => ?_⟩
  · by_cases hj : j = k
    · subst hj
      rw [setCall_self]
      exact ⟨fun hw => absurd ((h.waiting j).mp hw) hk, fun hc => absurd (congrArg Call.pc (Option.some.inj hc)) hpc⟩
    · rw [setCall_of_ne s hj]
      exact h.waiting j
  · by_cases hj : j = k
    · subst hj
      exact ⟨fun _ => rfl, fun _ => ⟨_, setCall_self .., hp⟩⟩
    · refine ⟨fun hi => absurd ?_ (h.not_inside hj), fun he => absurd (Option.some.inj he).symm hj⟩
      obtain ⟨call, hc, hpc'⟩ := hi
      rw [setCall_of_ne s hj] at hc
      exact ⟨call, hc, hpc'⟩

/-- The call has left, and the slot is free or has been handed to the call
`o`, which has not gone on yet. -/
theorem Held.left (h : s.Held k) {pc : Pc} (hp : ¬ pc.holdsSlot) (hpc : pc ≠ .slot) {o : Option κ} (ho : o ≠ some k)
    (hk : s'.calls k = some ⟨pc, none⟩) (hnext : ∀ r, o = some r → s'.calls r = some ⟨.slot, some (.value ())⟩)
    (hrest : ∀ j, o ≠ some j → j ≠ k → s'.calls j = s.calls j)
    (hw : ∀ j, j ∈ s'.slot.waiting ↔ j ∈ s.slot.waiting ∧ o ≠ some j) (hn : s'.slot.waiting.Nodup)
    (hlock : s'.slot.Lock fun j => o = some j) (hlog : s'.log = s.log ++ [.released k]) : s'.Sound := by
  have hother : ∀ j, j ≠ k → ¬ s.Holds j := fun j hj hh => hj (h.lock.unique hh h.holds)
  have hcall : ∀ j call, o ≠ some j → s'.calls j = some call → call.completed ≠ some (.value ()) ∧ ¬ call.pc.holdsSlot := by
    intro j call hj hc
    by_cases hjk : j = k
    · subst hjk
      rw [hk, Option.some.injEq] at hc
      rw [← hc]
      exact ⟨by simp, hp⟩
    · rw [hrest j hj hjk] at hc
      refine ⟨fun hv => hother j hjk ⟨call, hc, Or.inl hv⟩, fun hv => hother j hjk ⟨call, hc, Or.inr hv⟩⟩
  refine ⟨hlock.congr fun j => ?_, fun j => ?_, hn, none, ?_, fun j => ?_⟩
  · refine ⟨fun hh => ?_, fun hj => ⟨_, hnext j hj, Or.inl rfl⟩⟩
    by_contra hj
    obtain ⟨call, hc, hh⟩ := hh
    exact hh.elim (hcall j call hj hc).1 (hcall j call hj hc).2
  · rw [hw]
    by_cases hj : o = some j
    · rw [hnext j hj]
      simp [hj]
    · by_cases hjk : j = k
      · subst hjk
        rw [hk]
        refine ⟨fun hm => absurd ((h.waiting j).mp hm.1) h.holds.ne_waiting, fun hc => ?_⟩
        exact absurd (congrArg Call.pc (Option.some.inj hc)) hpc
      · rw [hrest j hj hjk, ← h.waiting j]
        exact and_iff_left hj
  · rw [hlog]
    exact .released h.log
  · refine ⟨fun hi => ?_, fun hj => by cases hj⟩
    obtain ⟨call, hc, hpc'⟩ := hi
    by_cases hj : o = some j
    · rw [hnext j hj, Option.some.injEq] at hc
      rw [← hc] at hpc'
      cases hpc'
    · exact absurd hpc' (hcall j call hj hc).2

/-- The call leaves, and the slot goes to the next one or is free. -/
theorem Held.release (h : s.Held k) {pc : Pc} (hp : ¬ pc.holdsSlot) (hpc : pc ≠ .slot) :
    ((s.setCall k ⟨pc, none⟩).release k).Sound := by
  have hk : s.calls k ≠ some ⟨.slot, none⟩ := h.holds.ne_waiting
  unfold Backend.release
  rcases h.lock.release h.holds with ⟨r, rs, hw, he, hlock⟩ | ⟨he, hlock⟩
  · have hr : s.calls r = some ⟨.slot, none⟩ := (h.waiting r).mp (by simp [hw])
    have hrk : r ≠ k := fun heq => hk (heq ▸ hr)
    have hnd := h.nodup
    rw [hw, List.nodup_cons] at hnd
    have hstep : (s.setCall k ⟨pc, none⟩).slot.trySend 1 () = ({ s.slot with waiting := rs }, .handed r) := he
    rw [hstep]
    refine @Held.left _ s _ k _ h pc hp hpc (some r) (by simpa using hrk) ?_ ?_ ?_ (fun j => ?_) hnd.2
      (hlock.congr fun j => ?_) rfl
    · exact (setCall_of_ne _ hrk.symm _).trans (setCall_self ..)
    · intro r' hr'
      rw [← Option.some.inj hr']
      exact setCall_self ..
    · intro j hj hjk
      exact (setCall_of_ne _ (fun heq => hj (congrArg some heq.symm)) _).trans (setCall_of_ne _ hjk _)
    · rw [hw]
      change j ∈ rs ↔ _
      refine ⟨fun hj => ⟨List.mem_cons_of_mem _ hj, fun heq => hnd.1 (Option.some.inj heq ▸ hj)⟩, fun hj => ?_⟩
      exact (List.mem_cons.mp hj.1).resolve_left fun heq => hj.2 (congrArg some heq.symm)
    · rw [Option.some.injEq, eq_comm]
  · have hstep : (s.setCall k ⟨pc, none⟩).slot.trySend 1 () = ({ s.slot with buffer := [()] }, .buffered) := he
    rw [hstep]
    refine @Held.left _ s _ k _ h pc hp hpc none (by simp) (setCall_self ..) (by simp) ?_ (by simp) h.nodup
      (hlock.congr (by simp)) rfl
    intro j _ hjk
    exact setCall_of_ne _ hjk _

theorem Held.goOn (h : s.Held k) (pc : Pc) (hpc : pc ≠ .slot) : (s.goOn k pc).Sound := by
  unfold Backend.goOn
  by_cases hp : pc.holdsSlot
  · rw [if_pos hp]
    exact h.stay hp
  · rw [if_neg hp]
    exact h.release hp hpc

/-! ### One step -/

/-- A call that does not have the slot changes to a place where it does not
have it either. -/
theorem Sound.setCall (h : s.Sound) (hk : ¬ s.Holds k) {call : Call} (hv : call.completed ≠ some (.value ()))
    (hp : ¬ call.pc.holdsSlot) {slot : Chan κ Unit} (hlock : slot.Lock s.Holds)
    (hw : ∀ j, j ∈ slot.waiting ↔ if j = k then call = ⟨.slot, none⟩ else j ∈ s.slot.waiting)
    (hn : slot.waiting.Nodup) : (({ s with slot } : Backend κ).setCall k call).Sound := by
  have hother : ∀ j, j ≠ k → (({ s with slot } : Backend κ).setCall k call).calls j = s.calls j := fun j hj =>
    setCall_of_ne _ hj _
  have hself : (({ s with slot } : Backend κ).setCall k call).calls k = some call := setCall_self ..
  obtain ⟨o, hlog, hinside⟩ := h.log
  refine ⟨hlock.congr fun j => ?_, fun j => ?_, hn, o, hlog, fun j => ?_⟩
  · by_cases hj : j = k
    · subst hj
      refine ⟨fun hh => ?_, fun hh => absurd hh hk⟩
      obtain ⟨call', hc, hh⟩ := hh
      rw [hself, Option.some.injEq] at hc
      rw [← hc] at hh
      exact (hh.elim hv hp).elim
    · simp only [Holds, hother j hj]
  · refine (hw j).trans ?_
    by_cases hj : j = k
    · subst hj
      rw [if_pos rfl, hself, Option.some.injEq]
    · rw [if_neg hj, hother j hj]
      exact h.waiting j
  · rw [← hinside j]
    by_cases hj : j = k
    · subst hj
      refine ⟨fun hi => ?_, fun hi => absurd hi.holds hk⟩
      obtain ⟨call', hc, hpc⟩ := hi
      rw [hself, Option.some.injEq] at hc
      rw [← hc] at hpc
      exact absurd hpc hp
    · simp only [Inside, hother j hj]

/-- A call finds the slot free. -/
theorem Sound.grant (h : s.Sound) (hc : s.calls k = none) (hnone : ∀ j, ¬ s.Holds j) {slot : Chan κ Unit}
    (hlock : slot.Lock (· = k)) (hw : slot.waiting = s.slot.waiting) :
    (({ s with slot } : Backend κ).setCall k ⟨.slot, some (.value ())⟩).Sound := by
  have hother : ∀ j, j ≠ k →
      (({ s with slot } : Backend κ).setCall k ⟨.slot, some (.value ())⟩).calls j = s.calls j := fun j hj =>
    setCall_of_ne _ hj _
  have hself : (({ s with slot } : Backend κ).setCall k ⟨.slot, some (.value ())⟩).calls k =
      some ⟨.slot, some (.value ())⟩ := setCall_self ..
  obtain ⟨o, hlog, hinside⟩ := h.log
  refine ⟨hlock.congr fun j => ?_, fun j => ?_, ?_, o, hlog, fun j => ?_⟩
  · by_cases hj : j = k
    · subst hj
      exact ⟨fun _ => rfl, fun _ => ⟨_, hself, Or.inl rfl⟩⟩
    · refine ⟨fun hh => absurd ?_ (hnone j), fun he => absurd he hj⟩
      obtain ⟨call, hc', hh⟩ := hh
      exact ⟨call, (hother j hj).symm.trans hc', hh⟩
  · have hwj : j ∈ slot.waiting ↔ s.calls j = some ⟨.slot, none⟩ := by rw [hw, h.waiting j]
    refine hwj.trans ?_
    by_cases hj : j = k
    · subst hj
      rw [hself, hc]
      simp
    · rw [hother j hj]
  · have hn : slot.waiting.Nodup := by
      rw [hw]
      exact h.nodup
    exact hn
  · rw [← hinside j]
    by_cases hj : j = k
    · subst hj
      refine ⟨fun hi => ?_, fun hi => absurd hi.holds (hnone j)⟩
      obtain ⟨call, hc', hpc⟩ := hi
      rw [hself, Option.some.injEq] at hc'
      rw [← hc'] at hpc
      cases hpc
    · simp only [Inside, hother j hj]

theorem Sound.begin (h : s.Sound) (hc : s.calls k = none) (fired : Bool) : (s.begin k fired).Sound := by
  have hk : ¬ s.Holds k := by
    rintro ⟨call, hc', -⟩
    rw [hc] at hc'
    cases hc'
  have hwk : k ∉ s.slot.waiting := fun hm => by
    rw [h.waiting, hc] at hm
    cases hm
  cases fired with
  | true =>
    refine h.setCall hk (by simp) (by simp [Pc.begin, Pc.holdsSlot]) h.lock (fun j => ?_) h.nodup
    by_cases hj : j = k
    · subst hj
      simp [hwk, Pc.begin]
    · simp [hj]
  | false =>
    have hbegin : s.begin k false =
        ({ s with slot := (s.slot.receive k).1 } : Backend κ).setCall k ⟨.slot, (s.slot.receive k).2⟩ := rfl
    rw [hbegin]
    rcases h.lock.receive k with ⟨slot, he, hw, hnone, hlock⟩ | ⟨he, hlock⟩
    · rw [he]
      exact h.grant hc hnone hlock hw
    · rw [he]
      refine h.setCall hk (by simp) (by simp [Pc.holdsSlot]) hlock (fun j => ?_) ?_
      · by_cases hj : j = k
        · subst hj
          simp
        · simp [hj]
      · exact List.nodup_append.mpr ⟨h.nodup, List.nodup_singleton k, fun a ha b hb hab =>
          hwk (by rw [List.mem_singleton] at hb; rw [← hb, ← hab]; exact ha)⟩

theorem Sound.abort (h : s.Sound) (hc : s.calls k = some ⟨.slot, none⟩) :
    (({ s with slot := s.slot.abort k } : Backend κ).setCall k ⟨.slot, some .aborted⟩).Sound := by
  have hk : ¬ s.Holds k := fun hh => hh.ne_waiting hc
  refine h.setCall hk (by simp) (by simp [Pc.holdsSlot]) (h.lock.abort k) (fun j => ?_) (h.nodup.erase k)
  by_cases hj : j = k
  · subst hj
    simp [Chan.abort, h.nodup.not_mem_erase]
  · simp [Chan.abort, hj, List.mem_erase_of_ne hj]

/-- A call whose wait was aborted goes on without the slot. -/
theorem Sound.leaveWithout (h : s.Sound) {r : Completion Unit} (hc : s.calls k = some ⟨.slot, some r⟩)
    (hr : r ≠ .value ()) {pc : Pc} (hp : ¬ pc.holdsSlot) (hpc : pc ≠ .slot) : (s.setCall k ⟨pc, none⟩).Sound := by
  have hk : ¬ s.Holds k := by
    rintro ⟨call, hc', hh⟩
    rw [hc, Option.some.injEq] at hc'
    rw [← hc'] at hh
    exact hh.elim (fun hv => hr (Option.some.inj hv)) (by simp [Pc.holdsSlot])
  have hwk : k ∉ s.slot.waiting := fun hm => by
    rw [h.waiting, hc] at hm
    simp at hm
  refine h.setCall hk (by simp) hp h.lock (fun j => ?_) h.nodup
  by_cases hj : j = k
  · subst hj
    simp [hwk, hpc]
  · simp [hj]

theorem forward_ne_slot (acc : LiteRtStreamAssembler) (ds : List String) : Pc.forward acc ds ≠ .slot := by
  cases ds <;> simp [Pc.forward]

theorem slotDone_ne_slot (B : Settings) (response : Option String) (r : Completion Unit) :
    Pc.slotDone B response r ≠ .slot := by
  cases r with
  | value u =>
    simp only [Pc.slotDone]
    split_ifs <;> simp
  | closed => simp [Pc.slotDone]
  | aborted => simp [Pc.slotDone]

theorem tokenDone_ne_slot (B : Settings) (acc : LiteRtStreamAssembler) (chunk : Option String) :
    Pc.tokenDone B acc chunk ≠ .slot := by
  cases chunk with
  | none => simp [Pc.tokenDone]
  | some chunk =>
    simp only [Pc.tokenDone]
    split_ifs
    · simp
    · exact forward_ne_slot _ _

theorem sinkDone_ne_slot (acc : LiteRtStreamAssembler) (rest : List String) (threw : Bool) :
    Pc.sinkDone acc rest threw ≠ .slot := by
  cases threw with
  | true => simp [Pc.sinkDone]
  | false => exact forward_ne_slot _ _

theorem sound_step (B : κ → Settings) (choice : Choice κ) (h : s.Sound) (hs : step B choice s = some s') : s'.Sound := by
  cases choice with
  | call k fired =>
    simp only [step] at hs
    split_ifs at hs with hc
    cases hs
    exact h.begin (Option.isNone_iff_eq_none.mp hc) fired
  | slot k response =>
    simp only [step] at hs
    split at hs
    · next hc =>
      cases hs
      exact (h.acquire hc).goOn _ (slotDone_ne_slot _ _ _)
    · next r hr hc =>
      cases hs
      have hr' : r ≠ .value () := fun he => hr (by rw [← he])
      refine h.leaveWithout hc hr' ?_ (slotDone_ne_slot _ _ _)
      cases r with
      | value u => exact absurd rfl hr'
      | closed => simp [Pc.slotDone, Pc.holdsSlot]
      | aborted => simp [Pc.slotDone, Pc.holdsSlot]
    · cases hs
  | abort k =>
    simp only [step] at hs
    split at hs
    · next hc =>
      cases hs
      exact h.abort hc
    · cases hs
  | token k chunk =>
    simp only [step] at hs
    split at hs
    · next acc _ hc =>
      cases hs
      exact (h.held ⟨_, hc, rfl⟩).goOn _ (tokenDone_ne_slot _ _ _)
    · cases hs
  | sunk k threw =>
    simp only [step] at hs
    split at hs
    · next acc _ rest _ hc =>
      cases hs
      exact (h.held ⟨_, hc, rfl⟩).goOn _ (sinkDone_ne_slot _ _ _)
    · cases hs
  | throw k =>
    simp only [step] at hs
    split at hs
    · next hc =>
      cases hs
      exact (h.acquire hc).goOn _ (by simp)
    · next hc =>
      cases hs
      exact (h.held ⟨_, hc, rfl⟩).goOn _ (by simp)
    · next hc =>
      cases hs
      exact (h.held ⟨_, hc, rfl⟩).goOn _ (by simp)
    · cases hs

/-- In every state that is reached the value in the channel and the calls
that the slot belongs to are one, and the calls have taken the slot and given
it back one after the other: at most one has taken it and not given it back,
the one that is between the two. -/
theorem engine_slot (B : κ → Settings) (choices : List (Choice κ)) (s : Backend κ)
    (h : Run (step B) (fun _ _ => True) start choices s) :
    (s.slot.buffer.length : ℕ∞) + {k | s.Holds k}.encard = 1 ∧
      ∃ o, Alternating s.log o ∧ ∀ k, s.Inside k ↔ o = some k := by
  have hsound : s.Sound := h.invariant (fun x c y hx _ hs => sound_step B c hx hs) sound_start
  exact ⟨hsound.lock.encard, hsound.log⟩

/-- Two calls, of which the first gets the slot and fails. -/
def handedOver : List (Choice Bool) :=
  [.call false false, .call true false, .slot false none, .token false none, .slot true none]

theorem engine_slot_handedOver :
    ∃ s, Run (step fun _ => ⟨.ofTable [], false, true, ⟨[]⟩⟩) (fun _ _ => True) start handedOver s ∧
      (s.slot.buffer.length : ℕ∞) + {k | s.Holds k}.encard = 1 ∧ s.Inside true ∧ ¬ s.Inside false := by
  have h : (Stepping.check (step fun _ => ⟨.ofTable [], false, true, ⟨[]⟩⟩) (fun _ _ => true) handedOver start).any
      (fun s => s.calls true == some ⟨.token {}, none⟩) = true := by decide +kernel
  obtain ⟨s, hrun, hs⟩ := Run.exists_of_check (fun _ _ => True) h fun _ _ _ => trivial
  obtain ⟨hone, o, -, ho⟩ := engine_slot _ handedOver s hrun
  have htrue : s.Inside true := ⟨_, eq_of_beq hs, rfl⟩
  refine ⟨s, hrun, hone, htrue, fun hfalse => ?_⟩
  have heq := ((ho false).mp hfalse).symm.trans ((ho true).mp htrue)
  cases heq

end Backend

end AgentFlow.LiteRt
