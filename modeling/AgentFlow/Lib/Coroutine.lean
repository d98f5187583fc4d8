/-
# Coroutines and what they do

A coroutine returns, throws, awaits an effect that its surroundings answer, or
calls a procedure, whose body is a coroutine of the same kind and may call
again. Its history lists what it did: the effects with their answers, and the
calls with the history of the body that ran. A run (`Runs`) may be cut off
anywhere, so that what holds of every run holds at each moment.

`wp` is the weakest precondition of one coroutine: what it does next is
allowed after what it did before, and a finished call is taken to have given
what the contract promises of it. Bodies that keep the contract keep it in
every run, however deep the calls go (`Runs.sound`).

Key definitions: `Signature`, `Coroutine`, `Coroutine.attempt`, `Item`,
`Runs`, `Coroutine.wp`, `Own`, `Within`, `History.collect`, `Contract`.
Key theorems: `Coroutine.wp_bind`, `Runs.sound`, `Runs.within`,
`Runs.of_bind`, `Coroutine.runs_replay`.
-/
import Mathlib.Tactic

/-- The effects, the procedures and the exceptions of some coroutines. -/
structure Signature where
  Effect : Type
  Answer : Effect → Type
  Exception : Type
  Proc : Type
  Result : Type

inductive Coroutine (S : Signature) (α : Type)
  | ret (a : α)
  | fail (x : S.Exception)
  | await (e : S.Effect) (k : S.Answer e → Coroutine S α)
  | call (c : S.Proc) (k : Except S.Exception S.Result → Coroutine S α)

namespace Coroutine

variable {S : Signature} {α β γ : Type}

def bind : Coroutine S α → (α → Coroutine S β) → Coroutine S β
  | ret a, f => f a
  | fail x, _ => fail x
  | await e k, f => await e fun a => (k a).bind f
  | call c k, f => call c fun r => (k r).bind f

instance : Monad (Coroutine S) where
  pure := ret
  bind := bind

def perform (e : S.Effect) : Coroutine S (S.Answer e) := await e ret

/-- The result of a call, or its exception again. -/
def ofExcept : Except S.Exception α → Coroutine S α
  | .ok a => ret a
  | .error x => fail x

def invoke (c : S.Proc) : Coroutine S S.Result := call c ofExcept

/-- The coroutine with its exception caught. -/
def attempt : Coroutine S α → Coroutine S (Except S.Exception α)
  | ret a => ret (.ok a)
  | fail x => ret (.error x)
  | await e k => await e fun a => (k a).attempt
  | call c k => call c fun r => (k r).attempt

@[simp]
theorem pure_eq (a : α) : (pure a : Coroutine S α) = ret a := rfl

@[simp]
theorem ret_bind (a : α) (f : α → Coroutine S β) : ret a >>= f = f a := rfl

@[simp]
theorem fail_bind (x : S.Exception) (f : α → Coroutine S β) : fail x >>= f = fail x := rfl

@[simp]
theorem await_bind (e : S.Effect) (k : S.Answer e → Coroutine S α) (f : α → Coroutine S β) :
    await e k >>= f = await e fun a => k a >>= f := rfl

@[simp]
theorem call_bind (c : S.Proc) (k : Except S.Exception S.Result → Coroutine S α) (f : α → Coroutine S β) :
    call c k >>= f = call c fun r => k r >>= f := rfl

@[simp]
theorem perform_bind (e : S.Effect) (f : S.Answer e → Coroutine S β) : perform e >>= f = await e f := rfl

end Coroutine

/-! ### Histories and runs -/

/-- Something a coroutine did: an effect that was answered, or a call, with
what the body did and its result once there is one. -/
inductive Item (S : Signature)
  | did (e : S.Effect) (a : S.Answer e)
  | entered (c : S.Proc) (sub : List (Item S)) (r : Option (Except S.Exception S.Result))

abbrev History (S : Signature) := List (Item S)

/-- How far a run has come: it is cut off, has thrown or has returned. -/
abbrev Outcome (S : Signature) (α : Type) := Option (Except S.Exception α)

/-- What a coroutine is about to do. -/
inductive Deed (S : Signature)
  | effect (e : S.Effect)
  | call (c : S.Proc)

def Item.deed {S : Signature} : Item S → Deed S
  | did e _ => .effect e
  | entered c _ _ => .call c

open Coroutine in
/-- A run of a coroutine, with its history and outcome. A call runs the body
of the procedure, and its result or its exception goes on. -/
inductive Runs {S : Signature} (body : S.Proc → Coroutine S S.Result) :
    {α : Type} → Coroutine S α → History S → Outcome S α → Prop
  | cut {α : Type} (p : Coroutine S α) : Runs body p [] none
  | ret {α : Type} (a : α) : Runs body (ret a) [] (some (.ok a))
  | fail {α : Type} (x : S.Exception) : Runs body (fail x : Coroutine S α) [] (some (.error x))
  | await {α : Type} {e : S.Effect} {k : S.Answer e → Coroutine S α} {l : History S} {o : Outcome S α}
      (a : S.Answer e) (h : Runs body (k a) l o) : Runs body (await e k) (.did e a :: l) o
  | call {α : Type} {c : S.Proc} {k : Except S.Exception S.Result → Coroutine S α} {sub l : History S}
      {r : Except S.Exception S.Result} {o : Outcome S α} (hc : Runs body (body c) sub (some r))
      (h : Runs body (k r) l o) : Runs body (call c k) (.entered c sub (some r) :: l) o
  | inside {α : Type} {c : S.Proc} {k : Except S.Exception S.Result → Coroutine S α} {sub : History S}
      (hc : Runs body (body c) sub none) : Runs body (call c k) [.entered c sub none] none

/-- Whatever was done was allowed after what was done before. -/
def Own {S : Signature} (A : History S → Deed S → Prop) (h l : History S) : Prop :=
  ∀ u i v, l = u ++ i :: v → A (h ++ u) i.deed

/-- `sub` is the history of a call of `c`, at some depth of `l`. -/
inductive Within {S : Signature} : History S → S.Proc → History S → Prop
  | here {l : History S} {c : S.Proc} {sub : History S} {r : Option (Except S.Exception S.Result)}
      (h : .entered c sub r ∈ l) : Within l c sub
  | deeper {l : History S} {c c' : S.Proc} {sub sub' : History S} {r : Option (Except S.Exception S.Result)}
      (h : .entered c' sub' r ∈ l) (hw : Within sub' c sub) : Within l c sub

mutual

/-- What is collected at an item, and along the calls in it. -/
def Item.collect {S : Signature} {β : Type} (f : (e : S.Effect) → S.Answer e → List β) : Item S → List β
  | .did e a => f e a
  | .entered _ sub _ => History.collect f sub

/-- What is collected along a history, those of the calls in it included. -/
def History.collect {S : Signature} {β : Type} (f : (e : S.Effect) → S.Answer e → List β) : List (Item S) → List β
  | [] => []
  | i :: l => Item.collect f i ++ History.collect f l

end

/-- What holds of the bodies of procedures: which calls are made at all, what
a body may do after what it did, and what it has done when it ends. -/
structure Contract (S : Signature) where
  calls : S.Proc → Prop
  allows : S.Proc → History S → Deed S → Prop
  gives : S.Proc → History S → Except S.Exception S.Result → Prop

/-- The run in surroundings that answer the `i`-th effect as `env i` does, or
leave it: with the number of the next effect. The depth of the calls and the
length of the run are at most the first argument. -/
def Coroutine.replay {S : Signature} (body : S.Proc → Coroutine S S.Result)
    (env : ℕ → (e : S.Effect) → Option (S.Answer e)) :
    ℕ → ℕ → {α : Type} → Coroutine S α → History S × ℕ × Outcome S α
  | 0, i, _, _ => ([], i, none)
  | _ + 1, i, _, ret a => ([], i, some (.ok a))
  | _ + 1, i, _, fail x => ([], i, some (.error x))
  | n + 1, i, _, await e k =>
    match env i e with
    | none => ([], i, none)
    | some a =>
      let (l, j, o) := replay body env n (i + 1) (k a)
      (.did e a :: l, j, o)
  | n + 1, i, _, call c k =>
    match replay body env n i (body c) with
    | (sub, j, none) => ([.entered c sub none], j, none)
    | (sub, j, some r) =>
      let (l, j', o) := replay body env n j (k r)
      (.entered c sub (some r) :: l, j', o)

section

variable {S : Signature} {α β : Type} {A : History S → Deed S → Prop} {h l : History S}

theorem own_nil : Own A h [] := fun u i v hl => by simp at hl

theorem own_cons {i : Item S} : Own A h (i :: l) ↔ A h i.deed ∧ Own A (h ++ [i]) l := by
  constructor
  · intro ho
    refine ⟨by simpa using ho [] i l rfl, fun u j v hl => ?_⟩
    have := ho (i :: u) j v (by rw [hl]; rfl)
    simpa using this
  · rintro ⟨hi, ho⟩ u j v hl
    cases u with
    | nil =>
      obtain ⟨rfl, -⟩ := List.cons.inj hl
      simpa using hi
    | cons j' u =>
      obtain ⟨rfl, hl'⟩ := List.cons.inj hl
      simpa using ho u j v hl'

theorem Within.cons {i : Item S} {c : S.Proc} {sub : History S} (hw : Within l c sub) : Within (i :: l) c sub := by
  cases hw with
  | here hm => exact .here (List.mem_cons_of_mem _ hm)
  | deeper hm hw => exact .deeper (List.mem_cons_of_mem _ hm) hw

theorem not_within_nil {c : S.Proc} {sub : History S} : ¬ Within [] c sub := by
  rintro (hm | ⟨hm, -⟩)
  · cases hm
  · cases hm

/-- The calls of a history are those of its first item and those of the rest. -/
theorem Within.cases_cons {i : Item S} {c : S.Proc} {sub : History S} (hw : Within (i :: l) c sub) :
    (∃ r, i = .entered c sub r) ∨ (∃ c' sub' r, i = .entered c' sub' r ∧ Within sub' c sub) ∨ Within l c sub := by
  cases hw with
  | @here _ _ _ r hm =>
    rcases List.mem_cons.mp hm with hm | hm
    · exact Or.inl ⟨r, hm.symm⟩
    · exact Or.inr (Or.inr (.here hm))
  | @deeper _ _ c' _ sub' r hm hw =>
    rcases List.mem_cons.mp hm with hm | hm
    · exact Or.inr (Or.inl ⟨c', sub', r, hm.symm, hw⟩)
    · exact Or.inr (Or.inr (.deeper hm hw))

/-- What holds of a history if it holds of the calls in it holds of all. -/
theorem Within.induction {P : History S → Prop}
    (ih : ∀ l, (∀ c sub r, .entered c sub r ∈ l → P sub) → P l) (l : History S) : P l := by
  generalize hn : sizeOf l = n
  induction n using Nat.strong_induction_on generalizing l with
  | _ n hind =>
    refine ih l fun c sub r hm => hind (sizeOf sub) ?_ sub rfl
    have hlt := List.sizeOf_lt_of_mem hm
    rw [Item.entered.sizeOf_spec] at hlt
    omega

theorem History.collect_append (f : (e : S.Effect) → S.Answer e → List β) : ∀ l₁ l₂ : History S,
    History.collect f (l₁ ++ l₂) = History.collect f l₁ ++ History.collect f l₂
  | [], l₂ => rfl
  | i :: l₁, l₂ => by
    rw [List.cons_append, History.collect, History.collect, History.collect_append f l₁ l₂, List.append_assoc]

theorem History.mem_collect {f : (e : S.Effect) → S.Answer e → List β} {e : S.Effect} {a : S.Answer e} {b : β}
    (hb : b ∈ f e a) : ∀ {l : History S}, .did e a ∈ l → b ∈ History.collect f l
  | i :: l, hm => by
    rw [History.collect]
    rcases List.mem_cons.mp hm with rfl | hm
    · exact List.mem_append_left _ hb
    · exact List.mem_append_right _ (History.mem_collect hb hm)

theorem Coroutine.runs_replay (body : S.Proc → Coroutine S S.Result)
    (env : ℕ → (e : S.Effect) → Option (S.Answer e)) : ∀ (n i : ℕ) {α : Type} (p : Coroutine S α),
    Runs body p (replay body env n i p).1 (replay body env n i p).2.2
  | 0, _, _, p => .cut p
  | _ + 1, _, _, ret a => .ret a
  | _ + 1, _, _, fail x => .fail x
  | n + 1, i, _, await e k => by
    simp only [replay]
    cases env i e with
    | none => exact .cut _
    | some a => exact .await a (runs_replay body env n (i + 1) (k a))
  | n + 1, i, _, call c k => by
    simp only [replay]
    have hc := runs_replay body env n i (body c)
    generalize replay body env n i (body c) = run at hc ⊢
    obtain ⟨sub, j, _ | r⟩ := run
    · exact .inside hc
    · exact .call hc (runs_replay body env n j (k r))

/-- What a call did is a run of its body. -/
theorem Runs.within {body : S.Proc → Coroutine S S.Result} {p : Coroutine S α} {o : Outcome S α} (hr : Runs body p l o)
    {c : S.Proc} {sub : History S} (hw : Within l c sub) : ∃ o', Runs body (body c) sub o' := by
  induction hr with
  | cut p => exact absurd hw not_within_nil
  | ret a => exact absurd hw not_within_nil
  | fail x => exact absurd hw not_within_nil
  | await a _ ih =>
    rcases hw.cases_cons with ⟨r, hi⟩ | ⟨c', sub', r, hi, -⟩ | hw
    · cases hi
    · cases hi
    · exact ih hw
  | call hc _ ihc ih =>
    rcases hw.cases_cons with ⟨r, hi⟩ | ⟨c', sub', r, hi, hw⟩ | hw
    · cases hi
      exact ⟨_, hc⟩
    · cases hi
      exact ihc hw
    · exact ih hw
  | inside hc ihc =>
    rcases hw.cases_cons with ⟨r, hi⟩ | ⟨c', sub', r, hi, hw⟩ | hw
    · cases hi
      exact ⟨_, hc⟩
    · cases hi
      exact ihc hw
    · exact absurd hw not_within_nil

end

namespace Coroutine

variable {S : Signature} {α β : Type} {K : Contract S} {A : History S → Deed S → Prop}

/-- The weakest precondition: after the history `h`, what the coroutine does
is allowed by `A`, its calls are in the contract, and it ends in `Q`. -/
def wp (K : Contract S) (A : History S → Deed S → Prop) :
    Coroutine S α → (History S → Except S.Exception α → Prop) → History S → Prop
  | ret a, Q, h => Q h (.ok a)
  | fail x, Q, h => Q h (.error x)
  | await e k, Q, h => A h (.effect e) ∧ ∀ a, (k a).wp K A Q (h ++ [.did e a])
  | call c k, Q, h => A h (.call c) ∧ K.calls c ∧
      ∀ sub r, K.gives c sub r → (k r).wp K A Q (h ++ [.entered c sub (some r)])

/-- The postcondition of the first part of a sequence. -/
def afterwards (K : Contract S) (A : History S → Deed S → Prop) (f : α → Coroutine S β)
    (Q : History S → Except S.Exception β → Prop) (h : History S) : Except S.Exception α → Prop
  | .ok a => (f a).wp K A Q h
  | .error x => Q h (.error x)

variable {h : History S}

@[simp]
theorem wp_ret (a : α) (Q : History S → Except S.Exception α → Prop) :
    (ret a : Coroutine S α).wp K A Q h ↔ Q h (.ok a) := Iff.rfl

@[simp]
theorem wp_fail (x : S.Exception) (Q : History S → Except S.Exception α → Prop) :
    (fail x : Coroutine S α).wp K A Q h ↔ Q h (.error x) := Iff.rfl

theorem wp_await {e : S.Effect} {k : S.Answer e → Coroutine S α} {Q : History S → Except S.Exception α → Prop} :
    (await e k).wp K A Q h ↔ A h (.effect e) ∧ ∀ a, (k a).wp K A Q (h ++ [.did e a]) := Iff.rfl

theorem wp_call {c : S.Proc} {k : Except S.Exception S.Result → Coroutine S α}
    {Q : History S → Except S.Exception α → Prop} :
    (call c k).wp K A Q h ↔ A h (.call c) ∧ K.calls c ∧
      ∀ sub r, K.gives c sub r → (k r).wp K A Q (h ++ [.entered c sub (some r)]) := Iff.rfl

theorem wp_mono {p : Coroutine S α} {Q R : History S → Except S.Exception α → Prop} (hQ : ∀ l r, Q l r → R l r)
    (hp : p.wp K A Q h) : p.wp K A R h := by
  induction p generalizing h with
  | ret a => exact hQ _ _ hp
  | fail x => exact hQ _ _ hp
  | await e k ih => exact ⟨hp.1, fun a => ih a (hp.2 a)⟩
  | call c k ih => exact ⟨hp.1, hp.2.1, fun sub r hg => ih r (hp.2.2 sub r hg)⟩

/-- **The rule of composition.** -/
theorem wp_bind {p : Coroutine S α} {f : α → Coroutine S β} {Q : History S → Except S.Exception β → Prop} :
    (p >>= f).wp K A Q h ↔ p.wp K A (afterwards K A f Q) h := by
  induction p generalizing h with
  | ret a => exact Iff.rfl
  | fail x => exact Iff.rfl
  | await e k ih => simp only [await_bind, wp_await, ih]
  | call c k ih => simp only [call_bind, wp_call, ih]

/-- A caught exception is a value. -/
theorem wp_attempt {p : Coroutine S α} {Q : History S → Except S.Exception (Except S.Exception α) → Prop} :
    p.attempt.wp K A Q h ↔ p.wp K A (fun l r => Q l (.ok r)) h := by
  induction p generalizing h with
  | ret a => exact Iff.rfl
  | fail x => exact Iff.rfl
  | await e k ih => simp only [attempt, wp_await, ih]
  | call c k ih => simp only [attempt, wp_call, ih]

end Coroutine

/-- **The rule of recursion.** If each body keeps the contract, given that the
calls in it do, every run of a coroutine keeps it, at each depth. -/
theorem Runs.sound {S : Signature} {body : S.Proc → Coroutine S S.Result} {K : Contract S}
    (hbody : ∀ c, K.calls c → (body c).wp K (K.allows c) (K.gives c) []) {α : Type} {p : Coroutine S α}
    {l : History S} {o : Outcome S α} (hr : Runs body p l o) {A : History S → Deed S → Prop}
    {Q : History S → Except S.Exception α → Prop} {h : History S} (hp : p.wp K A Q h) :
    Own A h l ∧ (∀ r, o = some r → Q (h ++ l) r) ∧
      ∀ c sub, Within l c sub → K.calls c ∧ Own (K.allows c) [] sub := by
  induction hr generalizing A h with
  | cut p => exact ⟨own_nil, by simp, fun c sub hw => absurd hw not_within_nil⟩
  | ret a =>
    refine ⟨own_nil, ?_, fun c sub hw => absurd hw not_within_nil⟩
    rintro r ⟨⟩
    simpa using hp
  | fail x =>
    refine ⟨own_nil, ?_, fun c sub hw => absurd hw not_within_nil⟩
    rintro r ⟨⟩
    simpa using hp
  | await a _ ih =>
    obtain ⟨hown, hQ, hin⟩ := ih (hp.2 a)
    refine ⟨own_cons.mpr ⟨hp.1, hown⟩, fun r ho => by simpa using hQ r ho, fun c sub hw => ?_⟩
    rcases hw.cases_cons with ⟨r, hi⟩ | ⟨c', sub', r, hi, -⟩ | hw
    · cases hi
    · cases hi
    · exact hin c sub hw
  | @call _ c k sub l r o _ _ ihc ih =>
    obtain ⟨hA, hc, hk⟩ := hp
    obtain ⟨hsub, hg, hsubin⟩ := ihc (hbody c hc)
    obtain ⟨hown, hQ, hin⟩ := ih (hk sub r (by simpa using hg r rfl))
    refine ⟨own_cons.mpr ⟨hA, hown⟩, fun r ho => by simpa using hQ r ho, fun c' sub' hw => ?_⟩
    rcases hw.cases_cons with ⟨r, hi⟩ | ⟨c'', sub'', r, hi, hw⟩ | hw
    · cases hi
      exact ⟨hc, hsub⟩
    · cases hi
      exact hsubin c' sub' hw
    · exact hin c' sub' hw
  | @inside _ c k sub _ ihc =>
    obtain ⟨hA, hc, -⟩ := hp
    obtain ⟨hsub, -, hsubin⟩ := ihc (hbody c hc)
    refine ⟨own_cons.mpr ⟨hA, own_nil⟩, by simp, fun c' sub' hw => ?_⟩
    rcases hw.cases_cons with ⟨r, hi⟩ | ⟨c'', sub'', r, hi, hw⟩ | hw
    · cases hi
      exact ⟨hc, hsub⟩
    · cases hi
      exact hsubin c' sub' hw
    · exact absurd hw not_within_nil
