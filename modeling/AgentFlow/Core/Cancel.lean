/-
# Cancellation

`CancelSource` and `CancelToken` of `agentflow/core/cancel.{h,cc}`: the state
that the copies of one token and its source share, and the threads that call
`OnCancel` and `Cancel` on it. A thread is the stack of its calls that have
not returned and of the callbacks that they run; the code of the user is at the
bottom of a stack and in the callbacks, and may make more calls. The
environment chooses which thread goes on.

A mutex is taken in one step and the section under it is the next one, which
releases it. The callback of the `n`th call of `OnCancel` is the number `n`.

Key definitions: `State`, `State.go`, `step`, `Ledger.Balanced`, `Guarded`.
Key theorems: `Ledger.Balanced.of_did`, `everywhere_of_did`, `Guarded.of_did`,
`callbacks_exactly_once`.
-/
import AgentFlow.Lib.Run
import AgentFlow.Lib.Stacks

namespace AgentFlow
namespace Cancel

open Stepping Stacks

/-- Where a call is, or a callback that runs. -/
inductive Frame
  | cancel
  | cancelLocked
  /-- `for (auto& cb : to_fire) cb();` -/
  | firing (toFire : List ℕ)
  | onCancel (cb : ℕ)
  | onCancelLocked (cb : ℕ)
  /-- `if (already) cb();`, before the callback and after it. -/
  | calling (cb : ℕ)
  | called (cb : ℕ)
  | body (cb : ℕ)
  deriving DecidableEq, Repr

/-- The frame has the mutex. -/
def Frame.locked : Frame → Bool
  | .cancelLocked | .onCancelLocked _ => true
  | _ => false

inductive Event
  | onCancel (cb : ℕ)
  | onCancelEnds (cb : ℕ)
  | cancel
  | cancelEnds
  /-- A callback is started by `Cancel`. -/
  | fired (cb : ℕ)
  /-- A callback is started by its own `OnCancel`. -/
  | called (cb : ℕ)
  deriving DecidableEq, Repr

/-- The shared state, the threads, the number of calls of `OnCancel` and what
happened. -/
structure State where
  cancelled : Bool := false
  mu : Option ℕ := none
  onCancelCbs : List ℕ := []
  threads : List (List Frame) := []
  next : ℕ := 0
  log : List Event := []
  deriving DecidableEq, Repr

namespace State

def setStack (s : State) (t : ℕ) (stack : List Frame) : State := { s with threads := s.threads.set t stack }

def record (s : State) (e : Event) : State := { s with log := s.log ++ [e] }

def isCancelled (s : State) : Bool := s.cancelled

/-- How often a callback was started. -/
def runs (s : State) (cb : ℕ) : ℕ := s.log.count (.fired cb) + s.log.count (.called cb)

/-- The thread `t` goes on with the frame on top of its stack. -/
def go (s : State) (t : ℕ) (rest : List Frame) : Frame → Option State
  | .cancel => if s.mu = none then some ({ s with mu := some t }.setStack t (.cancelLocked :: rest)) else none
  | .cancelLocked =>
    if s.cancelled then some (({ s with mu := none }.setStack t rest).record .cancelEnds)
    else
      some ({ s with mu := none, cancelled := true, onCancelCbs := [] }.setStack t (.firing s.onCancelCbs :: rest))
  | .firing [] => some ((s.setStack t rest).record .cancelEnds)
  | .firing (cb :: toFire) => some ((s.setStack t (.body cb :: .firing toFire :: rest)).record (.fired cb))
  | .onCancel cb =>
    if s.mu = none then some ({ s with mu := some t }.setStack t (.onCancelLocked cb :: rest)) else none
  | .onCancelLocked cb =>
    if s.cancelled then some ({ s with mu := none }.setStack t (.calling cb :: rest))
    else
      some (({ s with mu := none, onCancelCbs := s.onCancelCbs ++ [cb] }.setStack t rest).record (.onCancelEnds cb))
  | .calling cb => some ((s.setStack t (.body cb :: .called cb :: rest)).record (.called cb))
  | .called cb => some ((s.setStack t rest).record (.onCancelEnds cb))
  | .body _ => some (s.setStack t rest)

end State

/-- The code of the user runs: outside all calls, or in a callback. -/
def userCode : List Frame → Bool
  | [] | .body _ :: _ => true
  | _ => false

inductive Choice
  | thread
  | onCancel (t : ℕ)
  | cancel (t : ℕ)
  | go (t : ℕ)
  deriving DecidableEq, Repr

def step : Choice → State → Option State
  | .thread, s => some { s with threads := s.threads ++ [[]] }
  | .onCancel t, s =>
    match s.threads[t]? with
    | some stack =>
      if userCode stack then
        some (({ s with next := s.next + 1 }.setStack t (.onCancel s.next :: stack)).record (.onCancel s.next))
      else none
    | none => none
  | .cancel t, s =>
    match s.threads[t]? with
    | some stack => if userCode stack then some ((s.setStack t (.cancel :: stack)).record .cancel) else none
    | none => none
  | .go t, s =>
    match s.threads[t]? with
    | some (frame :: rest) => s.go t rest frame
    | _ => none

/-- Any order of the steps. -/
abbrev Reaches (s : State) (cs : List Choice) (s' : State) : Prop := Run step (fun _ _ => True) s cs s'

/-! ### What a step does -/

/-- The steps, each with what it finds. -/
inductive Did (s : State) : State → Prop
  | thread : Did s { s with threads := s.threads ++ [[]] }
  | onCancel {t : ℕ} {stack : List Frame} (h : s.threads[t]? = some stack) (huser : userCode stack = true) :
      Did s (({ s with next := s.next + 1 }.setStack t (.onCancel s.next :: stack)).record (.onCancel s.next))
  | cancel {t : ℕ} {stack : List Frame} (h : s.threads[t]? = some stack) (huser : userCode stack = true) :
      Did s ((s.setStack t (.cancel :: stack)).record .cancel)
  | lockCancel {t : ℕ} {rest : List Frame} (h : s.threads[t]? = some (.cancel :: rest)) (hmu : s.mu = none) :
      Did s ({ s with mu := some t }.setStack t (.cancelLocked :: rest))
  | already {t : ℕ} {rest : List Frame} (h : s.threads[t]? = some (.cancelLocked :: rest)) (hc : s.cancelled = true) :
      Did s (({ s with mu := none }.setStack t rest).record .cancelEnds)
  | takes {t : ℕ} {rest : List Frame} (h : s.threads[t]? = some (.cancelLocked :: rest)) (hc : s.cancelled = false) :
      Did s ({ s with mu := none, cancelled := true, onCancelCbs := [] }.setStack t (.firing s.onCancelCbs :: rest))
  | firedAll {t : ℕ} {rest : List Frame} (h : s.threads[t]? = some (.firing [] :: rest)) :
      Did s ((s.setStack t rest).record .cancelEnds)
  | fires {t cb : ℕ} {toFire : List ℕ} {rest : List Frame} (h : s.threads[t]? = some (.firing (cb :: toFire) :: rest)) :
      Did s ((s.setStack t (.body cb :: .firing toFire :: rest)).record (.fired cb))
  | lockOnCancel {t cb : ℕ} {rest : List Frame} (h : s.threads[t]? = some (.onCancel cb :: rest)) (hmu : s.mu = none) :
      Did s ({ s with mu := some t }.setStack t (.onCancelLocked cb :: rest))
  | late {t cb : ℕ} {rest : List Frame} (h : s.threads[t]? = some (.onCancelLocked cb :: rest))
      (hc : s.cancelled = true) : Did s ({ s with mu := none }.setStack t (.calling cb :: rest))
  | pushes {t cb : ℕ} {rest : List Frame} (h : s.threads[t]? = some (.onCancelLocked cb :: rest))
      (hc : s.cancelled = false) :
      Did s (({ s with mu := none, onCancelCbs := s.onCancelCbs ++ [cb] }.setStack t rest).record (.onCancelEnds cb))
  | calls {t cb : ℕ} {rest : List Frame} (h : s.threads[t]? = some (.calling cb :: rest)) :
      Did s ((s.setStack t (.body cb :: .called cb :: rest)).record (.called cb))
  | called {t cb : ℕ} {rest : List Frame} (h : s.threads[t]? = some (.called cb :: rest)) :
      Did s ((s.setStack t rest).record (.onCancelEnds cb))
  | returns {t cb : ℕ} {rest : List Frame} (h : s.threads[t]? = some (.body cb :: rest)) :
      Did s (s.setStack t rest)

theorem did_of_go {s s' : State} {t : ℕ} {frame : Frame} {rest : List Frame}
    (h : s.threads[t]? = some (frame :: rest)) (hgo : s.go t rest frame = some s') : Did s s' := by
  cases frame with
  | cancel =>
    rw [State.go] at hgo
    split_ifs at hgo with hmu
    obtain rfl := Option.some.inj hgo
    exact Did.lockCancel h hmu
  | cancelLocked =>
    rw [State.go] at hgo
    split_ifs at hgo with hc
    · obtain rfl := Option.some.inj hgo
      exact Did.already h hc
    · obtain rfl := Option.some.inj hgo
      exact Did.takes h (Bool.eq_false_iff.mpr hc)
  | firing toFire =>
    cases toFire with
    | nil =>
      obtain rfl := Option.some.inj hgo
      exact Did.firedAll h
    | cons cb toFire =>
      obtain rfl := Option.some.inj hgo
      exact Did.fires h
  | onCancel cb =>
    rw [State.go] at hgo
    split_ifs at hgo with hmu
    obtain rfl := Option.some.inj hgo
    exact Did.lockOnCancel h hmu
  | onCancelLocked cb =>
    rw [State.go] at hgo
    split_ifs at hgo with hc
    · obtain rfl := Option.some.inj hgo
      exact Did.late h hc
    · obtain rfl := Option.some.inj hgo
      exact Did.pushes h (Bool.eq_false_iff.mpr hc)
  | calling cb =>
    obtain rfl := Option.some.inj hgo
    exact Did.calls h
  | called cb =>
    obtain rfl := Option.some.inj hgo
    exact Did.called h
  | body cb =>
    obtain rfl := Option.some.inj hgo
    exact Did.returns h

theorem did_of_step {c : Choice} {s s' : State} (h : step c s = some s') : Did s s' := by
  cases c with
  | thread =>
    obtain rfl := Option.some.inj h
    exact Did.thread
  | onCancel t =>
    rw [step] at h
    split at h
    · split_ifs at h with huser
      obtain rfl := Option.some.inj h
      exact Did.onCancel ‹_› huser
    · cases h
  | cancel t =>
    rw [step] at h
    split at h
    · split_ifs at h with huser
      obtain rfl := Option.some.inj h
      exact Did.cancel ‹_› huser
    · cases h
  | go t =>
    rw [step] at h
    split at h
    · exact did_of_go ‹_› h
    · cases h

/-- An invariant that every step keeps holds in every state reached. -/
theorem invariant_of_did {I : State → Prop} (hstep : ∀ s s', I s → Did s s' → I s') {s s' : State} {cs : List Choice}
    (h : Reaches s cs s') (h0 : I s) : I s' :=
  h.invariant (fun _ _ _ hI _ hs => hstep _ _ hI (did_of_step hs)) h0

/-! ### Where a callback is -/

/-- The callback is in this frame and is yet to be started. -/
def Frame.holds (cb : ℕ) : Frame → ℕ
  | .firing toFire => toFire.count cb
  | .onCancel n | .onCancelLocked n | .calling n => if n = cb then 1 else 0
  | _ => 0

/-- The frame is that of the callback's `OnCancel`. -/
def Frame.serves (cb : ℕ) : Frame → ℕ
  | .onCancel n | .onCancelLocked n | .calling n | .called n => if n = cb then 1 else 0
  | _ => 0

/-- How many calls of `OnCancel` have the number `cb`. -/
def issued (next cb : ℕ) : ℕ := if cb < next then 1 else 0

theorem issued_succ (next cb : ℕ) : issued (next + 1) cb = issued next cb + if next = cb then 1 else 0 := by
  unfold issued
  split_ifs <;> omega

/-- What counts for each frame, for a callback in the list and for each event. -/
structure Ledger where
  frame : Frame → ℕ
  listed : ℕ → ℕ
  event : Event → ℕ

def Ledger.total (L : Ledger) (s : State) : ℕ :=
  weigh L.frame s.threads + (s.onCancelCbs.map L.listed).sum + (s.log.map L.event).sum

/-- What a step takes from one place it brings to another, and only the call of `OnCancel` with
the number `cb` brings something new. -/
structure Ledger.Balanced (L : Ledger) (cb : ℕ) : Prop where
  onCancel : ∀ n, L.frame (.onCancel n) + L.event (.onCancel n) = if n = cb then 1 else 0
  cancel : L.frame .cancel + L.event .cancel = 0
  cancelLocked : L.frame .cancelLocked = 0
  firing : ∀ cbs, L.frame (.firing cbs) = (cbs.map L.listed).sum
  cancelEnds : L.event .cancelEnds = 0
  fires : ∀ n, L.frame (.body n) + L.event (.fired n) = L.listed n
  onCancelLocked : ∀ n, L.frame (.onCancelLocked n) = L.frame (.onCancel n)
  pushes : ∀ n, L.listed n + L.event (.onCancelEnds n) = L.frame (.onCancelLocked n)
  late : ∀ n, L.frame (.calling n) = L.frame (.onCancelLocked n)
  calls : ∀ n, L.frame (.body n) + L.frame (.called n) + L.event (.called n) = L.frame (.calling n)
  called : ∀ n, L.event (.onCancelEnds n) = L.frame (.called n)
  returns : ∀ n, L.frame (.body n) = 0

/-- A balanced ledger follows the calls of `OnCancel`. -/
theorem Ledger.Balanced.of_did {L : Ledger} {cb : ℕ} (hL : L.Balanced cb) {s s' : State} (hdid : Did s s')
    (h : L.total s = issued s.next cb) : L.total s' = issued s'.next cb := by
  unfold Ledger.total at h ⊢
  cases hdid with
  | thread =>
    have hw := weigh_thread L.frame s.threads
    simp only
    omega
  | onCancel hstack =>
    have hw := weigh_push L.frame hstack (.onCancel s.next)
    have hnew := hL.onCancel s.next
    simp only [State.record, State.setStack, List.map_append, List.map_singleton, List.sum_append, List.sum_singleton,
      issued_succ]
    omega
  | cancel hstack =>
    have hw := weigh_push L.frame hstack .cancel
    have hcancel := hL.cancel
    simp only [State.record, State.setStack, List.map_append, List.map_singleton, List.sum_append, List.sum_singleton]
    omega
  | lockCancel hstack =>
    have hw := weigh_top L.frame hstack .cancelLocked
    have hlocked := hL.cancelLocked
    have hcancel := hL.cancel
    simp only [State.setStack]
    omega
  | already hstack =>
    have hw := weigh_pop L.frame hstack
    have hlocked := hL.cancelLocked
    have hends := hL.cancelEnds
    simp only [State.record, State.setStack, List.map_append, List.map_singleton, List.sum_append, List.sum_singleton]
    omega
  | takes hstack =>
    have hw := weigh_top L.frame hstack (.firing s.onCancelCbs)
    have hlocked := hL.cancelLocked
    have hfiring := hL.firing s.onCancelCbs
    simp only [State.setStack, List.map_nil, List.sum_nil]
    omega
  | firedAll hstack =>
    have hw := weigh_pop L.frame hstack
    have hfiring := hL.firing []
    have hends := hL.cancelEnds
    rw [List.map_nil, List.sum_nil] at hfiring
    simp only [State.record, State.setStack, List.map_append, List.map_singleton, List.sum_append, List.sum_singleton]
    omega
  | @fires t n toFire rest hstack =>
    have hw := weigh_call L.frame hstack (.body n) (.firing toFire)
    have hfires := hL.fires n
    have hbefore := hL.firing (n :: toFire)
    have hafter := hL.firing toFire
    rw [List.map_cons, List.sum_cons] at hbefore
    simp only [State.record, State.setStack, List.map_append, List.map_singleton, List.sum_append, List.sum_singleton]
    omega
  | @lockOnCancel t n rest hstack =>
    have hw := weigh_top L.frame hstack (.onCancelLocked n)
    have hlocked := hL.onCancelLocked n
    simp only [State.setStack]
    omega
  | @late t n rest hstack =>
    have hw := weigh_top L.frame hstack (.calling n)
    have hlate := hL.late n
    simp only [State.setStack]
    omega
  | @pushes t n rest hstack =>
    have hw := weigh_pop L.frame hstack
    have hpushes := hL.pushes n
    simp only [State.record, State.setStack, List.map_append, List.map_singleton, List.sum_append, List.sum_singleton]
    omega
  | @calls t n rest hstack =>
    have hw := weigh_call L.frame hstack (.body n) (.called n)
    have hcalls := hL.calls n
    simp only [State.record, State.setStack, List.map_append, List.map_singleton, List.sum_append, List.sum_singleton]
    omega
  | @called t n rest hstack =>
    have hw := weigh_pop L.frame hstack
    have hcalled := hL.called n
    simp only [State.record, State.setStack, List.map_append, List.map_singleton, List.sum_append, List.sum_singleton]
    omega
  | @returns t n rest hstack =>
    have hw := weigh_pop L.frame hstack
    have hreturns := hL.returns n
    simp only [State.setStack]
    omega

/-- Each callback has one place: it is yet to be started, or it was started
once; and its `OnCancel` is under way or has returned. -/
structure Conserved (s : State) : Prop where
  places : ∀ cb, weigh (Frame.holds cb) s.threads + s.onCancelCbs.count cb + s.runs cb = issued s.next cb
  calls : ∀ cb, weigh (Frame.serves cb) s.threads + s.log.count (.onCancelEnds cb) = issued s.next cb

/-- The places of a callback. -/
def placesOf (cb : ℕ) : Ledger where
  frame := Frame.holds cb
  listed n := if n = cb then 1 else 0
  event e := (if e = .fired cb then 1 else 0) + if e = .called cb then 1 else 0

/-- Where its call of `OnCancel` is. -/
def callsOf (cb : ℕ) : Ledger where
  frame := Frame.serves cb
  listed _ := 0
  event e := if e = .onCancelEnds cb then 1 else 0

theorem sum_map_indicator {α : Type} [DecidableEq α] (a : α) (l : List α) :
    (l.map fun x => if x = a then 1 else 0).sum = l.count a := by
  induction l with
  | nil => rfl
  | cons b l ih =>
    rw [List.map_cons, List.sum_cons, ih, List.count_cons]
    simp [Nat.add_comm]

theorem placesOf_balanced (cb : ℕ) : (placesOf cb).Balanced cb := by
  constructor
  case firing => exact fun cbs => (sum_map_indicator cb cbs).symm
  all_goals simp [placesOf, Frame.holds]

theorem callsOf_balanced (cb : ℕ) : (callsOf cb).Balanced cb := by
  constructor
  all_goals simp [callsOf, Frame.serves]

theorem total_placesOf (cb : ℕ) (s : State) : (placesOf cb).total s =
    weigh (Frame.holds cb) s.threads + s.onCancelCbs.count cb + s.runs cb := by
  simp only [Ledger.total, placesOf, sum_map_indicator, List.sum_map_add, State.runs]

theorem total_callsOf (cb : ℕ) (s : State) :
    (callsOf cb).total s = weigh (Frame.serves cb) s.threads + s.log.count (.onCancelEnds cb) := by
  simp [Ledger.total, callsOf, sum_map_indicator]

/-- In any order of the steps. -/
theorem Ledger.Balanced.of_run {L : Ledger} {cb : ℕ} (hL : L.Balanced cb) {cs : List Choice} {s : State}
    (h : Reaches {} cs s) : L.total s = issued s.next cb :=
  invariant_of_did (I := fun s => L.total s = issued s.next cb) (fun _ _ hs hdid => hL.of_did hdid hs) h rfl

theorem Conserved.of_run {cs : List Choice} {s : State} (h : Reaches {} cs s) : Conserved s where
  places cb := by rw [← total_placesOf, (placesOf_balanced cb).of_run h]
  calls cb := by rw [← total_callsOf, (callsOf_balanced cb).of_run h]

/-! ### What comes after what -/

variable {P : Frame → Prop} {threads : List (List Frame)} {t : ℕ}

/-- What a step puts on the stacks has the property, when what it takes off has it. -/
structure Inherits (s s' : State) (P : Frame → Prop) : Prop where
  onCancel : P (.onCancel s.next)
  cancel : .cancel ∈ s'.log → P .cancel
  cancelLocked : P .cancel → P .cancelLocked
  firing : s'.cancelled = true → P (.firing s.onCancelCbs)
  fires : ∀ n toFire, P (.firing (n :: toFire)) → P (.body n) ∧ P (.firing toFire)
  onCancelLocked : ∀ n, P (.onCancel n) → P (.onCancelLocked n)
  calling : ∀ n, s'.cancelled = true → P (.calling n)
  calls : ∀ n, P (.calling n) → P (.body n) ∧ P (.called n)

theorem everywhere_of_did {s s' : State} (h : Everywhere P s.threads) (hP : Inherits s s' P) (hdid : Did s s') :
    Everywhere P s'.threads := by
  cases hdid with
  | thread => exact h.thread
  | onCancel hstack => exact h.set (List.forall_mem_cons.mpr ⟨hP.onCancel, h.of_get hstack⟩)
  | cancel hstack =>
    have hasked : P .cancel := hP.cancel (List.mem_append_right _ (List.mem_singleton.mpr rfl))
    exact h.set (List.forall_mem_cons.mpr ⟨hasked, h.of_get hstack⟩)
  | lockCancel hstack =>
    have hcancel := h.of_get hstack _ List.mem_cons_self
    exact h.top hstack [.cancelLocked] (List.forall_mem_singleton.mpr (hP.cancelLocked hcancel))
  | takes hstack => exact h.top hstack [.firing s.onCancelCbs] (List.forall_mem_singleton.mpr (hP.firing rfl))
  | @fires t n toFire rest hstack =>
    have hfires := hP.fires n toFire (h.of_get hstack _ List.mem_cons_self)
    refine h.top hstack [.body n, .firing toFire] ?_
    exact List.forall_mem_cons.mpr ⟨hfires.1, List.forall_mem_singleton.mpr hfires.2⟩
  | @lockOnCancel t n rest hstack =>
    have honCancel := h.of_get hstack _ List.mem_cons_self
    exact h.top hstack [.onCancelLocked n] (List.forall_mem_singleton.mpr (hP.onCancelLocked n honCancel))
  | @late t n rest hstack hc =>
    exact h.top hstack [.calling n] (List.forall_mem_singleton.mpr (hP.calling n hc))
  | @calls t n rest hstack =>
    have hcalls := hP.calls n (h.of_get hstack _ List.mem_cons_self)
    refine h.top hstack [.body n, .called n] ?_
    exact List.forall_mem_cons.mpr ⟨hcalls.1, List.forall_mem_singleton.mpr hcalls.2⟩
  | already hstack | firedAll hstack | pushes hstack | called hstack | returns hstack =>
    exact h.top hstack [] (by simp)

/-- A frame that is there only after cancellation. -/
def Frame.follows : Frame → Bool
  | .firing _ | .calling _ | .called _ | .body _ => true
  | _ => false

def Frame.cancels : Frame → Bool
  | .cancel | .cancelLocked => true
  | _ => false

def Event.follows : Event → Bool
  | .cancelEnds | .fired _ | .called _ => true
  | _ => false

/-- Nothing is fired before cancellation, and a cancellation was asked for. -/
structure Causal (s : State) : Prop where
  frames : Everywhere (fun f => f.follows = true → s.cancelled = true) s.threads
  events : ∀ e ∈ s.log, e.follows = true → s.cancelled = true
  asked : Everywhere (fun f => f.cancels = true → .cancel ∈ s.log) s.threads
  cancelled : s.cancelled = true → .cancel ∈ s.log
  taken : s.cancelled = true → s.onCancelCbs = []

theorem Did.isCancelled {s s' : State} (h : Did s s') (hc : s.isCancelled = true) : s'.isCancelled = true := by
  cases h with
  | takes => rfl
  | _ => exact hc

/-- Once `IsCancelled` is true it stays true. -/
theorem isCancelled_of_run {cs : List Choice} {s s' : State} (h : Reaches s cs s') (hc : s.isCancelled = true) :
    s'.isCancelled = true :=
  invariant_of_did (I := fun s => s.isCancelled = true) (fun _ _ h hd => hd.isCancelled h) h hc

theorem Causal.frames_of_did {s s' : State} (h : Causal s) (hdid : Did s s') :
    Everywhere (fun f => f.follows = true → s'.cancelled = true) s'.threads := by
  have hall : Everywhere (fun f => f.follows = true → s'.cancelled = true) s.threads :=
    h.frames.mono fun f hf hfollows => hdid.isCancelled (hf hfollows)
  refine everywhere_of_did hall ?_ hdid
  constructor
  case firing => exact fun hc _ => hc
  case fires => exact fun n toFire hfiring => ⟨fun _ => hfiring rfl, fun _ => hfiring rfl⟩
  case calling => exact fun n hc _ => hc
  case calls => exact fun n hcalling => ⟨fun _ => hcalling rfl, fun _ => hcalling rfl⟩
  all_goals simp [Frame.follows]

theorem Causal.events_of_did {s s' : State} (h : Causal s) (hdid : Did s s') :
    ∀ e ∈ s'.log, e.follows = true → s'.cancelled = true := by
  have hall : ∀ e ∈ s.log, e.follows = true → s'.cancelled = true :=
    fun e he hfollows => hdid.isCancelled (h.events e he hfollows)
  cases hdid with
  | onCancel => exact List.forall_mem_append.mpr ⟨hall, by simp [Event.follows]⟩
  | cancel => exact List.forall_mem_append.mpr ⟨hall, by simp [Event.follows]⟩
  | already hstack hc => exact List.forall_mem_append.mpr ⟨hall, fun _ _ _ => hc⟩
  | firedAll hstack =>
    have hc : s.cancelled = true := h.frames.of_get hstack _ List.mem_cons_self rfl
    exact List.forall_mem_append.mpr ⟨hall, fun _ _ _ => hc⟩
  | fires hstack =>
    have hc : s.cancelled = true := h.frames.of_get hstack _ List.mem_cons_self rfl
    exact List.forall_mem_append.mpr ⟨hall, fun _ _ _ => hc⟩
  | pushes => exact List.forall_mem_append.mpr ⟨hall, by simp [Event.follows]⟩
  | calls hstack =>
    have hc : s.cancelled = true := h.frames.of_get hstack _ List.mem_cons_self rfl
    exact List.forall_mem_append.mpr ⟨hall, fun _ _ _ => hc⟩
  | called hstack => exact List.forall_mem_append.mpr ⟨hall, by simp [Event.follows]⟩
  | _ => exact hall

theorem Did.log_subset {s s' : State} (h : Did s s') : s.log ⊆ s'.log := by
  cases h with
  | onCancel | cancel | already | firedAll | fires | pushes | calls | called => exact List.subset_append_left _ _
  | _ => exact List.Subset.refl _

theorem Causal.asked_of_did {s s' : State} (h : Causal s) (hdid : Did s s') :
    Everywhere (fun f => f.cancels = true → .cancel ∈ s'.log) s'.threads := by
  have hall : Everywhere (fun f => f.cancels = true → .cancel ∈ s'.log) s.threads :=
    h.asked.mono fun f hf hcancels => hdid.log_subset (hf hcancels)
  refine everywhere_of_did hall ?_ hdid
  constructor
  case cancel => exact fun hasked _ => hasked
  case cancelLocked => exact fun hcancel _ => hcancel rfl
  all_goals simp [Frame.cancels]

theorem Causal.cancelled_of_did {s s' : State} (h : Causal s) (hdid : Did s s') (hc : s'.cancelled = true) :
    .cancel ∈ s'.log ∧ s'.onCancelCbs = [] := by
  have hkept : s.cancelled = true → .cancel ∈ s'.log := fun hc => hdid.log_subset (h.cancelled hc)
  cases hdid with
  | takes hstack => exact ⟨h.asked.of_get hstack _ List.mem_cons_self rfl, rfl⟩
  | pushes hstack hfalse => exact absurd (hfalse.symm.trans hc) Bool.false_ne_true
  | _ => exact ⟨hkept hc, h.taken hc⟩

theorem Causal.of_did {s s' : State} (h : Causal s) (hdid : Did s s') : Causal s' where
  frames := h.frames_of_did hdid
  events := h.events_of_did hdid
  asked := h.asked_of_did hdid
  cancelled hc := (h.cancelled_of_did hdid hc).1
  taken hc := (h.cancelled_of_did hdid hc).2

theorem Causal.init : Causal {} := by
  constructor <;> simp [Everywhere]

theorem Causal.of_run {cs : List Choice} {s : State} (h : Reaches {} cs s) : Causal s :=
  invariant_of_did (fun _ _ hc hd => hc.of_did hd) h Causal.init

/-! ### The mutex -/

/-- The thread of the stack has the mutex. -/
def lockedTop : List Frame → Bool
  | f :: _ => f.locked
  | [] => false

/-- The thread with the mutex is in a section under it, on top of its stack. -/
structure Guarded (s : State) : Prop where
  below : ∀ stack ∈ s.threads, ∀ f ∈ stack.tail, f.locked = false
  holder : ∀ t, s.mu = some t ↔ (s.threads[t]?).any lockedTop = true

theorem lockedTop_of_tail {stack : List Frame} (h : ∀ f ∈ stack, f.locked = false) : lockedTop stack = false := by
  cases stack with
  | nil => rfl
  | cons f rest => exact h f List.mem_cons_self

theorem any_set {stack : List Frame} (h : threads[t]? = some stack) (stack' : List Frame) (t' : ℕ) :
    ((threads.set t stack')[t']?).any lockedTop =
      if t' = t then lockedTop stack' else (threads[t']?).any lockedTop := by
  have hlt : t < threads.length := (List.getElem?_eq_some_iff.mp h).1
  split_ifs with ht
  · rw [ht, List.getElem?_set_self hlt, Option.any_some]
  · rw [List.getElem?_set_ne (Ne.symm ht)]

theorem below_set {stack : List Frame} (h : ∀ st ∈ threads, ∀ f ∈ st.tail, f.locked = false)
    (hstack : ∀ f ∈ stack.tail, f.locked = false) : ∀ st ∈ threads.set t stack, ∀ f ∈ st.tail, f.locked = false := by
  intro st hst
  rcases List.mem_or_eq_of_mem_set hst with hmem | rfl
  · exact h st hmem
  · exact hstack

namespace Guarded

variable {s : State} {stack stack' : List Frame}

/-- The thread neither takes the mutex nor releases it. -/
theorem keeps (h : Guarded s) {s' : State} (hstack : s.threads[t]? = some stack)
    (hthreads : s'.threads = s.threads.set t stack') (hmu : s'.mu = s.mu) (htop : lockedTop stack' = lockedTop stack)
    (htail : ∀ f ∈ stack'.tail, f.locked = false) : Guarded s' := by
  constructor
  · rw [hthreads]
    exact below_set h.below htail
  · intro t'
    rw [hthreads, hmu, any_set hstack]
    split_ifs with ht
    · rw [h.holder, ht, hstack, Option.any_some, htop]
    · exact h.holder t'

theorem takes (h : Guarded s) {s' : State} (hstack : s.threads[t]? = some stack)
    (hthreads : s'.threads = s.threads.set t stack') (hmu : s'.mu = some t) (hfree : s.mu = none)
    (htop : lockedTop stack' = true) (htail : ∀ f ∈ stack'.tail, f.locked = false) : Guarded s' := by
  constructor
  · rw [hthreads]
    exact below_set h.below htail
  · intro t'
    rw [hthreads, hmu, any_set hstack]
    split_ifs with ht
    · simp [ht, htop]
    · rw [← h.holder, hfree]
      simp [Ne.symm ht]

theorem releases (h : Guarded s) {s' : State} (hstack : s.threads[t]? = some stack)
    (hthreads : s'.threads = s.threads.set t stack') (hmu : s'.mu = none) (hlocked : lockedTop stack = true)
    (htop : lockedTop stack' = false) (htail : ∀ f ∈ stack'.tail, f.locked = false) : Guarded s' := by
  have hheld : s.mu = some t := by
    rw [h.holder, hstack, Option.any_some, hlocked]
  constructor
  · rw [hthreads]
    exact below_set h.below htail
  · intro t'
    rw [hthreads, hmu, any_set hstack]
    split_ifs with ht
    · simp [htop]
    · rw [← h.holder, hheld]
      simp [Ne.symm ht]

theorem tail (h : Guarded s) {frame : Frame} {rest : List Frame} (hstack : s.threads[t]? = some (frame :: rest)) :
    ∀ f ∈ rest, f.locked = false :=
  h.below _ (List.mem_of_getElem? hstack)

/-- Below a frame of the user's code, or of no code at all, nothing is locked. -/
theorem user (h : Guarded s) (hstack : s.threads[t]? = some stack) (huser : userCode stack = true) :
    ∀ f ∈ stack, f.locked = false := by
  cases stack with
  | nil => simp
  | cons frame rest =>
    cases frame with
    | body cb => exact List.forall_mem_cons.mpr ⟨rfl, h.tail hstack⟩
    | _ => cases huser

theorem of_did {s' : State} (h : Guarded s) (hdid : Did s s') : Guarded s' := by
  cases hdid with
  | thread =>
    constructor
    · intro st hst
      rcases List.mem_append.mp hst with hmem | hmem
      · exact h.below st hmem
      · simp [List.mem_singleton.mp hmem]
    · intro t'
      rw [h.holder, List.getElem?_append]
      split_ifs with hlt
      · rfl
      · rw [List.getElem?_eq_none (Nat.le_of_not_lt hlt)]
        cases t' - s.threads.length <;> rfl
  | onCancel hstack huser =>
    have hall := h.user hstack huser
    exact h.keeps hstack rfl rfl (lockedTop_of_tail hall).symm hall
  | cancel hstack huser =>
    have hall := h.user hstack huser
    exact h.keeps hstack rfl rfl (lockedTop_of_tail hall).symm hall
  | lockCancel hstack hmu => exact h.takes hstack rfl rfl hmu rfl (h.tail hstack)
  | already hstack =>
    have htail := h.tail hstack
    exact h.releases hstack rfl rfl rfl (lockedTop_of_tail htail) fun f hf => htail f (List.mem_of_mem_tail hf)
  | takes hstack => exact h.releases hstack rfl rfl rfl rfl (h.tail hstack)
  | firedAll hstack =>
    have htail := h.tail hstack
    exact h.keeps hstack rfl rfl (lockedTop_of_tail htail) fun f hf => htail f (List.mem_of_mem_tail hf)
  | fires hstack => exact h.keeps hstack rfl rfl rfl (List.forall_mem_cons.mpr ⟨rfl, h.tail hstack⟩)
  | lockOnCancel hstack hmu => exact h.takes hstack rfl rfl hmu rfl (h.tail hstack)
  | late hstack => exact h.releases hstack rfl rfl rfl rfl (h.tail hstack)
  | pushes hstack =>
    have htail := h.tail hstack
    exact h.releases hstack rfl rfl rfl (lockedTop_of_tail htail) fun f hf => htail f (List.mem_of_mem_tail hf)
  | calls hstack => exact h.keeps hstack rfl rfl rfl (List.forall_mem_cons.mpr ⟨rfl, h.tail hstack⟩)
  | called hstack =>
    have htail := h.tail hstack
    exact h.keeps hstack rfl rfl (lockedTop_of_tail htail) fun f hf => htail f (List.mem_of_mem_tail hf)
  | returns hstack =>
    have htail := h.tail hstack
    exact h.keeps hstack rfl rfl (lockedTop_of_tail htail) fun f hf => htail f (List.mem_of_mem_tail hf)

theorem init : Guarded {} := by
  constructor <;> simp

theorem of_run {cs : List Choice} (h : Reaches {} cs s) : Guarded s :=
  invariant_of_did (fun _ _ hg hd => hg.of_did hd) h init

/-- What runs with the mutex is a section under it. -/
theorem top_locked (h : Guarded s) (hmu : s.mu = some t) :
    ∃ frame rest, s.threads[t]? = some (frame :: rest) ∧ frame.locked = true := by
  have htop := (h.holder t).mp hmu
  cases hstack : s.threads[t]? with
  | none =>
    rw [hstack] at htop
    cases htop
  | some stack =>
    rw [hstack, Option.any_some] at htop
    cases stack with
    | nil => cases htop
    | cons frame rest => exact ⟨frame, rest, rfl, htop⟩

/-- A section ends with the mutex released. -/
theorem go_locked (s : State) (t : ℕ) (rest : List Frame) {frame : Frame} (h : frame.locked = true) :
    ∃ s', s.go t rest frame = some s' ∧ s'.mu = none := by
  cases frame with
  | cancelLocked =>
    rw [State.go]
    split_ifs <;> exact ⟨_, rfl, rfl⟩
  | onCancelLocked cb =>
    rw [State.go]
    split_ifs <;> exact ⟨_, rfl, rfl⟩
  | _ => cases h

theorem step_go {frame : Frame} {rest : List Frame} (hstack : s.threads[t]? = some (frame :: rest)) :
    step (.go t) s = s.go t rest frame := by
  rw [step, hstack]

/-- No thread waits for itself: it goes on, or waits for another one that goes on
and releases the mutex. -/
theorem goes_on (h : Guarded s) {frame : Frame} {rest : List Frame} (hstack : s.threads[t]? = some (frame :: rest)) :
    (∃ s', step (.go t) s = some s') ∨
      ∃ t' s', t' ≠ t ∧ s.mu = some t' ∧ step (.go t') s = some s' ∧ s'.mu = none := by
  rw [step_go hstack]
  cases hmu : s.mu with
  | none =>
    refine Or.inl ?_
    cases frame with
    | firing toFire => cases toFire <;> exact ⟨_, rfl⟩
    | cancelLocked | onCancelLocked =>
      rw [State.go]
      split_ifs <;> exact ⟨_, rfl⟩
    | cancel | onCancel => exact ⟨_, if_pos hmu⟩
    | _ => exact ⟨_, rfl⟩
  | some t' =>
    obtain ⟨frame', rest', hstack', hlocked⟩ := h.top_locked hmu
    obtain ⟨s', hgo, hfree⟩ := go_locked s t' rest' hlocked
    by_cases ht : t' = t
    · subst ht
      rw [hstack'] at hstack
      obtain ⟨rfl, rfl⟩ := List.cons.inj (Option.some.inj hstack)
      exact Or.inl ⟨s', hgo⟩
    · exact Or.inr ⟨t', s', ht, rfl, by rw [step_go hstack', hgo], hfree⟩

end Guarded

/-! ### The callbacks that `Cancel` fires -/

/-- The callbacks that a call of `Cancel` is still to fire. -/
def Frame.toFire : Frame → List ℕ
  | .firing toFire => toFire
  | _ => []

/-- The callback did not get into the list. -/
structure Unlisted (s : State) (cb : ℕ) : Prop where
  list : cb ∉ s.onCancelCbs
  frames : Everywhere (fun f => cb ∉ f.toFire) s.threads
  log : .fired cb ∉ s.log

/-- The `OnCancel` of the callback has returned. -/
def State.Registered (s : State) (cb : ℕ) : Prop := .onCancelEnds cb ∈ s.log

instance (s : State) (cb : ℕ) : Decidable (s.Registered cb) := inferInstanceAs (Decidable (_ ∈ _))

theorem not_mem_record {log : List Event} {e e' : Event} (h : e ∉ log) (hne : e ≠ e') : e ∉ log ++ [e'] := by
  simp [h, hne]

theorem Unlisted.frames_of_did {s s' : State} {cb : ℕ} (h : Unlisted s cb) (hdid : Did s s') :
    Everywhere (fun f => cb ∉ f.toFire) s'.threads := by
  refine everywhere_of_did h.frames ?_ hdid
  constructor
  case firing => exact fun _ => h.list
  case fires => exact fun n toFire hfiring => ⟨List.not_mem_nil, fun hmem => hfiring (List.mem_cons_of_mem n hmem)⟩
  all_goals simp [Frame.toFire]

/-- A callback gets into the list when its `OnCancel` returns before cancellation. -/
theorem Unlisted.of_did {s s' : State} {cb : ℕ} (h : Unlisted s cb) (hdid : Did s s') :
    Unlisted s' cb ∨ s.cancelled = false ∧ s'.Registered cb := by
  have hframes := h.frames_of_did hdid
  cases hdid with
  | thread | lockCancel | lockOnCancel | late | returns => exact Or.inl ⟨h.list, hframes, h.log⟩
  | takes => exact Or.inl ⟨List.not_mem_nil, hframes, h.log⟩
  | onCancel | cancel | already | firedAll | calls | called =>
    exact Or.inl ⟨h.list, hframes, not_mem_record h.log (by simp)⟩
  | fires hstack =>
    have hfiring := h.frames.of_get hstack _ List.mem_cons_self
    rw [Frame.toFire, List.mem_cons, not_or] at hfiring
    exact Or.inl ⟨h.list, hframes, not_mem_record h.log (by simpa using hfiring.1)⟩
  | @pushes t n rest hstack hc =>
    by_cases hn : cb = n
    · subst hn
      exact Or.inr ⟨hc, List.mem_append_right _ (List.mem_singleton.mpr rfl)⟩
    · refine Or.inl ⟨?_, hframes, not_mem_record h.log (by simp)⟩
      simp [State.record, State.setStack, h.list, hn]

/-- `Cancel` fires only what was registered. -/
theorem unlisted_of_not_registered {cs : List Choice} {s : State} {cb : ℕ} (h : Reaches {} cs s)
    (hr : ¬ s.Registered cb) : Unlisted s cb := by
  have hall : ¬ s.Registered cb → Unlisted s cb := by
    refine invariant_of_did (I := fun s => ¬ s.Registered cb → Unlisted s cb) ?_ h fun _ => ?_
    · intro s s' hs hdid hr'
      have hbefore : ¬ s.Registered cb := fun hr => hr' (hdid.log_subset hr)
      exact ((hs hbefore).of_did hdid).resolve_right fun hpushed => hr' hpushed.2
    · constructor <;> simp [Everywhere]
  exact hall hr

/-- After cancellation no callback gets into the list. -/
theorem Unlisted.of_run {cs : List Choice} {s s' : State} {cb : ℕ} (h : Unlisted s cb) (hc : s.isCancelled = true)
    (hrun : Reaches s cs s') : Unlisted s' cb := by
  have hboth : s'.isCancelled = true ∧ Unlisted s' cb := by
    refine invariant_of_did (I := fun s => s.isCancelled = true ∧ Unlisted s cb) ?_ hrun ⟨hc, h⟩
    intro s s' hs hdid
    refine ⟨hdid.isCancelled hs.1, (hs.2.of_did hdid).resolve_right fun hpushed => ?_⟩
    exact Bool.false_ne_true (hpushed.1.symm.trans hs.1)
  exact hboth.2

/-! ### Exactly once -/

/-- A callback that was registered was started, unless `Cancel` is still to fire it. -/
theorem runs_eq_one {cs : List Choice} {s : State} {cb : ℕ} (h : Reaches {} cs s) (hc : s.cancelled = true)
    (hr : s.Registered cb) (hfiring : Everywhere (fun f => cb ∉ f.toFire) s.threads) : s.runs cb = 1 := by
  have hconserved := Conserved.of_run h
  have hplaces := hconserved.places cb
  have hcalls := hconserved.calls cb
  have hends : 0 < s.log.count (.onCancelEnds cb) := List.count_pos_iff.mpr hr
  have hissued : issued s.next cb ≤ 1 := by
    unfold issued
    split_ifs <;> omega
  have hserves : weigh (Frame.serves cb) s.threads = 0 := by omega
  have hholds : weigh (Frame.holds cb) s.threads = 0 := by
    refine weigh_eq_zero.mpr fun stack hstack f hf => ?_
    have hnot := hfiring stack hstack f hf
    have hserve := weigh_eq_zero.mp hserves stack hstack f hf
    cases f with
    | firing toFire => exact List.count_eq_zero.mpr hnot
    | onCancel | onCancelLocked | calling => exact hserve
    | _ => rfl
  rw [(Causal.of_run h).taken hc, List.count_nil] at hplaces
  omega

/-- A `Cancel` has run to its end, and none is firing callbacks. -/
def State.CancelEnded (s : State) : Prop :=
  .cancelEnds ∈ s.log ∧ Everywhere (fun f => ∀ toFire, f ≠ .firing toFire) s.threads

theorem State.CancelEnded.not_mem {s : State} (h : s.CancelEnded) (cb : ℕ) :
    Everywhere (fun f => cb ∉ f.toFire) s.threads := by
  refine h.2.mono fun f hf => ?_
  cases f with
  | firing toFire => exact absurd rfl (hf toFire)
  | _ => exact List.not_mem_nil

theorem runs_le_one {cs : List Choice} {s : State} (h : Reaches {} cs s) (cb : ℕ) : s.runs cb ≤ 1 := by
  have hplaces := (Conserved.of_run h).places cb
  have hissued : issued s.next cb ≤ 1 := by
    unfold issued
    split_ifs <;> omega
  omega

/-- No callback is started before `Cancel` is called. -/
theorem cancel_of_runs {cs : List Choice} {s : State} (h : Reaches {} cs s) {cb : ℕ} (hr : 0 < s.runs cb) :
    .cancel ∈ s.log := by
  have hcausal := Causal.of_run h
  refine hcausal.cancelled ?_
  rcases Nat.add_pos_iff_pos_or_pos.mp hr with hfired | hcalled
  · exact hcausal.events _ (List.count_pos_iff.mp hfired) rfl
  · exact hcausal.events _ (List.count_pos_iff.mp hcalled) rfl

/-- After cancellation the callback of an `OnCancel` that has not returned yet is started by it. -/
theorem called_of_registered {cs cs' : List Choice} {s s' : State} {cb : ℕ} (h : Reaches {} cs s)
    (hc : s.isCancelled = true) (hr : ¬ s.Registered cb) (h' : Reaches s cs' s') (hr' : s'.Registered cb) :
    s'.log.count (.called cb) = 1 ∧ s'.log.count (.fired cb) = 0 := by
  have hunlisted := (unlisted_of_not_registered h hr).of_run hc h'
  have hfired : s'.log.count (.fired cb) = 0 := List.count_eq_zero.mpr hunlisted.log
  have hruns := runs_eq_one (h.append h') (isCancelled_of_run h' hc) hr' hunlisted.frames
  rw [State.runs, hfired, Nat.zero_add] at hruns
  exact ⟨hruns, hfired⟩

/-- In any order of the steps of any number of threads, with calls in callbacks: a
callback is started at most once and only if `Cancel` was called; once a `Cancel` has run
to its end and none is firing, each registered callback was started exactly once; the thread
with the mutex runs no callback, and no thread waits for itself; and `IsCancelled` stays
true, while an `OnCancel` that returns after cancellation has started its callback itself. -/
theorem callbacks_exactly_once {cs : List Choice} {s : State} (h : Reaches {} cs s) :
    (∀ cb, s.runs cb ≤ 1 ∧ (0 < s.runs cb → .cancel ∈ s.log)) ∧
    (s.CancelEnded → ∀ cb, s.Registered cb → s.runs cb = 1) ∧
    (∀ t, s.mu = some t → ∃ frame rest, s.threads[t]? = some (frame :: rest) ∧ frame.locked = true) ∧
    (∀ t frame rest, s.threads[t]? = some (frame :: rest) →
      (∃ s', step (.go t) s = some s') ∨
        ∃ t' s', t' ≠ t ∧ s.mu = some t' ∧ step (.go t') s = some s' ∧ s'.mu = none) ∧
    (s.isCancelled = true → ∀ cs' s', Reaches s cs' s' →
      s'.isCancelled = true ∧ ∀ cb, ¬ s.Registered cb → s'.Registered cb →
        s'.log.count (.called cb) = 1 ∧ s'.log.count (.fired cb) = 0) := by
  have hguarded := Guarded.of_run h
  refine ⟨fun cb => ⟨runs_le_one h cb, cancel_of_runs h⟩, ?_, fun t => hguarded.top_locked,
    fun t frame rest => hguarded.goes_on, ?_⟩
  · intro hended cb hr
    exact runs_eq_one h ((Causal.of_run h).events _ hended.1 rfl) hr (hended.not_mem cb)
  · intro hc cs' s' h'
    exact ⟨isCancelled_of_run h' hc, fun cb hr hr' => called_of_registered h hc hr h' hr'⟩

/-- Two callbacks are registered and a `Cancel` takes them. -/
def registering : List Choice :=
  [.thread, .thread, .onCancel 0, .go 0, .go 0, .onCancel 0, .go 0, .go 0, .cancel 1, .go 1, .go 1]

/-- The first callback calls `Cancel` and registers another one. -/
def firing : List Choice :=
  [.go 1, .cancel 1, .go 1, .go 1, .onCancel 1, .go 1, .go 1, .go 1, .go 1, .go 1, .go 1, .go 1, .go 1, .go 1]

def cancelledState : State := (check step (fun _ _ => true) registering {}).getD {}

def firedState : State := (check step (fun _ _ => true) firing cancelledState).getD {}

theorem reaches_cancelledState : Reaches {} registering cancelledState := by
  have h : check step (fun _ _ => true) registering {} = some cancelledState := by decide
  exact Run.of_check (fun _ _ _ => trivial) _ _ _ h

theorem reaches_firedState : Reaches cancelledState firing firedState := by
  have h : check step (fun _ _ => true) firing cancelledState = some firedState := by decide
  exact Run.of_check (fun _ _ _ => trivial) _ _ _ h

theorem callbacks_exactly_once_reentrant :
    firedState.runs 0 = 1 ∧ firedState.runs 1 = 1 ∧ firedState.log.count (.called 2) = 1 := by
  have hended : firedState.CancelEnded := by
    refine ⟨by decide, ?_⟩
    have hthreads : firedState.threads = [[], []] := by decide
    rw [hthreads]
    simp [Everywhere]
  have hall := (callbacks_exactly_once (reaches_cancelledState.append reaches_firedState)).2.1 hended
  have hlate := (callbacks_exactly_once reaches_cancelledState).2.2.2.2 (by decide) _ _ reaches_firedState
  exact ⟨hall 0 (by decide), hall 1 (by decide), (hlate.2 2 (by decide) (by decide)).1⟩

end Cancel
end AgentFlow
