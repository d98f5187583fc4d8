/-
# Host tools: calls into the JVM

`jni/agentflow_jni.cc`: a run with host tools takes a cancel token from the
registry of cancel sources and global references to the tools and to the
signal. A call of a tool posts the upcall to the pool of workers, hooks a job
that sets the signal to the token, and waits for the result on a channel of its
own; the references are deleted when the run has ended. The threads are the
runs, the workers and those that call the registry, and the environment
chooses who goes on.

A call is a number, and so is a run; `Bridge` is what they all share. Each call
is carried out once, by a worker, while its run has the references, and gets
what its own upcall came to (`calls_carried_out`).

Key definitions: `Bridge`, `step`, `Standing`, `Lawful`.
Key theorems: `standing_of_reaches`, `calls_carried_out`.
-/
import AgentFlow.Lib.History
import AgentFlow.Lib.WorkerPool

namespace AgentFlow
namespace Jni

open Stepping WorkerPool History

/-- What `CallObjectMethod` comes to, if the worker could be attached at all. -/
inductive Upcall
  | text (s : String)
  | threw
  /-- No string, or one whose characters were not handed out. -/
  | null
  | notAttached
  deriving DecidableEq, Repr

def Upcall.result : Upcall → String
  | .text s => s
  | .threw => "\x7b\"error\":\"tool_impl_threw\"\x7d"
  | .null => "\x7b\"error\":\"null_result\"\x7d"
  | .notAttached => "\x7b\"error\":\"jvm_attach_failed\"\x7d"

/-- A job of the pool: the upcall of a call, or setting the signal of a run. -/
inductive Job
  | invoke (call : ℕ)
  | flip (run : ℕ)
  deriving DecidableEq, Repr

/-- Where the coroutine of a call is. -/
inductive Stage
  /-- After `g_workers.Post`. -/
  | posted
  /-- After `cancel.OnCancel`. -/
  | waiting
  | returned (result : String)
  deriving DecidableEq, Repr

/-- A call of a tool, with its channel. -/
structure Call where
  run : ℕ := 0
  toolCallId : String := ""
  args : String := ""
  stage : Stage := .posted
  completion : Option String := none

/-- The state that a source shares with its tokens; a callback sets the signal of a run. -/
structure Source where
  cancelled : Bool := false
  onCancelCbs : List ℕ := []

/-- A run: the source of its token, whether its references are deleted, and the field of its signal. -/
structure HostRun where
  source : Option ℤ := none
  released : Bool := false
  cancelled : Bool := false

inductive Event
  | newCancel (id : ℤ)
  | cancel (id : ℤ)
  | freeCancel (id : ℤ)
  | began (run : ℕ) (cancelId : ℤ)
  | called (call run : ℕ) (toolCallId args : String)
  | hooked (run : ℕ)
  /-- A worker calls the tool. -/
  | invoked (call : ℕ) (toolCallId args : String)
  | upcall (call : ℕ) (u : Upcall)
  | returned (call : ℕ) (result : String)
  /-- A worker has set the signal, or could not be attached. -/
  | wrote (run : ℕ) (attached : Bool)
  | ended (run : ℕ)
  deriving DecidableEq, Repr

/-- The registry of cancel sources, the pool, the runs, the calls and what
happened. While `nativeCancel` runs the callbacks it has the mutex of the
registry; `firing` are those that are left. -/
structure Bridge where
  pool : Pool Job
  nextCancelId : ℤ := 1
  cancels : List ℤ := []
  sources : ℤ → Source := fun _ => {}
  firing : Option (List ℕ) := none
  nRuns : ℕ := 0
  runs : ℕ → HostRun := fun _ => {}
  nCalls : ℕ := 0
  calls : ℕ → Call := fun _ => {}
  log : List Event := []

/-- `EnsureStarted`, with its default of two workers. -/
def Bridge.start (n : ℕ := 2) : Bridge := { pool := { workers := List.replicate n none } }

namespace Bridge

variable (s : Bridge)

def record (e : Event) : Bridge := { s with log := s.log ++ [e] }

def post (j : Job) : Bridge := { s with pool := s.pool.post j }

def setCall (c : ℕ) (call : Call) : Bridge := { s with calls := Function.update s.calls c call }

def setRun (r : ℕ) (run : HostRun) : Bridge := { s with runs := Function.update s.runs r run }

def setSource (id : ℤ) (source : Source) : Bridge := { s with sources := Function.update s.sources id source }

theorem calls_setCall_self (c : ℕ) (call : Call) : (s.setCall c call).calls c = call := Function.update_self _ _ _

theorem calls_setCall_of_ne {c d : ℕ} (call : Call) (h : c ≠ d) : (s.setCall d call).calls c = s.calls c :=
  Function.update_of_ne h _ _

/-- What the new value of a call keeps. -/
theorem field_setCall {α : Type} (f : Call → α) {d : ℕ} (call : Call) (h : f call = f (s.calls d)) (c : ℕ) :
    f ((s.setCall d call).calls c) = f (s.calls c) := by
  by_cases hne : c = d
  · rw [hne, calls_setCall_self, h]
  · rw [calls_setCall_of_ne s call hne]

theorem runs_setRun_self (r : ℕ) (run : HostRun) : (s.setRun r run).runs r = run := Function.update_self _ _ _

theorem runs_setRun_of_ne {r q : ℕ} (run : HostRun) (h : r ≠ q) : (s.setRun q run).runs r = s.runs r :=
  Function.update_of_ne h _ _

theorem sources_setSource_self (id : ℤ) (source : Source) : (s.setSource id source).sources id = source :=
  Function.update_self _ _ _

theorem sources_setSource_of_ne {id id' : ℤ} (source : Source) (h : id ≠ id') :
    (s.setSource id' source).sources id = s.sources id :=
  Function.update_of_ne h _ _

theorem field_setRun {α : Type} (f : HostRun → α) {q : ℕ} {run : HostRun} (h : f run = f (s.runs q)) (r : ℕ) :
    f ((s.setRun q run).runs r) = f (s.runs r) := by
  by_cases hne : r = q
  · rw [hne, runs_setRun_self, h]
  · rw [runs_setRun_of_ne s run hne]

theorem field_setSource {α : Type} (f : Source → α) {id' : ℤ} {source : Source} (h : f source = f (s.sources id'))
    (id : ℤ) : f ((s.setSource id' source).sources id) = f (s.sources id) := by
  by_cases hne : id = id'
  · rw [hne, sources_setSource_self, h]
  · rw [sources_setSource_of_ne s source hne]

/-- `cancel.OnCancel`, on the token of a run. -/
def onCancel (r : ℕ) : Bridge :=
  match (s.runs r).source with
  | none => s
  | some id =>
    if (s.sources id).cancelled then (s.post (.flip r)).record (.hooked r)
    else
      (s.setSource id { s.sources id with onCancelCbs := (s.sources id).onCancelCbs ++ [r] }).record (.hooked r)

/-- What a worker has done when its job ends. -/
def finishJob (u : Upcall) : Job → Bridge
  | .invoke c => (s.setCall c { s.calls c with completion := some u.result }).record (.upcall c u)
  | .flip r =>
    if u = .notAttached then s.record (.wrote r false)
    else (s.setRun r { s.runs r with cancelled := true }).record (.wrote r true)

/-- What a worker does first with a job. -/
def beginJob : Job → Bridge
  | .invoke c => s.record (.invoked c (s.calls c).toolCallId (s.calls c).args)
  | .flip _ => s

/-- All calls of a run have returned. -/
def allReturned (r : ℕ) : Prop := ∀ c < s.nCalls, (s.calls c).run = r → ∃ result, (s.calls c).stage = .returned result

end Bridge

inductive Choice
  | newCancel
  | cancel (id : ℤ)
  /-- `nativeCancel` goes on. -/
  | fire
  | freeCancel (id : ℤ)
  /-- A run begins, takes its token and makes its references. -/
  | start (cancelId : ℤ)
  | call (r : ℕ) (toolCallId args : String)
  | hook (c : ℕ)
  | take (w : ℕ)
  | done (w : ℕ) (u : Upcall)
  | receive (c : ℕ)
  /-- `io.run()` has returned; the references are deleted. -/
  | finish (r : ℕ)

instance (s : Bridge) (r : ℕ) : Decidable (s.allReturned r) :=
  decidable_of_iff (∀ c < s.nCalls, (s.calls c).run = r → (match (s.calls c).stage with
    | .returned _ => true
    | _ => false) = true) <| by
    refine forall_congr' fun c => imp_congr_right fun _ => imp_congr_right fun _ => ?_
    cases (s.calls c).stage <;> simp

def step : Choice → Bridge → Option Bridge
  | .newCancel, s =>
    if s.firing = none then
      some (({ s with nextCancelId := s.nextCancelId + 1, cancels := s.nextCancelId :: s.cancels }.setSource
        s.nextCancelId {}).record (.newCancel s.nextCancelId))
    else none
  | .cancel id, s =>
    if s.firing = none then
      if id ∈ s.cancels ∧ (s.sources id).cancelled = false then
        some (({ s with firing := some (s.sources id).onCancelCbs }.setSource id ⟨true, []⟩).record (.cancel id))
      else some (s.record (.cancel id))
    else none
  | .fire, s =>
    match s.firing with
    | some (r :: rest) => some ({ s with firing := some rest }.post (.flip r))
    | some [] => some { s with firing := none }
    | none => none
  | .freeCancel id, s =>
    if s.firing = none then some ({ s with cancels := s.cancels.erase id }.record (.freeCancel id)) else none
  | .start id, s =>
    if s.firing = none ∨ id = 0 then
      some (({ s with nRuns := s.nRuns + 1 }.setRun s.nRuns
        { source := if id ≠ 0 ∧ id ∈ s.cancels then some id else none }).record (.began s.nRuns id))
    else none
  | .call r toolCallId args, s =>
    if r < s.nRuns ∧ (s.runs r).released = false then
      some ((({ s with nCalls := s.nCalls + 1 }.setCall s.nCalls { run := r, toolCallId, args }).post
        (.invoke s.nCalls)).record (.called s.nCalls r toolCallId args))
    else none
  | .hook c, s =>
    if c < s.nCalls ∧ (s.calls c).stage = .posted then
      some ((s.setCall c { s.calls c with stage := .waiting }).onCancel (s.calls c).run)
    else none
  | .take w, s => (s.pool.take w).map fun r => { s with pool := r.2 }.beginJob r.1
  | .done w u, s => (s.pool.done w).map fun r => { s with pool := r.2 }.finishJob u r.1
  | .receive c, s =>
    match (s.calls c).stage, (s.calls c).completion with
    | .waiting, some result =>
      some ((s.setCall c { s.calls c with stage := .returned result, completion := none }).record (.returned c result))
    | _, _ => none
  | .finish r, s =>
    if r < s.nRuns ∧ (s.runs r).released = false ∧ s.allReturned r then
      some ((s.setRun r { s.runs r with released := true }).record (.ended r))
    else none

/-- Any order of the steps, with `n` workers. -/
abbrev Reaches (n : ℕ) (cs : List Choice) (s : Bridge) : Prop := Run step (fun _ _ => True) (Bridge.start n) cs s

/-! ### What a step does -/

/-- The steps, each with what it finds. -/
inductive Did (s : Bridge) : Choice → Bridge → Prop
  | newCancel (h : s.firing = none) :
      Did s .newCancel (({ s with nextCancelId := s.nextCancelId + 1, cancels := s.nextCancelId :: s.cancels }.setSource
        s.nextCancelId {}).record (.newCancel s.nextCancelId))
  | cancel {id : ℤ} (h : s.firing = none) (hid : id ∈ s.cancels) (hnew : (s.sources id).cancelled = false) :
      Did s (.cancel id)
        (({ s with firing := some (s.sources id).onCancelCbs }.setSource id ⟨true, []⟩).record (.cancel id))
  | cancelAgain {id : ℤ} (hno : id ∈ s.cancels → (s.sources id).cancelled = true) :
      Did s (.cancel id) (s.record (.cancel id))
  | fire {r : ℕ} {rest : List ℕ} (h : s.firing = some (r :: rest)) :
      Did s .fire ({ s with firing := some rest }.post (.flip r))
  | fired (h : s.firing = some []) : Did s .fire { s with firing := none }
  | freeCancel {id : ℤ} : Did s (.freeCancel id) ({ s with cancels := s.cancels.erase id }.record (.freeCancel id))
  | start {id : ℤ} :
      Did s (.start id) (({ s with nRuns := s.nRuns + 1 }.setRun s.nRuns
        { source := if id ≠ 0 ∧ id ∈ s.cancels then some id else none }).record (.began s.nRuns id))
  | call {r : ℕ} {toolCallId args : String} (hr : r < s.nRuns) (hlive : (s.runs r).released = false) :
      Did s (.call r toolCallId args)
        ((({ s with nCalls := s.nCalls + 1 }.setCall s.nCalls { run := r, toolCallId, args }).post
          (.invoke s.nCalls)).record (.called s.nCalls r toolCallId args))
  | hook {c : ℕ} (hc : c < s.nCalls) (hstage : (s.calls c).stage = .posted) :
      Did s (.hook c) ((s.setCall c { s.calls c with stage := .waiting }).onCancel (s.calls c).run)
  | take {w : ℕ} {j : Job} {p : Pool Job} (h : s.pool.take w = some (j, p)) :
      Did s (.take w) ({ s with pool := p }.beginJob j)
  | done {w : ℕ} {u : Upcall} {j : Job} {p : Pool Job} (h : s.pool.done w = some (j, p)) :
      Did s (.done w u) ({ s with pool := p }.finishJob u j)
  | receive {c : ℕ} {result : String} (hstage : (s.calls c).stage = .waiting)
      (hsent : (s.calls c).completion = some result) :
      Did s (.receive c)
        ((s.setCall c { s.calls c with stage := .returned result, completion := none }).record (.returned c result))
  | finish {r : ℕ} (hr : r < s.nRuns) (hlive : (s.runs r).released = false) (hall : s.allReturned r) :
      Did s (.finish r) ((s.setRun r { s.runs r with released := true }).record (.ended r))

variable {s s' : Bridge}

theorem did_of_step {a : Choice} (h : step a s = some s') : Did s a s' := by
  cases a with
  | newCancel =>
    rw [step] at h
    split_ifs at h with hfree
    cases h
    exact .newCancel hfree
  | cancel id =>
    rw [step] at h
    split_ifs at h with hfree hnew
    · cases h
      exact .cancel hfree hnew.1 hnew.2
    · cases h
      exact .cancelAgain fun hid => Bool.eq_true_of_not_eq_false fun hc => hnew ⟨hid, hc⟩
  | fire =>
    rw [step] at h
    split at h
    · rename_i hfiring
      cases h
      exact .fire hfiring
    · rename_i hfiring
      cases h
      exact .fired hfiring
    · cases h
  | freeCancel id =>
    rw [step] at h
    split_ifs at h
    cases h
    exact .freeCancel
  | start id =>
    obtain ⟨-, hs⟩ := Option.ite_none_right_eq_some.mp h
    cases hs
    exact .start
  | call r toolCallId args =>
    rw [step] at h
    split_ifs at h with hlive
    cases h
    exact .call hlive.1 hlive.2
  | hook c =>
    rw [step] at h
    split_ifs at h with hc
    cases h
    exact .hook hc.1 hc.2
  | take w =>
    obtain ⟨⟨j, p⟩, ht, rfl⟩ := Option.map_eq_some_iff.mp h
    exact .take ht
  | done w u =>
    obtain ⟨⟨j, p⟩, hd, rfl⟩ := Option.map_eq_some_iff.mp h
    exact .done hd
  | receive c =>
    rw [step] at h
    split at h
    · rename_i hstage hsent
      cases h
      exact .receive hstage hsent
    · cases h
  | finish r =>
    rw [step] at h
    split_ifs at h with hlive
    cases h
    exact .finish hlive.1 hlive.2.1 hlive.2.2

/-- The log grows by at most one event, and a new source has a new id. -/
theorem log_of_did {a : Choice} (hd : Did s a s') :
    s'.log = s.log ∨ ∃ e, s'.log = s.log ++ [e] ∧ ∀ id, e = .newCancel id → id = s.nextCancelId := by
  cases hd with
  | newCancel => exact .inr ⟨_, rfl, fun id he => (Event.newCancel.inj he).symm⟩
  | cancel | cancelAgain | freeCancel | start | call | receive | finish => exact .inr ⟨_, rfl, by simp⟩
  | fire | fired => exact .inl rfl
  | @hook c _ _ =>
    rw [Bridge.onCancel]
    split
    · exact .inl rfl
    · split_ifs <;> exact .inr ⟨_, rfl, by simp⟩
  | @take w j p _ =>
    cases j with
    | invoke d => exact .inr ⟨_, rfl, by simp⟩
    | flip r => exact .inl rfl
  | @done w u j p _ =>
    cases j with
    | invoke d => exact .inr ⟨_, rfl, by simp⟩
    | flip r =>
      rw [Bridge.finishJob]
      split_ifs <;> exact .inr ⟨_, rfl, by simp⟩

theorem isPrefix_log_of_did {a : Choice} (hd : Did s a s') : s.log <+: s'.log := by
  rcases log_of_did hd with hlog | ⟨e, hlog, -⟩
  · exact hlog ▸ List.prefix_rfl
  · exact hlog ▸ List.prefix_append _ _

/-! ### The calls -/

def Job.invokes (c : ℕ) : Job → Bool
  | .invoke c' => c' = c
  | .flip _ => false

@[simp]
theorem Job.invokes_invoke {c c' : ℕ} : (Job.invoke c').invokes c = decide (c' = c) := rfl

@[simp]
theorem Job.invokes_flip {c r : ℕ} : (Job.flip r).invokes c = false := rfl

/-- The event is about the call. -/
def Event.about (c : ℕ) : Event → Bool
  | .called c' _ _ _ | .invoked c' _ _ | .upcall c' _ | .returned c' _ => c' = c
  | _ => false

/-- How far a call is, and what happened to it. -/
inductive Standing (s : Bridge) (c : ℕ) : List Event → Prop
  | fresh (hc : s.nCalls ≤ c) (hq : s.pool.queued (Job.invokes c) = 0) (hw : s.pool.atWork (Job.invokes c) = 0)
      (hk : s.calls c = {}) : Standing s c []
  | queued (hc : c < s.nCalls) (hq : s.pool.queued (Job.invokes c) = 1) (hw : s.pool.atWork (Job.invokes c) = 0)
      (hk : (s.calls c).completion = none) (hstage : ∀ result, (s.calls c).stage ≠ .returned result) :
      Standing s c [.called c (s.calls c).run (s.calls c).toolCallId (s.calls c).args]
  | atWork (hc : c < s.nCalls) (hq : s.pool.queued (Job.invokes c) = 0) (hw : s.pool.atWork (Job.invokes c) = 1)
      (hk : (s.calls c).completion = none) (hstage : ∀ result, (s.calls c).stage ≠ .returned result) :
      Standing s c [.called c (s.calls c).run (s.calls c).toolCallId (s.calls c).args,
        .invoked c (s.calls c).toolCallId (s.calls c).args]
  | answered {u : Upcall} (hc : c < s.nCalls) (hq : s.pool.queued (Job.invokes c) = 0)
      (hw : s.pool.atWork (Job.invokes c) = 0) (hk : (s.calls c).completion = some u.result)
      (hstage : ∀ result, (s.calls c).stage ≠ .returned result) :
      Standing s c [.called c (s.calls c).run (s.calls c).toolCallId (s.calls c).args,
        .invoked c (s.calls c).toolCallId (s.calls c).args, .upcall c u]
  | returned {u : Upcall} (hc : c < s.nCalls) (hq : s.pool.queued (Job.invokes c) = 0)
      (hw : s.pool.atWork (Job.invokes c) = 0) (hk : (s.calls c).completion = none)
      (hstage : (s.calls c).stage = .returned u.result) :
      Standing s c [.called c (s.calls c).run (s.calls c).toolCallId (s.calls c).args,
        .invoked c (s.calls c).toolCallId (s.calls c).args, .upcall c u, .returned c u.result]

/-- Nothing that the standing of a call is about has changed. -/
structure SameCall (s s' : Bridge) (c : ℕ) : Prop where
  lt : c < s'.nCalls ↔ c < s.nCalls
  queued : s'.pool.queued (Job.invokes c) = s.pool.queued (Job.invokes c)
  atWork : s'.pool.atWork (Job.invokes c) = s.pool.atWork (Job.invokes c)
  call : s'.calls c = s.calls c

variable {c : ℕ} {es : List Event}

theorem Standing.same (h : Standing s c es) (h' : SameCall s s' c) : Standing s' c es := by
  have hle : s.nCalls ≤ c → s'.nCalls ≤ c := fun hc => not_lt.mp fun hlt => absurd (h'.lt.mp hlt) (not_lt.mpr hc)
  have hq {n : ℕ} (hq : s.pool.queued (Job.invokes c) = n) := h'.queued.trans hq
  have hw {n : ℕ} (hw : s.pool.atWork (Job.invokes c) = n) := h'.atWork.trans hw
  cases h with
  | fresh hc hq' hw' hk => exact .fresh (hle hc) (hq hq') (hw hw') (h'.call.trans hk)
  | queued hc hq' hw' hk hstage =>
    rw [← h'.call] at hk hstage ⊢
    exact .queued (h'.lt.mpr hc) (hq hq') (hw hw') hk hstage
  | atWork hc hq' hw' hk hstage =>
    rw [← h'.call] at hk hstage ⊢
    exact .atWork (h'.lt.mpr hc) (hq hq') (hw hw') hk hstage
  | answered hc hq' hw' hk hstage =>
    rw [← h'.call] at hk hstage ⊢
    exact .answered (h'.lt.mpr hc) (hq hq') (hw hw') hk hstage
  | returned hc hq' hw' hk hstage =>
    rw [← h'.call] at hk hstage ⊢
    exact .returned (h'.lt.mpr hc) (hq hq') (hw hw') hk hstage

/-- `OnCancel` adds no call and no event about one. -/
theorem sameCall_onCancel (s : Bridge) (r c : ℕ) : SameCall s (s.onCancel r) c ∧
    (s.onCancel r).log.filter (Event.about c) = s.log.filter (Event.about c) := by
  rw [Bridge.onCancel]
  split
  · exact ⟨⟨Iff.rfl, rfl, rfl, rfl⟩, rfl⟩
  · split_ifs
    · refine ⟨⟨Iff.rfl, ?_, rfl, rfl⟩, by simp [Bridge.record, Bridge.post, Event.about]⟩
      exact (Pool.queued_post _ _ _).trans (by simp)
    · exact ⟨⟨Iff.rfl, rfl, rfl, rfl⟩, by simp [Bridge.record, Bridge.setSource, Event.about]⟩

/-- The standing of a call that begins to wait. -/
theorem Standing.hook (h : Standing s c es) (hstage : (s.calls c).stage = .posted) (hc : c < s.nCalls) :
    Standing (s.setCall c { s.calls c with stage := .waiting }) c es := by
  have hcall : (s.setCall c { s.calls c with stage := .waiting }).calls c = { s.calls c with stage := .waiting } :=
    Function.update_self _ _ _
  cases h with
  | fresh hle => exact absurd hc (not_lt.mpr hle)
  | queued hc hq hw hk _ =>
    have hs := Standing.queued (s := s.setCall c { s.calls c with stage := .waiting }) hc hq hw
    rw [hcall] at hs
    exact hs hk (fun _ h => by cases h)
  | atWork hc hq hw hk _ =>
    have hs := Standing.atWork (s := s.setCall c { s.calls c with stage := .waiting }) hc hq hw
    rw [hcall] at hs
    exact hs hk (fun _ h => by cases h)
  | @answered u hc hq hw hk _ =>
    have hs := Standing.answered (s := s.setCall c { s.calls c with stage := .waiting }) (u := u) hc hq hw
    rw [hcall] at hs
    exact hs hk (fun _ h => by cases h)
  | returned _ _ _ _ hret => cases hstage.symm.trans hret

/-- What happened to a call. -/
def Bridge.history (s : Bridge) (c : ℕ) : List Event := s.log.filter (Event.about c)

theorem history_record_about (s : Bridge) {e : Event} (he : e.about c = true) :
    (s.record e).history c = s.history c ++ [e] := by
  rw [Bridge.history, Bridge.record, List.filter_append, List.filter_singleton, he]
  rfl

theorem history_record_other (s : Bridge) {e : Event} (he : e.about c = false) :
    (s.record e).history c = s.history c := by
  rw [Bridge.history, Bridge.record, List.filter_append, List.filter_singleton, he]
  exact List.append_nil _

/-- An event about another call is recorded. -/
theorem standing_record {s₁ : Bridge} {e : Event} (h : Standing s c (s.history c)) (h₁ : SameCall s s₁ c)
    (hlog : s₁.log = s.log) (he : e.about c = false) : Standing (s₁.record e) c ((s₁.record e).history c) := by
  rw [history_record_other s₁ he, Bridge.history, hlog]
  exact h.same ⟨h₁.lt, h₁.queued, h₁.atWork, h₁.call⟩

/-- The standing of a call that is recorded to be further. -/
theorem standing_further {s₁ : Bridge} {e : Event} (hes : s₁.history c = es) (he : e.about c = true)
    (h : Standing s₁ c (es ++ [e])) : Standing (s₁.record e) c ((s₁.record e).history c) := by
  rw [history_record_about s₁ he, hes]
  exact h.same ⟨Iff.rfl, rfl, rfl, rfl⟩

theorem sameCall_setCall {d : ℕ} (call : Call) (hne : c ≠ d) : SameCall s (s.setCall d call) c :=
  ⟨Iff.rfl, rfl, rfl, Function.update_of_ne hne _ _⟩

theorem decide_ne {d : ℕ} (hne : c ≠ d) : decide (d = c) = false := decide_eq_false fun h => hne h.symm

theorem Standing.fresh_of_le (h : Standing s c es) (hc : s.nCalls ≤ c) :
    es = [] ∧ s.pool.queued (Job.invokes c) = 0 ∧ s.pool.atWork (Job.invokes c) = 0 := by
  cases h with
  | fresh _ hq hw _ => exact ⟨rfl, hq, hw⟩
  | queued hlt | atWork hlt | answered hlt | returned hlt => exact absurd hlt (not_lt.mpr hc)

theorem standing_call {r : ℕ} {toolCallId args : String} (h : ∀ c, Standing s c (s.history c)) (c : ℕ) :
    let s₁ := ({ s with nCalls := s.nCalls + 1 }.setCall s.nCalls { run := r, toolCallId, args }).post
      (.invoke s.nCalls)
    let e := Event.called s.nCalls r toolCallId args
    Standing (s₁.record e) c ((s₁.record e).history c) := by
  intro s₁ e
  have hqueued : s₁.pool.queued (Job.invokes c) = s.pool.queued (Job.invokes c) +
      if (Job.invoke s.nCalls).invokes c = true then 1 else 0 := Pool.queued_post _ _ _
  by_cases hne : c = s.nCalls
  · subst hne
    have hcall : s₁.calls s.nCalls = { run := r, toolCallId, args } := Function.update_self _ _ _
    obtain ⟨hes, hq, hw⟩ := (h s.nCalls).fresh_of_le le_rfl
    rw [hq, Job.invokes_invoke, decide_eq_true rfl, if_pos rfl] at hqueued
    have hs := Standing.queued (s := s₁) (Nat.lt_succ_self _) hqueued hw
    rw [hcall] at hs
    exact standing_further hes (decide_eq_true rfl) (hs rfl fun _ h => by cases h)
  · rw [Job.invokes_invoke, decide_ne hne, if_neg Bool.false_ne_true, Nat.add_zero] at hqueued
    have hlt : c < s₁.nCalls ↔ c < s.nCalls := by
      show c < s.nCalls + 1 ↔ c < s.nCalls
      omega
    exact standing_record (h c) ⟨hlt, hqueued, rfl, Function.update_of_ne hne _ _⟩ rfl (decide_ne hne)

theorem standing_hook {d : ℕ} (h : ∀ c, Standing s c (s.history c)) (hd : d < s.nCalls)
    (hstage : (s.calls d).stage = .posted) (c : ℕ) :
    let s' := (s.setCall d { s.calls d with stage := .waiting }).onCancel (s.calls d).run
    Standing s' c (s'.history c) := by
  intro s'
  obtain ⟨hsame, hlog⟩ := sameCall_onCancel (s.setCall d { s.calls d with stage := .waiting }) (s.calls d).run c
  rw [Bridge.history, hlog]
  by_cases hne : c = d
  · subst hne
    exact ((h c).hook hstage hd).same hsame
  · exact ((h c).same (sameCall_setCall _ hne)).same hsame

theorem Standing.queued_of_pos (h : Standing s c es) (hpos : 0 < s.pool.queued (Job.invokes c)) :
    c < s.nCalls ∧ s.pool.queued (Job.invokes c) = 1 ∧ s.pool.atWork (Job.invokes c) = 0 ∧
      (s.calls c).completion = none ∧ (∀ result, (s.calls c).stage ≠ .returned result) ∧
      es = [.called c (s.calls c).run (s.calls c).toolCallId (s.calls c).args] := by
  cases h with
  | queued hc hq hw hk hstage => exact ⟨hc, hq, hw, hk, hstage, rfl⟩
  | fresh _ hq | atWork _ hq | answered _ hq | returned _ hq =>
    rw [hq] at hpos
    exact absurd hpos (lt_irrefl 0)

theorem Standing.atWork_of_pos (h : Standing s c es) (hpos : 0 < s.pool.atWork (Job.invokes c)) :
    c < s.nCalls ∧ s.pool.queued (Job.invokes c) = 0 ∧ s.pool.atWork (Job.invokes c) = 1 ∧
      (s.calls c).completion = none ∧ (∀ result, (s.calls c).stage ≠ .returned result) ∧
      es = [.called c (s.calls c).run (s.calls c).toolCallId (s.calls c).args,
        .invoked c (s.calls c).toolCallId (s.calls c).args] := by
  cases h with
  | atWork hc hq hw hk hstage => exact ⟨hc, hq, hw, hk, hstage, rfl⟩
  | fresh _ _ hw | queued _ _ hw | answered _ _ hw | returned _ _ hw =>
    rw [hw] at hpos
    exact absurd hpos (lt_irrefl 0)

/-- The call whose upcall ends is at work. -/
theorem Standing.atWork_of_done {w : ℕ} {p : Pool Job} (h : Standing s c es)
    (hd : s.pool.done w = some (.invoke c, p)) :
    c < s.nCalls ∧ s.pool.queued (Job.invokes c) = 0 ∧ p.atWork (Job.invokes c) = 0 ∧
      (s.calls c).completion = none ∧ (∀ result, (s.calls c).stage ≠ .returned result) ∧
      es = [.called c (s.calls c).run (s.calls c).toolCallId (s.calls c).args,
        .invoked c (s.calls c).toolCallId (s.calls c).args] := by
  have hwork := Pool.atWork_done hd (Job.invokes c)
  rw [Job.invokes_invoke, decide_eq_true rfl, if_pos rfl] at hwork
  obtain ⟨hc, hq, hw, hrest⟩ := h.atWork_of_pos (by omega)
  exact ⟨hc, hq, by omega, hrest⟩

/-- The call whose upcall begins is in the queue. -/
theorem Standing.queued_of_take {w : ℕ} {p : Pool Job} (h : Standing s c es)
    (ht : s.pool.take w = some (.invoke c, p)) :
    c < s.nCalls ∧ p.queued (Job.invokes c) = 0 ∧ p.atWork (Job.invokes c) = 1 ∧
      (s.calls c).completion = none ∧ (∀ result, (s.calls c).stage ≠ .returned result) ∧
      es = [.called c (s.calls c).run (s.calls c).toolCallId (s.calls c).args] := by
  have hqueued := Pool.queued_take ht (Job.invokes c)
  have hwork := Pool.atWork_take ht (Job.invokes c)
  rw [Job.invokes_invoke, decide_eq_true rfl, if_pos rfl] at hqueued hwork
  obtain ⟨hc, hq, hw, hrest⟩ := h.queued_of_pos (by omega)
  exact ⟨hc, by omega, by omega, hrest⟩

theorem Standing.answered_of_some {result : String} (h : Standing s c es)
    (hsome : (s.calls c).completion = some result) : ∃ u : Upcall, result = u.result ∧ c < s.nCalls ∧
      s.pool.queued (Job.invokes c) = 0 ∧ s.pool.atWork (Job.invokes c) = 0 ∧
      es = [.called c (s.calls c).run (s.calls c).toolCallId (s.calls c).args,
        .invoked c (s.calls c).toolCallId (s.calls c).args, .upcall c u] := by
  cases h with
  | answered hc hq hw hk _ => exact ⟨_, Option.some.inj (hsome.symm.trans hk), hc, hq, hw, rfl⟩
  | fresh _ _ _ hk => rw [hk] at hsome; cases hsome
  | queued _ _ _ hk | atWork _ _ _ hk | returned _ _ _ hk => cases hsome.symm.trans hk

/-- A worker takes the upcall of a call. -/
theorem standing_take {w d : ℕ} {p : Pool Job} (h : ∀ c, Standing s c (s.history c))
    (ht : s.pool.take w = some (.invoke d, p)) (c : ℕ) :
    let s₁ := { s with pool := p }
    let e := Event.invoked d (s.calls d).toolCallId (s.calls d).args
    Standing (s₁.record e) c ((s₁.record e).history c) := by
  intro s₁ e
  have hqueued := Pool.queued_take ht (Job.invokes c)
  have hwork := Pool.atWork_take ht (Job.invokes c)
  by_cases hne : c = d
  · subst hne
    obtain ⟨hc, hq, hw, hk, hstage, hes⟩ := (h c).queued_of_take ht
    exact standing_further hes (decide_eq_true rfl) (Standing.atWork (s := s₁) hc hq hw hk hstage)
  · rw [Job.invokes_invoke, decide_ne hne, if_neg Bool.false_ne_true, Nat.add_zero] at hqueued hwork
    exact standing_record (h c) ⟨Iff.rfl, hqueued, hwork, rfl⟩ rfl (decide_ne hne)

/-- A worker ends the upcall of a call. -/
theorem standing_done {w d : ℕ} {u : Upcall} {p : Pool Job} (h : ∀ c, Standing s c (s.history c))
    (hd : s.pool.done w = some (.invoke d, p)) (c : ℕ) :
    let s₁ := { s with pool := p }.setCall d { s.calls d with completion := some u.result }
    Standing (s₁.record (.upcall d u)) c ((s₁.record (.upcall d u)).history c) := by
  intro s₁
  have hqueued : p.queued (Job.invokes c) = s.pool.queued (Job.invokes c) := by
    rw [Pool.queued, Pool.queued, Pool.jobs_done hd]
  have hwork := Pool.atWork_done hd (Job.invokes c)
  by_cases hne : c = d
  · subst hne
    have hcall : s₁.calls c = { s.calls c with completion := some u.result } := Function.update_self _ _ _
    obtain ⟨hc, hq, hw, -, hstage, hes⟩ := (h c).atWork_of_done hd
    have hs := Standing.answered (s := s₁) (u := u) hc (hqueued.trans hq) hw
    rw [hcall] at hs
    exact standing_further hes (decide_eq_true rfl) (hs rfl hstage)
  · rw [Job.invokes_invoke, decide_ne hne, if_neg Bool.false_ne_true, Nat.add_zero] at hwork
    exact standing_record (h c) ⟨Iff.rfl, hqueued, hwork, Function.update_of_ne hne _ _⟩ rfl (decide_ne hne)

/-- The coroutine of a call receives its result. -/
theorem standing_receive {d : ℕ} {result : String} (h : ∀ c, Standing s c (s.history c))
    (hsent : (s.calls d).completion = some result) (c : ℕ) :
    let s₁ := s.setCall d { s.calls d with stage := .returned result, completion := none }
    Standing (s₁.record (.returned d result)) c ((s₁.record (.returned d result)).history c) := by
  intro s₁
  by_cases hne : c = d
  · subst hne
    have hcall : s₁.calls c = { s.calls c with stage := .returned result, completion := none } :=
      Function.update_self _ _ _
    obtain ⟨u, rfl, hc, hq, hw, hes⟩ := (h c).answered_of_some hsent
    have hs := Standing.returned (s := s₁) (u := u) hc hq hw
    rw [hcall] at hs
    exact standing_further hes (decide_eq_true rfl) (hs rfl rfl)
  · exact standing_record (h c) (sameCall_setCall _ hne) rfl (decide_ne hne)

/-- **What a step does to the standing of the calls.** -/
theorem standing_of_did {a : Choice} (hd : Did s a s') (h : ∀ c, Standing s c (s.history c)) (c : ℕ) :
    Standing s' c (s'.history c) := by
  cases hd with
  | newCancel | cancel | cancelAgain | freeCancel | start | finish =>
    exact standing_record (h c) ⟨Iff.rfl, rfl, rfl, rfl⟩ rfl rfl
  | fire => exact (h c).same ⟨Iff.rfl, Pool.queued_post _ _ _, rfl, rfl⟩
  | fired => exact (h c).same ⟨Iff.rfl, rfl, rfl, rfl⟩
  | call => exact standing_call h c
  | hook hc hstage => exact standing_hook h hc hstage c
  | @take w j p ht =>
    cases j with
    | invoke d => exact standing_take h ht c
    | flip r =>
      exact (h c).same ⟨Iff.rfl, Pool.queued_take ht (Job.invokes c), Pool.atWork_take ht (Job.invokes c), rfl⟩
  | @done w u j p hd =>
    cases j with
    | invoke d => exact standing_done h hd c
    | flip r =>
      have hqueued : p.queued (Job.invokes c) = s.pool.queued (Job.invokes c) := by
        rw [Pool.queued, Pool.queued, Pool.jobs_done hd]
      rw [Bridge.finishJob]
      split_ifs <;> exact standing_record (h c) ⟨Iff.rfl, hqueued, Pool.atWork_done hd (Job.invokes c), rfl⟩ rfl rfl
  | receive _ hsent => exact standing_receive h hsent c

theorem standing_of_reaches {n : ℕ} {cs : List Choice} (h : Reaches n cs s) : ∀ c, Standing s c (s.history c) := by
  refine h.invariant (I := fun s => ∀ c, Standing s c (s.history c))
    (fun _ _ _ h _ hs => standing_of_did (did_of_step hs) h) fun c => ?_
  refine Standing.fresh (Nat.zero_le c) rfl ?_ rfl
  simp [Bridge.start, Pool.atWork, List.countP_replicate]

/-! ### Calls and references -/

/-- What may happen after what: nothing is done for a call once its run has
ended, and a run ends when its calls have returned. -/
def Lawful (p : List Event) : Event → Prop
  | .called _ r _ _ => .ended r ∉ p
  | .invoked c _ _ | .upcall c _ | .returned c _ => ∃ r toolCallId args, .called c r toolCallId args ∈ p ∧ .ended r ∉ p
  | .ended r => .ended r ∉ p ∧
      ∀ c toolCallId args, .called c r toolCallId args ∈ p → ∃ result, .returned c result ∈ p
  | _ => True

/-- The references are deleted once, when the calls have returned. -/
structure Settled (s : Bridge) : Prop where
  standing : ∀ c, Standing s c (s.history c)
  ended : ∀ r, .ended r ∈ s.log ↔ (s.runs r).released = true
  unborn : ∀ r, s.nRuns ≤ r → (s.runs r).released = false
  returned : ∀ r, (s.runs r).released = true → s.allReturned r

theorem mem_history {e : Event} (he : e.about c = true) : e ∈ s.history c ↔ e ∈ s.log := by
  rw [Bridge.history, List.mem_filter, he, and_iff_left rfl]

namespace Settled

/-- A call that was made is known, with its run. -/
theorem called_iff (h : Settled s) {r : ℕ} {toolCallId args : String} : .called c r toolCallId args ∈ s.log ↔
    c < s.nCalls ∧ r = (s.calls c).run ∧ toolCallId = (s.calls c).toolCallId ∧ args = (s.calls c).args := by
  have habout : (Event.called c r toolCallId args).about c = true := decide_eq_true rfl
  rw [← mem_history habout]
  have hstanding := h.standing c
  generalize s.history c = es at hstanding
  cases hstanding with
  | fresh hc => simp [not_lt.mpr hc]
  | queued hc | atWork hc | answered hc | returned hc => simp [hc]

/-- A call that has not returned keeps its run from ending. -/
theorem not_ended (h : Settled s) (hc : c < s.nCalls) (hstage : ∀ result, (s.calls c).stage ≠ .returned result) :
    .ended (s.calls c).run ∉ s.log := by
  intro hended
  obtain ⟨result, hret⟩ := h.returned _ ((h.ended _).mp hended) c hc rfl
  exact hstage result hret

theorem lawful_of_call (h : Settled s) (hc : c < s.nCalls) (hstage : ∀ result, (s.calls c).stage ≠ .returned result) :
    ∃ r toolCallId args, Event.called c r toolCallId args ∈ s.log ∧ .ended r ∉ s.log :=
  ⟨_, _, _, h.called_iff.mpr ⟨hc, rfl, rfl, rfl⟩, h.not_ended hc hstage⟩

/-- A call has returned what its upcall came to. -/
theorem returned_mem (h : Settled s) {result : String} (hc : c < s.nCalls)
    (hstage : (s.calls c).stage = .returned result) :
    ∃ u, .upcall c u ∈ s.log ∧ .returned c u.result ∈ s.log := by
  have hstanding := h.standing c
  have hmem {u : Upcall} (hu : .upcall c u ∈ s.history c) (hr : .returned c u.result ∈ s.history c) :
      ∃ u, .upcall c u ∈ s.log ∧ .returned c u.result ∈ s.log :=
    ⟨u, List.mem_of_mem_filter hu, List.mem_of_mem_filter hr⟩
  generalize s.history c = es at hstanding hmem
  cases hstanding with
  | fresh hle => exact absurd hc (not_lt.mpr hle)
  | queued _ _ _ _ hno | atWork _ _ _ _ hno | answered _ _ _ _ hno => exact absurd hstage (hno result)
  | @returned u => exact hmem (u := u) (by simp) (by simp)

/-- Nothing that ends or a run waits for has changed. -/
theorem same (h : Settled s) (hstanding : ∀ c, Standing s' c (s'.history c)) (hcalls : s'.calls = s.calls)
    (hnCalls : s'.nCalls = s.nCalls) (hnRuns : s.nRuns ≤ s'.nRuns)
    (hruns : ∀ r, (s'.runs r).released = (s.runs r).released) (hlog : ∀ r, .ended r ∈ s'.log ↔ .ended r ∈ s.log) :
    Settled s' := by
  refine ⟨hstanding, fun r => ?_, fun r hr => ?_, fun r hr c hc hrun => ?_⟩
  · rw [hlog, hruns, h.ended]
  · rw [hruns]
    exact h.unborn r (hnRuns.trans hr)
  · rw [hcalls] at hrun ⊢
    exact h.returned r (hruns r ▸ hr) c (hnCalls ▸ hc) hrun

/-- One call has changed, of a run that has not ended. -/
theorem change (h : Settled s) (hstanding : ∀ c, Standing s' c (s'.history c))
    (hcalls : ∀ c' ≠ c, s'.calls c' = s.calls c') (hnCalls : ∀ c' ≠ c, c' < s'.nCalls ↔ c' < s.nCalls)
    (hruns : s'.runs = s.runs) (hnRuns : s'.nRuns = s.nRuns) (hlog : ∀ r, .ended r ∈ s'.log ↔ .ended r ∈ s.log)
    (hlive : (s.runs (s'.calls c).run).released = false) : Settled s' := by
  refine ⟨hstanding, fun r => ?_, fun r hr => ?_, fun r hr c' hc' hrun => ?_⟩
  · rw [hlog, hruns, h.ended]
  · rw [hruns]
    exact h.unborn r (hnRuns ▸ hr)
  · rw [hruns] at hr
    by_cases hne : c' = c
    · subst hne
      rw [hrun, hr] at hlive
      cases hlive
    · rw [hcalls c' hne] at hrun ⊢
      exact h.returned r hr c' ((hnCalls c' hne).mp hc') hrun

end Settled

theorem mem_record (s : Bridge) {e f : Event} (he : f ≠ e) : f ∈ (s.record e).log ↔ f ∈ s.log := by
  rw [Bridge.record, List.mem_append, List.mem_singleton, or_iff_left he]

/-- `OnCancel` leaves the runs and the calls. -/
theorem did_onCancel (s : Bridge) (r : ℕ) : (s.onCancel r).calls = s.calls ∧ (s.onCancel r).nCalls = s.nCalls ∧
    (s.onCancel r).runs = s.runs ∧ (s.onCancel r).nRuns = s.nRuns ∧
    ∀ e, e ≠ .hooked r → (e ∈ (s.onCancel r).log ↔ e ∈ s.log) := by
  rw [Bridge.onCancel]
  split
  · exact ⟨rfl, rfl, rfl, rfl, fun _ _ => Iff.rfl⟩
  · split_ifs <;> exact ⟨rfl, rfl, rfl, rfl, fun _ he => mem_record _ he⟩

/-- A call that has not returned has changed. -/
theorem Settled.change_call (h : Settled s) {call : Call} (hstanding : ∀ d, Standing s' d (s'.history d))
    (hs : s'.calls = (s.setCall c call).calls) (hrun : call.run = (s.calls c).run) (hc : c < s.nCalls)
    (hstage : ∀ result, (s.calls c).stage ≠ .returned result) (hnCalls : s'.nCalls = s.nCalls)
    (hruns : s'.runs = s.runs) (hnRuns : s'.nRuns = s.nRuns) (hlog : ∀ r, .ended r ∈ s'.log ↔ .ended r ∈ s.log) :
    Settled s' := by
  refine h.change (c := c) hstanding (fun d hne => ?_) (fun d _ => by rw [hnCalls]) hruns hnRuns hlog ?_
  · exact (congrFun hs d).trans (s.calls_setCall_of_ne call hne)
  · have hcall : (s'.calls c).run = (s.calls c).run := by rw [hs, s.calls_setCall_self, hrun]
    rw [hcall, Bool.eq_false_iff]
    exact fun hreleased => h.not_ended hc hstage ((h.ended _).mpr hreleased)

/-- **What a step does to the references.** -/
theorem settled_of_did {a : Choice} (hd : Did s a s') (h : Settled s) : Settled s' := by
  have hstanding := standing_of_did hd h.standing
  cases hd with
  | newCancel | cancel | cancelAgain | freeCancel =>
    exact h.same hstanding rfl rfl le_rfl (fun _ => rfl) fun r => mem_record _ (by simp)
  | fire | fired => exact h.same hstanding rfl rfl le_rfl (fun _ => rfl) fun _ => Iff.rfl
  | @start id =>
    refine h.same hstanding rfl rfl (Nat.le_succ _) (Bridge.field_setRun _ HostRun.released ?_)
      fun r => mem_record _ (by simp)
    exact (h.unborn s.nRuns le_rfl).symm
  | @call r toolCallId args hr hlive =>
    refine h.change (c := s.nCalls) hstanding (fun c hne => s.calls_setCall_of_ne _ hne) (fun c hne => ?_) rfl rfl
      (fun q => mem_record _ (by simp)) ?_
    · exact Nat.lt_succ_iff_lt_or_eq.trans (or_iff_left hne)
    · have hcall := s.calls_setCall_self s.nCalls { run := r, toolCallId, args }
      exact (congrArg (fun call : Call => (s.runs call.run).released) hcall).trans hlive
  | @hook d hd hstage =>
    obtain ⟨hcalls, hnCalls, hruns, hnRuns, hlog⟩ :=
      did_onCancel (s.setCall d { s.calls d with stage := .waiting }) (s.calls d).run
    exact h.change_call hstanding hcalls rfl hd (fun _ hret => by cases hstage.symm.trans hret) hnCalls hruns hnRuns
      fun r => hlog (.ended r) (by simp)
  | @take w j p ht =>
    cases j with
    | invoke d => exact h.same hstanding rfl rfl le_rfl (fun _ => rfl) fun r => mem_record _ (by simp)
    | flip r => exact h.same hstanding rfl rfl le_rfl (fun _ => rfl) fun _ => Iff.rfl
  | @done w u j p hd =>
    cases j with
    | invoke d =>
      obtain ⟨hc, -, -, -, hstage, -⟩ := (h.standing d).atWork_of_done hd
      exact h.change_call hstanding rfl rfl hc hstage rfl rfl rfl fun r => mem_record _ (by simp)
    | flip r =>
      rw [Bridge.finishJob] at hstanding ⊢
      split_ifs at hstanding ⊢
      · exact h.same hstanding rfl rfl le_rfl (fun _ => rfl) fun r => mem_record _ (by simp)
      · exact h.same hstanding rfl rfl le_rfl (Bridge.field_setRun _ HostRun.released rfl)
          fun r => mem_record _ (by simp)
  | @receive d result hstage hsent =>
    obtain ⟨-, -, hc, -⟩ := (h.standing d).answered_of_some hsent
    exact h.change_call hstanding rfl rfl hc (fun _ hret => by cases hstage.symm.trans hret) rfl rfl rfl
      fun r => mem_record _ (by simp)
  | @finish r hr hlive hall =>
    have hself : ((s.setRun r { s.runs r with released := true }).runs r).released = true := by
      rw [s.runs_setRun_self]
    have hother {q : ℕ} (hne : q ≠ r) : (s.setRun r { s.runs r with released := true }).runs q = s.runs q :=
      s.runs_setRun_of_ne _ hne
    refine ⟨hstanding, fun q => ?_, fun q hq => ?_, fun q hq => ?_⟩
    · by_cases hne : q = r
      · subst hne
        exact iff_of_true (List.mem_append_right _ (List.mem_singleton_self _)) hself
      · rw [mem_record _ (by simpa using hne)]
        exact (h.ended q).trans (by rw [← hother hne]; rfl)
    · exact (congrArg HostRun.released (hother (hr.trans_le hq).ne')).trans (h.unborn q hq)
    · by_cases hne : q = r
      · exact hne ▸ hall
      · exact h.returned q ((congrArg HostRun.released (hother hne)).symm.trans hq)

theorem settled_of_reaches {n : ℕ} {cs : List Choice} (h : Reaches n cs s) : Settled s := by
  refine h.invariant (I := Settled) (fun _ _ _ h _ hs => settled_of_did (did_of_step hs) h) ?_
  exact ⟨standing_of_reaches (Run.nil _), fun r => by simp [Bridge.start], fun _ _ => rfl, fun _ hr => by cases hr⟩

/-- **A step records what is lawful.** -/
theorem lawful_of_did {a : Choice} (hd : Did s a s') (h : Settled s) (heach : Each Lawful s.log) :
    Each Lawful s'.log := by
  have hrecord {s₁ : Bridge} {e : Event} (hlog : s₁.log = s.log) (he : Lawful s.log e) :
      Each Lawful (s₁.record e).log := by
    rw [Bridge.record, hlog]
    exact each_snoc.mpr ⟨heach, he⟩
  cases hd with
  | newCancel | cancel | cancelAgain | freeCancel | start => exact hrecord rfl trivial
  | fire | fired => exact heach
  | @call r toolCallId args hr hlive =>
    refine hrecord rfl fun hended => ?_
    rw [h.ended, hlive] at hended
    cases hended
  | @hook d hd hstage =>
    rw [Bridge.onCancel]
    split
    · exact heach
    · split_ifs <;> exact hrecord rfl trivial
  | @take w j p ht =>
    cases j with
    | invoke d =>
      obtain ⟨hc, -, -, -, hstage, -⟩ := (h.standing d).queued_of_take ht
      exact hrecord rfl (h.lawful_of_call hc hstage)
    | flip r => exact heach
  | @done w u j p hd =>
    cases j with
    | invoke d =>
      obtain ⟨hc, -, -, -, hstage, -⟩ := (h.standing d).atWork_of_done hd
      exact hrecord rfl (h.lawful_of_call hc hstage)
    | flip r =>
      rw [Bridge.finishJob]
      split_ifs <;> exact hrecord rfl trivial
  | @receive d result hstage hsent =>
    obtain ⟨-, -, hc, -⟩ := (h.standing d).answered_of_some hsent
    exact hrecord rfl (h.lawful_of_call hc fun _ hret => by cases hstage.symm.trans hret)
  | @finish r hr hlive hall =>
    refine hrecord rfl ⟨fun hended => ?_, fun c toolCallId args hcalled => ?_⟩
    · rw [h.ended, hlive] at hended
      cases hended
    · obtain ⟨hc, hrun, -, -⟩ := h.called_iff.mp hcalled
      obtain ⟨result, hstage⟩ := hall c hc hrun.symm
      obtain ⟨u, -, hret⟩ := h.returned_mem hc hstage
      exact ⟨u.result, hret⟩

/-- What happened to a call is a first part of its way. -/
theorem Standing.history_isPrefix (h : Standing s c es) : ∃ r toolCallId args u,
    es <+: [.called c r toolCallId args, .invoked c toolCallId args, .upcall c u, .returned c u.result] := by
  cases h with
  | fresh => exact ⟨0, "", "", .null, List.nil_prefix⟩
  | queued => exact ⟨_, _, _, .null, List.prefix_append [_] [_, _, _]⟩
  | atWork => exact ⟨_, _, _, .null, List.prefix_append [_, _] [_, _]⟩
  | @answered u => exact ⟨_, _, _, u, List.prefix_append [_, _, _] [_]⟩
  | @returned u => exact ⟨_, _, _, u, List.prefix_rfl⟩

/-- **Every call is carried out once**, with its own id and arguments, returns
what its own upcall came to, and has the references of its run all the way. -/
theorem calls_carried_out {n : ℕ} {cs : List Choice} (h : Reaches n cs s) :
    Each Lawful s.log ∧ ∀ c, ∃ r toolCallId args u, s.history c <+:
      [.called c r toolCallId args, .invoked c toolCallId args, .upcall c u, .returned c u.result] := by
  refine ⟨?_, fun c => (standing_of_reaches h c).history_isPrefix⟩
  refine (h.invariant (I := fun s => Settled s ∧ Each Lawful s.log) (fun _ _ _ h _ hs => ?_) ?_).2
  · exact ⟨settled_of_did (did_of_step hs) h.1, lawful_of_did (did_of_step hs) h.1 h.2⟩
  · exact ⟨settled_of_reaches (Run.nil _), each_nil⟩

/-- Two calls of one run, of which the second returns first. -/
def twoCalls : List Choice :=
  [.newCancel, .start 1, .call 0 "a" "{}", .hook 0, .call 0 "b" "[]", .hook 1, .take 0, .take 1, .done 1 .threw,
    .receive 1, .cancel 1, .fire, .fire, .fire, .take 1, .done 1 .null, .done 0 (.text "ok"), .receive 0, .finish 0]

theorem calls_carried_out_two : ∃ s, Reaches 2 twoCalls s ∧ Each Lawful s.log ∧
    s.history 0 = [.called 0 0 "a" "{}", .invoked 0 "a" "{}", .upcall 0 (.text "ok"), .returned 0 "ok"] ∧
    (s.history 1).getLast? = some (.returned 1 "\x7b\"error\":\"tool_impl_threw\"\x7d") ∧ .ended 0 ∈ s.log := by
  have h : (check step (fun _ _ => true) twoCalls (Bridge.start 2)).any (fun s =>
      s.history 0 = [.called 0 0 "a" "{}", .invoked 0 "a" "{}", .upcall 0 (.text "ok"), .returned 0 "ok"] ∧
      (s.history 1).getLast? = some (.returned 1 "\x7b\"error\":\"tool_impl_threw\"\x7d") ∧ .ended 0 ∈ s.log) = true := by
    decide
  obtain ⟨s, hrun, hs⟩ := Run.exists_of_check (fun _ _ => True) h fun _ _ _ => trivial
  exact ⟨s, hrun, (calls_carried_out hrun).1, of_decide_eq_true hs⟩

end Jni
end AgentFlow
