/-
# The Runner

`agentflow/core/runner.{h,cc}`: `Run` and `Resume` on a compiled graph. The
code is a coroutine (the main loop) that spawns one coroutine per launched
node on a single-threaded executor, so the model is a state `Exec` and a
function `step` from the executor's choices:

* `main`: the main loop moves on to its next launch, scan, test or receive;
* `start`: the oldest spawned coroutine begins (`NODE_START`). `co_spawn` may
  begin it inline, right after its launch, or when the main loop waits;
* `finish k res`: node `k` of those running ends its `Run` with result `res`,
  and its coroutine goes through its completion path to the done channel;
* `cancel`: some party cancels the token.

A node coroutine runs while the main loop is suspended in `async_receive`,
or inline, directly after its own launch (`Pc.mayRun`). Between two points
where it can be suspended nothing else runs, except that another thread or
an event callback may call `Cancel` at any moment: a `CancelPoint` says where
in the completion path it does. The token is cancelled at most once.

The log of an `Exec` holds the trace events and, beside them, what else the
run does: launches, outputs, completions, checkpoints, the cancellation.

`Run` and `RunInner` are two copies of one loop; they differ in how they
start and in the completion path (`completeRun`, `completeRunInner`).

The time stamp of a checkpoint is left out: nothing reads it.

Key definitions: `Impl`, `Setup`, `Exec`, `step`, `runStart`, `resume`.
-/
import AgentFlow.Core.State
import AgentFlow.Core.Graph
import AgentFlow.Lib.Run

namespace AgentFlow

variable {L : Libs}

/-! ### The runner's data -/

/-- Per-node activation bookkeeping, by group. A group without an entry reads
as 0 and as not fired. -/
structure NodeActivation (L : Libs) where
  remainingAll : ℤ → ℤ
  conditions : List (ℤ × Condition)
  anyFired : ℤ → Bool
  pendingInputs : List (State L)
  timesFired : ℕ
  inFlight : Bool

def NodeActivation.fresh : NodeActivation L := ⟨fun _ => 0, [], fun _ => false, [], 0, false⟩

/-- A checkpoint as the runner writes and reads it. -/
structure Checkpoint where
  stateBytes : Bytes
  stateType : String
  completedNodes : List Id
  schemaVersion : ℕ
  deriving DecidableEq, Repr

def kCurrentCheckpointSchemaVersion : ℕ := 1

inductive CheckpointPolicy
  | off
  | afterEachNode
  | afterTerminalNode
  deriving DecidableEq, Repr

structure Options where
  checkpointPolicy : CheckpointPolicy
  /-- Whether a writer is set. -/
  checkpointWriter : Bool
  deriving DecidableEq, Repr

/-- What does not change over a `Runner`'s life. `order` is the iteration
order of the hash map `activations_`, which the library leaves open. -/
structure Setup where
  graph : Graph
  opts : Options
  order : List Id
  order_perm : order.Perm graph.nodes
  writer_present : opts.checkpointPolicy ≠ .off → opts.checkpointWriter = true

/-- The constructor of `Runner::Impl`. -/
def Setup.make (graph : Graph) (opts : Options) (order : List Id) (h : order.Perm graph.nodes) :
    Except String Setup :=
  if hw : opts.checkpointPolicy ≠ .off ∧ opts.checkpointWriter = false then
    .error "Runner: checkpoint_writer required when policy != Off"
  else
    .ok ⟨graph, opts, order, h, fun hp => by simpa using fun hf => hw ⟨hp, hf⟩⟩

/-- A writer after each node, and a map that iterates in the order of the nodes. -/
def Setup.plain (graph : Graph) : Setup where
  graph := graph
  opts := ⟨.afterEachNode, true⟩
  order := graph.nodes
  order_perm := List.Perm.refl _
  writer_present _ := rfl

/-- The fields of `Runner::Impl` that runs change. -/
structure Impl (L : Libs) where
  activations : Id → NodeActivation L
  baseline : Id → ℤ → ℤ
  terminalState : Option (State L)
  inFlightCount : ℕ
  firstError : Option L.Exception
  completedNodeIds : List Id

/-- A `Runner` no call was made on. -/
def Impl.fresh : Impl L := ⟨fun _ => .fresh, fun _ _ => 0, none, 0, none, []⟩

def Impl.modify (m : Impl L) (n : Id) (f : NodeActivation L → NodeActivation L) : Impl L :=
  { m with activations := Function.update m.activations n (f (m.activations n)) }

/-! ### The helpers of the loop -/

/-- One edge's entry in its target's bookkeeping. -/
def registerEdge (acts : Id → NodeActivation L) (e : Edge) : Id → NodeActivation L :=
  let na := acts e.dst
  Function.update acts e.dst
    { na with
      conditions :=
        if na.conditions.any fun p => p.1 = e.activationGroup then na.conditions
        else na.conditions ++ [(e.activationGroup, e.condition)]
      remainingAll :=
        Function.update na.remainingAll e.activationGroup (na.remainingAll e.activationGroup + 1) }

def initActivations (g : Graph) (m : Impl L) : Impl L :=
  let acts := g.edges.foldl registerEdge m.activations
  { m with activations := acts, baseline := fun id => (acts id).remainingAll }

/-- One group's test in `nodeReady`. -/
def groupReady (na : NodeActivation L) (g : ℤ) (cond : Condition) : Bool :=
  if g > 0 && na.timesFired == 0 then true
  else
    match cond with
    | .all => !decide (na.remainingAll g > 0)
    | .any => na.anyFired g

def nodeReady (na : NodeActivation L) : Bool := na.conditions.all fun p => groupReady na p.1 p.2

def mergeInputs (inputs : List (State L)) : State L := inputs.getLast?.getD .null

/-- An output arrives over an edge: the fan-out of a completed node, and the
replay of one in `resume`. -/
def deliver (out : State L) (e : Edge) (na : NodeActivation L) : NodeActivation L :=
  { na with
    pendingInputs := na.pendingInputs ++ [out.clone]
    remainingAll :=
      match e.condition with
      | .all => Function.update na.remainingAll e.activationGroup (na.remainingAll e.activationGroup - 1)
      | .any => na.remainingAll
    anyFired :=
      match e.condition with
      | .all => na.anyFired
      | .any => Function.update na.anyFired e.activationGroup true }

/-- What a launch does to the node's bookkeeping: it takes the pending
inputs and resets the groups other than 0. -/
def activate (base : ℤ → ℤ) (na : NodeActivation L) : NodeActivation L :=
  { na with
    pendingInputs := []
    inFlight := true
    timesFired := na.timesFired + 1
    remainingAll := fun g => if g = 0 then na.remainingAll g else base g
    anyFired := fun g => if g = 0 then na.anyFired g else false }

namespace Impl

/-- `launch` on the runner's fields, up to `co_spawn`. -/
def launch (m : Impl L) (n : Id) : Impl L :=
  { m.modify n (activate (m.baseline n)) with inFlightCount := m.inFlightCount + 1 }

/-- A node threw: the first exception is kept. -/
def fail (m : Impl L) (e : L.Exception) : Impl L := { m with firstError := m.firstError.or (some e) }

def track (m : Impl L) (n : Id) : Impl L := { m with completedNodeIds := m.completedNodeIds ++ [n] }

/-- One edge of the fan-out. -/
def fire (out : State L) (m : Impl L) (e : Edge) : Impl L := m.modify e.dst (deliver out e)

def setTerminal (m : Impl L) (out : State L) : Impl L := { m with terminalState := some out.clone }

/-- The node is no longer in flight. -/
def retire (m : Impl L) (n : Id) : Impl L :=
  { m.modify n fun na => { na with inFlight := false } with inFlightCount := m.inFlightCount - 1 }

end Impl

/-- The nodes the drain loop launches: not in flight, with an input, ready. -/
def ready (S : Setup) (m : Impl L) : List Id :=
  S.order.filter fun id =>
    !(m.activations id).inFlight && !(m.activations id).pendingInputs.isEmpty && nodeReady (m.activations id)

/-! ### Executions -/

/-- What a run does, in order. `nodeStart` carries the input, for the
reader of a log only. -/
inductive Event (L : Libs)
  | launch (n : Id)
  | nodeStart (n : Id) (input : State L)
  | output (n : Id) (out : State L)
  | nodeFailed (n : Id)
  | nodeEnd (n : Id) (cancelled failed : Bool)
  | completed (n : Id)
  | edgeFire (src dst : Id) (group : ℤ)
  | terminal (n : Id)
  | checkpoint (n : Id) (cp : Checkpoint)
  | cancel
  | graphDone (failed : Bool)

/-- Where the main loop is. `launching` holds the rest of the current batch
and the node launched last. -/
inductive Pc (L : Libs)
  | launching (batch : List Id) (last : Option Id)
  | scan
  | check
  | receive
  | returned (s : State L)
  | thrown (e : L.Exception)

def Pc.finished : Pc L → Bool
  | .returned _ => true
  | .thrown _ => true
  | _ => false

/-- The coroutine of `n` may run: the main loop waits, or has just spawned it. -/
def Pc.mayRun : Pc L → Id → Bool
  | .receive, _ => true
  | .launching _ (some m), n => m == n
  | _, _ => false

/-- A spawned node coroutine. -/
structure Task (L : Libs) where
  node : Id
  input : State L

/-- `done` counts the tokens in the done channel. -/
structure Exec (L : Libs) where
  impl : Impl L
  pc : Pc L
  queued : List (Task L)
  running : List (Task L)
  done : ℕ
  cancelled : Bool
  log : List (Event L)

namespace Exec

def emit (x : Exec L) (e : Event L) : Exec L := { x with log := x.log ++ [e] }

/-- Here the token is cancelled, if `hit` and it is not already. -/
def cancelIf (x : Exec L) (hit : Bool) : Exec L :=
  if hit && !x.cancelled then { x with cancelled := true, log := x.log ++ [.cancel] } else x

end Exec

/-- The points of the completion path before which `Cancel` may come. -/
inductive CancelPoint
  | nodeEnd
  | track
  | fanOut
  | edge (i : ℕ)
  | checkpoint
  deriving DecidableEq, Repr

/-- The synchronous part of `launch`: everything before `co_spawn`. -/
def launch (x : Exec L) (n : Id) : Exec L :=
  { x with
    impl := x.impl.launch n
    queued := x.queued ++ [⟨n, mergeInputs (x.impl.activations n).pendingInputs⟩]
    log := x.log ++ [.launch n] }

/-! ### The completion path -/

/-- The node's `Run` returned, or threw into the catch block. -/
def recordResult (n : Id) (x : Exec L) : Except L.Exception (State L) → Exec L
  | .ok out => x.emit (.output n out)
  | .error e => { x with impl := x.impl.fail e, log := x.log ++ [.nodeFailed n] }

def track (n : Id) (x : Exec L) : Exec L :=
  { x with impl := x.impl.track n, log := x.log ++ [.completed n] }

def fireEdge (out : State L) (x : Exec L) (e : Edge) : Exec L :=
  { x with impl := x.impl.fire out e, log := x.log ++ [.edgeFire e.src e.dst e.activationGroup] }

/-- The loop over the edges, from the `i`th on. -/
def fanOut (n : Id) (out : State L) (cut : Option CancelPoint) : ℕ → List Edge → Exec L → Exec L
  | _, [], x => x
  | i, e :: es, x =>
    fanOut n out cut (i + 1) es
      (if e.src = n then fireEdge out (x.cancelIf (cut = some (.edge i))) e else x)

def hasOutgoing (g : Graph) (n : Id) : Bool := g.edges.any fun e => e.src = n

/-- A node without outgoing edges sets the terminal state. -/
def setTerminal (g : Graph) (n : Id) (out : State L) (x : Exec L) : Exec L :=
  if hasOutgoing g n then x
  else { x with impl := x.impl.setTerminal out, log := x.log ++ [.terminal n] }

def makeCheckpoint (completed : List Id) (out : State L) : Checkpoint where
  stateBytes := out.serializeAsString
  stateType := (out.unsafeMessage.map Message.getTypeName).getD ""
  completedNodes := completed
  schemaVersion := kCurrentCheckpointSchemaVersion

/-- Errors of the writer are dropped, so a write is only recorded. -/
def maybeWriteCheckpoint (S : Setup) (n : Id) (out : State L) (terminal : Bool) (x : Exec L) : Exec L :=
  match S.opts.checkpointPolicy with
  | .off => x
  | .afterTerminalNode =>
    if terminal then x.emit (.checkpoint n (makeCheckpoint x.impl.completedNodeIds out)) else x
  | .afterEachNode => x.emit (.checkpoint n (makeCheckpoint x.impl.completedNodeIds out))

/-- The end of the coroutine: the node is no longer in flight, and a token
goes to the done channel. -/
def retire (n : Id) (x : Exec L) : Exec L :=
  { x with impl := x.impl.retire n, done := x.done + 1 }

def isFailed : Except L.Exception (State L) → Bool
  | .ok _ => false
  | .error _ => true

/-- A block guarded by `!failed && !cancel.IsCancelled()`. -/
def onSuccess (res : Except L.Exception (State L)) (x : Exec L) (body : State L → Exec L → Exec L) :
    Exec L :=
  match res with
  | .ok out => if x.cancelled then x else body out x
  | .error _ => x

/-- The completion path in `Run`: the checkpoint block tests the token once
more, after the fan-out. -/
def completeRun (S : Setup) (n : Id) (res : Except L.Exception (State L)) (cut : Option CancelPoint)
    (x : Exec L) : Exec L :=
  let x := (recordResult n x res).cancelIf (cut = some .nodeEnd)
  let x := (x.emit (.nodeEnd n x.cancelled (isFailed res))).cancelIf (cut = some .track)
  let x := (onSuccess res x fun _ x => track n x).cancelIf (cut = some .fanOut)
  let x := (onSuccess res x fun out x =>
    setTerminal S.graph n out (fanOut n out cut 0 S.graph.edges x)).cancelIf (cut = some .checkpoint)
  let x := onSuccess res x fun out x => maybeWriteCheckpoint S n out (!hasOutgoing S.graph n) x
  retire n x

/-- The completion path in `RunInner`: the checkpoint is written in the block
of the fan-out. -/
def completeRunInner (S : Setup) (n : Id) (res : Except L.Exception (State L))
    (cut : Option CancelPoint) (x : Exec L) : Exec L :=
  let x := (recordResult n x res).cancelIf (cut = some .nodeEnd)
  let x := (x.emit (.nodeEnd n x.cancelled (isFailed res))).cancelIf (cut = some .track)
  let x := (onSuccess res x fun _ x => track n x).cancelIf (cut = some .fanOut)
  let x := onSuccess res x fun out x =>
    maybeWriteCheckpoint S n out (!hasOutgoing S.graph n)
      ((setTerminal S.graph n out (fanOut n out cut 0 S.graph.edges x)).cancelIf (cut = some .checkpoint))
  retire n x

/-- Which of the two loops runs. -/
inductive Loop
  | run
  | runInner
  deriving DecidableEq, Repr

def complete (S : Setup) : Loop → Id → Except L.Exception (State L) → Option CancelPoint → Exec L → Exec L
  | .run => completeRun S
  | .runInner => completeRunInner S

/-! ### The main loop -/

/-- The exit after the loop. `std::move` empties the terminal state it
returns. -/
def leave (x : Exec L) : Exec L :=
  match x.impl.firstError with
  | some e => { x with pc := .thrown e, log := x.log ++ [.graphDone true] }
  | none =>
    match x.impl.terminalState with
    | some s =>
      { x with
        pc := .returned s
        impl := { x.impl with terminalState := some s.moved }
        log := x.log ++ [.graphDone false] }
    | none => { x with pc := .returned .null, log := x.log ++ [.graphDone false] }

/-- The loop after a token was received: it throws if a node failed and none
is in flight, and else drains again, also when a node failed. -/
def received (x : Exec L) : Exec L :=
  match x.impl.firstError with
  | some e =>
    if x.impl.inFlightCount = 0 then { x with pc := .thrown e, log := x.log ++ [.graphDone true] }
    else { x with pc := .scan }
  | none => { x with pc := .scan }

/-- The text of the loop is the same in `Run` and in `RunInner`. -/
def mainStep (S : Setup) (x : Exec L) : Option (Exec L) :=
  match x.pc with
  | .launching (n :: rest) _ => some { launch x n with pc := .launching rest (some n) }
  | .launching [] _ => some { x with pc := .scan }
  | .scan =>
    match ready S x.impl with
    | [] => some { x with pc := .check }
    | next => some { x with pc := .launching next none }
  | .check => if x.impl.inFlightCount = 0 then some (leave x) else some { x with pc := .receive }
  | .receive => if x.done = 0 then none else some (received { x with done := x.done - 1 })
  | .returned _ => none
  | .thrown _ => none

inductive Choice (L : Libs)
  | main
  | start
  | finish (k : ℕ) (res : Except L.Exception (State L)) (cut : Option CancelPoint)
  | cancel

def step (S : Setup) (loop : Loop) : Choice L → Exec L → Option (Exec L)
  | .main, x => mainStep S x
  | .start, x =>
    match x.queued with
    | [] => none
    | t :: ts =>
      if x.pc.mayRun t.node then
        some { x with queued := ts, running := x.running ++ [t], log := x.log ++ [.nodeStart t.node t.input] }
      else none
  | .finish k res cut, x =>
    match x.running[k]? with
    | none => none
    | some t =>
      if x.pc.mayRun t.node then
        some (complete S loop t.node res cut { x with running := x.running.eraseIdx k })
      else none
  | .cancel, x => if x.pc.finished then none else some (x.cancelIf true)

/-! ### Run and Resume -/

/-- A coroutine of the main loop that begins with a batch to launch. -/
def Exec.begin (m : Impl L) (batch : List Id) : Exec L :=
  { impl := m, pc := .launching batch none, queued := [], running := [], done := 0, cancelled := false, log := [] }

/-- Every entry node gets a copy of the state. -/
def seedEntries (g : Graph) (s : State L) (m : Impl L) : Impl L :=
  g.entryNodeIds.foldl
    (fun m id => m.modify id fun na => { na with pendingInputs := na.pendingInputs ++ [s.clone] }) m

/-- `Run` up to its first launch: the batch is the ready entry nodes. -/
def runStart (S : Setup) (m : Impl L) (initial : State L) : Exec L :=
  let m := seedEntries S.graph initial (initActivations S.graph m)
  .begin m (S.graph.entryNodeIds.filter fun id => nodeReady (m.activations id))

/-- The checks of `Resume` and the state it loads. -/
def resumeTarget (cp : Checkpoint) (target : State L) : Except String (State L) :=
  match target.unsafeMessage with
  | none =>
    .error ("Runner::Resume: target State has no underlying message; " ++
      "construct via State::From<YourProto>\x7b\x7d")
  | some m =>
    if cp.stateType ≠ "" ∧ cp.stateType ≠ m.getTypeName then
      .error ("Runner::Resume: checkpoint state_type='" ++ cp.stateType ++
        "' does not match target='" ++ m.getTypeName ++ "'")
    else
      match target.parseFromString cp.stateBytes with
      | none => .error "Runner::Resume: ParseFromString failed"
      | some t => .ok t

def markCompleted (m : Impl L) (id : Id) : Impl L :=
  { m.modify id fun na => { na with timesFired := 1, inFlight := false } with
    completedNodeIds := m.completedNodeIds ++ [id] }

/-- The edges of a completed node whose target is not completed itself. -/
def aliveEdges (g : Graph) (completed : List Id) (id : Id) : List Edge :=
  g.edges.filter fun e => e.src = id ∧ e.dst ∉ completed

def seedSuccessors (g : Graph) (completed : List Id) (target : State L) (m : Impl L) (id : Id) : Impl L :=
  (aliveEdges g completed id).foldl (Impl.fire target) m

/-- The bookkeeping of a resumed run. -/
def replay (g : Graph) (completed : List Id) (target : State L) (m : Impl L) : Impl L :=
  if completed.isEmpty then seedEntries g target m
  else
    let m := completed.foldl markCompleted m
    let m := completed.foldl (seedSuccessors g completed target) m
    let anyOutgoingAlive := completed.any fun id => hasOutgoing g id
    if !anyOutgoingAlive || completed.dedup.length == g.nodes.length then
      m.setTerminal target
    else m

/-- `Resume`: what it leaves in the `Runner`, and the error it throws or the
main loop it continues with. -/
def resume (S : Setup) (m : Impl L) (cp : Checkpoint) (target : State L) : Impl L × Except String (Exec L) :=
  match resumeTarget cp target with
  | .error msg => (m, .error msg)
  | .ok t =>
    let m := initActivations S.graph m
    match cp.completedNodes.find? fun id => !S.graph.hasNode id with
    | some id => (m, .error ("Runner::Resume: unknown node id in checkpoint: " ++ id))
    | none =>
      let m := replay S.graph cp.completedNodes t m
      (m, .ok (.begin m (ready S m)))

end AgentFlow
