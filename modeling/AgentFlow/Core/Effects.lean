/-
# What the runner's operations do

The completion path of a node is a dozen small steps on the whole state. Here
each part of the state is followed through it once:

* `complete_keeps`: the main loop's own state does not change;
* `complete_impl`: the runner's fields change as `Impl.finish` says, in both
  loops, given whether the completion was recorded and the edges fired;
* `complete_log`: the events are the result, `NODE_END`, and
  `completionTail`, where the two loops differ.

For the bookkeeping of one node, `fires_activations` says what a fan-out
brings it, and `deliverAll` its fields.
-/
import AgentFlow.Core.Runner

namespace AgentFlow

variable {L : Libs}

/-! ### The bookkeeping of one node -/

/-- Several edges deliver one output. -/
def deliverAll (out : State L) (es : List Edge) (na : NodeActivation L) : NodeActivation L :=
  es.foldl (fun na e => deliver out e na) na

section deliverAll

variable (out : State L)

theorem deliverAll_conditions : ∀ (es : List Edge) (na : NodeActivation L),
    (deliverAll out es na).conditions = na.conditions
  | [], _ => rfl
  | e :: es, na => deliverAll_conditions es (deliver out e na)

theorem deliverAll_timesFired : ∀ (es : List Edge) (na : NodeActivation L),
    (deliverAll out es na).timesFired = na.timesFired
  | [], _ => rfl
  | e :: es, na => deliverAll_timesFired es (deliver out e na)

theorem deliverAll_inFlight : ∀ (es : List Edge) (na : NodeActivation L),
    (deliverAll out es na).inFlight = na.inFlight
  | [], _ => rfl
  | e :: es, na => deliverAll_inFlight es (deliver out e na)

theorem deliverAll_pendingInputs : ∀ (es : List Edge) (na : NodeActivation L),
    (deliverAll out es na).pendingInputs = na.pendingInputs ++ List.replicate es.length out.clone
  | [], na => by simp [deliverAll]
  | e :: es, na => by
    have ih := deliverAll_pendingInputs es (deliver out e na)
    rw [deliverAll, List.foldl_cons, ← deliverAll, ih]
    simp [deliver, List.replicate_succ]

/-- Every ALL edge of the group counts it down by one. -/
theorem deliverAll_remainingAll (g : ℤ) : ∀ (es : List Edge) (na : NodeActivation L),
    (deliverAll out es na).remainingAll g =
      na.remainingAll g - es.countP fun e => e.activationGroup = g ∧ e.condition = .all
  | [], na => by simp [deliverAll]
  | e :: es, na => by
    have ih := deliverAll_remainingAll g es (deliver out e na)
    rw [deliverAll, List.foldl_cons, ← deliverAll, ih, List.countP_cons]
    rcases e with ⟨a, b, g', c⟩
    cases c with
    | any => simp [deliver]
    | all =>
      by_cases hg : g' = g
      · subst hg; simp [deliver]; omega
      · simp [deliver, Function.update, Ne.symm hg, hg]

/-- One ANY edge of the group is enough. -/
theorem deliverAll_anyFired (g : ℤ) : ∀ (es : List Edge) (na : NodeActivation L),
    (deliverAll out es na).anyFired g =
      (na.anyFired g || es.any fun e => e.activationGroup = g ∧ e.condition = .any)
  | [], na => by simp [deliverAll]
  | e :: es, na => by
    have ih := deliverAll_anyFired g es (deliver out e na)
    rw [deliverAll, List.foldl_cons, ← deliverAll, ih, List.any_cons]
    rcases e with ⟨a, b, g', c⟩
    cases c with
    | all => simp [deliver]
    | any =>
      by_cases hg : g' = g
      · subst hg; simp [deliver]
      · simp [deliver, Function.update, Ne.symm hg, hg]

end deliverAll

/-! ### The runner's fields -/

namespace Impl

theorem modify_activations (m : Impl L) (n : Id) (f : NodeActivation L → NodeActivation L) (v : Id) :
    (m.modify n f).activations v = if v = n then f (m.activations n) else m.activations v := by
  simp [modify, Function.update_apply]

theorem launch_activations (m : Impl L) (n v : Id) : (m.launch n).activations v =
    if v = n then activate (m.baseline n) (m.activations n) else m.activations v :=
  modify_activations m n _ v

section launch

variable (m : Impl L) (n v : Id)

@[simp] theorem launch_conditions : ((m.launch n).activations v).conditions = (m.activations v).conditions := by
  rw [launch_activations]
  split_ifs with hv
  · rw [hv]; rfl
  · rfl

@[simp] theorem launch_timesFired :
    ((m.launch n).activations v).timesFired = (m.activations v).timesFired + if v = n then 1 else 0 := by
  rw [launch_activations]
  split_ifs with hv
  · rw [hv]; rfl
  · rfl

/-- A launch leaves group 0 as it is. -/
@[simp] theorem launch_remainingAll_zero :
    ((m.launch n).activations v).remainingAll 0 = (m.activations v).remainingAll 0 := by
  rw [launch_activations]
  split_ifs with hv
  · rw [hv]; rfl
  · rfl

@[simp] theorem launch_anyFired_zero : ((m.launch n).activations v).anyFired 0 = (m.activations v).anyFired 0 := by
  rw [launch_activations]
  split_ifs with hv
  · rw [hv]; rfl
  · rfl

end launch

theorem retire_activations (m : Impl L) (n v : Id) : (m.retire n).activations v =
    if v = n then { m.activations n with inFlight := false } else m.activations v :=
  modify_activations m n (fun na => { na with inFlight := false }) v

/-- The fan-out of a node, and of several. -/
def fires (out : State L) (es : List Edge) (m : Impl L) : Impl L := es.foldl (fire out) m

theorem fires_cons (out : State L) (e : Edge) (es : List Edge) (m : Impl L) :
    fires out (e :: es) m = fires out es (m.fire out e) := rfl

/-- A node sees the edges that lead to it. -/
theorem fires_activations (out : State L) : ∀ (es : List Edge) (m : Impl L) (v : Id),
    (fires out es m).activations v = deliverAll out (es.filter fun e => e.dst = v) (m.activations v)
  | [], _, _ => rfl
  | e :: es, m, v => by
    rw [fires_cons, fires_activations out es (m.fire out e) v, fire, modify_activations]
    by_cases h : v = e.dst
    · subst h; simp [deliverAll]
    · rw [if_neg h, List.filter_cons_of_neg (by simpa using fun h' => h h'.symm)]

/-- A fan-out changes the bookkeeping of nodes only. -/
theorem fires_eq (out : State L) : ∀ (es : List Edge) (m : Impl L),
    fires out es m = { m with activations := (fires out es m).activations }
  | [], _ => rfl
  | e :: es, m => by
    rw [fires_cons, fires_eq out es (m.fire out e)]
    rfl

/-- What a completion does to the runner's fields: `tracked` if it was
recorded, `fired` if the fan-out came. -/
def finish (g : Graph) (n : Id) (res : Except L.Exception (State L)) (tracked fired : Bool) (m : Impl L) :
    Impl L :=
  match res with
  | .error e => (m.fail e).retire n
  | .ok out =>
    let m := if tracked then m.track n else m
    let m :=
      if fired then
        let m := fires out (g.edges.filter fun e => e.src = n) m
        if hasOutgoing g n then m else m.setTerminal out
      else m
    m.retire n

end Impl

/-! ### The parts of the completion path -/

/-- The main loop's own state is the same. -/
structure Exec.Keeps (x y : Exec L) : Prop where
  pc : y.pc = x.pc
  queued : y.queued = x.queued
  running : y.running = x.running
  done : y.done = x.done

namespace Exec

theorem Keeps.refl (x : Exec L) : Keeps x x := ⟨rfl, rfl, rfl, rfl⟩

theorem Keeps.trans {x y z : Exec L} (h : Keeps x y) (h' : Keeps y z) : Keeps x z :=
  ⟨h'.pc.trans h.pc, h'.queued.trans h.queued, h'.running.trans h.running, h'.done.trans h.done⟩

theorem cancelIf_keeps (x : Exec L) (b : Bool) : Keeps x (x.cancelIf b) := by
  unfold cancelIf; split_ifs <;> exact ⟨rfl, rfl, rfl, rfl⟩

@[simp] theorem cancelIf_impl (x : Exec L) (b : Bool) : (x.cancelIf b).impl = x.impl := by
  unfold cancelIf; split_ifs <;> rfl

@[simp] theorem cancelIf_false (x : Exec L) : x.cancelIf false = x := by simp [cancelIf]

@[simp] theorem cancelIf_cancelled (x : Exec L) (b : Bool) : (x.cancelIf b).cancelled = (x.cancelled || b) := by
  unfold cancelIf; cases hb : b <;> cases hx : x.cancelled <;> simp [hx]

theorem cancelIf_log (x : Exec L) (b : Bool) :
    (x.cancelIf b).log = x.log ++ if b && !x.cancelled then [.cancel] else [] := by
  unfold cancelIf; split_ifs <;> simp

@[simp] theorem emit_impl (x : Exec L) (e : Event L) : (x.emit e).impl = x.impl := rfl
@[simp] theorem emit_cancelled (x : Exec L) (e : Event L) : (x.emit e).cancelled = x.cancelled := rfl
@[simp] theorem emit_log (x : Exec L) (e : Event L) : (x.emit e).log = x.log ++ [e] := rfl

end Exec

open Exec

theorem recordResult_keeps (n : Id) (x : Exec L) (res : Except L.Exception (State L)) :
    Keeps x (recordResult n x res) := by
  cases res <;> exact ⟨rfl, rfl, rfl, rfl⟩

theorem fanOut_keeps (n : Id) (out : State L) (cut : Option CancelPoint) : ∀ (es : List Edge) (i : ℕ)
    (x : Exec L), Keeps x (fanOut n out cut i es x)
  | [], _, x => Keeps.refl x
  | e :: es, i, x => by
    rw [fanOut]
    refine Keeps.trans ?_ (fanOut_keeps n out cut es (i + 1) _)
    split_ifs
    · have h := cancelIf_keeps x (cut = some (.edge i))
      exact ⟨h.pc, h.queued, h.running, h.done⟩
    · exact Keeps.refl x

theorem setTerminal_keeps (g : Graph) (n : Id) (out : State L) (x : Exec L) :
    Keeps x (setTerminal g n out x) := by
  unfold setTerminal; split_ifs <;> exact ⟨rfl, rfl, rfl, rfl⟩

theorem maybeWriteCheckpoint_keeps (S : Setup) (n : Id) (out : State L) (b : Bool) (x : Exec L) :
    Keeps x (maybeWriteCheckpoint S n out b x) := by
  unfold maybeWriteCheckpoint emit
  split
  · exact Keeps.refl x
  · split_ifs <;> exact ⟨rfl, rfl, rfl, rfl⟩
  · exact ⟨rfl, rfl, rfl, rfl⟩

theorem onSuccess_keeps (res : Except L.Exception (State L)) (x : Exec L) (f : State L → Exec L → Exec L)
    (hf : ∀ out y, Keeps y (f out y)) : Keeps x (onSuccess res x f) := by
  cases res with
  | error e => exact Keeps.refl x
  | ok out => simp only [onSuccess]; split_ifs; exacts [Keeps.refl x, hf out x]

/-- A completion leaves the main loop alone, but for a token. -/
theorem complete_keeps (S : Setup) (loop : Loop) (n : Id) (res : Except L.Exception (State L))
    (cut : Option CancelPoint) (x : Exec L) :
    (complete S loop n res cut x).pc = x.pc ∧ (complete S loop n res cut x).queued = x.queued ∧
      (complete S loop n res cut x).running = x.running ∧ (complete S loop n res cut x).done = x.done + 1 := by
  have hr := (recordResult_keeps n x res).trans (cancelIf_keeps _ (decide (cut = some .nodeEnd)))
  set y := (recordResult n x res).cancelIf (cut = some .nodeEnd)
  have he : Keeps y (y.emit (.nodeEnd n y.cancelled (isFailed res))) := ⟨rfl, rfl, rfl, rfl⟩
  have ht : ∀ z : Exec L, Keeps z (onSuccess res z fun _ x => track n x) := fun z =>
    onSuccess_keeps res z _ fun _ _ => ⟨rfl, rfl, rfl, rfl⟩
  have hf : ∀ (out : State L) (z : Exec L),
      Keeps z (setTerminal S.graph n out (fanOut n out cut 0 S.graph.edges z)) := fun out z =>
    (fanOut_keeps n out cut _ 0 z).trans (setTerminal_keeps _ _ _ _)
  have h1 := ((hr.trans he).trans (cancelIf_keeps _ (decide (cut = some .track)))).trans (ht _)
  have h2 := h1.trans (cancelIf_keeps _ (decide (cut = some .fanOut)))
  cases loop with
  | run =>
    have h3 := ((h2.trans (onSuccess_keeps res _ _ hf)).trans
      (cancelIf_keeps _ (decide (cut = some .checkpoint)))).trans
      (onSuccess_keeps res _ _ fun out z => maybeWriteCheckpoint_keeps S n out (!hasOutgoing S.graph n) z)
    exact ⟨h3.pc, h3.queued, h3.running, congrArg (· + 1) h3.done⟩
  | runInner =>
    have h3 := h2.trans (onSuccess_keeps res _ _ fun out z =>
      ((hf out z).trans (cancelIf_keeps _ (decide (cut = some .checkpoint)))).trans
        (maybeWriteCheckpoint_keeps S n out (!hasOutgoing S.graph n) _))
    exact ⟨h3.pc, h3.queued, h3.running, congrArg (· + 1) h3.done⟩

/-! ### The fields after a completion -/

theorem fanOut_impl (n : Id) (out : State L) (cut : Option CancelPoint) : ∀ (es : List Edge) (i : ℕ)
    (x : Exec L), (fanOut n out cut i es x).impl = Impl.fires out (es.filter fun e => e.src = n) x.impl
  | [], _, _ => rfl
  | e :: es, i, x => by
    rw [fanOut, fanOut_impl n out cut es (i + 1)]
    by_cases h : e.src = n
    · rw [if_pos h, List.filter_cons_of_pos (by simpa using h), Impl.fires_cons]
      simp [fireEdge]
    · rw [if_neg h, List.filter_cons_of_neg (by simpa using h)]

theorem setTerminal_impl (g : Graph) (n : Id) (out : State L) (x : Exec L) :
    (setTerminal g n out x).impl = if hasOutgoing g n then x.impl else x.impl.setTerminal out := by
  unfold setTerminal; split_ifs <;> rfl

@[simp] theorem maybeWriteCheckpoint_impl (S : Setup) (n : Id) (out : State L) (b : Bool) (x : Exec L) :
    (maybeWriteCheckpoint S n out b x).impl = x.impl := by
  unfold maybeWriteCheckpoint
  split
  · rfl
  · split_ifs <;> rfl
  · rfl

/-- The completion was recorded in `completed_node_ids_`. -/
def tracked (cancelled : Bool) (cut : Option CancelPoint) : Bool :=
  !cancelled && !decide (cut = some .nodeEnd) && !decide (cut = some .track)

/-- The fan-out came. -/
def fired (cancelled : Bool) (cut : Option CancelPoint) : Bool :=
  tracked cancelled cut && !decide (cut = some .fanOut)

theorem complete_impl (S : Setup) (loop : Loop) (n : Id) (res : Except L.Exception (State L))
    (cut : Option CancelPoint) (x : Exec L) : (complete S loop n res cut x).impl =
      x.impl.finish S.graph n res (tracked x.cancelled cut) (fired x.cancelled cut) := by
  cases res with
  | error e => cases loop <;> simp [complete, completeRun, completeRunInner, onSuccess, retire, recordResult,
      Impl.finish]
  | ok out =>
    -- the token decides which of the two blocks run; the loops differ only in events
    cases loop <;> cases hx : x.cancelled <;> rcases cut with _ | cut <;>
      (try cases cut) <;>
      simp [complete, completeRun, completeRunInner, onSuccess, retire, recordResult, Impl.finish, tracked,
        fired, hx, track, setTerminal_impl, fanOut_impl] <;>
      split_ifs <;> simp [setTerminal_impl, fanOut_impl, *]

/-! ### The events of a completion -/

def resultEvent (n : Id) : Except L.Exception (State L) → Event L
  | .ok out => .output n out
  | .error _ => .nodeFailed n

/-- The fan-out over the edges from the `i`th on, with a cancellation if one
falls on an edge that fires. -/
def fanOutEvents (n : Id) (cut : Option CancelPoint) : ℕ → List Edge → List (Event L)
  | _, [] => []
  | i, e :: es =>
    if e.src = n then
      (if cut = some (.edge i) then [.cancel] else []) ++
        .edgeFire e.src e.dst e.activationGroup :: fanOutEvents n cut (i + 1) es
    else fanOutEvents n cut (i + 1) es

/-- A cancellation falls on an edge that fires. -/
def fanOutCut (n : Id) (cut : Option CancelPoint) : ℕ → List Edge → Bool
  | _, [] => false
  | i, e :: es => (decide (e.src = n) && decide (cut = some (.edge i))) || fanOutCut n cut (i + 1) es

def terminalEvents (g : Graph) (n : Id) : List (Event L) := if hasOutgoing g n then [] else [.terminal n]

def checkpointEvents (S : Setup) (n : Id) (out : State L) (completed : List Id) : List (Event L) :=
  match S.opts.checkpointPolicy with
  | .off => []
  | .afterTerminalNode => if hasOutgoing S.graph n then [] else [.checkpoint n (makeCheckpoint completed out)]
  | .afterEachNode => [.checkpoint n (makeCheckpoint completed out)]

theorem mem_terminalEvents {g : Graph} {n : Id} {ev : Event L} (h : ev ∈ terminalEvents g n) : ev = .terminal n := by
  unfold terminalEvents at h
  split_ifs at h
  · cases h
  · exact List.mem_singleton.mp h

theorem mem_checkpointEvents {S : Setup} {n : Id} {out : State L} {completed : List Id} {ev : Event L}
    (h : ev ∈ checkpointEvents S n out completed) : ev = .checkpoint n (makeCheckpoint completed out) := by
  unfold checkpointEvents at h
  split at h
  · cases h
  · split_ifs at h
    · cases h
    · exact List.mem_singleton.mp h
  · exact List.mem_singleton.mp h

/-- What a completion does after `NODE_END`, of which `cancelled` is the flag. -/
def completionTail (S : Setup) (loop : Loop) (n : Id) (res : Except L.Exception (State L))
    (cut : Option CancelPoint) (cancelled : Bool) (completed : List Id) : List (Event L) :=
  if cancelled then []
  else
    match res with
    | .error _ =>
      if cut = some .track ∨ cut = some .fanOut ∨ (cut = some .checkpoint ∧ loop = .run) then [.cancel] else []
    | .ok out =>
      let fan := fanOutEvents n cut 0 S.graph.edges ++ terminalEvents S.graph n
      let write := checkpointEvents S n out (completed ++ [n])
      if cut = some .track then [.cancel]
      else if cut = some .fanOut then [.completed n, .cancel]
      else if cut = some .checkpoint then
        .completed n :: (fan ++ .cancel :: if loop = .run then [] else write)
      else
        .completed n :: (fan ++ if loop = .run ∧ fanOutCut n cut 0 S.graph.edges then [] else write)

/-- All the events of a completion. -/
def completionEvents (S : Setup) (loop : Loop) (n : Id) (res : Except L.Exception (State L))
    (cut : Option CancelPoint) (cancelled : Bool) (completed : List Id) : List (Event L) :=
  let now := cancelled || decide (cut = some .nodeEnd)
  resultEvent n res :: ((if cut = some .nodeEnd ∧ cancelled = false then [.cancel] else []) ++
    .nodeEnd n now (isFailed res) :: completionTail S loop n res cut now completed)

/-- The fan-out's events and flag; the token is not cancelled at an edge that
the cancellation is still to fall on. -/
theorem fanOut_log (n : Id) (out : State L) (cut : Option CancelPoint) : ∀ (es : List Edge) (i : ℕ)
    (x : Exec L), (∀ j, i ≤ j → cut = some (.edge j) → x.cancelled = false) →
    (fanOut n out cut i es x).log = x.log ++ fanOutEvents n cut i es ∧
      (fanOut n out cut i es x).cancelled = (x.cancelled || fanOutCut n cut i es)
  | [], _, x, _ => by simp [fanOut, fanOutEvents, fanOutCut]
  | e :: es, i, x, h => by
    rw [fanOut, fanOutEvents, fanOutCut]
    by_cases hs : e.src = n
    · simp only [hs, if_true, decide_true, Bool.true_and]
      set y := fireEdge out (x.cancelIf (cut = some (.edge i))) e with hy
      have hc : y.cancelled = (x.cancelled || decide (cut = some (.edge i))) := by simp [hy, fireEdge]
      have hl : y.log = x.log ++ (if cut = some (.edge i) then [.cancel] else []) ++
          [.edgeFire e.src e.dst e.activationGroup] := by
        simp only [hy, fireEdge, cancelIf_log]
        by_cases hi : cut = some (.edge i)
        · simp [hi, h i le_rfl hi]
        · simp [hi]
      obtain ⟨h1, h2⟩ := fanOut_log n out cut es (i + 1) y fun j hj hcut => by
        have hne : cut ≠ some (.edge i) := by
          rw [hcut]; simp only [ne_eq, Option.some.injEq, CancelPoint.edge.injEq]; omega
        rw [hc, h j (by omega) hcut]; simp [hne]
      rw [h1, h2, hl, hc]
      simp [hs, Bool.or_assoc]
    · obtain ⟨h1, h2⟩ := fanOut_log n out cut es (i + 1) x fun j hj hcut => h j (by omega) hcut
      simp only [hs, if_false, decide_false, Bool.false_and, Bool.false_or]
      exact ⟨h1, h2⟩

theorem setTerminal_log (g : Graph) (n : Id) (out : State L) (x : Exec L) :
    (setTerminal g n out x).log = x.log ++ terminalEvents g n ∧
      (setTerminal g n out x).cancelled = x.cancelled := by
  unfold setTerminal terminalEvents; split_ifs <;> simp

theorem maybeWriteCheckpoint_log (S : Setup) (n : Id) (out : State L) (x : Exec L) :
    (maybeWriteCheckpoint S n out (!hasOutgoing S.graph n) x).log =
        x.log ++ checkpointEvents S n out x.impl.completedNodeIds ∧
      (maybeWriteCheckpoint S n out (!hasOutgoing S.graph n) x).cancelled = x.cancelled := by
  unfold maybeWriteCheckpoint checkpointEvents
  cases S.opts.checkpointPolicy with
  | off => simp
  | afterEachNode => simp
  | afterTerminalNode => cases hasOutgoing S.graph n <;> simp

/-- The block of the fan-out, entered with the token not cancelled. -/
theorem settle_log (g : Graph) (n : Id) (out : State L) (cut : Option CancelPoint) (x : Exec L)
    (h : x.cancelled = false) :
    (setTerminal g n out (fanOut n out cut 0 g.edges x)).log =
        x.log ++ (fanOutEvents n cut 0 g.edges ++ terminalEvents g n) ∧
      (setTerminal g n out (fanOut n out cut 0 g.edges x)).cancelled = fanOutCut n cut 0 g.edges ∧
      (setTerminal g n out (fanOut n out cut 0 g.edges x)).impl.completedNodeIds = x.impl.completedNodeIds := by
  obtain ⟨h1, h2⟩ := fanOut_log n out cut g.edges 0 x fun _ _ _ => h
  obtain ⟨h3, h4⟩ := setTerminal_log g n out (fanOut n out cut 0 g.edges x)
  refine ⟨by rw [h3, h1, List.append_assoc], by rw [h4, h2, h, Bool.false_or], ?_⟩
  rw [setTerminal_impl, fanOut_impl]
  have := congrArg Impl.completedNodeIds (Impl.fires_eq out (g.edges.filter fun e => e.src = n) x.impl)
  split_ifs
  · exact this
  · exact this

theorem fanOutCut_of_ne (n : Id) {cut : Option CancelPoint} (h : ∀ j, cut ≠ some (.edge j)) :
    ∀ (es : List Edge) (i : ℕ), fanOutCut n cut i es = false
  | [], _ => rfl
  | e :: es, i => by simp [fanOutCut, h i, fanOutCut_of_ne n h es]

/-- The state in which the fan-out of a recorded completion starts. -/
def atFanOut (n : Id) (out : State L) (x : Exec L) : Exec L :=
  track n ((x.emit (.output n out)).emit (.nodeEnd n false false))

/-- A completion whose fan-out comes. -/
theorem complete_of_fired (S : Setup) (loop : Loop) (n : Id) (out : State L) (cut : Option CancelPoint)
    (x : Exec L) (h : fired x.cancelled cut = true) : complete S loop n (.ok out) cut x =
      let z := (setTerminal S.graph n out (fanOut n out cut 0 S.graph.edges (atFanOut n out x))).cancelIf
        (cut = some .checkpoint)
      retire n (if loop = .run ∧ z.cancelled = true then z
        else maybeWriteCheckpoint S n out (!hasOutgoing S.graph n) z) := by
  simp only [fired, tracked, Bool.and_eq_true, Bool.not_eq_true', decide_eq_false_iff_not] at h
  obtain ⟨⟨⟨hx, h1⟩, h2⟩, h3⟩ := h
  cases loop <;>
    simp [complete, completeRun, completeRunInner, recordResult, onSuccess, h1, h2, h3, hx, isFailed, atFanOut,
      track]

theorem complete_log (S : Setup) (loop : Loop) (n : Id) (res : Except L.Exception (State L))
    (cut : Option CancelPoint) (x : Exec L) : (complete S loop n res cut x).log =
      x.log ++ completionEvents S loop n res cut x.cancelled x.impl.completedNodeIds := by
  cases res with
  | error e =>
    cases loop <;> cases hx : x.cancelled <;> rcases cut with _ | cut <;> (try cases cut) <;>
      simp [complete, completeRun, completeRunInner, onSuccess, retire, recordResult, cancelIf_log, hx,
        completionEvents, completionTail, resultEvent, isFailed]
  | ok out =>
    cases hf : fired x.cancelled cut with
    | false =>
      cases loop <;> cases hx : x.cancelled <;> rcases cut with _ | cut <;> (try cases cut) <;>
        simp [fired, tracked, hx] at hf <;>
        simp [complete, completeRun, completeRunInner, onSuccess, retire, recordResult, cancelIf_log, hx,
          completionEvents, completionTail, resultEvent, isFailed, track]
    | true =>
      have hx : x.cancelled = false := by simp [fired, tracked] at hf; simp [hf]
      rw [complete_of_fired S loop n out cut x hf]
      obtain ⟨h1, h2, h3⟩ := settle_log S.graph n out cut (atFanOut n out x) hx
      set z := setTerminal S.graph n out (fanOut n out cut 0 S.graph.edges (atFanOut n out x))
      have hl : (atFanOut n out x).log = x.log ++ [.output n out, .nodeEnd n false false, .completed n] := by
        simp [atFanOut, track]
      have hi : z.impl.completedNodeIds = x.impl.completedNodeIds ++ [n] := h3
      have hw := fun w : Exec L => (maybeWriteCheckpoint_log S n out w).1
      rw [hl] at h1
      by_cases hc : cut = some .checkpoint
      · have hne : fanOutCut n cut 0 S.graph.edges = false := fanOutCut_of_ne n (by simp [hc]) _ _
        rw [hne] at h2
        cases loop <;>
          simp [retire, hc, h1, h2, hw, hi, cancelIf_log, completionEvents, completionTail, resultEvent, hx,
            isFailed]
      · have hs : cut ≠ some .nodeEnd ∧ cut ≠ some .track ∧ cut ≠ some .fanOut := by
          simp [fired, tracked] at hf; tauto
        obtain ⟨e1, e2, e3⟩ := hs
        cases loop <;> cases hcut : fanOutCut n cut 0 S.graph.edges <;>
          simp [retire, hc, h1, h2, hw, hi, hcut, completionEvents, completionTail, resultEvent, hx, e1, e2, e3,
            isFailed]

theorem cancel_mem_fanOutEvents (n : Id) (cut : Option CancelPoint) : ∀ (es : List Edge) (i : ℕ),
    (Event.cancel : Event L) ∈ fanOutEvents n cut i es ↔ fanOutCut n cut i es = true
  | [], _ => by simp [fanOutEvents, fanOutCut]
  | e :: es, i => by
    have ih := cancel_mem_fanOutEvents n cut es (i + 1)
    by_cases hs : e.src = n <;> by_cases hi : cut = some (.edge i) <;>
      simp [fanOutEvents, fanOutCut, hs, hi, ih]
    · rw [hi] at ih; exact ih

/-- The token is cancelled after a completion if it was, or the path says so. -/
theorem complete_cancelled (S : Setup) (loop : Loop) (n : Id) (res : Except L.Exception (State L))
    (cut : Option CancelPoint) (x : Exec L) : (complete S loop n res cut x).cancelled = true ↔
      x.cancelled = true ∨
        .cancel ∈ completionEvents S loop n res cut x.cancelled x.impl.completedNodeIds := by
  have hw := fun out (w : Exec L) => (maybeWriteCheckpoint_log S n out w).2
  have hk : ∀ (out : State L) ids, Event.cancel ∉ checkpointEvents S n out ids := fun out ids h => by
    cases mem_checkpointEvents h
  have ht : (Event.cancel : Event L) ∉ (terminalEvents S.graph n : List (Event L)) := fun h => by
    cases mem_terminalEvents h
  cases res with
  | error e =>
    cases loop <;> cases hx : x.cancelled <;> rcases cut with _ | cut <;> (try cases cut) <;>
      simp [complete, completeRun, completeRunInner, onSuccess, retire, recordResult, hx,
        completionEvents, completionTail, resultEvent, isFailed]
  | ok out =>
    cases hf : fired x.cancelled cut with
    | false =>
      cases loop <;> cases hx : x.cancelled <;> rcases cut with _ | cut <;> (try cases cut) <;>
        simp [fired, tracked, hx] at hf <;>
        simp [complete, completeRun, completeRunInner, onSuccess, retire, recordResult, hx,
          completionEvents, completionTail, resultEvent, isFailed, track]
    | true =>
      have hx : x.cancelled = false := by simp [fired, tracked] at hf; simp [hf]
      have hs : cut ≠ some .nodeEnd ∧ cut ≠ some .track ∧ cut ≠ some .fanOut := by
        simp [fired, tracked] at hf; tauto
      obtain ⟨e1, e2, e3⟩ := hs
      rw [complete_of_fired S loop n out cut x hf]
      obtain ⟨-, h2, -⟩ := settle_log S.graph n out cut (atFanOut n out x) hx
      have hm := cancel_mem_fanOutEvents (L := L) n cut S.graph.edges 0
      by_cases hc : cut = some .checkpoint
      · cases loop <;>
          simp [retire, hc, hw, completionEvents, completionTail, resultEvent, hx]
      · cases loop <;> cases hcut : fanOutCut n cut 0 S.graph.edges <;>
          simp [retire, hc, h2, hw, hcut, hk, ht, hm, completionEvents, completionTail, resultEvent, hx, e1,
            e2, e3]

end AgentFlow
