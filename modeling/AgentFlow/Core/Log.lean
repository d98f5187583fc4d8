/-
# Reading a log

What the proofs ask of a log: which nodes started and completed, what they
returned, which checkpoints were written. And the runs they ask it of:
`Succeeds` are the choices of a run in which every node succeeds and nothing
is cancelled. There a completion is `completionEvents_quiet` in both loops.

Key definitions: `starts`, `completions`, `outputs`, `checkpoints`, `Succeeds`.
-/
import AgentFlow.Core.Trace

namespace AgentFlow

variable {L : Libs}

namespace Event

def launch? : Event L → Option Id
  | .launch n => some n
  | _ => none

def failed? : Event L → Option Id
  | .nodeFailed n => some n
  | _ => none

def start? : Event L → Option Id
  | .nodeStart n _ => some n
  | _ => none

def output? : Event L → Option (Id × State L)
  | .output n out => some (n, out)
  | _ => none

def completed? : Event L → Option Id
  | .completed n => some n
  | _ => none

def checkpoint? : Event L → Option Checkpoint
  | .checkpoint _ cp => some cp
  | _ => none

theorem launch?_eq_some {ev : Event L} {n : Id} : ev.launch? = some n ↔ ev = .launch n := by
  cases ev <;> simp [launch?]

theorem failed?_eq_some {ev : Event L} {n : Id} : ev.failed? = some n ↔ ev = .nodeFailed n := by
  cases ev <;> simp [failed?]

theorem output?_eq_some {ev : Event L} {p : Id × State L} : ev.output? = some p ↔ ev = .output p.1 p.2 := by
  rcases p with ⟨n, out⟩
  cases ev <;> simp [output?]

theorem checkpoint?_eq_some {ev : Event L} {cp : Checkpoint} :
    ev.checkpoint? = some cp ↔ ∃ n, ev = .checkpoint n cp := by
  cases ev <;> simp [checkpoint?]

end Event

/-- The nodes launched, in order. -/
def launched (log : List (Event L)) : List Id := log.filterMap Event.launch?

/-- The nodes that failed, in order. -/
def failures (log : List (Event L)) : List Id := log.filterMap Event.failed?

/-- The nodes started, in order. -/
def starts (log : List (Event L)) : List Id := log.filterMap Event.start?

/-- The nodes that returned and what they returned, in order. -/
def outputs (log : List (Event L)) : List (Id × State L) := log.filterMap Event.output?

/-- The nodes recorded as completed, in order. -/
def completions (log : List (Event L)) : List Id := log.filterMap Event.completed?

/-- The checkpoints written, in order. -/
def checkpoints (log : List (Event L)) : List Checkpoint := log.filterMap Event.checkpoint?

theorem mem_launched {log : List (Event L)} {n : Id} : n ∈ launched log ↔ .launch n ∈ log := by
  simp [launched, Event.launch?_eq_some]

theorem mem_failures {log : List (Event L)} {n : Id} : n ∈ failures log ↔ .nodeFailed n ∈ log := by
  simp [failures, Event.failed?_eq_some]

theorem mem_outputs {log : List (Event L)} {n : Id} {out : State L} : (n, out) ∈ outputs log ↔ .output n out ∈ log := by
  simp [outputs, Event.output?_eq_some]

theorem mem_checkpoints {log : List (Event L)} {cp : Checkpoint} :
    cp ∈ checkpoints log ↔ ∃ n, .checkpoint n cp ∈ log := by
  simp only [checkpoints, List.mem_filterMap, Event.checkpoint?_eq_some]
  constructor
  · rintro ⟨_, hev, n, rfl⟩
    exact ⟨n, hev⟩
  · rintro ⟨n, hn⟩
    exact ⟨_, hn, n, rfl⟩

@[simp] theorem launched_append (l l' : List (Event L)) : launched (l ++ l') = launched l ++ launched l' :=
  List.filterMap_append

@[simp] theorem starts_append (l l' : List (Event L)) : starts (l ++ l') = starts l ++ starts l' :=
  List.filterMap_append

@[simp] theorem outputs_append (l l' : List (Event L)) : outputs (l ++ l') = outputs l ++ outputs l' :=
  List.filterMap_append

@[simp] theorem completions_append (l l' : List (Event L)) :
    completions (l ++ l') = completions l ++ completions l' :=
  List.filterMap_append

@[simp] theorem checkpoints_append (l l' : List (Event L)) :
    checkpoints (l ++ l') = checkpoints l ++ checkpoints l' :=
  List.filterMap_append

/-- A choice that fails no node and cancels nothing. `Out` is what a node may
return on an input. -/
def Succeeds (Out : Id → State L → State L → Prop) (x : Exec L) : Choice L → Prop
  | .main => True
  | .start => True
  | .finish k res cut => cut = none ∧ ∃ out, res = .ok out ∧ ∀ t, x.running[k]? = some t → Out t.node t.input out
  | .cancel => False

/-- The same of a choice alone, computed. -/
def Choice.succeeds : Choice L → Bool
  | .main => true
  | .start => true
  | .finish _ res cut => !isFailed res && decide (cut = none)
  | .cancel => false

theorem Succeeds.of_succeeds {c : Choice L} (h : c.succeeds = true) (x : Exec L) :
    Succeeds (fun _ _ _ => True) x c := by
  cases c with
  | main => trivial
  | start => trivial
  | cancel => cases h
  | finish k res cut =>
    simp only [Choice.succeeds, Bool.and_eq_true, Bool.not_eq_true', decide_eq_true_eq] at h
    cases res with
    | ok out => exact ⟨h.2, out, rfl, fun _ _ => trivial⟩
    | error e => simp [isFailed] at h

theorem fanOutEvents_none (n : Id) : ∀ (es : List Edge) (i : ℕ), (fanOutEvents n none i es : List (Event L)) =
    (es.filter fun e => e.src = n).map fun e => .edgeFire e.src e.dst e.activationGroup
  | [], _ => rfl
  | e :: es, i => by
    by_cases h : e.src = n <;> simp [fanOutEvents, h, fanOutEvents_none n es]

/-- What follows the output of a successful completion. -/
def quietTail (S : Setup) (n : Id) (out : State L) (completed : List Id) : List (Event L) :=
  .nodeEnd n false false :: .completed n ::
    ((S.graph.edges.filter fun e => e.src = n).map (fun e => .edgeFire e.src e.dst e.activationGroup) ++
      terminalEvents S.graph n ++ checkpointEvents S n out (completed ++ [n]))

theorem completionEvents_quiet (S : Setup) (loop : Loop) (n : Id) (out : State L) (completed : List Id) :
    completionEvents S loop n (.ok out) none false completed = .output n out :: quietTail S n out completed := by
  have hf : fanOutCut n none 0 S.graph.edges = false := fanOutCut_of_ne n (by simp) _ _
  simp [completionEvents, completionTail, resultEvent, isFailed, quietTail, fanOutEvents_none, hf]

section quietTail

variable (S : Setup) (n : Id) (out : State L) (completed : List Id)

theorem mem_quietTail {ev : Event L} (h : ev ∈ quietTail S n out completed) :
    ev = .nodeEnd n false false ∨ ev = .completed n ∨ (∃ e ∈ S.graph.edges, e.src = n ∧
      ev = .edgeFire e.src e.dst e.activationGroup) ∨ ev = .terminal n ∨
      ev = .checkpoint n (makeCheckpoint (completed ++ [n]) out) := by
  simp only [quietTail, List.mem_cons, List.mem_append, List.mem_map, List.mem_filter,
    decide_eq_true_eq] at h
  rcases h with h | h | (⟨e, ⟨he, hs⟩, rfl⟩ | h) | h
  · exact Or.inl h
  · exact Or.inr (Or.inl h)
  · exact Or.inr (Or.inr (Or.inl ⟨e, he, hs, rfl⟩))
  · exact Or.inr (Or.inr (Or.inr (Or.inl (mem_terminalEvents h))))
  · exact Or.inr (Or.inr (Or.inr (Or.inr (mem_checkpointEvents h))))

theorem outputs_quietTail : outputs (quietTail S n out completed) = [] := by
  rw [outputs, List.filterMap_eq_nil_iff]
  intro ev h
  rcases mem_quietTail S n out completed h with rfl | rfl | ⟨e, -, -, rfl⟩ | rfl | rfl <;> rfl

theorem starts_quietTail : starts (quietTail S n out completed) = [] := by
  rw [starts, List.filterMap_eq_nil_iff]
  intro ev h
  rcases mem_quietTail S n out completed h with rfl | rfl | ⟨e, -, -, rfl⟩ | rfl | rfl <;> rfl

/-- A projection that passes over the edges and the terminal state. -/
theorem filterMap_quietTail {α : Type*} (f : Event L → Option α) (hedge : ∀ a b k, f (.edgeFire a b k) = none)
    (hterm : f (.terminal n) = none) : (quietTail S n out completed).filterMap f =
      [.nodeEnd n false false, .completed n].filterMap f ++
        (checkpointEvents S n out (completed ++ [n])).filterMap f := by
  have h1 : ((S.graph.edges.filter fun e => e.src = n).map fun e =>
      (.edgeFire e.src e.dst e.activationGroup : Event L)).filterMap f = [] := by
    rw [List.filterMap_eq_nil_iff]
    intro ev h
    obtain ⟨e, -, rfl⟩ := List.mem_map.mp h
    exact hedge _ _ _
  have h2 : (terminalEvents S.graph n : List (Event L)).filterMap f = [] := by
    rw [List.filterMap_eq_nil_iff]
    intro ev h
    rw [mem_terminalEvents h, hterm]
  rw [quietTail, show ∀ (a b : Event L) l, a :: b :: l = [a, b] ++ l from fun _ _ _ => rfl, List.filterMap_append,
    List.filterMap_append, List.filterMap_append, h1, h2]
  rfl

theorem completions_quietTail : completions (quietTail S n out completed) = [n] := by
  have h : (checkpointEvents S n out (completed ++ [n])).filterMap Event.completed? = [] := by
    rw [List.filterMap_eq_nil_iff]
    intro ev hev
    rw [mem_checkpointEvents hev]
    rfl
  rw [completions, filterMap_quietTail S n out completed _ (fun _ _ _ => rfl) rfl, h]
  rfl

/-- A policy that writes after each node writes one checkpoint. -/
theorem checkpoints_quietTail (hp : S.opts.checkpointPolicy = .afterEachNode) :
    checkpoints (quietTail S n out completed) = [makeCheckpoint (completed ++ [n]) out] := by
  rw [checkpoints, filterMap_quietTail S n out completed _ (fun _ _ _ => rfl) rfl]
  simp [checkpointEvents, hp, Event.checkpoint?]

end quietTail

/-- A successful completion, in both loops: its effect on the fields. -/
theorem complete_quiet_impl (S : Setup) (loop : Loop) (n : Id) (out : State L) {x : Exec L}
    (hx : x.cancelled = false) : (complete S loop n (.ok out) none x).impl =
      x.impl.finish S.graph n (.ok out) true true := by
  rw [complete_impl, hx]; rfl

theorem complete_quiet_log (S : Setup) (loop : Loop) (n : Id) (out : State L) {x : Exec L}
    (hx : x.cancelled = false) : (complete S loop n (.ok out) none x).log =
      x.log ++ .output n out :: quietTail S n out x.impl.completedNodeIds := by
  rw [complete_log, hx, completionEvents_quiet]

theorem complete_quiet_cancelled (S : Setup) (loop : Loop) (n : Id) (out : State L) {x : Exec L}
    (hx : x.cancelled = false) : (complete S loop n (.ok out) none x).cancelled = false := by
  rw [← Bool.not_eq_true, complete_cancelled, hx, completionEvents_quiet]
  simp only [Bool.false_eq_true, false_or, List.mem_cons, reduceCtorEq]
  intro h
  rcases mem_quietTail S n out _ h with h | h | ⟨e, -, -, h⟩ | h | h <;> cases h

end AgentFlow
