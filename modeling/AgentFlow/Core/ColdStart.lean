/-
# Cold-start Resume and Run

A checkpoint that lists no node makes `Resume` start the graph from its entry
nodes, as `Run` does. The two loops then do the same, as long as the token is
not cancelled (`complete_loops`): they differ in the order of the first launches only.
`Run` launches the entry nodes in the order of the graph, `RunInner` in the
order of its hash map. Coroutines begin in the order they were launched
(`Lined`), so the first starts show that order, and the two have the same
executions exactly when the orders agree (`coldStart_iff`).

Key definitions: `executions`, `Behaves`, `Lined`, `ColdStartRefines`.
-/
import AgentFlow.Core.Resume

namespace AgentFlow

variable {L : Libs}

open Stepping

/-! ### What a caller sees of a run -/

/-- The event is a trace event or a checkpoint written. -/
def Event.visible : Event L → Bool
  | .nodeStart _ _ => true
  | .nodeFailed _ => true
  | .nodeEnd _ _ _ => true
  | .edgeFire _ _ _ => true
  | .checkpoint _ _ => true
  | .graphDone _ => true
  | _ => false

def Exec.observe (x : Exec L) : List (Event L) × Option (Except L.Exception (State L)) :=
  (x.log.filter Event.visible, x.pc.outcome)

/-- The executions from a state: those of all its runs, finished or not. -/
def executions (S : Setup) (loop : Loop) (ok : Exec L → Choice L → Prop) (x : Exec L) :
    Set (List (Event L) × Option (Except L.Exception (State L))) :=
  observations (step S loop) ok Exec.observe x

/-- A choice that cancels nothing and lets a node do what `B` says it may do
on its input: return or throw. -/
def Behaves (B : Id → State L → Except L.Exception (State L) → Prop) (x : Exec L) : Choice L → Prop
  | .main => True
  | .start => True
  | .finish k res cut => cut = none ∧ ∀ t, x.running[k]? = some t → B t.node t.input res
  | .cancel => False

/-! ### The two loops without cancellation -/

theorem fanOut_none_cancelled (n : Id) (out : State L) : ∀ (es : List Edge) (i : ℕ) (x : Exec L),
    (fanOut n out none i es x).cancelled = x.cancelled
  | [], _, _ => rfl
  | e :: es, i, x => by
    rw [fanOut, fanOut_none_cancelled n out es]
    split_ifs
    · simp [fireEdge]
    · rfl

theorem setTerminal_cancelled (g : Graph) (n : Id) (out : State L) (x : Exec L) :
    (setTerminal g n out x).cancelled = x.cancelled := by
  unfold setTerminal
  split_ifs <;> rfl

/-- The completion paths of `Run` and `RunInner` do the same. -/
theorem complete_loops (S : Setup) (n : Id) (res : Except L.Exception (State L)) {x : Exec L}
    (hx : x.cancelled = false) : complete S .run n res none x = complete S .runInner n res none x := by
  cases res with
  | error e => simp [complete, completeRun, completeRunInner, onSuccess]
  | ok out =>
    simp [complete, completeRun, completeRunInner, onSuccess, recordResult, hx, track, setTerminal_cancelled,
      fanOut_none_cancelled]

section quiet

variable {S : Setup} {loop : Loop} {B : Id → State L → Except L.Exception (State L) → Prop} {c : Choice L}
  {x y : Exec L}

theorem step_loops (hc : Behaves B x c) (hx : x.cancelled = false) : step S .run c x = step S .runInner c x := by
  cases c with
  | main => rfl
  | start => rfl
  | cancel => cases hc
  | finish k res cut =>
    obtain ⟨rfl, -⟩ := hc
    simp only [step]
    split
    · rfl
    · rw [complete_loops S _ res (by exact hx)]

/-- The token stays as it is. -/
theorem step_cancelled (hc : Behaves B x c) (hx : x.cancelled = false) (hs : Moves S loop c x y) :
    y.cancelled = false := by
  cases hs with
  | leave hpc h0 => rw [(leave_rest x).2.2.2.1]; exact hx
  | receive hpc hd => rw [(received_rest _).2.2.2]; exact hx
  | @finish _ k t res cut hk hrun =>
    obtain ⟨rfl, -⟩ := hc
    rw [← Bool.not_eq_true, complete_cancelled]
    cases res with
    | ok out =>
      have := complete_quiet_cancelled S loop t.node out
        (show ({ x with running := x.running.eraseIdx k } : Exec L).cancelled = false from hx)
      rwa [← Bool.not_eq_true, complete_cancelled] at this
    | error e => simp [hx, completionEvents, completionTail, resultEvent, isFailed]
  | cancel hpc => cases hc
  | _ => exact hx

/-- The loops have the same executions from one state. -/
theorem executions_loops (hx : x.cancelled = false) :
    executions S .run (Behaves B) x = executions S .runInner (Behaves B) x := by
  apply Set.Subset.antisymm
  · refine observations_subset (R := fun z z' => z = z' ∧ z.cancelled = false) ?_ ?_ ⟨rfl, hx⟩
    · rintro z _ c y ⟨rfl, hz⟩ hc hs
      exact ⟨y, hc, step_loops hc hz ▸ hs, rfl, step_cancelled hc hz (step_eq_some.mp hs)⟩
    · rintro z _ ⟨rfl, -⟩
      rfl
  · refine observations_subset (R := fun z z' => z = z' ∧ z.cancelled = false) ?_ ?_ ⟨rfl, hx⟩
    · rintro z _ c y ⟨rfl, hz⟩ hc hs
      exact ⟨y, hc, (step_loops hc hz).symm ▸ hs, rfl, step_cancelled hc hz (step_eq_some.mp hs)⟩
    · rintro z _ ⟨rfl, -⟩
      rfl

end quiet

/-! ### The order of the first starts -/

/-- The coroutines begin in the order of the launches, and the first launches
are those of the first batch. -/
structure Lined (batch : List Id) (x : Exec L) : Prop where
  fifo : launched x.log = starts x.log ++ x.queued.map (·.node)
  first : (∃ rest last, x.pc = .launching rest last ∧ launched x.log ++ rest = batch) ∨ batch <+: launched x.log

namespace Lined

variable {S : Setup} {loop : Loop} {batch : List Id} {c : Choice L} {x y : Exec L}

theorem begin (m : Impl L) (batch : List Id) : Lined batch (Exec.begin m batch) :=
  ⟨rfl, Or.inl ⟨batch, none, rfl, rfl⟩⟩

/-- A step that launches and starts nothing. -/
theorem other (h : Lined batch x) {evs : List (Event L)} (hl : y.log = x.log ++ evs) (hlaunch : launched evs = [])
    (hstart : starts evs = []) (hq : y.queued = x.queued)
    (hpc : ∀ rest last, x.pc = .launching rest last → rest = [] ∨ y.pc = x.pc) : Lined batch y := by
  have h1 : launched y.log = launched x.log := by rw [hl, launched_append, hlaunch, List.append_nil]
  have h2 : starts y.log = starts x.log := by rw [hl, starts_append, hstart, List.append_nil]
  refine ⟨by rw [h1, h2, hq]; exact h.fifo, ?_⟩
  rw [h1]
  rcases h.first with ⟨rest, last, hp, hb⟩ | hb
  · rcases hpc rest last hp with rfl | hy
    · exact Or.inr (by rw [← hb, List.append_nil])
    · exact Or.inl ⟨rest, last, hy.trans hp, hb⟩
  · exact Or.inr hb

theorem completion_silent (S : Setup) (loop : Loop) (n : Id) (res : Except L.Exception (State L))
    (cut : Option CancelPoint) (cancelled : Bool) (ids : List Id) :
    launched (completionEvents S loop n res cut cancelled ids) = [] ∧
      starts (completionEvents S loop n res cut cancelled ids) = [] := by
  constructor
  all_goals
    refine List.filterMap_eq_nil_iff.mpr fun ev hev => ?_
    rcases mem_completionEvents hev with rfl | ⟨b, rfl⟩ | he
    · cases res <;> rfl
    · rfl
    · cases ev <;> first | rfl | cases he

theorem step (h : Lined batch x) (hs : Moves S loop c x y) : Lined batch y := by
  have hlog := step_log hs
  cases hs with
  | @launch _ n rest last hpc =>
    have h1 : launched (x.log ++ [Event.launch n]) = launched x.log ++ [n] := launched_append _ _
    have h2 : starts (x.log ++ [Event.launch n]) = starts x.log := by rw [starts_append]; exact List.append_nil _
    refine ⟨?_, ?_⟩
    · show launched (x.log ++ [Event.launch n]) = starts (x.log ++ [Event.launch n]) ++ (x.queued ++ [_]).map Task.node
      rw [h1, h2, h.fifo, List.map_append, List.append_assoc]
      rfl
    · show (∃ rest' last', _ = Pc.launching rest' last' ∧ launched (x.log ++ [Event.launch n]) ++ rest' = batch) ∨
        batch <+: launched (x.log ++ [Event.launch n])
      rw [h1]
      rcases h.first with ⟨rest', last', hp, hb⟩ | hb
      · rw [hpc] at hp
        cases hp
        exact Or.inl ⟨rest, some n, rfl, by rw [← hb]; simp⟩
      · exact Or.inr (hb.trans (List.prefix_append _ _))
  | batchDone hpc =>
    refine h.other (List.append_nil _).symm rfl rfl rfl fun rest last hp => Or.inl ?_
    rw [hpc] at hp
    cases hp
    rfl
  | leave hpc h0 =>
    obtain ⟨f1, -, -, -, f5, -⟩ := leave_rest x
    exact h.other f5 rfl rfl f1 fun rest last hp => by rw [hpc] at hp; cases hp
  | receive hpc hd =>
    have hsil : launched (stepEvents S loop x .main) = [] ∧ starts (stepEvents S loop x .main) = [] := by
      simp only [stepEvents, hpc]
      split_ifs <;> exact ⟨rfl, rfl⟩
    exact h.other hlog hsil.1 hsil.2 (received_rest _).1 fun rest last hp => by rw [hpc] at hp; cases hp
  | drained hpc | batch hpc | wait hpc =>
    exact h.other (List.append_nil _).symm rfl rfl rfl fun rest last hp => by rw [hpc] at hp; cases hp
  | @start _ t ts hq hrun =>
    refine ⟨?_, ?_⟩
    · have hf := h.fifo
      rw [hq] at hf
      show launched (x.log ++ [Event.nodeStart t.node t.input]) =
        starts (x.log ++ [Event.nodeStart t.node t.input]) ++ ts.map (·.node)
      rw [launched_append, starts_append, hf]
      simp [launched, Event.launch?, starts, Event.start?]
    · have h1 : launched (x.log ++ [Event.nodeStart t.node t.input]) = launched x.log := by
        rw [launched_append]; exact List.append_nil _
      exact h1.symm ▸ h.first
  | @finish _ k t res cut hk hrun =>
    obtain ⟨e1, e2, -, -⟩ := complete_keeps S loop t.node res cut { x with running := x.running.eraseIdx k }
    obtain ⟨s1, s2⟩ := completion_silent S loop t.node res cut x.cancelled x.impl.completedNodeIds
    exact h.other (complete_log S loop t.node res cut _) s1 s2 e2 fun _ _ _ => Or.inr e1
  | cancel hpc =>
    have hk := Exec.cancelIf_keeps x true
    have hsil : launched (stepEvents S loop x .cancel) = [] ∧ starts (stepEvents S loop x .cancel) = [] := by
      simp only [stepEvents]
      split_ifs <;> exact ⟨rfl, rfl⟩
    exact h.other hlog hsil.1 hsil.2 hk.queued fun _ _ _ => Or.inr hk.pc

/-- As many starts as there are nodes in the first batch: these are they. -/
theorem starts_eq (h : Lined batch x) (hlen : (starts x.log).length = batch.length) : starts x.log = batch := by
  have hpre : starts x.log <+: launched x.log := h.fifo ▸ List.prefix_append _ _
  rcases h.first with ⟨rest, last, -, hb⟩ | hb
  · exact (hpre.trans (hb ▸ List.prefix_append _ _)).eq_of_length hlen
  · exact (List.prefix_of_prefix_length_le hpre hb hlen.le).eq_of_length hlen

end Lined

/-- The starts are visible. -/
theorem starts_visible (log : List (Event L)) : starts (log.filter Event.visible) = starts log := by
  rw [starts, List.filterMap_filter]
  refine List.filterMap_congr fun ev _ => ?_
  cases ev <;> rfl

/-- Each node of a batch starts right after its launch. -/
theorem exists_starts (S : Setup) (loop : Loop) {ok : Exec L → Choice L → Prop} (hm : ∀ x, ok x .main)
    (hs : ∀ x, ok x .start) : ∀ (batch : List Id) (x : Exec L) (last : Option Id), x.pc = .launching batch last →
      x.queued = [] → ∃ cs y, Run (step S loop) ok x cs y ∧ starts y.log = starts x.log ++ batch
  | [], x, _, _, _ => ⟨[], x, Run.nil x, (List.append_nil _).symm⟩
  | n :: rest, x, last, hpc, hq => by
    set x₁ : Exec L := { launch x n with pc := .launching rest (some n) } with hx₁
    have h1 : step S loop .main x = some x₁ := step_eq_some.mpr (.launch hpc)
    have hq₁ : x₁.queued = [⟨n, mergeInputs (x.impl.activations n).pendingInputs⟩] := by
      simp [hx₁, launch, hq]
    obtain ⟨cs, y, hr, hy⟩ := exists_starts S loop hm hs rest { x₁ with
      queued := [], running := x₁.running ++ [_], log := x₁.log ++ [.nodeStart n _] } (some n) rfl rfl
    have h2 : step S loop .start x₁ = some _ := step_eq_some.mpr (.start hq₁ (by simp [hx₁, Pc.mayRun]))
    refine ⟨_, y, Run.cons (hm x) h1 (Run.cons (hs x₁) h2 hr), ?_⟩
    rw [hy]
    show starts (x.log ++ [Event.launch n] ++ [Event.nodeStart n _]) ++ rest = starts x.log ++ n :: rest
    rw [starts_append, starts_append, List.append_assoc, List.append_assoc]
    rfl

/-- Two systems that begin with batches of one length and share their
executions begin with the same batch. -/
theorem batch_eq_of_executions {S S' : Setup} {loop loop' : Loop} {ok ok' : Exec L → Choice L → Prop}
    (hm : ∀ x, ok x .main) (hs : ∀ x, ok x .start) {m m' : Impl L} {b b' : List Id}
    (h : executions S loop ok (.begin m b) ⊆ executions S' loop' ok' (.begin m' b')) (hlen : b.length = b'.length) :
    b = b' := by
  obtain ⟨cs, y, hr, hy⟩ := exists_starts S loop hm hs b (.begin m b) none rfl rfl
  have hy : starts y.log = b := hy
  obtain ⟨cs', y', hr', hobs⟩ := h ⟨cs, y, hr, rfl⟩
  have hl : Lined b' y' := hr'.invariant (fun _ _ _ hI _ hst => hI.step (step_eq_some.mp hst)) (Lined.begin m' b')
  have hst : starts y'.log = b := by
    rw [← starts_visible, show y'.log.filter Event.visible = y.log.filter Event.visible from congrArg Prod.fst hobs,
      starts_visible, hy]
  rw [← hst]
  exact hl.starts_eq (by rw [hst, hlen])

/-! ### The cold start -/

/-- The batch a cold start begins with. -/
theorem ready_seeded (S : Setup) (s : State L) :
    ready S (seeded S.graph s) = S.order.filter fun id => id ∈ S.graph.entryNodeIds := by
  refine List.filter_congr fun v _ => ?_
  obtain ⟨-, hfl, -, -, hp⟩ := seeded_activation S.graph s v
  by_cases hv : v ∈ S.graph.entryNodeIds
  · simp [hfl, hp, hv, seeded_entry_ready S.graph s hv]
  · simp [hp, hv]

theorem length_order_entries (S : Setup) :
    (S.order.filter fun id => id ∈ S.graph.entryNodeIds).length = S.graph.entryNodeIds.length := by
  have hnd : S.order.Nodup := S.order_perm.nodup_iff.mpr S.graph.nodes_nodup
  refine ((List.perm_ext_iff_of_nodup (hnd.filter _) Graph.entryNodeIds_nodup).mpr fun v => ?_).length_eq
  simp only [List.mem_filter, decide_eq_true_eq, S.order_perm.mem_iff]
  exact ⟨And.right, fun hv => ⟨Graph.entryNodeIds_sub hv, hv⟩⟩

/-- `Resume` of the checkpoint on a fresh runner is accepted and has the
executions of `Run`, without cancellation. -/
def ColdStartRefines (S : Setup) (B : Id → State L → Except L.Exception (State L) → Prop) (cp : Checkpoint)
    (target s : State L) : Prop :=
  ∃ m x, resume S .fresh cp target = (m, .ok x) ∧
    executions S .runInner (Behaves B) x = executions S .run (Behaves B) (runStart S .fresh s)

theorem resume_cold (S : Setup) {cp : Checkpoint} {target s : State L} (ht : resumeTarget cp target = .ok s)
    (hc : cp.completedNodes = []) : resume S .fresh cp target = (seeded S.graph s,
      .ok (.begin (seeded S.graph s) (S.order.filter fun id => id ∈ S.graph.entryNodeIds))) := by
  rw [resume_fresh S ht (by simp [hc]), hc, ← ready_seeded]
  rfl

/-- Which order the first launches have shows in the executions. -/
theorem order_of_refines {S : Setup} {B : Id → State L → Except L.Exception (State L) → Prop} {cp : Checkpoint}
    {target s : State L} (ht : resumeTarget cp target = .ok s) (hc : cp.completedNodes = [])
    (h : ColdStartRefines S B cp target s) :
    (S.order.filter fun id => id ∈ S.graph.entryNodeIds) = S.graph.entryNodeIds := by
  obtain ⟨m, x, hx, heq⟩ := h
  rw [resume_cold S ht hc] at hx
  obtain rfl : _ = x := by simpa using (Prod.mk.inj hx).2
  rw [runStart_fresh] at heq
  exact batch_eq_of_executions (fun _ => trivial) (fun _ => trivial) heq.subset (length_order_entries S)

/-- **A cold start has the executions of `Run` exactly when the hash map
iterates the entry nodes in the order of the graph.** -/
theorem coldStart_iff (hL : L.ProtoRoundTrip) (S : Setup) (B : Id → State L → Except L.Exception (State L) → Prop)
    (cp : Checkpoint) (target s : State L) (h : State.SameType s target) (hc : cp.completedNodes = [])
    (hb : cp.stateBytes = s.serializeAsString)
    (ht : cp.stateType = "" ∨ s.unsafeMessage.map Message.getTypeName = some cp.stateType) :
    ColdStartRefines S B cp target s ↔
      (S.order.filter fun id => id ∈ S.graph.entryNodeIds) = S.graph.entryNodeIds := by
  have hres := resumeTarget_of_bytes hL h hb ht
  constructor
  · exact order_of_refines hres hc
  · intro hord
    refine ⟨_, _, resume_cold S hres hc, ?_⟩
    rw [runStart_fresh, hord]
    exact (executions_loops rfl).symm

/-- The join, with a map that iterates in the order of the nodes. -/
theorem coldStart_join : ColdStartRefines (Setup.plain .join) (fun _ _ _ => True)
    (makeCheckpoint [] (Libs.text.state [1])) (Libs.text.state []) (Libs.text.state [1]) :=
  (coldStart_iff Libs.text_roundTrip (Setup.plain .join) _ _ _ _ (Libs.text.state_sameType _ _) rfl rfl
    (Or.inr rfl)).mpr (by decide)

/-- The same setup with a map that iterates backwards. -/
def Setup.backwards (graph : Graph) : Setup :=
  { Setup.plain graph with order := graph.nodes.reverse, order_perm := graph.nodes.reverse_perm }

/-- There `Resume` starts `b` before `a`, which `Run` never does. -/
theorem coldStart_backwards : ¬ ColdStartRefines (Setup.backwards .join) (fun _ _ _ => True)
    (makeCheckpoint [] (Libs.text.state [1])) (Libs.text.state []) (Libs.text.state [1]) := by
  intro h
  have := order_of_refines
    (resumeTarget_makeCheckpoint Libs.text_roundTrip [] (Libs.text.state_sameType [1] [])) rfl h
  revert this
  decide

end AgentFlow
