/-
# Checkpoints and the kinds of State

A checkpoint records the bytes of a node's output and, if it holds a protobuf
message, the name of its type. `Resume` asks for a target that holds a
message of that name. So the checkpoint of a protobuf-backed state, compiled
or dynamic, is restored into a target of its message type, of either kind, and
rejected for any other (`Restores`). A state without a message has no type
name, and no target of its kind is accepted.

Every checkpoint of a run lists nodes of the graph and holds the output of
one (`Written`), so this is what `Resume` does with each (`checkpoint_restores`).

Key definitions: `Written`, `Continues`, `Restores`.
-/
import AgentFlow.Core.Resume

namespace AgentFlow

variable {L : Libs}

open Stepping

/-! ### What a run writes -/

/-- The checkpoints of a run, and the nodes it knows. -/
structure Written (S : Setup) (x : Exec L) : Prop where
  tasks : ∀ v ∈ x.tasks, v ∈ S.graph.nodes
  batch : ∀ b last, x.pc = .launching b last → ∀ v ∈ b, v ∈ S.graph.nodes
  completed : ∀ v ∈ x.impl.completedNodeIds, v ∈ S.graph.nodes
  written : ∀ n cp, .checkpoint n cp ∈ x.log →
    ∃ out ids, .output n out ∈ x.log ∧ cp = makeCheckpoint ids out ∧ ∀ v ∈ ids, v ∈ S.graph.nodes

/-- What a completion records. -/
theorem finish_completed_sub (g : Graph) (n : Id) (res : Except L.Exception (State L)) (a b : Bool) (m : Impl L)
    {v : Id} (h : v ∈ (m.finish g n res a b).completedNodeIds) : v ∈ m.completedNodeIds ∨ v = n := by
  cases res with
  | error e => exact Or.inl h
  | ok out =>
    rw [finish_completed, List.mem_append] at h
    refine h.imp id fun h => ?_
    split_ifs at h
    · exact List.mem_singleton.mp h
    · cases h

namespace Written

variable {S : Setup} {loop : Loop} {c : Choice L} {x y : Exec L}

/-- A step in which no node completes. -/
theorem other (h : Written S x) (htasks : ∀ v ∈ y.tasks, v ∈ S.graph.nodes)
    (hb : ∀ b last, y.pc = .launching b last → ∀ v ∈ b, v ∈ S.graph.nodes)
    (hc : y.impl.completedNodeIds = x.impl.completedNodeIds) {evs : List (Event L)} (hl : y.log = x.log ++ evs)
    (hevs : ∀ n cp, .checkpoint n cp ∉ evs) : Written S y := by
  refine ⟨htasks, hb, fun v hv => h.completed v (hc ▸ hv), fun n cp hcp => ?_⟩
  rw [hl, List.mem_append] at hcp
  obtain ⟨out, ids, ho, hrest⟩ := h.written n cp (hcp.resolve_right (hevs n cp))
  exact ⟨out, ids, by rw [hl]; exact List.mem_append_left _ ho, hrest⟩

theorem finish (h : Written S x) {k : ℕ} {t : Task L} {res : Except L.Exception (State L)}
    {cut : Option CancelPoint} (hk : x.running[k]? = some t) :
    Written S (complete S loop t.node res cut { x with running := x.running.eraseIdx k }) := by
  set x' : Exec L := { x with running := x.running.eraseIdx k } with hx'
  obtain ⟨e1, e2, e3, -⟩ := complete_keeps S loop t.node res cut x'
  have hlog := complete_log S loop t.node res cut x'
  have hp := tasks_perm hk
  have hnode : t.node ∈ S.graph.nodes := h.tasks _ (hp.mem_iff.mpr List.mem_cons_self)
  refine ⟨fun v hv => ?_, fun b l hb => h.batch b l (e1 ▸ hb), fun v hv => ?_, fun n cp hcp => ?_⟩
  · rw [Exec.tasks, e2, e3] at hv
    exact h.tasks v (hp.mem_iff.mpr (List.mem_cons_of_mem _ hv))
  · rw [complete_impl] at hv
    rcases finish_completed_sub _ _ _ _ _ _ hv with hv | rfl
    · exact h.completed v hv
    · exact hnode
  · rw [hlog, List.mem_append] at hcp
    rcases hcp with hcp | hcp
    · obtain ⟨out, ids, ho, hrest⟩ := h.written n cp hcp
      exact ⟨out, ids, by rw [hlog]; exact List.mem_append_left _ ho, hrest⟩
    · obtain ⟨rfl, out, rfl, rfl⟩ := checkpoint_mem_completionEvents hcp
      refine ⟨out, _, ?_, rfl, fun v hv => ?_⟩
      · rw [hlog]
        exact List.mem_append_right _ List.mem_cons_self
      · rcases List.mem_append.mp hv with hv | hv
        · exact h.completed v hv
        · rw [List.mem_singleton.mp hv]
          exact hnode

theorem step (h : Written S x) (hs : Moves S loop c x y) : Written S y := by
  rcases hs.split with ⟨n, rest, last, rfl, hpc, rfl⟩ | ⟨k, t, res, cut, rfl, hk, -, rfl⟩ | hp
  · refine h.other (fun v hv => ?_) (fun b l hb v hv => ?_) rfl (step_log hs) (by simp [stepEvents, hpc])
    · simp only [Exec.tasks, AgentFlow.launch, List.map_append, List.mem_append, List.map_cons, List.map_nil,
        List.mem_singleton] at hv
      rcases hv with (hv | rfl) | hv
      · exact h.tasks v (by simp only [Exec.tasks, List.map_append, List.mem_append]; exact Or.inl hv)
      · exact h.batch _ _ hpc _ List.mem_cons_self
      · exact h.tasks v (by simp only [Exec.tasks, List.map_append, List.mem_append]; exact Or.inr hv)
    · cases hb
      exact h.batch _ _ hpc v (List.mem_cons_of_mem _ hv)
  · exact h.finish hk
  · refine h.other (fun v hv => h.tasks v (hp.tasks.mem_iff.mp hv)) (fun b l hb v hv => ?_) hp.completed hp.log
      fun n cp hcp => ?_
    · rcases hp.batch b l hb with he | rfl
      · exact h.batch b l (he ▸ hb) v hv
      · exact (mem_ready.mp hv).1
    · rcases hp.events _ hcp with ⟨m, i, he⟩ | he | ⟨b, he⟩ <;> cases he

theorem begin {m : Impl L} {batch : List Id} (hb : ∀ v ∈ batch, v ∈ S.graph.nodes)
    (hc : ∀ v ∈ m.completedNodeIds, v ∈ S.graph.nodes) : Written S (Exec.begin m batch) where
  tasks v hv := by cases hv
  batch b last h := by
    cases h
    exact hb
  completed := hc
  written n cp h := by cases h

/-- A run starts on nodes of the graph: `Resume` checks those it is given. -/
theorem of_origin {x₀ : Exec L} (h : Origin S loop x₀) : Written S x₀ := by
  cases h with
  | run s =>
    rw [runStart_fresh]
    obtain ⟨-, -, hc⟩ := seeded_rest S.graph s
    exact begin (fun v hv => Graph.entryNodeIds_sub hv) (by simp [hc])
  | @resume cp target m _ h =>
    rcases resume_cases S .fresh cp target with ⟨msg, -, hr⟩ | ⟨t, msg, -, -, hr⟩ | ⟨t, -, hk, hr⟩ <;> rw [hr] at h <;>
      cases h
    refine begin (fun v hv => (mem_ready.mp hv).1) fun v hv => hk v ?_
    by_cases hne : cp.completedNodes = []
    · rw [hne] at hv
      rw [show (replay S.graph [] t (initActivations S.graph .fresh)).completedNodeIds = [] from
        (seeded_rest S.graph t).2.2] at hv
      cases hv
    · exact (replayed_rest S.graph hne t).1 ▸ hv

end Written

/-! ### What is restored -/

/-- The run goes on until it is over: the loop moves or a node does, with
whatever result. -/
def Continues (S : Setup) (x : Exec L) : Prop :=
  ∀ cs z, Run (step S .runInner) (fun _ _ => True) x cs z → z.pc.finished = false →
    ∀ res, ∃ c w, (c = .main ∨ c = .start ∨ c = .finish 0 res none) ∧ step S .runInner c z = some w

/-- What `Resume` does with a checkpoint of `out`, if `out` holds a message. -/
structure Restores (S : Setup) (cp : Checkpoint) (out : State L) : Prop where
  /-- A target of the message type, of either kind, becomes a state with that
  message, equal to `out` if it is of its kind; and the run continues with it. -/
  accepts : ∀ (m m' : Message L) (target : State L), out.unsafeMessage = some m → target.unsafeMessage = some m' →
    m.descriptor = m'.descriptor → ∃ t i x, resumeTarget cp target = .ok t ∧ t.unsafeMessage = some m ∧
      t.kind = target.kind ∧ (target.kind = out.kind → t = out) ∧ resume S .fresh cp target = (i, .ok x) ∧
      x.impl = replayed S.graph cp.completedNodes t ∧ Continues S x
  /-- A target of another type, or without a message, is rejected. -/
  rejects : ∀ (m : Message L) (target : State L), out.unsafeMessage = some m →
    (∀ m', target.unsafeMessage = some m' → m'.getTypeName ≠ m.getTypeName) →
      ∃ msg, resume S .fresh cp target = (.fresh, .error msg)

theorem resume_error (S : Setup) (m : Impl L) {cp : Checkpoint} {target : State L} {msg : String}
    (h : resumeTarget cp target = .error msg) : resume S m cp target = (m, .error msg) := by
  simp only [resume, h]

theorem resumeTarget_no_message (cp : Checkpoint) {target : State L} (h : target.unsafeMessage = none) :
    ∃ msg, resumeTarget cp target = .error msg := by
  simp only [resumeTarget, h]
  exact ⟨_, rfl⟩

theorem resumeTarget_other_type {cp : Checkpoint} {target : State L} {m : Message L}
    (h : target.unsafeMessage = some m) (hne : cp.stateType ≠ "") (hother : cp.stateType ≠ m.getTypeName) :
    ∃ msg, resumeTarget cp target = .error msg := by
  simp only [resumeTarget, h, if_pos (And.intro hne hother)]
  exact ⟨_, rfl⟩

theorem Origin.continues {S : Setup} {x : Exec L} (h : Origin S .runInner x) : Continues S x := by
  obtain ⟨m, batch, rfl, hidle, -, hnd⟩ := h.begin
  intro cs z hr hf res
  exact exists_step S .runInner (Tasks.run hr (Tasks.begin hidle hnd)) hf res

theorem makeCheckpoint_restores (hL : L.ProtoRoundTrip) (S : Setup) {ids : List Id}
    (hids : ∀ v ∈ ids, v ∈ S.graph.nodes) (out : State L) : Restores S (makeCheckpoint ids out) out := by
  constructor
  · intro m m' target hm hm' hd
    have ht : resumeTarget (makeCheckpoint ids out) target = .ok _ :=
      resumeTarget_of_message hL hm hm' hd rfl (Or.inr (by simp [makeCheckpoint, hm]))
    have hres := resume_fresh S ht hids
    refine ⟨_, _, _, ht, rfl, ?_, fun hk => ?_, hres, rfl, (Origin.resume hres).continues⟩
    · rw [State.eq_of_kind hm' hm' rfl]
      rfl
    · exact (State.eq_of_kind hm hm' hk.symm).symm
  · intro m target hm hother
    have hname : (makeCheckpoint ids out).stateType = m.getTypeName := by simp [makeCheckpoint, hm]
    cases hm' : target.unsafeMessage with
    | none =>
      obtain ⟨msg, h⟩ := resumeTarget_no_message (makeCheckpoint ids out) hm'
      exact ⟨msg, resume_error S _ h⟩
    | some m' =>
      have hne : (makeCheckpoint ids out).stateType ≠ "" := by rw [hname]; exact L.fullName_ne _
      obtain ⟨msg, h⟩ := resumeTarget_other_type hm' hne (by rw [hname]; exact (hother m' hm').symm)
      exact ⟨msg, resume_error S _ h⟩

/-- **Every checkpoint of a protobuf-backed output is restored**, into a target
of its message type, and rejected for any other. -/
theorem checkpoint_restores (hL : L.ProtoRoundTrip) (S S' : Setup) (hg : S'.graph = S.graph) (loop : Loop)
    (x₀ : Exec L) (h₀ : Origin S loop x₀) (cs : List (Choice L)) (y : Exec L)
    (hr : Run (step S loop) (fun _ _ => True) x₀ cs y) (cp : Checkpoint) (hcp : cp ∈ checkpoints y.log) :
    ∃ n out, .output n out ∈ y.log ∧ cp = makeCheckpoint cp.completedNodes out ∧ Restores S' cp out := by
  have hy : Written S y := hr.invariant (fun _ _ _ hI _ hs => hI.step (step_eq_some.mp hs)) (Written.of_origin h₀)
  obtain ⟨n, hn⟩ := mem_checkpoints.mp hcp
  obtain ⟨out, ids, ho, rfl, hids⟩ := hy.written n cp hn
  exact ⟨n, out, ho, rfl, makeCheckpoint_restores hL S' (by rw [hg]; exact hids) out⟩

/-- The choices of the chain up to the first node's checkpoint. -/
def firstNode (out : State Libs.text) : List (Choice Libs.text) :=
  [.main, .main, .main, .main, .start, .finish 0 (.ok out) none]

theorem line_writes : ∃ y, Run (step (Setup.plain .line) .run) (fun _ _ => True)
    (runStart (Setup.plain .line) .fresh (Libs.text.state [0])) (firstNode (Libs.text.state [1])) y ∧
    makeCheckpoint ["a"] (Libs.text.state [1]) ∈ checkpoints y.log := by
  have h : (check (step (Setup.plain .line) .run) (fun _ _ => true) (firstNode (Libs.text.state [1]))
      (runStart (Setup.plain .line) .fresh (Libs.text.state [0]))).any
      (fun y => decide (makeCheckpoint ["a"] (Libs.text.state [1]) ∈ checkpoints y.log)) = true := by
    decide
  obtain ⟨y, hr, hcp⟩ := Run.exists_of_check (fun _ _ => True) h fun _ _ _ => trivial
  exact ⟨y, hr, of_decide_eq_true hcp⟩

/-- A compiled state on the chain. -/
theorem checkpoint_restores_line : ∃ y : Exec Libs.text, ∃ n out, .output n out ∈ y.log ∧
    Restores (Setup.plain .line) (makeCheckpoint ["a"] (Libs.text.state [1])) out := by
  obtain ⟨y, hr, hcp⟩ := line_writes
  obtain ⟨n, out, ho, -, hres⟩ := checkpoint_restores Libs.text_roundTrip (Setup.plain .line) (Setup.plain .line) rfl
    .run _ (.run _) _ y hr _ hcp
  exact ⟨y, n, out, ho, hres⟩

/-- A JSON state of the concrete instance. -/
def Libs.text.doc (b : Bytes) : State Libs.text := .fromJson b

/-- A JSON state's checkpoint is rejected for every JSON target, though its
bytes would parse; and a compiled state's is accepted for a dynamic target. -/
theorem checkpoint_kinds : Libs.text.JsonRoundTrip ∧
    (∃ y, Run (step (Setup.plain .line) .run) (fun _ _ => True)
      (runStart (Setup.plain .line) .fresh (Libs.text.doc [0])) (firstNode (Libs.text.doc [1])) y ∧
      makeCheckpoint ["a"] (Libs.text.doc [1]) ∈ checkpoints y.log ∧
      ∀ target : State Libs.text, target.kind = .json → ∃ msg,
        resume (Setup.plain .line) .fresh (makeCheckpoint ["a"] (Libs.text.doc [1])) target = (.fresh, .error msg)) ∧
    ∃ y, Run (step (Setup.plain .line) .run) (fun _ _ => True)
      (runStart (Setup.plain .line) .fresh (Libs.text.state [0])) (firstNode (Libs.text.state [1])) y ∧
      makeCheckpoint ["a"] (Libs.text.state [1]) ∈ checkpoints y.log ∧
      ∃ (target : State Libs.text) (i : Impl Libs.text) (x : Exec Libs.text),
        target.kind ≠ (Libs.text.state [1]).kind ∧
        resume (Setup.plain .line) .fresh (makeCheckpoint ["a"] (Libs.text.state [1])) target = (i, .ok x) := by
  refine ⟨fun _ => rfl, ?_, ?_⟩
  · have h : (check (step (Setup.plain .line) .run) (fun _ _ => true) (firstNode (Libs.text.doc [1]))
        (runStart (Setup.plain .line) .fresh (Libs.text.doc [0]))).any
        (fun y => decide (makeCheckpoint ["a"] (Libs.text.doc [1]) ∈ checkpoints y.log)) = true := by
      decide
    obtain ⟨y, hr, hcp⟩ := Run.exists_of_check (fun _ _ => True) h fun _ _ _ => trivial
    refine ⟨y, hr, of_decide_eq_true hcp, fun target hk => ?_⟩
    have hnone : target.unsafeMessage = none := by
      rcases target with ⟨p, b⟩
      cases b with
      | json j => rfl
      | proto m => cases p <;> cases hk
    obtain ⟨msg, hmsg⟩ := resumeTarget_no_message (makeCheckpoint ["a"] (Libs.text.doc [1])) hnone
    exact ⟨msg, resume_error _ _ hmsg⟩
  · obtain ⟨y, hr, hcp⟩ := line_writes
    exact ⟨y, hr, hcp, .fromDynamicProto ⟨"T", []⟩, _, _, by decide, rfl⟩

end AgentFlow
