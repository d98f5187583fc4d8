/-
# What a successful run leaves in its log

`Ledger`, next to `Frontier` along the same runs: every node started at most
once, each start came after the completions of all predecessors and with the
input they sent, each output is one the node may return on that input, one
checkpoint was written after each, and the terminal state is the output of the
terminal node that completed last.

Key definitions: `StartOk`, `written`, `lastTerminal`, `Ledger`.
-/
import AgentFlow.Core.Frontier

namespace AgentFlow

variable {L : Libs}

open History Precedence Stepping

/-- What a start in the log says of the events before it. -/
def StartOk (g : Graph) (B : Base L) (before : List (Event L)) (ev : Event L) : Prop :=
  ∀ n input, ev = .nodeStart n input →
    (∀ a, g.Pred a n → a ∈ B.pre ++ completions before) ∧
      B.seed n ++ delivered g n (outputs before) ≠ [] ∧ input = inputOf g B n (outputs before)

/-- The checkpoints of the policy that writes one after each node, when `pre`
had completed before. -/
def written : List Id → List (Id × State L) → List Checkpoint
  | _, [] => []
  | pre, p :: outs => makeCheckpoint (pre ++ [p.1]) p.2 :: written (pre ++ [p.1]) outs

theorem written_snoc : ∀ (outs : List (Id × State L)) (pre : List Id) (p : Id × State L),
    written pre (outs ++ [p]) = written pre outs ++ [makeCheckpoint (pre ++ outs.map (·.1) ++ [p.1]) p.2]
  | [], pre, p => by simp [written]
  | q :: outs, pre, p => by simp [written, written_snoc outs]

/-- The output of the terminal node that completed last. -/
def lastTerminal (g : Graph) (outs : List (Id × State L)) : Option (State L) :=
  (outs.filter fun p => !hasOutgoing g p.1).getLast?.map (·.2)

theorem lastTerminal_snoc (g : Graph) (outs : List (Id × State L)) (p : Id × State L) :
    lastTerminal g (outs ++ [p]) = if hasOutgoing g p.1 then lastTerminal g outs else some p.2 := by
  by_cases h : hasOutgoing g p.1 = true <;> simp [lastTerminal, List.filter_append, h]

/-- What the run returns. -/
def resultOf (g : Graph) (B : Base L) (outs : List (Id × State L)) : Option (State L) :=
  ((lastTerminal g outs).map State.clone).or B.terminal

/-- The log of a successful run. -/
structure Ledger (S : Setup) (B : Base L) (Out : Id → State L → State L → Prop) (x : Exec L) : Prop where
  started : (starts x.log).Perm (x.running.map (·.node) ++ (outputs x.log).map (·.1))
  startOk : Each (StartOk S.graph B) x.log
  ordered : InOrder S.graph.Pred (B.pre ++ starts x.log)
  completions : completions x.log = (outputs x.log).map (·.1)
  computed : Each (fun outs p => Out p.1 (inputOf S.graph B p.1 outs) p.2) (outputs x.log)
  written : S.opts.checkpointPolicy = .afterEachNode → checkpoints x.log = written B.pre (outputs x.log)
  terminal : x.pc.finished = false → x.impl.terminalState = resultOf S.graph B (outputs x.log)
  returned : ∀ r, x.pc = .returned r → r = (resultOf S.graph B (outputs x.log)).getD .null

/-- An event that the ledger does not look at. -/
def Silent (ev : Event L) : Prop :=
  Event.start? ev = none ∧ Event.output? ev = none ∧ Event.completed? ev = none ∧ Event.checkpoint? ev = none

theorem Silent.not_start {ev : Event L} (h : Silent ev) (n : Id) (input : State L) : ev ≠ .nodeStart n input := by
  rintro rfl
  cases h.1

namespace Ledger

variable {S : Setup} {B : Base L} {Out : Id → State L → State L → Prop} {x y : Exec L}

/-- A step that only moves the main loop. -/
theorem silent (h : Ledger S B Out x) {ev : Event L} (hev : Silent ev) (hl : y.log = x.log ∨ y.log = x.log ++ [ev])
    (hr : y.running = x.running)
    (ht : y.pc.finished = false → y.impl.terminalState = resultOf S.graph B (outputs x.log))
    (hret : ∀ r, y.pc = .returned r → r = (resultOf S.graph B (outputs x.log)).getD .null) : Ledger S B Out y := by
  obtain ⟨e1, e2, e3, e4⟩ := hev
  have hlog : starts y.log = starts x.log ∧ outputs y.log = outputs x.log ∧
      AgentFlow.completions y.log = AgentFlow.completions x.log ∧ checkpoints y.log = checkpoints x.log := by
    rcases hl with hl | hl <;> rw [hl]
    · exact ⟨rfl, rfl, rfl, rfl⟩
    · simp [starts, outputs, AgentFlow.completions, checkpoints, e1, e2, e3, e4]
  obtain ⟨l1, l2, l3, l4⟩ := hlog
  refine
    { started := by rw [l1, l2, hr]; exact h.started
      startOk := ?_
      ordered := by rw [l1]; exact h.ordered
      completions := by rw [l2, l3]; exact h.completions
      computed := by rw [l2]; exact h.computed
      written := by rw [l2, l4]; exact h.written
      terminal := by rw [l2]; exact ht
      returned := by rw [l2]; exact hret }
  rcases hl with hl | hl <;> rw [hl]
  · exact h.startOk
  · exact each_snoc.mpr ⟨h.startOk, fun n i he => absurd he (Silent.not_start ⟨e1, e2, e3, e4⟩ n i)⟩

theorem finish (h : Ledger S B Out x) (hF : Frontier S B x) (loop : Loop) {k : ℕ} {t : Task L}
    (hk : x.running[k]? = some t) (hrun : x.pc.mayRun t.node = true) {out : State L}
    (hout : Out t.node t.input out) :
    Ledger S B Out (complete S loop t.node (.ok out) none { x with running := x.running.eraseIdx k }) := by
  set x' : Exec L := { x with running := x.running.eraseIdx k } with hx'
  have hcan : x'.cancelled = false := hF.cancelled
  obtain ⟨e1, -, e3, -⟩ := complete_keeps S loop t.node (.ok out) none x'
  have hi := complete_quiet_impl S loop t.node out hcan
  have hlog := complete_quiet_log S loop t.node out hcan
  have hmem : t ∈ x.running := List.mem_of_getElem? hk
  have hnf := (Pc.of_mayRun hrun).1
  have ho : outputs (complete S loop t.node (.ok out) none x').log = outputs x.log ++ [(t.node, out)] := by
    rw [hlog, outputs_append,
      show ∀ l, outputs (Event.output t.node out :: l) = (t.node, out) :: outputs l from fun _ => rfl,
      outputs_quietTail]
  have hst : starts (complete S loop t.node (.ok out) none x').log = starts x.log := by
    rw [hlog, starts_append, show ∀ l, starts (Event.output t.node out :: l) = starts l from fun _ => rfl,
      starts_quietTail, List.append_nil]
  refine
    { started := ?_
      startOk := ?_
      ordered := by rw [hst]; exact h.ordered
      completions := ?_
      computed := ?_
      written := fun hp => ?_
      terminal := fun _ => ?_
      returned := fun r hr => ?_ }
  · rw [ho, e3, hst]
    obtain ⟨hlt, rfl⟩ := List.getElem?_eq_some_iff.mp hk
    have hp := ((List.getElem_cons_eraseIdx_perm hlt).map (·.node)).symm
    refine h.started.trans ((hp.append_right _).trans ?_)
    simp only [List.map_cons, List.map_append, List.map_nil, List.cons_append]
    rw [← List.append_assoc]
    exact (List.perm_append_singleton _ _).symm
  · rw [hlog]
    refine h.startOk.append_of_forall fun ev hev p n i he => ?_
    subst he
    rcases List.mem_cons.mp hev with hev | hev
    · cases hev
    · rcases mem_quietTail S _ _ _ hev with hev | hev | ⟨e, -, -, hev⟩ | hev | hev <;> cases hev
  · rw [ho, hlog, completions_append,
      show ∀ l, AgentFlow.completions (Event.output t.node out :: l) = AgentFlow.completions l from fun _ => rfl,
      completions_quietTail, h.completions]
    simp
  · rw [ho]
    refine each_snoc.mpr ⟨h.computed, ?_⟩
    rw [← (hF.inputs t (List.mem_append_right _ hmem)).2]
    exact hout
  · rw [ho, hlog, checkpoints_append,
      show ∀ l, checkpoints (Event.output t.node out :: l) = checkpoints l from fun _ => rfl,
      checkpoints_quietTail S _ _ _ hp, written_snoc, h.written hp]
    simp only [hx', hF.plan.completed]
  · have hf := fun es (m : Impl L) => congrArg Impl.terminalState (Impl.fires_eq out es m)
    have ht := h.terminal hnf
    rw [ho, hi, resultOf, lastTerminal_snoc]
    simp only [Impl.finish, Impl.retire, Impl.modify, if_true]
    split_ifs
    · simp [hf, Impl.track, ht, resultOf, hx']
    · simp [Impl.setTerminal]
  · rw [e1] at hr
    rw [show x.pc = _ from hr] at hnf
    cases hnf

theorem step {loop : Loop} {c : Choice L} (h : Ledger S B Out x) (hF : Frontier S B x)
    (hok : Succeeds Out x c) (hs : Moves S loop c x y) : Ledger S B Out y := by
  have hsil : Silent (Event.cancel : Event L) := ⟨rfl, rfl, rfl, rfl⟩
  cases hs with
  | @launch _ n rest last hpc =>
    have ht := h.terminal (by rw [hpc]; rfl)
    have hev : Silent (Event.launch n : Event L) := ⟨rfl, rfl, rfl, rfl⟩
    exact h.silent hev (Or.inr rfl) rfl (fun _ => ht) fun r hr => by cases hr
  | batchDone hpc =>
    have ht := h.terminal (by rw [hpc]; rfl)
    exact h.silent hsil (Or.inl rfl) rfl (fun _ => ht) fun r hr => by cases hr
  | drained hpc hr =>
    have ht := h.terminal (by rw [hpc]; rfl)
    exact h.silent hsil (Or.inl rfl) rfl (fun _ => ht) fun r hr => by cases hr
  | batch hpc hr =>
    have ht := h.terminal (by rw [hpc]; rfl)
    exact h.silent hsil (Or.inl rfl) rfl (fun _ => ht) fun r hr => by cases hr
  | leave hpc h0 =>
    have ht := h.terminal (by rw [hpc]; rfl)
    obtain ⟨-, f2, -, -, f5, f6⟩ := leave_rest x
    refine h.silent ⟨rfl, rfl, rfl, rfl⟩ (Or.inr f5) f2 (fun hf => by rw [f6] at hf; cases hf) fun r hr => ?_
    rw [← ht]
    rw [AgentFlow.leave, hF.firstError] at hr
    simp only at hr
    split at hr <;> rename_i hts <;> cases hr <;> rw [hts] <;> rfl
  | wait hpc h0 =>
    have ht := h.terminal (by rw [hpc]; rfl)
    exact h.silent hsil (Or.inl rfl) rfl (fun _ => ht) fun r hr => by cases hr
  | receive hpc hd =>
    have ht := h.terminal (by rw [hpc]; rfl)
    have hr : received { x with done := x.done - 1 } = { x with done := x.done - 1, pc := .scan } := by
      simp [received, hF.firstError]
    rw [hr]
    exact h.silent hsil (Or.inl rfl) rfl (fun _ => ht) fun r hr => by cases hr
  | @start _ t ts hq hrun =>
    have hin := hF.inputs t (by rw [hq]; exact List.mem_append_left _ List.mem_cons_self)
    have hpre := hF.plan.preds t.node (by rw [Exec.tasks, hq]; simp)
    rw [hF.plan.completed] at hpre
    have hst : starts (x.log ++ [Event.nodeStart t.node t.input]) = starts x.log ++ [t.node] := by
      simp [starts, Event.start?]
    have hout : outputs (x.log ++ [Event.nodeStart t.node t.input]) = outputs x.log := by
      simp [outputs, Event.output?]
    refine
      { started := ?_
        startOk := each_snoc.mpr ⟨h.startOk, ?_⟩
        ordered := ?_
        completions := ?_
        computed := ?_
        written := ?_
        terminal := ?_
        returned := ?_ }
    · show (starts (x.log ++ [Event.nodeStart t.node t.input])).Perm
        ((x.running ++ [t]).map (·.node) ++ (outputs (x.log ++ [Event.nodeStart t.node t.input])).map (·.1))
      rw [hout, hst]
      refine (h.started.append_right _).trans ?_
      simp only [List.map_append, List.map_cons, List.map_nil, List.append_assoc]
      exact (List.perm_append_comm).append_left _
    · rintro n i he
      cases he
      exact ⟨by rw [h.completions]; exact hpre, hin⟩
    · rw [hst, ← List.append_assoc]
      refine h.ordered.snoc fun a ha => ?_
      rcases List.mem_append.mp (hpre a ha) with hm | hm
      · exact List.mem_append_left _ hm
      · exact List.mem_append_right _ (h.started.mem_iff.mpr (List.mem_append_right _ hm))
    · show AgentFlow.completions (x.log ++ [Event.nodeStart t.node t.input]) = _
      rw [hout, ← h.completions]
      simp [AgentFlow.completions, Event.completed?]
    · rw [hout]; exact h.computed
    · show _ → checkpoints (x.log ++ [Event.nodeStart t.node t.input]) = _
      rw [hout, checkpoints_append, show checkpoints [Event.nodeStart t.node t.input] = [] from rfl,
        List.append_nil]
      exact h.written
    · rw [hout]; exact h.terminal
    · rw [hout]; exact h.returned
  | @finish _ k t res cut hk hrun =>
    obtain ⟨rfl, out, rfl, hout⟩ := hok
    exact h.finish hF loop hk hrun (hout t hk)
  | cancel hpc => exact hok.elim

theorem run (hw : S.graph.WaitsForAll) {loop : Loop} {cs : List (Choice L)}
    (hr : Run (AgentFlow.step S loop) (Succeeds Out) x cs y) (hF : Frontier S B x) (h : Ledger S B Out x) :
    Ledger S B Out y :=
  (hr.invariant (I := fun z => Frontier S B z ∧ Ledger S B Out z)
    (fun _ _ _ hI hok hs => ⟨hI.1.step hw hok (step_eq_some.mp hs), hI.2.step hI.1 hok (step_eq_some.mp hs)⟩)
    ⟨hF, h⟩).2

end Ledger

/-! ### The first state -/

section begin

variable {S : Setup} {B : Base L} {m : Impl L} {batch : List Id}

theorem Frontier.begin (hm : Idle m) (hp : Plan S.graph B m [] []) (he : m.firstError = none) (hb : batch.Nodup)
    (hd : ∀ n ∈ batch, Due S.graph B m.completedNodeIds [] n) : Frontier S B (Exec.begin m batch) where
  tasks := Tasks.begin hm hb
  plan := hp
  cancelled := rfl
  firstError := he
  batch b last h := by
    cases h
    exact hd
  drained h := by simp [Exec.begin, Pc.finished] at h
  inputs t ht := by simp [Exec.begin] at ht
  unthrown e h := by simp [Exec.begin] at h

theorem Ledger.begin (Out : Id → State L → State L → Prop) (ht : m.terminalState = B.terminal)
    (ho : InOrder S.graph.Pred B.pre) : Ledger S B Out (Exec.begin m batch) where
  started := List.Perm.nil
  startOk := each_nil
  ordered := by simpa [Exec.begin, starts] using ho
  completions := rfl
  computed := each_nil
  written _ := rfl
  terminal _ := ht
  returned r h := by simp [Exec.begin] at h

/-- The steps that a run from the first state can take. -/
theorem budget_begin_le (S : Setup) (m : Impl L) (batch : List Id) :
    budget S (Exec.begin m batch) ≤ 8 * S.graph.nodes.length + 3 := by
  have hr : Pc.rank (.launching batch none : Pc L) ≤ 3 := by cases batch <;> simp [Pc.rank]
  simp only [budget, load, Exec.begin, Exec.tasks, List.append_nil, List.map_nil, List.length_nil]
  omega

end begin

end AgentFlow
