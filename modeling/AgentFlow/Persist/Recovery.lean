/-
# A chain that is killed again and again

On a chain every process that finds the file of the one before it takes up the
chain where the file says, and is lost again. However often that happens and
however the schedules go, the file says of a first part of the chain that it
is done, with the output an undisturbed run has there (`Holds`); this part
never shrinks, no node of it is run again, and a process that is not lost
returns what the undisturbed run returns.

Key definitions: `Holds`, `Begins`, `Process`, `Crashes`.
Key theorems: `onward_of_run`, `crashes_recover`.
-/
import AgentFlow.Core.Chain
import AgentFlow.Persist.FileCheckpoints

namespace AgentFlow.Persist

open Precedence Stepping

variable {L : Libs} {S : Setup} {C : Codec} {f : Id → State L → State L} {s target : State L} {ns : List Id}
  {path : String} {content : Option Bytes} {k : ℕ} {y : Exec L}

/-- The file says that the first `k` nodes are done. -/
def Holds (C : Codec) (f : Id → State L → State L) (s : State L) (ns : List Id) : ℕ → Option Bytes → Prop
  | 0, content => content = none
  | k + 1, content => ∃ p message bytes, (chainOuts f s.clone ns)[k]? = some p ∧
      message.toCheckpoint = makeCheckpoint (ns.take (k + 1)) p.2 ∧ C.serializeToString message = some bytes ∧
      content = some bytes

/-- How a process begins that finds `content` at the path. -/
inductive Begins (S : Setup) (C : Codec) (s target : State L) (path : String) (content : Option Bytes) :
    Loop → Exec L → Prop
  | run (h : content = none) : Begins S C s target path content .run (runStart S .fresh s)
  | resume {errno : String} {message : StampedCheckpoint} {m : Impl L} {x : Exec L}
      (hread : readCheckpointFromFile C path errno content = .ok message)
      (h : resume S .fresh message.toCheckpoint target = (m, .ok x)) : Begins S C s target path content .runInner x

/-- A process on the chain, from its beginning to where it is lost or has returned, with its
writes on the disk. -/
structure Process (S : Setup) (C : Codec) (f : Id → State L → State L) (s target : State L) (path : String)
    (file : String → Option Bytes) where
  loop : Loop
  first : Exec L
  begins : Begins S C s target path (file path) loop first
  choices : List (AgentFlow.Choice L)
  last : Exec L
  runs : Run (AgentFlow.step S loop) (Computes f) first choices last
  calls : List Choice
  disk : Disk
  writes_run : Run (step C path) Flushes ⟨file, none, []⟩ calls disk
  writes_eq : (writes disk.log).map (·.toCheckpoint) = checkpoints last.log

/-- The files after any number of processes. -/
inductive Crashes (S : Setup) (C : Codec) (f : Id → State L → State L) (s target : State L) (path : String) :
    (String → Option Bytes) → Prop
  | none {file : String → Option Bytes} (h : file path = none) : Crashes S C f s target path file
  | lost {file : String → Option Bytes} (h : Crashes S C f s target path file)
      (process : Process S C f s target path file) : Crashes S C f s target path process.disk.file

/-- What an undisturbed run returns. -/
def chainResult (f : Id → State L → State L) (s : State L) (ns : List Id) : State L :=
  ((chainOuts f s.clone ns).getLast?.map fun p => p.2.clone).getD .null

/-! ### One process -/

/-- A run on the chain after its first `k` nodes. -/
structure Onward (S : Setup) (f : Id → State L → State L) (s : State L) (ns : List Id) (k : ℕ) (y : Exec L) : Prop where
  begun : starts y.log <+: ns.drop k
  computed : outputs y.log <+: (chainOuts f s.clone ns).drop k
  recorded : S.opts.checkpointPolicy = .afterEachNode → checkpoints y.log = written (ns.take k) (outputs y.log)
  returned : y.pc.finished = true → starts y.log = ns.drop k ∧ y.pc = .returned (chainResult f s ns)

/-- The nodes of a chain, up to any of them, are in order. -/
theorem inOrder_take (hc : S.graph.IsChain ns) (k : ℕ) : InOrder S.graph.Pred (ns.take k) := by
  refine InOrder.of_isPrefix (l := ns) ?_ (List.take_prefix _ _)
  intro l b r hsplit a ha
  obtain ⟨l', r', hl'⟩ := (hc.pred a b).mp ha
  have hnd := hc.nodup
  -- the two places of `b` are one
  have hl : l = l' ++ [a] := by
    have hb : b ∉ l := fun hm => by
      rw [hsplit] at hnd
      exact (List.nodup_append.mp hnd).2.2 b hm b List.mem_cons_self rfl
    have hb' : b ∉ l' ++ [a] := fun hm => by
      rw [hl', ← List.singleton_append, ← List.append_assoc] at hnd
      exact (List.nodup_append.mp hnd).2.2 b hm b List.mem_cons_self rfl
    have hidx := congrArg (List.idxOf b) (hsplit.symm.trans hl')
    rw [← List.singleton_append (x := a), ← List.append_assoc, List.idxOf_append_of_notMem hb,
      List.idxOf_append_of_notMem hb', List.idxOf_cons_self, List.idxOf_cons_self] at hidx
    have htwo : l ++ b :: r = (l' ++ [a]) ++ b :: r' := by
      rw [← hsplit, hl', List.append_assoc]
      rfl
    exact List.append_inj_left htwo (by omega)
  rw [hl]
  exact List.mem_append_right _ (List.mem_singleton.mpr rfl)

theorem mem_chainOuts {p : Id × State L} : ∀ {ns : List Id} {i : State L}, p ∈ chainOuts f i ns → ∃ j, p.2 = f p.1 j
  | n :: ns, i, h => by
    rcases List.mem_cons.mp h with rfl | h
    · exact ⟨i, rfl⟩
    · exact mem_chainOuts h

/-- What is returned at the end of the chain. -/
theorem resultOf_chainOuts (hc : S.graph.IsChain ns) {B : Base L} {outs : List (Id × State L)}
    (hne : outs ≠ []) (hsuffix : ∃ before, before ++ outs = chainOuts f s.clone ns) :
    (resultOf S.graph B outs).getD .null = chainResult f s ns := by
  obtain ⟨before, hbefore⟩ := hsuffix
  rcases List.eq_nil_or_concat outs with rfl | ⟨o, q, rfl⟩
  · exact absurd rfl hne
  rw [List.concat_eq_append] at hbefore ⊢
  have hms : ns = (before ++ o).map (·.1) ++ [q.1] := by
    rw [← chainOuts_map_fst f ns s.clone, ← hbefore, ← List.append_assoc, List.map_append]
    rfl
  rw [resultOf_chain hc hms, chainResult, ← hbefore, ← List.append_assoc, List.getLast?_concat]
  rfl

/-- From the facts of a successful run to what it is on the chain. -/
theorem onward_of_base (hc : S.graph.IsChain ns) {B : Base L} {i : State L} (hF : Frontier S B y)
    (hLd : Ledger S B (fun n input out => out = f n input) y) (hB : B.Feeds S.graph) (hpre : B.pre = ns.take k)
    (hseed : ∀ n r, ns.drop k = n :: r → mergeInputs (B.seed n) = i)
    (houts : chainOuts f i (ns.drop k) = (chainOuts f s.clone ns).drop k)
    (hterminal : ns.drop k = [] → B.terminal.getD .null = chainResult f s ns) : Onward S f s ns k y := by
  have hns : ns = B.pre ++ ns.drop k := by rw [hpre, List.take_append_drop]
  obtain ⟨hstarts, -, houtputs⟩ := chain_so_far hc hns hseed hF hLd
  rw [houts] at houtputs
  refine ⟨hstarts, houtputs, fun hpol => ?_, fun hf => ?_⟩
  · rw [hLd.written hpol, hpre]
  · obtain ⟨hst, ho⟩ := chain_finished hc hns hseed hB hF hLd hf
    refine ⟨hst, ?_⟩
    rw [hF.returned hLd hf, ho]
    by_cases hnil : ns.drop k = []
    · rw [hnil, ← hterminal hnil]
      rfl
    · rw [resultOf_chainOuts hc (f := f) (s := s) ?_ ⟨(chainOuts f s.clone ns).take k, ?_⟩]
      · intro hnone
        rw [← chainOuts_map_fst f (ns.drop k) i, hnone] at hnil
        exact hnil rfl
      · rw [houts, List.take_append_drop]

/-- **A process goes on where the file says.** -/
theorem onward_of_run (hL : L.ProtoRoundTrip) (hC : C.RoundTrip) (hc : S.graph.IsChain ns)
    (hty : ∀ n i, State.SameType (f n i) target) (hk : Holds C f s ns k content) {loop : Loop} {x : Exec L}
    (hbegins : Begins S C s target path content loop x) {cs : List (AgentFlow.Choice L)}
    (hr : Run (AgentFlow.step S loop) (Computes f) x cs y) : Onward S f s ns k y := by
  have hw := hc.waitsForAll
  cases k with
  | zero =>
    cases hbegins with
    | run =>
      have hF := Frontier.run hw hr (hw.frontier_runStart s)
      have hLd := Ledger.run hw hr (hw.frontier_runStart s) (ledger_runStart S s _)
      refine onward_of_base hc hF hLd (hw.feeds_ofRun s) rfl (hc.seed_ofRun s) rfl fun hnil => ?_
      rw [List.drop_zero] at hnil
      rw [chainResult, hnil]
      rfl
    | resume hread => rw [show content = none from hk] at hread; cases hread
  | succ k =>
    obtain ⟨p, message, bytes, hp, hmade, hbytes, hcontent⟩ := hk
    have hlt : k < ns.length := by
      rw [← chainOuts_length f s.clone ns]
      exact (List.getElem?_eq_some_iff.mp hp).1
    cases hbegins with
    | run hnone => rw [hcontent] at hnone; cases hnone
    | @resume errno message' m x hread hresume =>
      have hmessage : message' = message := by
        rw [hcontent, read_whole hC hbytes errno, checkVersion] at hread
        split_ifs at hread
        exact (Except.ok.inj hread).symm
      obtain ⟨i, hi⟩ := mem_chainOuts (List.mem_of_getElem? hp)
      have hknown : ∀ v ∈ ns.take (k + 1), v ∈ S.graph.nodes := fun v hv =>
        (hc.mem_nodes v).mpr (List.mem_of_mem_take hv)
      have hne : ns.take (k + 1) ≠ [] := by
        rw [Ne, ← List.length_eq_zero_iff, List.length_take]
        omega
      have hfresh := resume_fresh S (resumeTarget_makeCheckpoint hL (ns.take (k + 1)) (hi ▸ hty p.1 i)) hknown
      rw [hmessage, hmade, hfresh] at hresume
      cases hresume
      have hF := Frontier.run hw hr
        (frontier_replay hw hne (hc.nodup.sublist (List.take_sublist _ _)) (inOrder_take hc _) hknown p.2)
      have hLd := Ledger.run hw hr
        (frontier_replay hw hne (hc.nodup.sublist (List.take_sublist _ _)) (inOrder_take hc _) hknown p.2)
        (ledger_replay hne (inOrder_take hc _) p.2 _)
      refine onward_of_base hc hF hLd (feeds_ofCheckpoint hw fun v => hc.entry_mem_take k) rfl
        (hc.seed_ofCheckpoint hlt p.2) (chainOuts_drop f hp).symm fun hnil => ?_
      have hall : k + 1 = ns.length := by
        have := List.drop_eq_nil_iff.mp hnil
        omega
      have hlast : (chainOuts f s.clone ns).getLast? = some p := by
        rw [List.getLast?_eq_getElem?, chainOuts_length, ← hall, Nat.add_sub_cancel, hp]
      rw [hall, List.take_length, hc.terminal_ofCheckpoint, chainResult, hlast]
      rfl

/-! ### What a process leaves in the file -/

/-- The `j`th checkpoint of a process, in the file. -/
theorem holds_of_recorded (h : Onward S f s ns k y) (hpol : S.opts.checkpointPolicy = .afterEachNode) {j : ℕ}
    {message : StampedCheckpoint} (hj : (checkpoints y.log)[j]? = some message.toCheckpoint) {bytes : Bytes}
    (hbytes : C.serializeToString message = some bytes) : Holds C f s ns (k + j + 1) (some bytes) := by
  rw [h.recorded hpol, written_getElem?] at hj
  obtain ⟨p, hp, hmade⟩ := Option.map_eq_some_iff.mp hj
  obtain ⟨hlt, -⟩ := List.getElem?_eq_some_iff.mp hp
  obtain ⟨r, hr⟩ := h.computed
  have hids : (outputs y.log).map (·.1) ++ r.map (·.1) = ns.drop k := by
    rw [← List.map_append, hr, List.map_drop, chainOuts_map_fst]
  refine ⟨p, message, bytes, ?_, ?_, hbytes, rfl⟩
  · rw [← List.getElem?_drop, ← hr, List.getElem?_append_left hlt, hp]
  · have htake : ns.take (k + j + 1) = ns.take k ++ ((outputs y.log).take (j + 1)).map (·.1) := by
      rw [Nat.add_assoc, List.take_add (i := k), ← hids, List.map_take,
        List.take_append_of_le_length (by rw [List.length_map]; omega)]
    rw [← hmade, htake]

/-- Which of the writes is in the file. -/
theorem exists_write (file : String → Option Bytes) (calls : List Choice) {disk : Disk}
    {message : StampedCheckpoint} {bytes : Bytes}
    (hlast : (replacements disk.log).getLast? = some (message, bytes)) (hw : message ∈ writes disk.log) :
    ∃ j, (writes disk.log)[j]? = some message ∧
      (Run (step C path) (Healthy C) ⟨file, none, []⟩ calls disk → (writes disk.log).length ≤ j + 2) := by
  by_cases hhealthy : Run (step C path) (Healthy C) ⟨file, none, []⟩ calls disk
  · obtain ⟨before, hbefore⟩ := List.getLast?_eq_some_iff.mp hlast
    have hpending := pending_length disk
    have hsplit : writes disk.log = (replacements disk.log).map Prod.fst ++ pending disk :=
      InStep.of_run hhealthy rfl rfl
    rw [hbefore, List.map_append, List.append_assoc] at hsplit
    refine ⟨before.length, ?_, fun _ => ?_⟩
    · rw [hsplit, List.getElem?_append_right (by rw [List.length_map]), List.length_map, Nat.sub_self]
      rfl
    · rw [hsplit, List.length_append, List.length_append, List.length_map, List.length_map, List.length_singleton]
      omega
  · obtain ⟨j, hj⟩ := List.mem_iff_getElem?.mp hw
    exact ⟨j, hj, fun h => absurd h hhealthy⟩

/-- What was done is not lost, but for the write the process was at. -/
theorem Process.holds {file : String → Option Bytes} (P : Process S C f s target path file)
    (h : Onward S f s ns k P.last) (hpol : S.opts.checkpointPolicy = .afterEachNode)
    (hk : Holds C f s ns k (file path)) : ∃ k', k ≤ k' ∧ Holds C f s ns k' (P.disk.file path) ∧
      (Run (step C path) (Healthy C) ⟨file, none, []⟩ P.calls P.disk →
        k + (checkpoints P.last.log).length ≤ k' + 1) := by
  have hlength : (checkpoints P.last.log).length = (writes P.disk.log).length := by
    rw [← P.writes_eq, List.length_map]
  rcases Flushed.file_of_run P.writes_run rfl rfl with ⟨hnone, hfile⟩ | ⟨message, bytes, hlast, hw, hbytes, hfile⟩
  · refine ⟨k, le_rfl, by rw [hfile]; exact hk, fun hhealthy => ?_⟩
    have hsplit : writes P.disk.log = (replacements P.disk.log).map Prod.fst ++ pending P.disk :=
      InStep.of_run hhealthy rfl rfl
    have hpending := pending_length P.disk
    rw [hlength, hsplit, hnone, List.map_nil, List.nil_append]
    omega
  · obtain ⟨j, hj, hlate⟩ := exists_write file P.calls hlast hw
    refine ⟨k + j + 1, by omega, ?_, fun hhealthy => ?_⟩
    · rw [hfile]
      refine holds_of_recorded h hpol ?_ hbytes
      rw [← P.writes_eq, List.getElem?_map, hj]
      rfl
    · have := hlate hhealthy
      rw [hlength]
      omega

theorem Crashes.holds (hL : L.ProtoRoundTrip) (hC : C.RoundTrip) (hc : S.graph.IsChain ns)
    (hpol : S.opts.checkpointPolicy = .afterEachNode) (hty : ∀ n i, State.SameType (f n i) target)
    {file : String → Option Bytes} (h : Crashes S C f s target path file) : ∃ k, Holds C f s ns k (file path) := by
  induction h with
  | none h => exact ⟨0, h⟩
  | lost _ P ih =>
    obtain ⟨k, hk⟩ := ih
    obtain ⟨k', -, hk', -⟩ := P.holds (onward_of_run hL hC hc hty hk P.begins P.runs) hpol hk
    exact ⟨k', hk'⟩

end AgentFlow.Persist
