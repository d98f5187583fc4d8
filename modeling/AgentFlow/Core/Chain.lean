/-
# Chains: a crash and a resume are not seen

On a chain `n₁ → n₂ → … → nₘ` with node functions `f` every schedule gives the
same outputs, `chainOuts f`. So does a resumed run, from the output that was
checkpointed: it computes the outputs that were missing, writes the
checkpoints that were missing, and returns the same state.

Key definitions: `Graph.IsChain`, `chainOuts`, `Computes`.
-/
import AgentFlow.Core.Resume

namespace AgentFlow

variable {L : Libs}

open History Precedence Stepping

/-- The nodes in order, each with an edge of group 0 to the next one; the
conditions of the edges are left open. -/
structure Graph.IsChain (g : Graph) (ns : List Id) : Prop where
  nodup : ns.Nodup
  mem_nodes : ∀ v, v ∈ g.nodes ↔ v ∈ ns
  group : ∀ e ∈ g.edges, e.activationGroup = 0
  pred : ∀ a b, g.Pred a b ↔ ∃ l r, ns = l ++ a :: b :: r

namespace Graph.IsChain

variable {g : Graph} {ns : List Id}

/-- The predecessor of a node is the one before it. -/
theorem idxOf_pred (h : g.IsChain ns) {a b : Id} (hab : g.Pred a b) : ns.idxOf b = ns.idxOf a + 1 := by
  obtain ⟨l, r, hl⟩ := (h.pred a b).mp hab
  have hnd := h.nodup
  rw [hl] at hnd ⊢
  obtain ⟨-, hr, hdis⟩ := List.nodup_append.mp hnd
  have ha : a ∉ l := fun hm => hdis a hm a (by simp) rfl
  have hb : b ∉ l := fun hm => hdis b hm b (by simp) rfl
  have hne : a ≠ b := fun he => (List.nodup_cons.mp hr).1 (by simp [he])
  rw [List.idxOf_append_of_notMem ha, List.idxOf_append_of_notMem hb, List.idxOf_cons_self,
    List.idxOf_cons_ne _ hne, List.idxOf_cons_self]

theorem pred_unique (h : g.IsChain ns) {a a' b : Id} (ha : g.Pred a b) (ha' : g.Pred a' b) : a = a' := by
  have hm := (h.mem_nodes a).mp (Graph.pred_mem ha).1
  refine (List.idxOf_inj hm).mp ?_
  have := h.idxOf_pred ha
  have := h.idxOf_pred ha'
  omega

theorem length_nodes (h : g.IsChain ns) : g.nodes.length = ns.length :=
  ((List.perm_ext_iff_of_nodup g.nodes_nodup h.nodup).mpr h.mem_nodes).length_eq

theorem waitsForAll (h : g.IsChain ns) : g.WaitsForAll := fun e he =>
  ⟨h.group e he, Or.inr fun e' he' hd => h.pred_unique ⟨e', he', rfl, hd⟩ ⟨e, he, rfl, rfl⟩⟩

theorem isDag (h : g.IsChain ns) : g.IsDag :=
  Acyclic.of_rank (fun v => ns.idxOf v) fun a b hab => by
    have := h.idxOf_pred hab
    omega

/-- The nodes can only run from the first on. -/
theorem isPrefix_of_inOrder (h : g.IsChain ns) {l : List Id} (hn : l.Nodup) (ho : InOrder g.Pred l)
    (hk : ∀ v ∈ l, v ∈ ns) : l <+: ns := by
  induction l using List.reverseRecOn with
  | nil => exact List.nil_prefix
  | append_singleton l b ih =>
    obtain ⟨hl, hb⟩ := each_snoc.mp ho
    obtain ⟨hnl, -, hdis⟩ := List.nodup_append.mp hn
    have hbl : b ∉ l := fun hm => hdis b hm b (by simp) rfl
    obtain ⟨r, hr⟩ := ih hnl hl fun v hv => hk v (List.mem_append_left _ hv)
    have hbr : b ∈ r := by
      have := hk b (by simp)
      rw [← hr] at this
      exact (List.mem_append.mp this).resolve_left hbl
    obtain ⟨u, w, rfl⟩ := List.append_of_mem hbr
    rcases List.eq_nil_or_concat u with rfl | ⟨u', a, rfl⟩
    · exact ⟨w, by rw [← hr]; simp⟩
    · -- the node before `b` would have to be in `l`
      have hpred : g.Pred a b := (h.pred a b).mpr ⟨l ++ u', w, by rw [← hr]; simp⟩
      have hal := hb a hpred
      have hnd := h.nodup
      rw [← hr] at hnd
      exact absurd rfl ((List.nodup_append.mp hnd).2.2 a hal a (by simp))

/-- The last node is terminal. -/
theorem last_terminal {n : Id} (h : g.IsChain (ns ++ [n])) : hasOutgoing g n = false := by
  rw [← Bool.not_eq_true, hasOutgoing_iff]
  rintro ⟨b, hb⟩
  have hn : n ∉ ns := fun hm => (List.nodup_append.mp h.nodup).2.2 n hm n (by simp) rfl
  have hi := h.idxOf_pred hb
  have hlt := List.idxOf_lt_length_of_mem ((h.mem_nodes b).mp (Graph.pred_mem hb).2)
  rw [List.idxOf_append_of_notMem hn, List.idxOf_cons_self] at hi
  rw [List.length_append, List.length_singleton] at hlt
  omega

end Graph.IsChain

/-! ### The outputs of a chain -/

/-- Each node gets a copy of the output before it. -/
def chainOuts (f : Id → State L → State L) : State L → List Id → List (Id × State L)
  | _, [] => []
  | i, n :: ns => (n, f n i) :: chainOuts f (f n i).clone ns

/-- The input of the next node. -/
def chainInput (i : State L) (outs : List (Id × State L)) : State L := (outs.getLast?.map fun p => p.2.clone).getD i

section chainOuts

variable (f : Id → State L → State L)

theorem chainOuts_map_fst : ∀ (ns : List Id) (i : State L), (chainOuts f i ns).map (·.1) = ns
  | [], _ => rfl
  | n :: ns, i => by rw [chainOuts, List.map_cons, chainOuts_map_fst ns]

theorem chainOuts_length (i : State L) (ns : List Id) : (chainOuts f i ns).length = ns.length := by
  rw [← List.length_map (f := (·.1)), chainOuts_map_fst]

theorem chainOuts_append : ∀ (ns ms : List Id) (i : State L),
    chainOuts f i (ns ++ ms) = chainOuts f i ns ++ chainOuts f (chainInput i (chainOuts f i ns)) ms
  | [], _, _ => rfl
  | n :: ns, ms, i => by
    rw [List.cons_append, chainOuts, chainOuts_append ns ms, chainOuts, List.cons_append]
    congr 3
    cases h : chainOuts f (f n i).clone ns with
    | nil => rfl
    | cons p ps => simp [chainInput, List.getLast?_cons]

/-- A chain that is not empty has a last output. -/
theorem chainOuts_eq_concat (i : State L) {ns : List Id} (h : ns ≠ []) :
    ∃ o q, chainOuts f i ns = o ++ [q] ∧ ns = o.map (·.1) ++ [q.1] := by
  have hids := chainOuts_map_fst f ns i
  rcases List.eq_nil_or_concat (chainOuts f i ns) with hnil | ⟨o, q, hoq⟩
  · rw [hnil] at hids
    exact absurd hids.symm h
  · rw [List.concat_eq_append] at hoq
    refine ⟨o, q, hoq, ?_⟩
    rw [← hids, hoq, List.map_append]
    rfl

/-- Outputs each computed from the one before are those of the chain. -/
theorem eq_chainOuts {i : State L} {outs : List (Id × State L)}
    (h : Each (fun before p => p.2 = f p.1 (chainInput i before)) outs) :
    outs = chainOuts f i (outs.map (·.1)) := by
  induction outs using List.reverseRecOn with
  | nil => rfl
  | append_singleton outs p ih =>
    obtain ⟨h1, h2⟩ := each_snoc.mp h
    rw [List.map_append, chainOuts_append, ← ih h1]
    simp only [List.map_cons, List.map_nil, chainOuts]
    rw [← h2]

/-- What comes after an output is the chain from that output on. -/
theorem chainOuts_drop {i : State L} {ns : List Id} {k : ℕ} {p : Id × State L}
    (h : (chainOuts f i ns)[k]? = some p) :
    (chainOuts f i ns).drop (k + 1) = chainOuts f p.2.clone (ns.drop (k + 1)) := by
  obtain ⟨hk, -⟩ := List.getElem?_eq_some_iff.mp h
  rw [chainOuts_length] at hk
  have hsplit := chainOuts_append f (ns.take (k + 1)) (ns.drop (k + 1)) i
  rw [List.take_append_drop] at hsplit
  have hlen : (chainOuts f i (ns.take (k + 1))).length = k + 1 := by
    rw [chainOuts_length, List.length_take]; omega
  have hlast : (chainOuts f i (ns.take (k + 1))).getLast? = some p := by
    rw [List.getLast?_eq_getElem?, hlen, Nat.add_sub_cancel, ← h, hsplit, List.getElem?_append_left (by omega)]
  rw [hsplit, List.drop_left' hlen, chainInput, hlast]
  rfl

end chainOuts

theorem written_drop : ∀ (k : ℕ) (pre : List Id) (outs : List (Id × State L)),
    (written pre outs).drop k = written (pre ++ (outs.take k).map (·.1)) (outs.drop k)
  | 0, pre, outs => by simp
  | k + 1, pre, [] => by simp [written]
  | k + 1, pre, p :: outs => by
    simp [written, written_drop k]

theorem written_getElem? : ∀ (k : ℕ) (pre : List Id) (outs : List (Id × State L)),
    (written pre outs)[k]? = outs[k]?.map fun p => makeCheckpoint (pre ++ (outs.take (k + 1)).map (·.1)) p.2
  | _, _, [] => by simp [written]
  | 0, pre, p :: outs => by simp [written]
  | k + 1, pre, p :: outs => by simp [written, written_getElem? k]

/-! ### Runs on a chain -/

/-- The choices of a run in which every node `n` computes `f n`. -/
def Computes (f : Id → State L → State L) : Exec L → Choice L → Prop := Succeeds fun n input out => out = f n input

section chain

variable {S : Setup} {B : Base L} {ns rest : List Id} {f : Id → State L → State L} {i : State L} {y : Exec L}

theorem inputOf_chain (hc : S.graph.IsChain ns) (hns : ns = B.pre ++ rest)
    (hseed : ∀ n r, rest = n :: r → mergeInputs (B.seed n) = i) {before : List (Id × State L)} {n : Id}
    (hpre : before.map (·.1) ++ [n] <+: rest) : inputOf S.graph B n before = chainInput i before := by
  obtain ⟨r, hr⟩ := hpre
  rcases List.eq_nil_or_concat before with rfl | ⟨b', q, rfl⟩
  · simpa [inputOf, delivered, chainInput] using hseed n r (by simpa using hr.symm)
  · rw [List.concat_eq_append] at hr ⊢
    have hpred : S.graph.Pred q.1 n :=
      (hc.pred q.1 n).mpr ⟨B.pre ++ b'.map (·.1), r, by rw [hns, ← hr]; simp⟩
    have hlast : (delivered S.graph n (b' ++ [q])).getLast? = some q.2.clone := by
      rw [delivered_getLast?, lastFrom]
      simp [List.filter_append, hpred]
    have hne : delivered S.graph n (b' ++ [q]) ≠ [] := by
      intro h; rw [h] at hlast; cases hlast
    rw [inputOf, mergeInputs, List.getLast?_append_of_ne_nil _ hne, hlast]
    simp [chainInput]

/-- At any moment the first nodes of the rest have started, and what was
returned are the first outputs of the chain. -/
theorem chain_so_far (hc : S.graph.IsChain ns) (hns : ns = B.pre ++ rest)
    (hseed : ∀ n r, rest = n :: r → mergeInputs (B.seed n) = i) (hF : Frontier S B y)
    (hL : Ledger S B (fun n input out => out = f n input) y) :
    starts y.log <+: rest ∧ (outputs y.log).map (·.1) <+: rest ∧ outputs y.log <+: chainOuts f i rest := by
  have hcomp := hc.isPrefix_of_inOrder hF.plan.nodup hF.plan.inOrder fun v hv =>
    (hc.mem_nodes v).mp (hF.plan.known v (Or.inl hv))
  obtain ⟨hnd, hsub⟩ := hF.starts_nodup hL
  have hprend : B.pre.Nodup := by
    have := hF.plan.nodup
    rw [hF.plan.completed] at this
    exact (List.nodup_append.mp this).1
  have hst : B.pre ++ starts y.log <+: ns := by
    refine hc.isPrefix_of_inOrder ?_ hL.ordered fun v hv => ?_
    · exact List.nodup_append.mpr ⟨hprend, hnd, fun a ha b hb he => (hsub b hb).2 (he ▸ ha)⟩
    · rcases List.mem_append.mp hv with hv | hv
      · rw [hns]; exact List.mem_append_left _ hv
      · exact (hc.mem_nodes v).mp (hsub v hv).1
  rw [hF.plan.completed] at hcomp
  rw [hns, List.prefix_append_right_inj] at hst hcomp
  refine ⟨hst, hcomp, ?_⟩
  have heq : outputs y.log = chainOuts f i ((outputs y.log).map (·.1)) := by
    refine eq_chainOuts f fun before p s hs => ?_
    have hpre : before.map (·.1) ++ [p.1] <+: rest := by
      refine List.IsPrefix.trans ?_ hcomp
      rw [hs]
      exact ⟨s.map (·.1), by simp⟩
    show p.2 = f p.1 (chainInput i before)
    rw [← inputOf_chain hc hns hseed hpre]
    exact hL.computed before p s hs
  obtain ⟨r, hr⟩ := hcomp
  rw [heq, ← hr, chainOuts_append]
  exact List.prefix_append _ _

/-- When the run is over, all of it is done. -/
theorem chain_finished (hc : S.graph.IsChain ns) (hns : ns = B.pre ++ rest)
    (hseed : ∀ n r, rest = n :: r → mergeInputs (B.seed n) = i) (hB : B.Feeds S.graph) (hF : Frontier S B y)
    (hL : Ledger S B (fun n input out => out = f n input) y) (hf : y.pc.finished = true) :
    starts y.log = rest ∧ outputs y.log = chainOuts f i rest := by
  obtain ⟨h1, h2, h3⟩ := chain_so_far hc hns hseed hF hL
  have hperm := hF.all_completed hc.waitsForAll hc.isDag hB hf
  have hlen := hperm.length_eq.trans hc.length_nodes
  rw [hF.plan.completed, hns, List.length_append, List.length_append] at hlen
  have hids : ((outputs y.log).map (·.1)).length = rest.length := by omega
  refine ⟨h1.eq_of_length ?_, h3.eq_of_length ?_⟩
  · rw [(hF.starts_perm hL hf).length_eq, hids]
  · rw [chainOuts_length, ← hids, List.length_map]

/-- What is returned is the last output. -/
theorem resultOf_chain (hc : S.graph.IsChain ns) {outs : List (Id × State L)} {q : Id × State L} {ms : List Id}
    (hms : ns = ms ++ [q.1]) : resultOf S.graph B (outs ++ [q]) = some q.2.clone := by
  have hterm : hasOutgoing S.graph q.1 = false := Graph.IsChain.last_terminal (hms ▸ hc)
  rw [resultOf, lastTerminal_snoc, hterm]
  rfl

end chain

namespace Graph.IsChain

variable {g : Graph} {ns : List Id}

/-- The only entry node is the first one. -/
theorem mem_entryNodeIds (h : g.IsChain ns) {v : Id} : v ∈ g.entryNodeIds ↔ ∃ r, ns = v :: r := by
  rw [h.waitsForAll.mem_entryNodeIds, h.mem_nodes]
  constructor
  · rintro ⟨hv, hp⟩
    obtain ⟨l, r, rfl⟩ := List.append_of_mem hv
    rcases List.eq_nil_or_concat l with rfl | ⟨l', a, rfl⟩
    · exact ⟨r, rfl⟩
    · exact absurd ((h.pred a v).mpr ⟨l', r, by simp⟩) (hp a)
  · rintro ⟨r, rfl⟩
    refine ⟨List.mem_cons_self, fun a ha => ?_⟩
    have := h.idxOf_pred ha
    rw [List.idxOf_cons_self] at this
    omega

theorem seed_ofRun (h : g.IsChain ns) (s : State L) (n : Id) (r : List Id) (hn : ns = n :: r) :
    mergeInputs ((Base.ofRun g s).seed n) = s.clone := by
  have : n ∈ g.entryNodeIds := h.mem_entryNodeIds.mpr ⟨r, hn⟩
  simp [Base.ofRun, this, mergeInputs]

/-- The first node after the checkpoint gets the checkpointed state. -/
theorem seed_ofCheckpoint (h : g.IsChain ns) {k : ℕ} (hk : k < ns.length) (t : State L) (n : Id) (r : List Id)
    (hn : ns.drop (k + 1) = n :: r) :
    mergeInputs ((Base.ofCheckpoint g (ns.take (k + 1)) t).seed n) = t.clone := by
  have hns : ns.take k ++ ns[k] :: n :: r = ns := by
    rw [← hn, List.getElem_cons_drop, List.take_append_drop]
  obtain ⟨e, he, hs, hd⟩ := (h.pred ns[k] n).mpr ⟨_, _, hns.symm⟩
  have hmem : e ∈ (ns.take (k + 1)).flatMap fun id => edgesBetween g id n :=
    mem_flatMap_edges.mpr ⟨he, by rw [hs, List.take_succ_eq_append_getElem hk]; exact List.mem_append_right _ (by simp), hd⟩
  simp only [Base.ofCheckpoint]
  rw [delivered_replay, mergeInputs, List.getLast?_replicate, if_neg (List.length_pos_of_mem hmem).ne']
  rfl

/-- A checkpoint of the whole chain is its result. -/
theorem terminal_ofCheckpoint (h : g.IsChain ns) (t : State L) :
    (Base.ofCheckpoint g ns t).terminal = some t.clone := by
  simp [Base.ofCheckpoint, h.nodup.dedup, h.length_nodes]

theorem entry_mem_take (h : g.IsChain ns) (k : ℕ) {v : Id} (hv : v ∈ g.entryNodeIds) : v ∈ ns.take (k + 1) := by
  obtain ⟨r, rfl⟩ := h.mem_entryNodeIds.mp hv
  simp

end Graph.IsChain

section last

variable {S : Setup} {ns : List Id} {o : List (Id × State L)} {p q : Id × State L} {k : ℕ}

/-- The output after which the checkpoint of the whole chain is written is the last one. -/
theorem last_of_concat (hms : ns = o.map (·.1) ++ [q.1]) (hpk : (o ++ [q])[k]? = some p)
    (hk : k + 1 = ns.length) : q = p := by
  have hlen : ns.length = o.length + 1 := by rw [hms]; simp
  obtain rfl : k = o.length := by omega
  simpa using hpk

/-- What a resumed run returns: the last output, computed or checkpointed. -/
theorem resultOf_ofCheckpoint (hc : S.graph.IsChain ns) (hms : ns = o.map (·.1) ++ [q.1])
    (hpk : (o ++ [q])[k]? = some p) :
    resultOf S.graph (Base.ofCheckpoint S.graph (ns.take (k + 1)) p.2) ((o ++ [q]).drop (k + 1)) =
      some q.2.clone := by
  have hlen : ns.length = o.length + 1 := by rw [hms]; simp
  obtain ⟨hk, -⟩ := List.getElem?_eq_some_iff.mp hpk
  rw [List.length_append, List.length_singleton] at hk
  by_cases he : k + 1 = ns.length
  · rw [List.drop_of_length_le (by simp; omega), last_of_concat hms hpk he, he, List.take_length]
    show (Base.ofCheckpoint S.graph ns p.2).terminal = _
    rw [hc.terminal_ofCheckpoint]
  · rw [List.drop_append_of_le_length (by omega), resultOf_chain hc hms]

end last

/-- The `k+1`st checkpoint of a run on a chain: the `k+1`st output, after the
first `k+1` nodes. -/
theorem chain_checkpoint {S : Setup} {ns : List Id} (hc : S.graph.IsChain ns)
    (hpol : S.opts.checkpointPolicy = .afterEachNode) {f : Id → State L → State L} {s : State L} {y : Exec L}
    (hF : Frontier S (Base.ofRun S.graph s) y)
    (hL : Ledger S (Base.ofRun S.graph s) (fun n input out => out = f n input) y) {k : ℕ} {cp : Checkpoint}
    (hcp : (checkpoints y.log)[k]? = some cp) {p : Id × State L} (hp : (outputs y.log)[k]? = some p) :
    (chainOuts f s.clone ns)[k]? = some p ∧ cp = makeCheckpoint (ns.take (k + 1)) p.2 := by
  obtain ⟨-, ⟨r, hr⟩, ⟨r', hr'⟩⟩ := chain_so_far hc (by simp [Base.ofRun]) (hc.seed_ofRun s) hF hL
  obtain ⟨hk, -⟩ := List.getElem?_eq_some_iff.mp hp
  constructor
  · rw [← hr', List.getElem?_append_left hk, hp]
  · rw [hL.written hpol, written_getElem?, hp, Option.map_some, Option.some.injEq] at hcp
    rw [← hcp, ← hr, List.take_append_of_le_length (by rw [List.length_map]; omega), List.map_take]
    rfl

/-- **Crash and resume on a chain.** A run writes its `k+1`st checkpoint and
is lost; what a fresh runner does from that checkpoint is the rest of the
uninterrupted run, in every schedule of both. -/
theorem chain_resume (hL : L.ProtoRoundTrip) (S₀ S : Setup) (hg : S₀.graph = S.graph) (ns : List Id)
    (hc : S.graph.IsChain ns) (hpol₀ : S₀.opts.checkpointPolicy = .afterEachNode)
    (hpol : S.opts.checkpointPolicy = .afterEachNode) (f : Id → State L → State L) (s : State L)
    (cs₀ cs : List (Choice L)) (y₀ y : Exec L)
    (hr₀ : Run (step S₀ .run) (Computes f) (runStart S₀ .fresh s) cs₀ y₀)
    (hr : Run (step S .run) (Computes f) (runStart S .fresh s) cs y) (hf : y.pc.finished = true)
    (k : ℕ) (cp : Checkpoint) (hcp : (checkpoints y₀.log)[k]? = some cp) (p : Id × State L)
    (hp : (outputs y₀.log)[k]? = some p) (target : State L) (hty : State.SameType p.2 target) :
    ∃ m x, resume S .fresh cp target = (m, .ok x) ∧ ∀ cs' y', Run (step S .runInner) (Computes f) x cs' y' →
      starts y'.log <+: ns.drop (k + 1) ∧
      cs'.length ≤ 8 * S.graph.nodes.length + 3 ∧
      (y'.pc.finished = false → ∀ out : State L, ∃ c z,
        (c = .main ∨ c = .start ∨ c = .finish 0 (.ok out) none) ∧ step S .runInner c y' = some z) ∧
      (y'.pc.finished = true → starts y'.log = ns.drop (k + 1) ∧ y'.pc = y.pc ∧
        checkpoints y'.log = (checkpoints y.log).drop (k + 1) ∧
        (k + 1 = ns.length → y'.pc = .returned p.2)) := by
  have hw := hc.waitsForAll
  have hw₀ : S₀.graph.WaitsForAll := hg ▸ hw
  have hc₀ : S₀.graph.IsChain ns := hg ▸ hc
  have hF₀ := Frontier.run hw₀ hr₀ (hw₀.frontier_runStart s)
  have hL₀ := Ledger.run hw₀ hr₀ (hw₀.frontier_runStart s) (ledger_runStart S₀ s _)
  have hF := Frontier.run hw hr (hw.frontier_runStart s)
  have hLd := Ledger.run hw hr (hw.frontier_runStart s) (ledger_runStart S s _)
  obtain ⟨-, houts⟩ := chain_finished hc (by simp [Base.ofRun]) (hc.seed_ofRun s) (hw.feeds_ofRun s) hF hLd hf
  obtain ⟨hpk, rfl⟩ := chain_checkpoint hc₀ hpol₀ hF₀ hL₀ hcp hp
  have hk : k < ns.length := by
    rw [← chainOuts_length f s.clone ns]; exact (List.getElem?_eq_some_iff.mp hpk).1
  -- the checkpoint is accepted, and the resumed run is one of the chain
  obtain ⟨hne, hpre⟩ : ns.take (k + 1) ≠ [] ∧ ns.take (k + 1) <+: y₀.impl.completedNodeIds :=
    hF₀.checkpoint_completed hL₀ hpol₀ (List.mem_of_getElem? hcp)
  have hnd := hF₀.plan.nodup.sublist hpre.sublist
  have hord : InOrder S.graph.Pred (ns.take (k + 1)) := hg ▸ hF₀.plan.inOrder.of_isPrefix hpre
  have hkn : ∀ v ∈ ns.take (k + 1), v ∈ S.graph.nodes := fun v hv =>
    (hc.mem_nodes v).mpr (List.mem_of_mem_take hv)
  have hFr := frontier_replay hw hne hnd hord hkn p.2
  have hLr := ledger_replay hne hord p.2 fun n input out => out = f n input
  refine ⟨_, _, resume_fresh S (resumeTarget_makeCheckpoint hL _ hty) hkn, fun cs' y' hr' => ?_⟩
  have hF' := Frontier.run hw hr' hFr
  have hL' := Ledger.run hw hr' hFr hLr
  have hns : ns = ns.take (k + 1) ++ ns.drop (k + 1) := (List.take_append_drop _ _).symm
  have hseed := hc.seed_ofCheckpoint hk p.2
  refine ⟨(chain_so_far hc hns hseed hF' hL').1, ?_, fun hf' out => exists_step S .runInner hF'.tasks hf' (.ok out),
    fun hf' => ?_⟩
  · have := (Frontier.run_length_le hw hr' hFr).trans (budget_begin_le S _ _)
    omega
  obtain ⟨hst, houts'⟩ := chain_finished hc hns hseed (feeds_ofCheckpoint hw fun v => hc.entry_mem_take k) hF' hL' hf'
  rw [← chainOuts_drop f hpk, ← houts] at houts'
  -- both return a copy of the last output
  obtain ⟨o, q, hoq, hms⟩ := chainOuts_eq_concat f s.clone (List.ne_nil_of_length_pos (Nat.zero_lt_of_lt hk))
  have hres : y.pc = .returned q.2.clone := by
    rw [hF.returned hLd hf, houts, hoq, resultOf_chain hc hms]; rfl
  have hres' : y'.pc = .returned q.2.clone := by
    rw [hF'.returned hL' hf', houts', houts, hoq, resultOf_ofCheckpoint hc hms (hoq ▸ hpk)]; rfl
  refine ⟨hst, hres'.trans hres.symm, ?_, fun he => ?_⟩
  · rw [hL'.written hpol, hLd.written hpol, written_drop, houts', houts]
    simp only [Base.ofRun, Base.ofCheckpoint, List.nil_append]
    rw [List.map_take, chainOuts_map_fst]
  · obtain ⟨m, -, hm, -, -⟩ := hty.descriptor
    rw [hres', last_of_concat hms (hoq ▸ hpk) he, State.clone_of_message hm]

theorem line_isChain : Graph.line.IsChain ["a", "b", "c"] where
  nodup := by decide
  mem_nodes v := Iff.rfl
  group := by decide
  pred a b := by
    constructor
    · rintro ⟨e, he, rfl, rfl⟩
      simp only [Graph.line, List.mem_cons, List.not_mem_nil, or_false] at he
      rcases he with rfl | rfl
      · exact ⟨[], ["c"], rfl⟩
      · exact ⟨["a"], [], rfl⟩
    · rintro ⟨l, r, h⟩
      rcases l with _ | ⟨x, _ | ⟨y, l⟩⟩ <;> simp at h
      · obtain ⟨rfl, rfl, -⟩ := h
        decide
      · obtain ⟨-, rfl, rfl, -⟩ := h
        decide
      · have := congrArg List.length h.2.2
        simp at this
        omega

/-- Each node appends its id's length to the bytes. -/
def appendLength (n : Id) (input : State Libs.text) : State Libs.text :=
  Libs.text.state (input.serializeAsString ++ [n.length.toUInt8])

/-- The choices of a run in which every node appends its length, computed. -/
def appends (x : Exec Libs.text) : Choice Libs.text → Bool
  | .main => true
  | .start => true
  | .finish k (.ok out) none => x.running[k]?.all fun t => decide (out = appendLength t.node t.input)
  | _ => false

theorem computes_of_appends (x : Exec Libs.text) (c : Choice Libs.text) (h : appends x c = true) :
    Computes appendLength x c := by
  unfold appends at h
  split at h
  · trivial
  · trivial
  · refine ⟨rfl, _, rfl, fun t ht => ?_⟩
    rw [ht] at h
    simpa using h
  · cases h

/-- A chain of three nodes is lost after the first and resumed. -/
theorem chain_resume_line : ∃ m x, resume (Setup.plain .line) .fresh (makeCheckpoint ["a"] (Libs.text.state [0, 1]))
      (Libs.text.state []) = (m, .ok x) ∧
    ∀ cs y, Run (step (Setup.plain .line) .runInner) (Computes appendLength) x cs y → y.pc.finished = true →
      starts y.log = ["b", "c"] := by
  have h₀ : (check (step (Setup.plain .line) .run) appends
      [.main, .main, .main, .main, .start, .finish 0 (.ok (Libs.text.state [0, 1])) none]
      (runStart (Setup.plain .line) .fresh (Libs.text.state [0]))).any
      (fun y => decide ((checkpoints y.log)[0]? = some (makeCheckpoint ["a"] (Libs.text.state [0, 1]))) &&
        decide ((outputs y.log)[0]? = some ("a", Libs.text.state [0, 1]))) = true := by
    decide
  have h : (check (step (Setup.plain .line) .run) appends
      [.main, .main, .main, .main, .start, .finish 0 (.ok (Libs.text.state [0, 1])) none, .main, .main,
        .main, .main, .main, .main, .start, .finish 0 (.ok (Libs.text.state [0, 1, 1])) none, .main, .main,
        .main, .main, .main, .main, .start, .finish 0 (.ok (Libs.text.state [0, 1, 1, 1])) none, .main, .main, .main]
      (runStart (Setup.plain .line) .fresh (Libs.text.state [0]))).any (fun y => y.pc.finished) = true := by
    decide
  obtain ⟨y₀, hr₀, hy₀⟩ := Run.exists_of_check _ h₀ computes_of_appends
  obtain ⟨y, hr, hf⟩ := Run.exists_of_check _ h computes_of_appends
  simp only [Bool.and_eq_true, decide_eq_true_eq] at hy₀
  obtain ⟨m, x, hx, hall⟩ := chain_resume Libs.text_roundTrip (Setup.plain .line) (Setup.plain .line) rfl _
    line_isChain rfl rfl appendLength _ _ _ y₀ y hr₀ hr hf 0 _ hy₀.1 _ hy₀.2 (Libs.text.state [])
    (Libs.text.state_sameType _ _)
  exact ⟨m, x, hx, fun cs y hr hf => ((hall cs y hr).2.2.2 hf).1⟩

end AgentFlow
