/-
# Well-formed traces

What the log of a run looks like, whatever the nodes do and whenever the
token is cancelled: the starts and ends of a node alternate (`startEnds`), an
edge fires after a `NODE_END` of its source that was neither failed nor
cancelled, and no more often than it exists (`FireOk`), and what a completion
does to the run after the token is cancelled belongs to a node that ended
before (`EffectOk`).

Key definitions: `startEnds`, `FireOk`, `EffectOk`, `WellFormed`.
-/
import AgentFlow.Core.Resume

namespace AgentFlow

variable {L : Libs}

open History Stepping

/-! ### What is asked of a trace -/

/-- The `NODE_START`s (true) and `NODE_END`s (false) of a node. -/
def startEnds (n : Id) (log : List (Event L)) : List Bool :=
  log.filterMap fun ev =>
    match ev with
    | .nodeStart m _ => if m = n then some true else none
    | .nodeEnd m _ _ => if m = n then some false else none
    | _ => none

/-- True, false, true, … -/
def Alternates (l : List Bool) : Prop := ∀ i b, l[i]? = some b → b = decide (i % 2 = 0)

/-- How often the edge `a → b` of group `k` fires. -/
def firesOf (a b : Id) (k : ℤ) (log : List (Event L)) : ℕ :=
  log.countP fun ev =>
    match ev with
    | .edgeFire a' b' k' => a' = a ∧ b' = b ∧ k' = k
    | _ => false

/-- A failure comes between a start and its end. -/
def FailOk (before : List (Event L)) (ev : Event L) : Prop :=
  ∀ n, ev = .nodeFailed n → (startEnds n before).getLast? = some true

/-- An edge fires after an end of its source that is the last one, and was
neither failed nor cancelled; since then it has not fired. Parallel edges of
one group are told apart by their number only. -/
def FireOk (g : Graph) (before : List (Event L)) (ev : Event L) : Prop :=
  ∀ a b k, ev = .edgeFire a b k → ∃ p q, before = p ++ .nodeEnd a false false :: q ∧ (∀ c f, .nodeEnd a c f ∉ q) ∧
    firesOf a b k q < g.edges.countP fun e => e.src = a ∧ e.dst = b ∧ e.activationGroup = k

/-- The node enters `completed_node_ids_`, fires an edge, sets the terminal
state or writes a checkpoint. -/
def Event.effectOf (n : Id) : Event L → Prop
  | .completed m => m = n
  | .edgeFire a _ _ => a = n
  | .terminal m => m = n
  | .checkpoint m _ => m = n
  | _ => False

/-- After the token is cancelled, an effect belongs to a node that ended before. -/
def EffectOk (before : List (Event L)) (ev : Event L) : Prop :=
  ∀ n, ev.effectOf n → ∀ p q, before = p ++ .cancel :: q → ∀ c f, .nodeEnd n c f ∉ q

/-- The trace of a run. -/
structure WellFormed (g : Graph) (y : Exec L) : Prop where
  alternate : ∀ n, Alternates (startEnds n y.log)
  failOk : Each FailOk y.log
  fireOk : Each (FireOk g) y.log
  effectOk : Each EffectOk y.log
  /-- In the end every start has its end. -/
  ended : y.pc.finished = true → ∀ n, (startEnds n y.log).getLast? ≠ some true
  /-- `GRAPH_DONE` is the last event, the only one, and says whether a node failed. -/
  done : y.pc.finished = true → ∃ p failed, y.log = p ++ [.graphDone failed] ∧ (∀ b, .graphDone b ∉ p) ∧
    (failed = true ↔ ∃ n c, .nodeEnd n c true ∈ p)

/-! ### Lists that alternate -/

theorem alternates_snoc {l : List Bool} {b : Bool} :
    Alternates (l ++ [b]) ↔ Alternates l ∧ b = decide (l.length % 2 = 0) := by
  constructor
  · intro h
    refine ⟨fun i c hc => h i c ?_, h l.length b (by simp)⟩
    rw [List.getElem?_append_left (List.getElem?_eq_some_iff.mp hc).1]
    exact hc
  · rintro ⟨h, rfl⟩ i c hc
    rcases lt_trichotomy i l.length with hi | rfl | hi
    · rw [List.getElem?_append_left hi] at hc
      exact h i c hc
    · simpa using hc.symm
    · rw [List.getElem?_append_right hi.le, List.getElem?_eq_none (by simp; omega)] at hc
      cases hc

theorem alternates_nil : Alternates [] := by
  intro i b h
  simp at h

/-- It ends in a start when its length is odd. -/
theorem Alternates.getLast?_eq {l : List Bool} (h : Alternates l) :
    l.getLast? = some true ↔ l.length % 2 = 1 := by
  rcases List.eq_nil_or_concat l with rfl | ⟨l', b, rfl⟩
  · simp
  · rw [List.concat_eq_append] at h ⊢
    obtain ⟨-, rfl⟩ := alternates_snoc.mp h
    simp only [List.getLast?_append_of_ne_nil _ (List.cons_ne_nil _ _), List.getLast?_singleton, Option.some.injEq,
      decide_eq_true_eq, List.length_append, List.length_singleton]
    omega

/-! ### The projections on a completion -/

@[simp] theorem startEnds_append (n : Id) (l l' : List (Event L)) :
    startEnds n (l ++ l') = startEnds n l ++ startEnds n l' := List.filterMap_append

@[simp] theorem firesOf_append (a b : Id) (k : ℤ) (l l' : List (Event L)) :
    firesOf a b k (l ++ l') = firesOf a b k l + firesOf a b k l' := List.countP_append

theorem startEnds_eq_nil {n : Id} {l : List (Event L)}
    (h : ∀ ev ∈ l, (∀ m i, ev ≠ .nodeStart m i) ∧ ∀ m c f, ev ≠ .nodeEnd m c f) : startEnds n l = [] := by
  rw [startEnds, List.filterMap_eq_nil_iff]
  intro ev hev
  obtain ⟨h1, h2⟩ := h ev hev
  cases ev with
  | nodeStart m i => exact absurd rfl (h1 m i)
  | nodeEnd m c f => exact absurd rfl (h2 m c f)
  | _ => rfl

theorem Event.afterEnd.not_startEnd {n : Id} {ev : Event L} (h : ev.afterEnd n) :
    (∀ m i, ev ≠ .nodeStart m i) ∧ ∀ m c f, ev ≠ .nodeEnd m c f := by
  constructor
  · rintro m i rfl; exact h
  · rintro m c f rfl; exact h

/-- A completion as what precedes its end and what follows. -/
theorem completionEvents_split (S : Setup) (loop : Loop) (n : Id) (res : Except L.Exception (State L))
    (cut : Option CancelPoint) (cancelled : Bool) (ids : List Id) :
    completionEvents S loop n res cut cancelled ids =
      (resultEvent n res :: (if cut = some .nodeEnd ∧ cancelled = false then [.cancel] else [])) ++
        .nodeEnd n (cancelled || decide (cut = some .nodeEnd)) (isFailed res) ::
          completionTail S loop n res cut (cancelled || decide (cut = some .nodeEnd)) ids := by
  simp [completionEvents]

theorem startEnds_completionEvents (S : Setup) (loop : Loop) (n m : Id) (res : Except L.Exception (State L))
    (cut : Option CancelPoint) (cancelled : Bool) (ids : List Id) :
    startEnds m (completionEvents S loop n res cut cancelled ids) = if n = m then [false] else [] := by
  have hhead : startEnds m (resultEvent n res ::
      (if cut = some .nodeEnd ∧ cancelled = false then [Event.cancel] else [])) = [] := by
    refine startEnds_eq_nil fun ev hev => ?_
    rcases List.mem_cons.mp hev with rfl | hev
    · cases res <;> simp [resultEvent]
    · split_ifs at hev
      · rw [List.mem_singleton.mp hev]; simp
      · cases hev
  have htail : startEnds m (completionTail S loop n res cut (cancelled || decide (cut = some .nodeEnd)) ids) = [] :=
    startEnds_eq_nil fun ev hev => (completionTail_afterEnd S loop n res cut _ ids ev hev).not_startEnd
  rw [completionEvents_split, startEnds_append, hhead, List.nil_append, ← List.singleton_append, startEnds_append,
    htail, List.append_nil]
  by_cases h : n = m <;> simp [startEnds, h]

theorem firesOf_fanOutEvents (n b : Id) (k : ℤ) (cut : Option CancelPoint) : ∀ (es : List Edge) (i : ℕ),
    firesOf n b k (fanOutEvents n cut i es : List (Event L)) =
      es.countP fun e => e.src = n ∧ e.dst = b ∧ e.activationGroup = k
  | [], _ => rfl
  | e :: es, i => by
    have ih := firesOf_fanOutEvents n b k cut es (i + 1)
    have hcan : firesOf n b k (if cut = some (.edge i) then [Event.cancel] else [] : List (Event L)) = 0 := by
      split_ifs <;> rfl
    rw [fanOutEvents, List.countP_cons]
    by_cases hs : e.src = n
    · rw [if_pos hs, firesOf_append, hcan, ← List.singleton_append, firesOf_append, ih, hs]
      simp [firesOf]
      omega
    · simp [hs, ih]

theorem firesOf_eq_zero {a b : Id} {k : ℤ} {l : List (Event L)} (h : .edgeFire a b k ∉ l) : firesOf a b k l = 0 := by
  rw [firesOf, List.countP_eq_zero]
  intro ev hev
  cases ev with
  | edgeFire a' b' k' =>
    simp only [decide_eq_true_eq]
    rintro ⟨rfl, rfl, rfl⟩
    exact h hev
  | _ => simp

section completion

variable {S : Setup} {loop : Loop} {n : Id} {res : Except L.Exception (State L)} {cut : Option CancelPoint}
  {cancelled : Bool} {ids : List Id} {log : List (Event L)}

theorem completion_failOk (h : (startEnds n log).getLast? = some true) :
    Each (fun p ev => FailOk (log ++ p) ev) (completionEvents S loop n res cut cancelled ids) := by
  refine each_cons.mpr ⟨fun m hm => ?_, fun p ev s hs m hm => ?_⟩
  · cases res with
    | ok out => cases hm
    | error e =>
      cases hm
      rw [List.append_nil]; exact h
  · -- the result comes first, so nothing after it is a failure
    subst hm
    have hmem : Event.nodeFailed m ∈ p ++ Event.nodeFailed m :: s := by simp
    rw [← hs] at hmem
    rcases List.mem_append.mp hmem with he | he
    · split_ifs at he
      · cases List.mem_singleton.mp he
      · cases he
    · rcases List.mem_cons.mp he with he | he
      · cases he
      · cases completionTail_afterEnd _ _ _ _ _ _ _ _ he

theorem completion_fireOk (log : List (Event L)) :
    Each (fun p ev => FireOk S.graph (log ++ p) ev) (completionEvents S loop n res cut cancelled ids) := by
  intro p ev s hs a b k he
  subst he
  have hmem : Event.edgeFire a b k ∈ completionEvents S loop n res cut cancelled ids := by rw [hs]; simp
  obtain ⟨hres, hf, e, -, rfl, rfl, -⟩ := edgeFire_mem_completionEvents.mp hmem
  cases res with
  | error e => cases hres
  | ok out =>
    obtain ⟨rest, heq, hrest⟩ := completionEvents_fired (S := S) loop e.src out ids hf
    have hafter : ∀ ev ∈ Event.completed e.src ::
        (fanOutEvents e.src cut 0 S.graph.edges ++ terminalEvents S.graph e.src ++ rest), ev.afterEnd e.src := by
      intro ev hev
      simp only [List.mem_cons, List.mem_append] at hev
      rcases hev with rfl | (hev | hev) | hev
      · rfl
      · exact fanOutEvents_afterEnd _ _ _ _ _ hev
      · exact terminalEvents_afterEnd _ _ _ hev
      · rcases hrest ev hev with rfl | hev
        · trivial
        · exact checkpointEvents_afterEnd _ _ _ _ _ hev
    rw [heq] at hs
    obtain ⟨p', rfl, htail⟩ := split_of_notMem hs (by simp)
    refine ⟨log ++ [.output e.src out], p', by simp, fun c f hm => ?_, ?_⟩
    · exact hafter (.nodeEnd e.src c f) (by rw [htail]; simp [hm])
    · have hcount : firesOf e.src b k (Event.completed e.src ::
          (fanOutEvents e.src cut 0 S.graph.edges ++ terminalEvents S.graph e.src ++ rest)) =
          S.graph.edges.countP fun a => a.src = e.src ∧ a.dst = b ∧ a.activationGroup = k := by
        have h1 : firesOf e.src b k (terminalEvents S.graph e.src : List (Event L)) = 0 := by
          unfold terminalEvents; split_ifs <;> rfl
        have h2 : firesOf e.src b k rest = 0 := firesOf_eq_zero fun hm => by
          rcases hrest _ hm with he | he
          · cases he
          · cases mem_checkpointEvents he
        rw [← List.singleton_append, firesOf_append, firesOf_append, firesOf_append, firesOf_fanOutEvents, h1, h2]
        simp [firesOf]
      rw [← hcount, htail, firesOf_append, ← List.singleton_append, firesOf_append]
      simp [firesOf]

theorem completion_effectOk (h : .cancel ∈ log → cancelled = true) :
    Each (fun p ev => EffectOk (log ++ p) ev) (completionEvents S loop n res cut cancelled ids) := by
  intro p ev s hs m hm p₀ q hb c f hq
  have hmem : ev ∈ completionEvents S loop n res cut cancelled ids := by rw [hs]; simp
  have hne : ev ≠ resultEvent n res ∧ ∀ b, ev ≠ .nodeEnd n b (isFailed res) := by
    constructor
    · rintro rfl; cases res <;> exact hm
    · rintro b rfl; exact hm
  have hnc : ev ≠ .cancel := by rintro rfl; exact hm
  rw [completionEvents_split] at hs hmem
  have hafter := fun now => completionTail_afterEnd S loop n res cut now ids
  -- an effect is in the tail, which is empty if the token was cancelled at `NODE_END`
  have hnow : (cancelled || decide (cut = some .nodeEnd)) = false := by
    rcases List.mem_append.mp hmem with he | he
    · rcases List.mem_cons.mp he with he | he
      · exact absurd he hne.1
      · split_ifs at he
        · exact absurd (List.mem_singleton.mp he) hnc
        · cases he
    · rcases List.mem_cons.mp he with he | he
      · exact absurd he (hne.2 _)
      · rw [← Bool.not_eq_true]
        intro ht
        rw [ht] at he
        simp [completionTail] at he
  obtain ⟨rfl, hcut⟩ : cancelled = false ∧ cut ≠ some .nodeEnd := by simpa using hnow
  have hlog : Event.cancel ∉ log := fun hm => by cases h hm
  have hs' : [resultEvent n res, .nodeEnd n false (isFailed res)] ++ completionTail S loop n res cut false ids =
      p ++ ev :: s := by simpa [hcut] using hs
  obtain ⟨p', rfl, htail⟩ := split_of_notMem hs' (by simp [hne.1, hne.2 false])
  have hb' : (log ++ [resultEvent n res, .nodeEnd n false (isFailed res)]) ++ p' = p₀ ++ .cancel :: q := by
    rw [← hb]; simp
  obtain ⟨p'', -, hp'⟩ := split_of_notMem hb' (by cases res <;> simp [hlog, resultEvent])
  have hmt : Event.nodeEnd m c f ∈ completionTail S loop n res cut false ids := by
    rw [htail, hp']; simp [hq]
  exact hafter false _ hmt

/-- A failed end is logged when the node threw. -/
theorem nodeEnd_failed_mem :
    (∃ m c, .nodeEnd m c true ∈ completionEvents S loop n res cut cancelled ids) ↔ isFailed res = true := by
  constructor
  · rintro ⟨m, c, hm⟩
    rcases mem_completionEvents hm with he | ⟨b, he⟩ | he
    · cases res <;> cases he
    · cases res with
      | ok out => cases he
      | error e => rfl
    · cases he
  · intro hr
    refine ⟨n, cancelled || decide (cut = some .nodeEnd), ?_⟩
    rw [completionEvents_split, hr]
    exact List.mem_append_right _ List.mem_cons_self

end completion

/-! ### The invariant -/

/-- The trace so far, and what the state says of it. -/
structure Traced (S : Setup) (x : Exec L) : Prop where
  alternate : ∀ n, Alternates (startEnds n x.log)
  /-- The nodes that have started and not ended are those that run. -/
  running : ∀ n, (startEnds n x.log).getLast? = some true ↔ n ∈ x.running.map (·.node)
  failOk : Each FailOk x.log
  fireOk : Each (FireOk S.graph) x.log
  effectOk : Each EffectOk x.log
  token : .cancel ∈ x.log → x.cancelled = true
  failed : (∃ n c, .nodeEnd n c true ∈ x.log) ↔ x.impl.firstError.isSome = true

namespace Traced

variable {S : Setup} {loop : Loop} {c : Choice L} {x y : Exec L}

/-- A step of the main loop, or a cancellation. -/
theorem other (h : Traced S x) {evs : List (Event L)} (hl : y.log = x.log ++ evs)
    (hevs : ∀ ev ∈ evs, (∃ v, ev = .launch v) ∨ (∃ b, ev = .graphDone b) ∨ (ev = .cancel ∧ y.cancelled = true))
    (hr : y.running = x.running) (hcan : x.cancelled = true → y.cancelled = true)
    (he : y.impl.firstError = x.impl.firstError) : Traced S y := by
  have hse : ∀ n, startEnds n y.log = startEnds n x.log := fun n => by
    have : startEnds n evs = [] := startEnds_eq_nil fun ev hev => by
      rcases hevs ev hev with ⟨v, rfl⟩ | ⟨b, rfl⟩ | ⟨rfl, -⟩ <;> simp
    rw [hl, startEnds_append, this, List.append_nil]
  refine
    { alternate := fun n => by rw [hse]; exact h.alternate n
      running := fun n => by rw [hse, hr]; exact h.running n
      failOk := ?_
      fireOk := ?_
      effectOk := ?_
      token := fun hm => ?_
      failed := ?_ }
  · rw [hl]
    refine h.failOk.append_of_forall fun ev hev p n hn => ?_
    rcases hevs ev hev with ⟨v, rfl⟩ | ⟨b, rfl⟩ | ⟨rfl, -⟩ <;> cases hn
  · rw [hl]
    refine h.fireOk.append_of_forall fun ev hev p a b k hn => ?_
    rcases hevs ev hev with ⟨v, rfl⟩ | ⟨b, rfl⟩ | ⟨rfl, -⟩ <;> cases hn
  · rw [hl]
    refine h.effectOk.append_of_forall fun ev hev p n hn => ?_
    rcases hevs ev hev with ⟨v, rfl⟩ | ⟨b, rfl⟩ | ⟨rfl, -⟩ <;> cases hn
  · rw [hl, List.mem_append] at hm
    rcases hm with hm | hm
    · exact hcan (h.token hm)
    · rcases hevs _ hm with ⟨v, hv⟩ | ⟨b, hb⟩ | ⟨-, hc⟩
      · cases hv
      · cases hb
      · exact hc
  · rw [he, ← h.failed, hl]
    simp only [List.mem_append]
    refine exists_congr fun n => exists_congr fun b => or_iff_left fun hm => ?_
    rcases hevs _ hm with ⟨v, hv⟩ | ⟨b, hb⟩ | ⟨hc, -⟩
    · cases hv
    · cases hb
    · cases hc

theorem start (h : Traced S x) (ht : Tasks x) {t : Task L} {ts : List (Task L)} (hq : x.queued = t :: ts) :
    Traced S { x with
      queued := ts, running := x.running ++ [t], log := x.log ++ [.nodeStart t.node t.input] } := by
  have hout : t.node ∉ x.running.map (·.node) := by
    have hnd := ht.nodup
    rw [Exec.tasks, hq, List.cons_append, List.map_cons, List.nodup_cons, List.map_append, List.mem_append] at hnd
    exact fun hm => hnd.1 (Or.inr hm)
  have hse : ∀ n, startEnds n (x.log ++ [Event.nodeStart t.node t.input]) =
      startEnds n x.log ++ if t.node = n then [true] else [] := fun n => by
    by_cases hn : t.node = n <;> simp [startEnds, hn]
  have heven : (startEnds t.node x.log).length % 2 = 0 := by
    have := ((h.alternate t.node).getLast?_eq).not.mp fun hl => hout ((h.running t.node).mp hl)
    omega
  refine
    { alternate := fun n => ?_
      running := fun n => ?_
      failOk := each_snoc.mpr ⟨h.failOk, fun n hn => by cases hn⟩
      fireOk := each_snoc.mpr ⟨h.fireOk, fun a b k hn => by cases hn⟩
      effectOk := each_snoc.mpr ⟨h.effectOk, fun n hn => by cases hn⟩
      token := fun hm => h.token (by simpa using hm)
      failed := by simpa using h.failed }
  · show Alternates (startEnds n (x.log ++ [Event.nodeStart t.node t.input]))
    rw [hse]
    split_ifs with hn
    · subst hn
      exact alternates_snoc.mpr ⟨h.alternate _, by simp [heven]⟩
    · rw [List.append_nil]; exact h.alternate n
  · show (startEnds n (x.log ++ [Event.nodeStart t.node t.input])).getLast? = some true ↔
      n ∈ (x.running ++ [t]).map (·.node)
    rw [hse, List.map_append, List.mem_append, ← h.running n]
    split_ifs with hn
    · simp [hn]
    · simp [Ne.symm hn]

/-- What a completion adds to the trace. -/
theorem finish (h : Traced S x) (ht : Tasks x) {k : ℕ} {t : Task L} {res : Except L.Exception (State L)}
    {cut : Option CancelPoint} (hk : x.running[k]? = some t) :
    Traced S (complete S loop t.node res cut { x with running := x.running.eraseIdx k }) := by
  set x' : Exec L := { x with running := x.running.eraseIdx k } with hx'
  have hlog : (complete S loop t.node res cut x').log =
      x.log ++ completionEvents S loop t.node res cut x.cancelled x.impl.completedNodeIds :=
    complete_log S loop t.node res cut x'
  have hi := complete_impl S loop t.node res cut x'
  have hcan := complete_cancelled S loop t.node res cut x'
  obtain ⟨-, -, e3, -⟩ := complete_keeps S loop t.node res cut x'
  have hrun : t.node ∈ x.running.map (·.node) := List.mem_map_of_mem (List.mem_of_getElem? hk)
  have hlast := (h.running t.node).mpr hrun
  have hodd := (h.alternate t.node).getLast?_eq.mp hlast
  have hperm : (x.running.map (·.node)).Perm (t.node :: (x.running.eraseIdx k).map (·.node)) := by
    obtain ⟨hlt, rfl⟩ := List.getElem?_eq_some_iff.mp hk
    exact ((List.getElem_cons_eraseIdx_perm hlt).symm).map (·.node)
  have hnot : t.node ∉ (x.running.eraseIdx k).map (·.node) := by
    have hnd := ht.nodup
    rw [Exec.tasks, List.map_append] at hnd
    exact (List.nodup_cons.mp (hperm.nodup_iff.mp (List.nodup_append.mp hnd).2.1)).1
  set evs := completionEvents S loop t.node res cut x.cancelled x.impl.completedNodeIds with hevs
  have hse : ∀ n, startEnds n (x.log ++ evs) = startEnds n x.log ++ if t.node = n then [false] else [] :=
    fun n => by rw [startEnds_append, hevs, startEnds_completionEvents]
  refine
    { alternate := fun n => ?_
      running := fun n => ?_
      failOk := ?_
      fireOk := ?_
      effectOk := ?_
      token := fun hm => ?_
      failed := ?_ }
  · rw [hlog, hse]
    split_ifs with hn
    · subst hn
      exact alternates_snoc.mpr ⟨h.alternate _, by simp [hodd]⟩
    · rw [List.append_nil]; exact h.alternate n
  · rw [hlog, hse, e3]
    split_ifs with hn
    · subst hn
      simpa using hnot
    · rw [List.append_nil, h.running n, hperm.mem_iff, List.mem_cons]
      exact or_iff_right (Ne.symm hn)
  · rw [hlog]
    exact each_append.mpr ⟨h.failOk, completion_failOk hlast⟩
  · rw [hlog]
    exact each_append.mpr ⟨h.fireOk, completion_fireOk x.log⟩
  · rw [hlog]
    exact each_append.mpr ⟨h.effectOk, completion_effectOk h.token⟩
  · rw [hlog, List.mem_append] at hm
    exact hcan.mpr (hm.imp h.token id)
  · have hend : (∃ m c, .nodeEnd m c true ∈ evs) ↔ isFailed res = true := nodeEnd_failed_mem
    rw [hlog, hi, finish_firstError, Option.isSome_or, thrownBy_isSome, Bool.or_eq_true, ← hend, ← h.failed]
    simp only [List.mem_append, exists_or]

theorem step (h : Traced S x) (ht : Tasks x) (hs : Moves S loop c x y) : Traced S y := by
  have hlog := step_log hs
  have herr := step_firstError hs
  cases hs with
  | launch hpc => exact h.other hlog (by simp [stepEvents, hpc]) rfl id rfl
  | batchDone hpc => exact h.other (List.append_nil _).symm (by simp) rfl id rfl
  | drained hpc hr => exact h.other (List.append_nil _).symm (by simp) rfl id rfl
  | batch hpc hr => exact h.other (List.append_nil _).symm (by simp) rfl id rfl
  | wait hpc h0 => exact h.other (List.append_nil _).symm (by simp) rfl id rfl
  | leave hpc h0 =>
    obtain ⟨-, -, -, i4, -⟩ := leave_impl x
    obtain ⟨-, f2, -, f4, f5, -⟩ := leave_rest x
    exact h.other f5 (fun ev hev => Or.inr (Or.inl ⟨_, List.mem_singleton.mp hev⟩)) f2 (by rw [f4]; exact id) i4
  | receive hpc hd =>
    obtain ⟨-, f2, -, f4⟩ := received_rest { x with done := x.done - 1 }
    refine h.other hlog (fun ev hev => ?_) f2 (by rw [f4]; exact id) (by rw [received_impl])
    simp only [stepEvents, hpc] at hev
    split_ifs at hev
    · exact Or.inr (Or.inl ⟨true, List.mem_singleton.mp hev⟩)
    · cases hev
  | start hq hrun => exact h.start ht hq
  | finish hk hrun => exact h.finish ht hk
  | cancel hpc =>
    have hcan : (x.cancelIf true).cancelled = true := by simp
    refine h.other hlog (fun ev hev => ?_) (Exec.cancelIf_keeps x true).running (fun _ => hcan) (by simp)
    simp only [stepEvents] at hev
    split_ifs at hev
    · cases hev
    · exact Or.inr (Or.inr ⟨List.mem_singleton.mp hev, hcan⟩)

theorem begin {m : Impl L} (hnone : m.firstError = none) (batch : List Id) : Traced S (Exec.begin m batch) where
  alternate _ := alternates_nil
  running n := by simp [Exec.begin, startEnds]
  failOk := each_nil
  fireOk := each_nil
  effectOk := each_nil
  token h := by cases h
  failed := by simp [Exec.begin, hnone]

theorem run {cs : List (Choice L)} (hr : Run (AgentFlow.step S loop) (fun _ _ => True) x cs y) (hx : Traced S x)
    (ht : Tasks x) : Traced S y :=
  (hr.invariant (I := fun x => Traced S x ∧ Tasks x)
    (fun _ _ _ hI _ hs => ⟨hI.1.step hI.2 (step_eq_some.mp hs), hI.2.step (step_eq_some.mp hs)⟩) ⟨hx, ht⟩).1

end Traced

/-- **Every trace is well formed**: of every run from a fresh runner, with
whatever results, schedule and cancellation. -/
theorem trace_wellFormed (S : Setup) (loop : Loop) (x₀ : Exec L) (h₀ : Origin S loop x₀) (cs : List (Choice L))
    (y : Exec L) (hr : Run (step S loop) (fun _ _ => True) x₀ cs y) : WellFormed S.graph y := by
  obtain ⟨m, batch, rfl, hidle, hnone, hnd⟩ := h₀.begin
  have htasks := Tasks.run hr (Tasks.begin hidle hnd)
  have hexit := Exits.run hr (Exits.begin m batch)
  have hy := Traced.run hr (Traced.begin hnone batch) (Tasks.begin hidle hnd)
  refine
    { alternate := hy.alternate
      failOk := hy.failOk
      fireOk := hy.fireOk
      effectOk := hy.effectOk
      ended := fun hf n hlast => ?_
      done := fun hf => ?_ }
  · -- a node that has not ended runs, and no node does in the end
    have hm : n ∈ y.tasks := by
      rw [Exec.tasks, List.map_append]
      exact List.mem_append_right _ ((hy.running n).mp hlast)
    rw [htasks.ended hf] at hm
    cases hm
  · obtain ⟨p, hp, honly⟩ := hexit.last hf
    refine ⟨p, _, hp, honly, ?_⟩
    rw [← hy.failed, hp]
    simp

/-- On the join `a` throws, and the token is cancelled while `b` runs. -/
theorem trace_wellFormed_join : ∃ y : Exec Libs.text, y.pc.finished = true ∧ y.cancelled = true ∧
    y.impl.firstError.isSome = true ∧ WellFormed Graph.join y := by
  have h : (check (step (Setup.plain .join) .run) (fun _ _ => true)
      [.main, .main, .main, .main, .main, .start, .start, .finish 0 (.error "boom") none, .main, .main, .main,
        .cancel, .finish 0 (.ok (Libs.text.state [1])) none, .main]
      (runStart (Setup.plain .join) .fresh (Libs.text.state [0]))).any
      (fun y => y.pc.finished && y.cancelled && y.impl.firstError.isSome) = true := by
    decide
  obtain ⟨y, hr, hy⟩ := Run.exists_of_check (fun _ _ => True) h fun _ _ _ => trivial
  simp only [Bool.and_eq_true] at hy
  exact ⟨y, hy.1.1, hy.1.2, hy.2, trace_wellFormed _ _ _ (.run _) _ y hr⟩

end AgentFlow
