/-
# What each step adds to the log

The log only grows, and what a step adds is a function of the state and the
choice (`stepEvents`, `step_log`). From it follow the facts of every run that
do not depend on the graph: `first_error_` is the first exception thrown
(`run_firstError`), and `GRAPH_DONE` is the last event and says whether there
was one (`Exits`).

Key definitions: `stepEvents`, `firstThrown`, `Exits`.
-/
import AgentFlow.Core.Start

namespace AgentFlow

variable {L : Libs}

open Stepping

def stepEvents (S : Setup) (loop : Loop) (x : Exec L) : Choice L → List (Event L)
  | .main =>
    match x.pc with
    | .launching (n :: _) _ => [.launch n]
    | .check => if x.impl.inFlightCount = 0 then [.graphDone x.impl.firstError.isSome] else []
    | .receive => if x.impl.firstError.isSome && x.impl.inFlightCount == 0 then [.graphDone true] else []
    | _ => []
  | .start =>
    match x.queued with
    | [] => []
    | t :: _ => [.nodeStart t.node t.input]
  | .finish k res cut =>
    match x.running[k]? with
    | none => []
    | some t => completionEvents S loop t.node res cut x.cancelled x.impl.completedNodeIds
  | .cancel => if x.cancelled then [] else [.cancel]

section step

variable {S : Setup} {loop : Loop} {c : Choice L} {x y : Exec L}

theorem step_log (h : Moves S loop c x y) : y.log = x.log ++ stepEvents S loop x c := by
  cases h with
  | launch hpc => simp [stepEvents, hpc, launch]
  | batchDone hpc => simp [stepEvents, hpc]
  | drained hpc hr => simp [stepEvents, hpc]
  | batch hpc hr => simp [stepEvents, hpc]
  | leave hpc h0 =>
    obtain ⟨-, -, -, -, f5, -⟩ := leave_rest x
    simp [stepEvents, hpc, h0, f5]
  | wait hpc h0 => simp [stepEvents, hpc, h0]
  | receive hpc hd =>
    rcases received_cases { x with done := x.done - 1 } with ⟨e, he, h0, hr⟩ | ⟨hor, hr⟩
    · have he' : x.impl.firstError = some e := he
      have h0' : x.impl.inFlightCount = 0 := h0
      rw [hr]
      simp [stepEvents, hpc, he', h0']
    · have hor' : x.impl.firstError = none ∨ x.impl.inFlightCount ≠ 0 := hor
      rw [hr]
      rcases hor' with he | h0 <;> simp [stepEvents, *]
  | start hq hrun => simp [stepEvents, hq]
  | @finish _ k t res cut hk hrun =>
    rw [complete_log]
    simp [stepEvents, hk]
  | cancel hpc =>
    rw [Exec.cancelIf_log]
    cases hx : x.cancelled <;> simp [stepEvents, hx]

/-- Nothing happens after the end. -/
theorem Moves.not_finished (h : Moves S loop c x y) : x.pc.finished = false := by
  cases h with
  | start hq hrun => exact (Pc.of_mayRun hrun).1
  | finish hk hrun => exact (Pc.of_mayRun hrun).1
  | cancel hpc => exact hpc
  | launch hpc | batchDone hpc | drained hpc | batch hpc | leave hpc | wait hpc | receive hpc => rw [hpc]; rfl

/-- A step that neither launches a node nor ends one: no node's bookkeeping
changes, and the loop gets a batch by a scan only. -/
structure Passes (S : Setup) (c : Choice L) (x y : Exec L) (evs : List (Event L)) : Prop where
  activations : y.impl.activations = x.impl.activations
  completed : y.impl.completedNodeIds = x.impl.completedNodeIds
  firstError : y.impl.firstError = x.impl.firstError
  tasks : y.tasks.Perm x.tasks
  token : x.cancelled = true → y.cancelled = true
  uncancelled : c ≠ .cancel → y.cancelled = x.cancelled
  log : y.log = x.log ++ evs
  events : ∀ ev ∈ evs, (∃ n i, ev = .nodeStart n i) ∨ ev = .cancel ∨ ∃ b, ev = .graphDone b
  batch : ∀ b last, y.pc = .launching b last → y.pc = x.pc ∨ b = ready S x.impl
  launched : ∀ b last, x.pc = .launching b last → b = [] ∨ y.pc = x.pc
  drained : y.pc = .check ∨ y.pc.finished = true →
    ready S x.impl = [] ∨ x.pc = .check ∨ x.impl.firstError.isSome = true

namespace Passes

/-- The loop goes to another line. -/
theorem goTo {p : Pc L} (hl : ∀ b last, x.pc = .launching b last → b = [])
    (hb : ∀ b last, p = .launching b last → b = ready S x.impl)
    (ho : p = .check ∨ p.finished = true → ready S x.impl = []) : Passes S c x { x with pc := p } [] where
  activations := rfl
  completed := rfl
  firstError := rfl
  tasks := .refl _
  token h := h
  uncancelled _ := rfl
  log := (List.append_nil _).symm
  events ev h := by cases h
  batch b last h := Or.inr (hb b last h)
  launched b last h := Or.inl (hl b last h)
  drained h := Or.inl (ho h)

theorem leave (hpc : x.pc = .check) : Passes S c x (leave x) [.graphDone x.impl.firstError.isSome] := by
  obtain ⟨i1, -, -, i4, i5⟩ := leave_impl x
  obtain ⟨f1, f2, -, f4, f5, f6⟩ := leave_rest x
  refine ⟨i1, i5, i4, by rw [Exec.tasks, f1, f2]; exact .refl _, fun h => f4.trans h, fun _ => f4, f5, fun ev h => ?_,
    fun b last h => ?_, fun b last h => ?_, fun _ => Or.inr (Or.inl hpc)⟩
  · exact Or.inr (Or.inr ⟨_, List.mem_singleton.mp h⟩)
  · rw [h] at f6; cases f6
  · rw [hpc] at h; cases h

theorem receive (hpc : x.pc = .receive) :
    Passes S .main x (received { x with done := x.done - 1 }) (stepEvents S loop x .main) := by
  have hnot : ∀ b last, x.pc = .launching b last → b = [] := fun b last h => by rw [hpc] at h; cases h
  rcases received_cases { x with done := x.done - 1 } with ⟨e, he, h0, hr⟩ | ⟨hor, hr⟩
  · have he' : x.impl.firstError = some e := he
    have h0' : x.impl.inFlightCount = 0 := h0
    have hev : stepEvents S loop x .main = [.graphDone true] := by simp [stepEvents, hpc, he', h0']
    rw [hr, hev]
    exact ⟨rfl, rfl, rfl, .refl _, id, fun _ => rfl, rfl, fun ev h => Or.inr (Or.inr ⟨_, List.mem_singleton.mp h⟩),
      fun b last h => (by cases h), fun b last h => Or.inl (hnot b last h), fun _ => Or.inr (Or.inr (by rw [he']; rfl))⟩
  · have hor' : x.impl.firstError = none ∨ x.impl.inFlightCount ≠ 0 := hor
    have hev : stepEvents S loop x .main = [] := by
      rcases hor' with he | h0 <;> simp [stepEvents, *]
    rw [hr, hev]
    exact ⟨rfl, rfl, rfl, .refl _, id, fun _ => rfl, (List.append_nil _).symm, fun ev h => (by cases h),
      fun b last h => (by cases h), fun b last h => Or.inl (hnot b last h), fun h => by rcases h with h | h <;> cases h⟩

theorem start {t : Task L} {ts : List (Task L)} (hq : x.queued = t :: ts) (hrun : x.pc.mayRun t.node = true) :
    Passes S c x
      { x with queued := ts, running := x.running ++ [t], log := x.log ++ [.nodeStart t.node t.input] }
      [.nodeStart t.node t.input] := by
  obtain ⟨h1, h2⟩ := Pc.of_mayRun hrun
  refine ⟨rfl, rfl, rfl, tasks_start hq _, id, fun _ => rfl, rfl, fun ev h => ?_, fun b last h => Or.inl rfl,
    fun b last h => Or.inr rfl, fun h => ?_⟩
  · exact Or.inl ⟨_, _, List.mem_singleton.mp h⟩
  · rcases h with h | h
    · exact absurd h h2
    · rw [show x.pc.finished = true from h] at h1
      cases h1

theorem cancel (hpc : x.pc.finished = false) :
    Passes S .cancel x (x.cancelIf true) (stepEvents S loop x .cancel) := by
  obtain ⟨e1, e2, e3, -⟩ := Exec.cancelIf_keeps x true
  have hi := x.cancelIf_impl true
  refine ⟨by rw [hi], by rw [hi], by rw [hi], by rw [Exec.tasks, e2, e3]; exact .refl _, fun _ => by simp,
    fun h => absurd rfl h, step_log (.cancel hpc), fun ev h => ?_, fun b last h => Or.inl e1,
    fun b last h => Or.inr e1, fun h => ?_⟩
  · simp only [stepEvents] at h
    split_ifs at h
    · cases h
    · exact Or.inr (Or.inl (List.mem_singleton.mp h))
  · rw [e1, hpc] at h
    exact Or.inr (Or.inl (h.resolve_right (by simp)))

end Passes

/-- A step launches a node, ends one, or passes them all by. -/
theorem Moves.split (h : Moves S loop c x y) :
    (∃ n rest last, c = .main ∧ x.pc = .launching (n :: rest) last ∧
      y = { AgentFlow.launch x n with pc := .launching rest (some n) }) ∨
    (∃ k t res cut, c = .finish k res cut ∧ x.running[k]? = some t ∧ x.pc.mayRun t.node = true ∧
      y = complete S loop t.node res cut { x with running := x.running.eraseIdx k }) ∨
    Passes S c x y (stepEvents S loop x c) := by
  cases h with
  | launch hpc => exact Or.inl ⟨_, _, _, rfl, hpc, rfl⟩
  | finish hk hrun => exact Or.inr (Or.inl ⟨_, _, _, _, rfl, hk, hrun, rfl⟩)
  | batchDone hpc =>
    rw [show stepEvents S loop x .main = [] by simp [stepEvents, hpc]]
    refine Or.inr (Or.inr (.goTo (fun b last h => ?_) (fun b last h => by cases h) fun h => ?_))
    · rw [hpc] at h; cases h; rfl
    · rcases h with h | h <;> cases h
  | drained hpc hr =>
    rw [show stepEvents S loop x .main = [] by simp [stepEvents, hpc]]
    exact Or.inr (Or.inr (.goTo (fun b last h => by rw [hpc] at h; cases h) (fun b last h => by cases h) fun _ => hr))
  | batch hpc hr =>
    rw [show stepEvents S loop x .main = [] by simp [stepEvents, hpc]]
    refine Or.inr (Or.inr (.goTo (fun b last h => by rw [hpc] at h; cases h) (fun b last h => ?_) fun h => ?_))
    · cases h; rfl
    · rcases h with h | h <;> cases h
  | wait hpc h0 =>
    rw [show stepEvents S loop x .main = [] by simp [stepEvents, hpc, h0]]
    refine Or.inr (Or.inr (.goTo (fun b last h => by rw [hpc] at h; cases h) (fun b last h => by cases h) fun h => ?_))
    rcases h with h | h <;> cases h
  | leave hpc h0 =>
    rw [show stepEvents S loop x .main = [.graphDone x.impl.firstError.isSome] by simp [stepEvents, hpc, h0]]
    exact Or.inr (Or.inr (.leave hpc))
  | receive hpc hd => exact Or.inr (Or.inr (.receive hpc))
  | @start _ t ts hq hrun =>
    rw [show stepEvents S loop x .start = [.nodeStart t.node t.input] by simp [stepEvents, hq]]
    exact Or.inr (Or.inr (.start hq hrun))
  | cancel hpc => exact Or.inr (Or.inr (.cancel hpc))

end step

/-! ### The events of a completion -/

/-- The event may follow the `NODE_END` of a completion of `n`. -/
def Event.afterEnd (n : Id) : Event L → Prop
  | .completed m => m = n
  | .edgeFire a _ _ => a = n
  | .terminal m => m = n
  | .checkpoint m _ => m = n
  | .cancel => True
  | _ => False

theorem fanOutEvents_afterEnd (n : Id) (cut : Option CancelPoint) : ∀ (es : List Edge) (i : ℕ)
    (ev : Event L), ev ∈ fanOutEvents n cut i es → ev.afterEnd n
  | [], _, _, h => by cases h
  | e :: es, i, ev, h => by
    have ih := fanOutEvents_afterEnd n cut es (i + 1) ev
    rw [fanOutEvents] at h
    split_ifs at h with hs hi
    · rcases List.mem_append.mp h with h | h
      · rw [List.mem_singleton.mp h]; trivial
      · rcases List.mem_cons.mp h with rfl | h
        · exact hs
        · exact ih h
    · rcases List.mem_cons.mp (by simpa using h) with rfl | h
      · exact hs
      · exact ih h
    · exact ih h

theorem terminalEvents_afterEnd (g : Graph) (n : Id) (ev : Event L) (h : ev ∈ terminalEvents g n) :
    ev.afterEnd n := by
  rw [mem_terminalEvents h]; rfl

theorem checkpointEvents_afterEnd (S : Setup) (n : Id) (out : State L) (ids : List Id) (ev : Event L)
    (h : ev ∈ checkpointEvents S n out ids) : ev.afterEnd n := by
  rw [mem_checkpointEvents h]; rfl

theorem completionTail_afterEnd (S : Setup) (loop : Loop) (n : Id) (res : Except L.Exception (State L))
    (cut : Option CancelPoint) (cancelled : Bool) (ids : List Id) (ev : Event L)
    (h : ev ∈ completionTail S loop n res cut cancelled ids) : ev.afterEnd n := by
  have hcan : ∀ ev : Event L, ev = .cancel → ev.afterEnd n := by rintro _ rfl; trivial
  have hcom : ∀ ev : Event L, ev = .completed n → ev.afterEnd n := by rintro _ rfl; rfl
  have hfan := fanOutEvents_afterEnd (L := L) n cut S.graph.edges 0 ev
  have hter := terminalEvents_afterEnd S.graph n ev
  have hchk := fun out => checkpointEvents_afterEnd S n out (ids ++ [n]) ev
  cases cancelled with
  | true => simp [completionTail] at h
  | false =>
    cases res with
    | error e =>
      simp only [completionTail, Bool.false_eq_true, if_false] at h
      split_ifs at h
      · exact hcan ev (List.mem_singleton.mp h)
      · cases h
    | ok out =>
      simp only [completionTail, Bool.false_eq_true, if_false] at h
      split_ifs at h <;> simp only [List.mem_cons, List.mem_append, List.not_mem_nil, or_false] at h
      · exact hcan ev h
      · exact h.elim (hcom ev) (hcan ev)
      · rcases h with h | (h | h) | h
        exacts [hcom ev h, hfan h, hter h, hcan ev h]
      · rcases h with h | (h | h) | h | h
        exacts [hcom ev h, hfan h, hter h, hcan ev h, hchk out h]
      · rcases h with h | h | h
        exacts [hcom ev h, hfan h, hter h]
      · rcases h with h | (h | h) | h
        exacts [hcom ev h, hfan h, hter h, hchk out h]

/-- A completion is the result, `NODE_END` and what may follow it. -/
theorem mem_completionEvents {S : Setup} {loop : Loop} {n : Id} {res : Except L.Exception (State L)}
    {cut : Option CancelPoint} {cancelled : Bool} {ids : List Id} {ev : Event L}
    (h : ev ∈ completionEvents S loop n res cut cancelled ids) :
    ev = resultEvent n res ∨ (∃ b, ev = .nodeEnd n b (isFailed res)) ∨ ev.afterEnd n := by
  simp only [completionEvents, List.mem_cons, List.mem_append] at h
  rcases h with rfl | h | rfl | h
  · exact Or.inl rfl
  · split_ifs at h
    · rw [List.mem_singleton.mp h]; exact Or.inr (Or.inr trivial)
    · cases h
  · exact Or.inr (Or.inl ⟨_, rfl⟩)
  · exact Or.inr (Or.inr (completionTail_afterEnd S loop n res cut _ ids ev h))

/-- The fan-out fires every outgoing edge. -/
theorem edgeFire_mem_fanOutEvents (n : Id) (cut : Option CancelPoint) (a b : Id) (k : ℤ) : ∀ (es : List Edge) (i : ℕ),
    (Event.edgeFire a b k : Event L) ∈ fanOutEvents n cut i es ↔
      ∃ e ∈ es, e.src = n ∧ a = e.src ∧ b = e.dst ∧ k = e.activationGroup
  | [], _ => by simp [fanOutEvents]
  | e :: es, i => by
    have ih := edgeFire_mem_fanOutEvents n cut a b k es (i + 1)
    rw [fanOutEvents]
    by_cases hs : e.src = n
    · rw [if_pos hs, List.mem_append, List.mem_cons, ih]
      split_ifs <;> simp [hs]
    · simp [hs, ih]

/-- The fan-out writes no checkpoint. -/
theorem checkpoint_notMem_fanOutEvents (n : Id) (cut : Option CancelPoint) (m : Id) (cp : Checkpoint) :
    ∀ (es : List Edge) (i : ℕ), (Event.checkpoint m cp : Event L) ∉ fanOutEvents n cut i es
  | [], _, h => by cases h
  | e :: es, i, h => by
    have ih := checkpoint_notMem_fanOutEvents n cut m cp es (i + 1)
    rw [fanOutEvents] at h
    split_ifs at h
    · simp [ih] at h
    · simp [ih] at h
    · exact ih h

/-- A completion whose fan-out comes. -/
theorem completionEvents_fired {S : Setup} (loop : Loop) (n : Id) (out : State L) {cut : Option CancelPoint}
    {cancelled : Bool} (ids : List Id) (h : fired cancelled cut = true) :
    ∃ rest, completionEvents S loop n (.ok out) cut cancelled ids =
        [.output n out, .nodeEnd n false false] ++
          .completed n :: (fanOutEvents n cut 0 S.graph.edges ++ terminalEvents S.graph n ++ rest) ∧
      ∀ ev ∈ rest, ev = .cancel ∨ ev ∈ checkpointEvents S n out (ids ++ [n]) := by
  simp only [fired, tracked, Bool.and_eq_true, Bool.not_eq_true', decide_eq_false_iff_not] at h
  obtain ⟨⟨⟨rfl, h1⟩, h2⟩, h3⟩ := h
  simp only [completionEvents, completionTail, resultEvent, isFailed, h1, h2, h3, decide_false, Bool.or_false,
    Bool.false_eq_true, false_and, if_false, List.nil_append]
  by_cases hc : cut = some .checkpoint
  · refine ⟨.cancel :: (if loop = .run then [] else checkpointEvents S n out (ids ++ [n])), ?_, fun ev hev => ?_⟩
    · simp [hc]
    · rcases List.mem_cons.mp hev with hev | hev
      · exact Or.inl hev
      · split_ifs at hev
        · cases hev
        · exact Or.inr hev
  · refine ⟨_, by simp only [hc, if_false]; rfl, fun ev hev => ?_⟩
    split_ifs at hev
    · cases hev
    · exact Or.inr hev

/-- Any other completion: nothing but the record of it may follow `NODE_END`. -/
theorem completionEvents_unfired {S : Setup} {loop : Loop} {n : Id} {res : Except L.Exception (State L)}
    {cut : Option CancelPoint} {cancelled : Bool} {ids : List Id}
    (h : isFailed res = true ∨ fired cancelled cut = false) {ev : Event L}
    (hev : ev ∈ completionEvents S loop n res cut cancelled ids) :
    ev = resultEvent n res ∨ ev = .nodeEnd n (cancelled || decide (cut = some .nodeEnd)) (isFailed res) ∨ ev = .cancel ∨
      (ev = .completed n ∧ isFailed res = false ∧ tracked cancelled cut = true) := by
  simp only [completionEvents, List.mem_cons, List.mem_append] at hev
  rcases hev with hev | hev | hev | hev
  · exact Or.inl hev
  · split_ifs at hev
    · exact Or.inr (Or.inr (Or.inl (List.mem_singleton.mp hev)))
    · cases hev
  · exact Or.inr (Or.inl hev)
  right; right
  cases hn : cancelled || decide (cut = some .nodeEnd) with
  | true => simp [completionTail, hn] at hev
  | false =>
    obtain ⟨rfl, h1⟩ : cancelled = false ∧ cut ≠ some .nodeEnd := by simpa using hn
    cases res with
    | error e =>
      simp only [completionTail, hn, Bool.false_eq_true, if_false] at hev
      split_ifs at hev
      · exact Or.inl (List.mem_singleton.mp hev)
      · cases hev
    | ok out =>
      have hcut : cut = some .track ∨ cut = some .fanOut := by
        simpa [isFailed, fired, tracked, h1, or_iff_not_imp_left] using h
      rcases hcut with rfl | rfl
      · simp [completionTail] at hev
        exact Or.inl hev
      · simp [completionTail] at hev
        rcases hev with hev | hev
        · exact Or.inr ⟨hev, rfl, rfl⟩
        · exact Or.inl hev

/-- The edges a completion fires: all outgoing ones, if the fan-out comes. -/
theorem edgeFire_mem_completionEvents {S : Setup} {loop : Loop} {n : Id} {res : Except L.Exception (State L)}
    {cut : Option CancelPoint} {cancelled : Bool} {ids : List Id} {a b : Id} {k : ℤ} :
    .edgeFire a b k ∈ completionEvents S loop n res cut cancelled ids ↔
      isFailed res = false ∧ fired cancelled cut = true ∧
        ∃ e ∈ S.graph.edges, e.src = n ∧ a = e.src ∧ b = e.dst ∧ k = e.activationGroup := by
  by_cases h : isFailed res = true ∨ fired cancelled cut = false
  · refine ⟨fun hev => ?_, fun hr => ?_⟩
    · rcases completionEvents_unfired h hev with he | he | he | ⟨he, -⟩
      · cases res <;> cases he
      · cases he
      · cases he
      · cases he
    · rcases h with h | h
      · rw [hr.1] at h; cases h
      · rw [hr.2.1] at h; cases h
  · obtain ⟨h1, h2⟩ : isFailed res = false ∧ fired cancelled cut = true := by simpa using h
    cases res with
    | error e => cases h1
    | ok out =>
      obtain ⟨rest, heq, hrest⟩ := completionEvents_fired (S := S) loop n out ids h2
      have hfan := edgeFire_mem_fanOutEvents (L := L) n cut a b k S.graph.edges 0
      have hter : (Event.edgeFire a b k : Event L) ∉ (terminalEvents S.graph n : List (Event L)) := fun hm => by
        cases mem_terminalEvents hm
      have hres : Event.edgeFire a b k ∉ rest := fun hm => by
        rcases hrest _ hm with he | he
        · cases he
        · cases mem_checkpointEvents he
      rw [heq]
      simp [hfan, hter, hres, h1, h2]

/-- The checkpoint a completion writes is that of its output. -/
theorem checkpoint_mem_completionEvents {S : Setup} {loop : Loop} {n m : Id} {res : Except L.Exception (State L)}
    {cut : Option CancelPoint} {cancelled : Bool} {ids : List Id} {cp : Checkpoint}
    (h : .checkpoint m cp ∈ completionEvents S loop n res cut cancelled ids) :
    m = n ∧ ∃ out, res = .ok out ∧ cp = makeCheckpoint (ids ++ [n]) out := by
  by_cases hf : isFailed res = true ∨ fired cancelled cut = false
  · rcases completionEvents_unfired hf h with he | he | he | ⟨he, -⟩
    · cases res <;> cases he
    · cases he
    · cases he
    · cases he
  · obtain ⟨h1, h2⟩ : isFailed res = false ∧ fired cancelled cut = true := by simpa using hf
    cases res with
    | error e => cases h1
    | ok out =>
      obtain ⟨rest, heq, hrest⟩ := completionEvents_fired (S := S) loop n out ids h2
      rw [heq] at h
      simp only [List.mem_append, List.mem_cons, List.not_mem_nil, or_false, reduceCtorEq, false_or] at h
      rcases h with (h | h) | h
      · exact (checkpoint_notMem_fanOutEvents n cut m cp S.graph.edges 0 h).elim
      · cases mem_terminalEvents h
      · rcases hrest _ h with he | he
        · cases he
        · cases mem_checkpointEvents he
          exact ⟨rfl, out, rfl, rfl⟩

/-- The completion is recorded. -/
theorem completed_mem_completionEvents {S : Setup} {loop : Loop} {n : Id} {res : Except L.Exception (State L)}
    {cut : Option CancelPoint} {cancelled : Bool} {ids : List Id} (h1 : isFailed res = false)
    (h2 : tracked cancelled cut = true) : .completed n ∈ completionEvents S loop n res cut cancelled ids := by
  cases res with
  | error e => cases h1
  | ok out =>
    cases hf : fired cancelled cut with
    | true =>
      obtain ⟨rest, heq, -⟩ := completionEvents_fired (S := S) loop n out ids hf
      rw [heq]; simp
    | false =>
      simp only [tracked, Bool.and_eq_true, Bool.not_eq_true', decide_eq_false_iff_not] at h2
      obtain ⟨⟨rfl, e1⟩, e2⟩ := h2
      have e3 : cut = some .fanOut := by simpa [fired, tracked, e1, e2] using hf
      simp [completionEvents, completionTail, e3]

/-! ### The first exception -/

/-- The exception of a result. -/
def thrownBy : Except L.Exception (State L) → Option L.Exception
  | .error e => some e
  | .ok _ => none

theorem thrownBy_isSome (res : Except L.Exception (State L)) : (thrownBy res).isSome = isFailed res := by
  cases res <;> rfl

/-- The exception with which a node ends. -/
def Choice.thrown? : Choice L → Option L.Exception
  | .finish _ res _ => thrownBy res
  | _ => none

/-- The first exception of a run. -/
def firstThrown (cs : List (Choice L)) : Option L.Exception := cs.findSome? Choice.thrown?

theorem firstThrown_snoc (cs : List (Choice L)) (c : Choice L) :
    firstThrown (cs ++ [c]) = (firstThrown cs).or c.thrown? := by
  rw [firstThrown, List.findSome?_append, ← firstThrown]
  cases h : c.thrown? <;> simp [h]

theorem finish_firstError (g : Graph) (n : Id) (res : Except L.Exception (State L)) (a b : Bool) (m : Impl L) :
    (m.finish g n res a b).firstError = m.firstError.or (thrownBy res) := by
  have hf := fun out es (m : Impl L) => congrArg Impl.firstError (Impl.fires_eq out es m)
  cases res with
  | error e => rfl
  | ok out =>
    simp only [Impl.finish, Impl.retire, Impl.modify]
    split_ifs <;> simp [Impl.setTerminal, Impl.track, hf, thrownBy]

section errors

variable {S : Setup} {loop : Loop} {c : Choice L} {x y : Exec L}

theorem step_firstError (h : Moves S loop c x y) : y.impl.firstError = x.impl.firstError.or c.thrown? := by
  cases h with
  | leave hpc h0 => rw [(leave_impl x).2.2.2.1]; simp [Choice.thrown?]
  | receive hpc hd => rw [received_impl]; simp [Choice.thrown?]
  | @finish _ k t res cut hk hrun =>
    rw [complete_impl, finish_firstError]
    cases res <;> rfl
  | cancel hpc => simp [Choice.thrown?]
  | launch | batchDone | drained | batch | wait | start =>
    simp [Choice.thrown?, AgentFlow.launch, Impl.launch, Impl.modify]

theorem run_firstError {ok : Exec L → Choice L → Prop} {cs : List (Choice L)} (h : Run (step S loop) ok x cs y) :
    y.impl.firstError = x.impl.firstError.or (firstThrown cs) := by
  induction h with
  | nil => simp [firstThrown]
  | snoc _ _ hs ih =>
    rw [step_firstError (step_eq_some.mp hs), ih, firstThrown_snoc, Option.or_assoc]

/-- The log shows that a node threw. -/
theorem nodeFailed_mem_stepEvents (h : Moves S loop c x y) :
    (∃ n, .nodeFailed n ∈ stepEvents S loop x c) ↔ c.thrown?.isSome = true := by
  constructor
  · rintro ⟨n, hn⟩
    rcases h.split with ⟨m, rest, last, rfl, hpc, -⟩ | ⟨k, t, res, cut, rfl, hk, -, -⟩ | hp
    · simp [stepEvents, hpc] at hn
    · simp only [stepEvents, hk] at hn
      rcases mem_completionEvents hn with he | ⟨b, he⟩ | he
      · cases res with
        | ok out => cases he
        | error e => rfl
      · cases he
      · cases he
    · rcases hp.events _ hn with ⟨m, i, he⟩ | he | ⟨b, he⟩ <;> cases he
  · intro ht
    cases h with
    | @finish _ k t res cut hk hrun =>
      cases res with
      | ok out => cases ht
      | error e => exact ⟨t.node, by simp [stepEvents, hk, completionEvents, resultEvent]⟩
    | _ => cases ht

theorem run_nodeFailed {ok : Exec L → Choice L → Prop} {cs : List (Choice L)} (h : Run (step S loop) ok x cs y)
    (hx : x.log = []) : (∃ n, .nodeFailed n ∈ y.log) ↔ (firstThrown cs).isSome = true := by
  induction h with
  | nil => simp [hx, firstThrown]
  | snoc _ _ hs ih =>
    have hm := step_eq_some.mp hs
    have hstep := nodeFailed_mem_stepEvents hm
    rw [step_log hm]
    simp only [List.mem_append, exists_or, ih, hstep]
    rw [firstThrown_snoc, Option.isSome_or, Bool.or_eq_true]

end errors

/-! ### The exits -/

/-- What the call returned or threw, once it has. -/
def Pc.outcome : Pc L → Option (Except L.Exception (State L))
  | .returned s => some (.ok s)
  | .thrown e => some (.error e)
  | _ => none

/-- How a run ends: `GRAPH_DONE` is its last event and its only one, and it
throws the first exception if there is one. -/
structure Exits (x : Exec L) : Prop where
  thrown : ∀ e, x.impl.firstError = some e → x.pc.finished = true → x.pc = .thrown e
  returned : x.impl.firstError = none → x.pc.finished = true → ∃ s, x.pc = .returned s
  last : x.pc.finished = true → ∃ p, x.log = p ++ [.graphDone x.impl.firstError.isSome] ∧ ∀ b, .graphDone b ∉ p
  notYet : x.pc.finished = false → ∀ b, .graphDone b ∉ x.log

namespace Exits

variable {S : Setup} {loop : Loop} {c : Choice L} {x y : Exec L}

theorem begin (m : Impl L) (batch : List Id) : Exits (Exec.begin m batch) where
  thrown e _ h := by simp [Exec.begin, Pc.finished] at h
  returned _ h := by simp [Exec.begin, Pc.finished] at h
  last h := by simp [Exec.begin, Pc.finished] at h
  notYet _ b := by simp [Exec.begin]

/-- A step that does not end the run. -/
theorem goOn (h : Exits x) (hf : x.pc.finished = false) (hf' : y.pc.finished = false) {evs : List (Event L)}
    (hl : y.log = x.log ++ evs) (hevs : ∀ b, .graphDone b ∉ evs) : Exits y where
  thrown e _ h' := by rw [hf'] at h'; cases h'
  returned _ h' := by rw [hf'] at h'; cases h'
  last h' := by rw [hf'] at h'; cases h'
  notYet _ b := by
    rw [hl, List.mem_append, not_or]
    exact ⟨h.notYet hf b, hevs b⟩

theorem step (h : Exits x) (hs : Moves S loop c x y) : Exits y := by
  have hf := hs.not_finished
  have hlog := step_log hs
  cases hs with
  | leave hpc h0 =>
    obtain ⟨-, -, -, i4, -⟩ := leave_impl x
    obtain ⟨-, -, -, -, f5, f6⟩ := leave_rest x
    refine ⟨fun e he _ => ?_, fun he _ => ?_, fun _ => ⟨x.log, by rw [f5, i4], h.notYet hf⟩, fun h' => ?_⟩
    · rw [i4] at he
      simp only [AgentFlow.leave, he]
    · rw [i4] at he
      simp only [AgentFlow.leave, he]
      split
      · exact ⟨_, rfl⟩
      · exact ⟨_, rfl⟩
    · rw [f6] at h'; cases h'
  | receive hpc hd =>
    rcases received_cases { x with done := x.done - 1 } with ⟨e, he, h0, hr⟩ | ⟨-, hr⟩
    · have he' : x.impl.firstError = some e := he
      rw [hr]
      refine ⟨fun e' he'' _ => ?_, fun hn => ?_, fun _ => ⟨x.log, ?_, h.notYet hf⟩, fun h' => by cases h'⟩
      · rw [show x.impl.firstError = some e' from he''] at he'
        rw [Option.some.inj he']
      · rw [show x.impl.firstError = none from hn] at he'; cases he'
      · simp only [he']; rfl
    · rw [hr] at hlog ⊢
      exact h.goOn hf rfl (List.append_nil x.log).symm (by simp)
  | launch hpc => exact h.goOn hf rfl hlog (by simp [stepEvents, hpc])
  | batchDone hpc => exact h.goOn hf rfl hlog (by simp [stepEvents, hpc])
  | drained hpc hr => exact h.goOn hf rfl hlog (by simp [stepEvents, hpc])
  | batch hpc hr => exact h.goOn hf rfl hlog (by simp [stepEvents, hpc])
  | wait hpc h0 => exact h.goOn hf rfl hlog (by simp [stepEvents, hpc, h0])
  | start hq hrun => exact h.goOn hf hf hlog (by simp [stepEvents, hq])
  | @finish _ k t res cut hk hrun =>
    refine h.goOn hf (by rw [(complete_keeps S loop t.node res cut _).1]; exact hf) hlog fun b hb => ?_
    simp only [stepEvents, hk] at hb
    rcases mem_completionEvents hb with he | ⟨b, he⟩ | he
    · cases res <;> cases he
    · cases he
    · cases he
  | cancel hpc =>
    refine h.goOn hf (by rw [(Exec.cancelIf_keeps x true).pc]; exact hf) hlog fun b hb => ?_
    simp only [stepEvents] at hb
    split_ifs at hb <;> simp at hb

theorem run {ok : Exec L → Choice L → Prop} {cs : List (Choice L)} (hr : Run (AgentFlow.step S loop) ok x cs y)
    (h : Exits x) : Exits y :=
  hr.invariant (fun _ _ _ hI _ hs => hI.step (step_eq_some.mp hs)) h

end Exits

end AgentFlow
