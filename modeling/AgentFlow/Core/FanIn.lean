/-
# Fan-in when predecessors fire again

A node waits for its group-0 ALL edges with a counter, and the counter does
not know which edge fired: a predecessor that runs in a cycle fires its edge
again and counts it down once more. `Counts` is what the counters still mean
in a run in which no node completes again while a successor of it waits for
somebody else (`Steady`): as long as an edge has not fired, the counter is the
number of those that have not. So the first launch of a node comes after each
of its group-0 ALL edges has fired (`FanInSound`).

Key definitions: `hasFired`, `unfired`, `Steady`, `Counts`, `FanInSound`.
-/
import AgentFlow.Core.Plan

namespace AgentFlow

variable {L : Libs}

open History Stepping

/-! ### Edges that have fired -/

/-- The log shows the edge firing. -/
def hasFired (log : List (Event L)) (e : Edge) : Bool :=
  log.any fun ev =>
    match ev with
    | .edgeFire a b k => a = e.src ∧ b = e.dst ∧ k = e.activationGroup
    | _ => false

theorem hasFired_iff {log : List (Event L)} {e : Edge} :
    hasFired log e = true ↔ .edgeFire e.src e.dst e.activationGroup ∈ log := by
  rw [hasFired, List.any_eq_true]
  constructor
  · rintro ⟨ev, hev, h⟩
    cases ev with
    | edgeFire a b k =>
      obtain ⟨rfl, rfl, rfl⟩ : a = e.src ∧ b = e.dst ∧ k = e.activationGroup := by simpa using h
      exact hev
    | _ => cases h
  · intro h
    exact ⟨_, h, by simp⟩

theorem hasFired_append (l l' : List (Event L)) (e : Edge) :
    hasFired (l ++ l') e = (hasFired l e || hasFired l' e) := List.any_append

/-- The number of group-0 edges into `v` for which `p` does not hold. -/
def unfired (g : Graph) (p : Edge → Bool) (v : Id) : ℕ :=
  g.edges.countP fun e => e.dst = v ∧ e.activationGroup = 0 ∧ p e = false

/-- The group-0 edges from `n` to `v`. -/
def between (g : Graph) (n v : Id) : ℕ := g.edges.countP fun e => e.src = n ∧ e.dst = v ∧ e.activationGroup = 0

theorem unfired_eq_zero {g : Graph} {p : Edge → Bool} {v : Id} :
    unfired g p v = 0 ↔ ∀ e ∈ g.edges, e.dst = v → e.activationGroup = 0 → p e = true := by
  simp [unfired, List.countP_eq_zero]

theorem unfired_congr {g : Graph} {p p' : Edge → Bool} (h : ∀ e ∈ g.edges, p e = p' e) (v : Id) :
    unfired g p v = unfired g p' v :=
  List.countP_congr fun e he => by simp [h e he]

/-- The edges of one more node fire, for the first time. -/
theorem unfired_first {g : Graph} {p p' : Edge → Bool} {n : Id} (hp : ∀ e ∈ g.edges, e.src = n → p e = false)
    (hp' : ∀ e ∈ g.edges, p' e = (p e || decide (e.src = n))) (v : Id) :
    unfired g p v = unfired g p' v + between g n v := by
  unfold unfired between
  generalize g.edges = es at hp hp'
  induction es with
  | nil => rfl
  | cons e es ih =>
    have ih := ih (fun e he => hp e (List.mem_cons_of_mem _ he)) fun e he => hp' e (List.mem_cons_of_mem _ he)
    have h1 := hp e List.mem_cons_self
    have h2 := hp' e List.mem_cons_self
    simp only [List.countP_cons, ih, h2]
    by_cases hs : e.src = n
    · by_cases hd : e.dst = v <;> by_cases hg : e.activationGroup = 0 <;> simp [hs, hd, hg, h1 hs]
      omega
    · by_cases hd : e.dst = v <;> by_cases hg : e.activationGroup = 0 <;> cases p e <;> simp [hs, hd, hg]
      omega

/-- What a fan-out counts off a group-0 ALL counter. -/
theorem countP_edgesBetween {g : Graph} {e : Edge} (he : e ∈ g.edges) (hg : e.activationGroup = 0)
    (hc : e.condition = .all) (n : Id) :
    ((edgesBetween g n e.dst).countP fun a => a.activationGroup = 0 ∧ a.condition = .all) = between g n e.dst := by
  rw [edgesBetween, List.filter_filter, List.countP_filter, between]
  refine List.countP_congr fun a ha => ?_
  by_cases hd : a.dst = e.dst <;> by_cases hg' : a.activationGroup = 0
  · have := g.consistent a ha e he hd (hg'.trans hg.symm)
    simp [hd, hg', this, hc]
  all_goals simp [hd, hg']

/-! ### The runs in which the counters mean something -/

/-- No node completes again while a successor that waits for it has not fired
and waits for another node that has not completed. -/
def Steady (g : Graph) (x : Exec L) : Choice L → Prop
  | .finish k (.ok _) cut => ∀ t, x.running[k]? = some t → fired x.cancelled cut = true →
      t.node ∈ x.impl.completedNodeIds → ∀ e ∈ g.edges, e.src = t.node → e.activationGroup = 0 →
        e.condition = .all → (x.impl.activations e.dst).timesFired = 0 →
          ∀ e' ∈ g.edges, e'.dst = e.dst → e'.activationGroup = 0 → e'.src ∈ x.impl.completedNodeIds
  | _ => True

/-- The first launch of a node comes after each of its group-0 ALL edges has
fired and the edge's source has completed. -/
def FanInSound (g : Graph) (log : List (Event L)) : Prop :=
  Each (fun before ev => ∀ v, ev = .launch v → .launch v ∉ before →
    ∀ e ∈ g.edges, e.dst = v → e.activationGroup = 0 → e.condition = .all →
      .edgeFire e.src e.dst 0 ∈ before ∧ .completed e.src ∈ before) log

structure Counts (S : Setup) (x : Exec L) : Prop where
  keyed : Keyed S.graph x.impl
  /-- Only a completed node fires, and it fires all its edges, unless the token is cancelled. -/
  firedCompleted : ∀ e ∈ S.graph.edges, hasFired x.log e = true → e.src ∈ x.impl.completedNodeIds
  completedFired : x.cancelled = false → ∀ e ∈ S.graph.edges, e.src ∈ x.impl.completedNodeIds → hasFired x.log e = true
  logged : ∀ v ∈ x.impl.completedNodeIds, .completed v ∈ x.log
  launched : ∀ v, (x.impl.activations v).timesFired = 0 ↔ .launch v ∉ x.log
  remaining : ∀ e ∈ S.graph.edges, e.activationGroup = 0 → e.condition = .all →
    (x.impl.activations e.dst).timesFired = 0 → unfired S.graph (hasFired x.log) e.dst ≠ 0 →
      (x.impl.activations e.dst).remainingAll 0 = unfired S.graph (hasFired x.log) e.dst
  batch : ∀ b last, x.pc = .launching b last → ∀ v ∈ b, (x.impl.activations v).timesFired = 0 →
    ∀ e ∈ S.graph.edges, e.dst = v → e.activationGroup = 0 → e.condition = .all → hasFired x.log e = true
  sound : FanInSound S.graph x.log

namespace Counts

variable {S : Setup} {loop : Loop} {c : Choice L} {x y : Exec L}

/-- A node that is ready and has not fired: all its group-0 ALL edges have. -/
theorem fired_of_ready (h : Counts S x) {e : Edge} (he : e ∈ S.graph.edges) (hg : e.activationGroup = 0)
    (hc : e.condition = .all) (ht : (x.impl.activations e.dst).timesFired = 0)
    (hr : nodeReady (x.impl.activations e.dst) = true) : hasFired x.log e = true := by
  have hgr := (nodeReady_iff h.keyed e.dst).mp hr e he rfl
  have hrem : ¬ (x.impl.activations e.dst).remainingAll 0 > 0 := by
    simpa [groupReady, hg, hc] using hgr
  by_contra hf
  have hne : unfired S.graph (hasFired x.log) e.dst ≠ 0 := fun h0 => hf (unfired_eq_zero.mp h0 e he rfl hg)
  have := h.remaining e he hg hc ht hne
  omega

/-- A step that neither launches a node nor fires an edge. If it records a
completion all the same, the token is cancelled. -/
theorem other (h : Counts S x)
    (ha : ∀ v, (y.impl.activations v).conditions = (x.impl.activations v).conditions ∧
      (y.impl.activations v).timesFired = (x.impl.activations v).timesFired ∧
      (y.impl.activations v).remainingAll = (x.impl.activations v).remainingAll)
    {evs : List (Event L)} (hl : y.log = x.log ++ evs)
    (hc : ∀ v ∈ x.impl.completedNodeIds, v ∈ y.impl.completedNodeIds)
    (hc' : ∀ v ∈ y.impl.completedNodeIds, v ∈ x.impl.completedNodeIds ∨ (.completed v ∈ evs ∧ y.cancelled = true))
    (hevs : ∀ ev ∈ evs, (∀ v, ev ≠ .launch v) ∧ ∀ a b k, ev ≠ .edgeFire a b k)
    (hcan : y.cancelled = false → x.cancelled = false)
    (hb : ∀ b last, y.pc = .launching b last → x.pc = .launching b last ∨ b = ready S x.impl) : Counts S y := by
  have hfire : ∀ e, hasFired y.log e = hasFired x.log e := fun e => by
    have : hasFired evs e = false := by
      rw [← Bool.not_eq_true, hasFired_iff]
      exact fun hm => (hevs _ hm).2 _ _ _ rfl
    rw [hl, hasFired_append, this, Bool.or_false]
  have hlaunch : ∀ v, Event.launch v ∈ y.log ↔ Event.launch v ∈ x.log := fun v => by
    rw [hl, List.mem_append, or_iff_left]
    exact fun hm => (hevs _ hm).1 v rfl
  have hun : ∀ v, unfired S.graph (hasFired y.log) v = unfired S.graph (hasFired x.log) v := fun v =>
    unfired_congr (fun e _ => hfire e) v
  refine
    { keyed := h.keyed.of_conditions fun v => (ha v).1
      firedCompleted := fun e he hf => hc _ (h.firedCompleted e he (hfire e ▸ hf))
      completedFired := fun hy e he hs => ?_
      logged := fun v hv => ?_
      launched := fun v => by rw [(ha v).2.1, hlaunch]; exact h.launched v
      remaining := fun e he hg hcd ht hne => by
        rw [(ha e.dst).2.1] at ht
        rw [hun] at hne ⊢
        rw [(ha e.dst).2.2]
        exact h.remaining e he hg hcd ht hne
      batch := fun b last hpc v hv ht e he hd hg hcd => ?_
      sound := ?_ }
  · rw [hfire]
    rcases hc' _ hs with hs | ⟨-, hs⟩
    · exact h.completedFired (hcan hy) e he hs
    · rw [hy] at hs; cases hs
  · rw [hl]
    rcases hc' v hv with hv | ⟨hv, -⟩
    · exact List.mem_append_left _ (h.logged v hv)
    · exact List.mem_append_right _ hv
  · rw [(ha v).2.1] at ht
    rw [hfire]
    rcases hb b last hpc with hpc' | rfl
    · exact h.batch b last hpc' v hv ht e he hd hg hcd
    · subst hd
      exact h.fired_of_ready he hg hcd ht (mem_ready.mp hv).2.2.2
  · rw [hl]
    exact h.sound.append_of_forall fun ev hev p v hv => absurd hv ((hevs ev hev).1 v)

theorem launch (h : Counts S x) {n : Id} {rest : List Id} {last : Option Id}
    (hpc : x.pc = .launching (n :: rest) last) :
    Counts S { launch x n with pc := .launching rest (some n) } := by
  have hfire : ∀ e, hasFired (x.log ++ [Event.launch n]) e = hasFired x.log e := fun e => by
    rw [hasFired_append]; simp [hasFired]
  have hun : ∀ v, unfired S.graph (hasFired (x.log ++ [Event.launch n])) v = unfired S.graph (hasFired x.log) v :=
    fun v => unfired_congr (fun e _ => hfire e) v
  refine
    { keyed := h.keyed.of_conditions (x.impl.launch_conditions n)
      firedCompleted := fun e he hf => h.firedCompleted e he (hfire e ▸ hf)
      completedFired := fun hy e he hs => ?_
      logged := fun v hv => List.mem_append_left _ (h.logged v hv)
      launched := fun v => ?_
      remaining := fun e he hg hcd ht hne => ?_
      batch := fun b l hb v hv ht e he hd hg hcd => ?_
      sound := ?_ }
  · show hasFired (x.log ++ [Event.launch n]) e = true
    rw [hfire]; exact h.completedFired hy e he hs
  · show ((x.impl.launch n).activations v).timesFired = 0 ↔ .launch v ∉ x.log ++ [Event.launch n]
    rw [x.impl.launch_timesFired]
    by_cases hv : v = n
    · simp [hv]
    · simpa [hv] using h.launched v
  · change ((x.impl.launch n).activations e.dst).timesFired = 0 at ht
    change unfired S.graph (hasFired (x.log ++ [Event.launch n])) e.dst ≠ 0 at hne
    show ((x.impl.launch n).activations e.dst).remainingAll 0 =
      unfired S.graph (hasFired (x.log ++ [Event.launch n])) e.dst
    rw [hun] at hne ⊢
    rw [x.impl.launch_timesFired] at ht
    rw [x.impl.launch_remainingAll_zero]
    exact h.remaining e he hg hcd (by omega) hne
  · cases hb
    change ((x.impl.launch n).activations v).timesFired = 0 at ht
    show hasFired (x.log ++ [Event.launch n]) e = true
    rw [x.impl.launch_timesFired] at ht
    rw [hfire]
    exact h.batch _ _ hpc v (List.mem_cons_of_mem _ hv) (by omega) e he hd hg hcd
  · refine each_snoc.mpr ⟨h.sound, fun v hv hnew e he hd hg hcd => ?_⟩
    cases hv
    have hf := h.batch _ _ hpc n List.mem_cons_self ((h.launched n).mpr hnew) e he hd hg hcd
    exact ⟨hg ▸ hasFired_iff.mp hf, h.logged _ (h.firedCompleted e he hf)⟩

/-- A completion whose fan-out comes. -/
theorem fanOut (h : Counts S x) {k : ℕ} {t : Task L} {out : State L} {cut : Option CancelPoint}
    (hk : x.running[k]? = some t) (hst : Steady S.graph x (.finish k (.ok out) cut))
    (hf : fired x.cancelled cut = true) :
    Counts S (complete S loop t.node (.ok out) cut { x with running := x.running.eraseIdx k }) := by
  set x' : Exec L := { x with running := x.running.eraseIdx k } with hx'
  have htr : tracked x.cancelled cut = true := by simp only [fired, Bool.and_eq_true] at hf; exact hf.1
  have hcx : x.cancelled = false := by simp [tracked] at htr; exact htr.1.1
  have hi := complete_impl S loop t.node (.ok out) cut x'
  have hlog := complete_log S loop t.node (.ok out) cut x'
  rw [show x'.cancelled = x.cancelled from rfl, htr, hf] at hi
  have hact : ∀ v, (complete S loop t.node (.ok out) cut x').impl.activations v =
      { deliverAll out (edgesBetween S.graph t.node v) (x.impl.activations v) with
        inFlight := if v = t.node then false else (x.impl.activations v).inFlight } := fun v => by
    rw [hi, finish_activations]; rfl
  have hcomp : (complete S loop t.node (.ok out) cut x').impl.completedNodeIds =
      x.impl.completedNodeIds ++ [t.node] := by rw [hi, finish_completed]; rfl
  set y := complete S loop t.node (.ok out) cut x'
  have hfire : ∀ e ∈ S.graph.edges, hasFired y.log e = (hasFired x.log e || decide (e.src = t.node)) := by
    intro e he
    rw [hlog, hasFired_append]
    congr 1
    rw [Bool.eq_iff_iff, hasFired_iff, edgeFire_mem_completionEvents]
    simp only [decide_eq_true_eq]
    constructor
    · rintro ⟨-, -, e', -, hs, hs', -⟩
      exact hs'.trans hs
    · intro hs
      exact ⟨rfl, hf, e, he, hs, rfl, rfl, rfl⟩
  have hlaunch : ∀ v, Event.launch v ∈ y.log ↔ Event.launch v ∈ x.log := fun v => by
    rw [hlog, List.mem_append, or_iff_left]
    intro hm
    rcases mem_completionEvents hm with he | ⟨b, he⟩ | he <;> cases he
  refine
    { keyed := h.keyed.of_conditions fun v => by rw [hact]; exact deliverAll_conditions _ _ _
      firedCompleted := fun e he hfe => ?_
      completedFired := fun _ e he hs => ?_
      logged := fun v hv => ?_
      launched := fun v => ?_
      remaining := fun e he hg hcd ht hne => ?_
      batch := fun b l hb v hv ht e he hd hg hcd => ?_
      sound := ?_ }
  · rw [hcomp, List.mem_append, List.mem_singleton]
    rw [hfire e he, Bool.or_eq_true, decide_eq_true_eq] at hfe
    exact hfe.imp (h.firedCompleted e he) id
  · rw [hcomp, List.mem_append, List.mem_singleton] at hs
    rw [hfire e he, Bool.or_eq_true, decide_eq_true_eq]
    exact hs.imp (h.completedFired hcx e he) id
  · rw [hcomp, List.mem_append, List.mem_singleton] at hv
    rw [hlog, List.mem_append]
    rcases hv with hv | rfl
    · exact Or.inl (h.logged v hv)
    · exact Or.inr (completed_mem_completionEvents rfl htr)
  · rw [hact, hlaunch]
    simp only [deliverAll_timesFired]
    exact h.launched v
  · rw [hact] at ht ⊢
    simp only [deliverAll_timesFired] at ht
    simp only [deliverAll_remainingAll, countP_edgesBetween he hg hcd]
    by_cases hn : t.node ∈ x.impl.completedNodeIds
    · -- a second completion: no edge is new, so it may only count where nobody is waited for
      have hsame : ∀ e' ∈ S.graph.edges, hasFired y.log e' = hasFired x.log e' := fun e' he' => by
        rw [hfire e' he']
        by_cases hs : e'.src = t.node
        · rw [h.completedFired hcx e' he' (hs ▸ hn)]; rfl
        · simp [hs]
      rw [unfired_congr hsame] at hne ⊢
      have hzero : between S.graph t.node e.dst = 0 := by
        rw [between, List.countP_eq_zero]
        intro a ha hab
        simp only [decide_eq_true_eq] at hab
        obtain ⟨ha1, ha2, ha3⟩ := hab
        have hca := S.graph.consistent a ha e he ha2 (ha3.trans hg.symm)
        refine hne (unfired_eq_zero.mpr fun e' he' hd' hg' => h.completedFired hcx e' he' ?_)
        exact hst t hk hf hn a ha ha1 ha3 (hca.trans hcd) (ha2 ▸ ht) e' he' (hd'.trans ha2.symm) hg'
      rw [hzero, h.remaining e he hg hcd ht hne]
      simp
    · have hnew : ∀ e' ∈ S.graph.edges, e'.src = t.node → hasFired x.log e' = false := fun e' he' hs => by
        rw [← Bool.not_eq_true]
        exact fun hf' => hn (hs ▸ h.firedCompleted e' he' hf')
      have hun := unfired_first hnew hfire e.dst
      rw [h.remaining e he hg hcd ht (by omega), hun]
      push_cast
      ring
  · rw [(complete_keeps S loop t.node (.ok out) cut x').1] at hb
    rw [hact] at ht
    simp only [deliverAll_timesFired] at ht
    rw [hfire e he, h.batch b l hb v hv ht e he hd hg hcd]
    rfl
  · rw [hlog]
    refine h.sound.append_of_forall fun ev hev p v hv => ?_
    subst hv
    rcases mem_completionEvents hev with he | ⟨b, he⟩ | he <;> cases he

/-- A completion that fires no edge: the node failed, or the token is cancelled. -/
theorem noFanOut (h : Counts S x) {k : ℕ} {t : Task L} {res : Except L.Exception (State L)}
    {cut : Option CancelPoint} (hf : isFailed res = true ∨ fired x.cancelled cut = false) :
    Counts S (complete S loop t.node res cut { x with running := x.running.eraseIdx k }) := by
  set x' : Exec L := { x with running := x.running.eraseIdx k } with hx'
  have hi := complete_impl S loop t.node res cut x'
  have hcan := complete_cancelled S loop t.node res cut x'
  have hmem : ∀ ev ∈ completionEvents S loop t.node res cut x.cancelled x.impl.completedNodeIds, _ :=
    fun ev hev => completionEvents_unfired hf hev
  refine h.other (fun v => ?_) (complete_log S loop t.node res cut x') (fun v hv => ?_) (fun v hv => ?_)
    (fun ev hev => ?_) (fun hy => ?_) fun b l hb => Or.inl ?_
  · rw [hi]
    cases res with
    | error e =>
      simp only [Impl.finish, Impl.retire_activations]
      split_ifs with hv
      · subst hv; exact ⟨rfl, rfl, rfl⟩
      · exact ⟨rfl, rfl, rfl⟩
    | ok out =>
      have hff : fired x.cancelled cut = false := by simpa [isFailed] using hf
      rw [finish_activations, show fired x'.cancelled cut = false from hff]
      exact ⟨rfl, rfl, rfl⟩
  · rw [hi]
    cases res with
    | error e => exact hv
    | ok out => rw [finish_completed]; exact List.mem_append_left _ hv
  · rw [hi] at hv
    cases res with
    | error e => exact Or.inl hv
    | ok out =>
      rw [finish_completed, List.mem_append] at hv
      rcases hv with hv | hv
      · exact Or.inl hv
      · -- recorded, and then cancelled before the fan-out
        have hff : fired x.cancelled cut = false := by simpa [isFailed] using hf
        split_ifs at hv with htr
        · rw [List.mem_singleton] at hv
          subst hv
          refine Or.inr ⟨completed_mem_completionEvents rfl htr, hcan.mpr (Or.inr ?_)⟩
          have htr' : tracked x.cancelled cut = true := htr
          have hcut : cut = some .fanOut := by simpa [fired, htr'] using hff
          have hcx : x.cancelled = false := by simp [tracked] at htr'; exact htr'.1.1
          simp [completionEvents, completionTail, hcut, hx', hcx]
        · cases hv
  · refine ⟨fun v hv => ?_, fun a b k hv => ?_⟩
    · subst hv
      rcases hmem _ hev with he | he | he | ⟨he, -⟩
      · cases res <;> cases he
      · cases he
      · cases he
      · cases he
    · subst hv
      rcases hmem _ hev with he | he | he | ⟨he, -⟩
      · cases res <;> cases he
      · cases he
      · cases he
      · cases he
  · rw [← Bool.not_eq_true] at hy ⊢
    exact fun hx => hy (hcan.mpr (Or.inl hx))
  · rw [(complete_keeps S loop t.node res cut x').1] at hb; exact hb

theorem step (h : Counts S x) (hst : Steady S.graph x c) (hs : Moves S loop c x y) : Counts S y := by
  rcases hs.split with ⟨n, rest, last, rfl, hpc, rfl⟩ | ⟨k, t, res, cut, rfl, hk, -, rfl⟩ | hp
  · exact h.launch hpc
  · by_cases hf : isFailed res = true ∨ fired x.cancelled cut = false
    · exact h.noFanOut hf
    · obtain ⟨h1, h2⟩ : isFailed res = false ∧ fired x.cancelled cut = true := by simpa using hf
      cases res with
      | error e => cases h1
      | ok out => exact h.fanOut hk hst h2
  · refine h.other (fun v => by rw [hp.activations]; exact ⟨rfl, rfl, rfl⟩) hp.log (fun v hv => hp.completed ▸ hv)
      (fun v hv => Or.inl (hp.completed ▸ hv)) (fun ev hev => ?_) (fun hy => ?_) fun b l hb => ?_
    · rcases hp.events ev hev with ⟨n, i, rfl⟩ | rfl | ⟨b, rfl⟩ <;> simp
    · rw [← Bool.not_eq_true] at hy ⊢
      exact fun hx => hy (hp.token hx)
    · exact (hp.batch b l hb).imp (fun he => he.symm.trans hb) id

/-- `Run` starts with no edge fired and the full counters. -/
theorem runStart (S : Setup) (s : State L) : Counts S (runStart S .fresh s) := by
  rw [runStart_fresh]
  obtain ⟨-, -, hc⟩ := seeded_rest S.graph s
  have ha := seeded_activation S.graph s
  refine
    { keyed := seeded_keyed S.graph s
      firedCompleted := fun e _ hf => by cases hf
      completedFired := fun _ e _ hs => by simp only [Exec.begin, hc] at hs; cases hs
      logged := fun v hv => by simp only [Exec.begin, hc] at hv; cases hv
      launched := fun v => by simp [Exec.begin, (ha v).1]
      remaining := fun e _ _ _ _ _ => ?_
      batch := fun b l hb v hv _ e he hd hg _ => ?_
      sound := each_nil }
  · rw [show (Exec.begin (seeded S.graph s) S.graph.entryNodeIds).impl = seeded S.graph s from rfl,
      (ha e.dst).2.2.2.1, inEdges, unfired, List.countP_eq_length_filter]
    congr 2
    refine List.filter_congr fun e' _ => ?_
    simp [Exec.begin, hasFired]
  · cases hb
    exact absurd hd ((Graph.mem_entryNodeIds.mp hv).2 e he hg)

end Counts

/-- **Fan-in soundness**, in every run of a fresh runner in which no node
completes again too early. -/
theorem fanIn_sound (S : Setup) (s : State L) (cs : List (Choice L)) (y : Exec L)
    (hr : Run (step S .run) (Steady S.graph) (runStart S .fresh s) cs y) : FanInSound S.graph y.log :=
  (hr.invariant (fun _ _ _ hI hc hs => hI.step hc (step_eq_some.mp hs)) (Counts.runStart S s)).sound

/-- The node completes for the first time. -/
def firstTime (x : Exec L) : Choice L → Bool
  | .finish k (.ok _) _ => x.running[k]?.all fun t => !decide (t.node ∈ x.impl.completedNodeIds)
  | _ => true

theorem Steady.of_firstTime (g : Graph) {x : Exec L} {c : Choice L} (h : firstTime x c = true) : Steady g x c := by
  cases c with
  | finish k res cut =>
    cases res with
    | error e => trivial
    | ok out =>
      intro t ht _ hm
      simp [firstTime, ht, hm] at h
  | _ => trivial

/-- The looping entry node is launched again, but the other one has completed by then. -/
theorem fanIn_sound_loopJoin : ∃ cs y, Run (step (Setup.plain .loopJoin) .run) (Steady Graph.loopJoin)
      (runStart (Setup.plain .loopJoin) .fresh (Libs.text.state [0])) cs y ∧
    .launch "c" ∈ y.log ∧ FanInSound Graph.loopJoin y.log := by
  have h : (check (step (Setup.plain .loopJoin) .run) firstTime
      [.main, .main, .main, .main, .main, .start, .start, .finish 0 (.ok (Libs.text.state [1])) none,
        .finish 0 (.ok (Libs.text.state [2])) none, .main, .main, .main, .main]
      (runStart (Setup.plain .loopJoin) .fresh (Libs.text.state [0]))).any
      (fun y => decide ("c" ∈ launched y.log)) = true := by
    decide
  obtain ⟨y, hr, hy⟩ := Run.exists_of_check (Steady Graph.loopJoin) h fun x c hc => Steady.of_firstTime _ hc
  exact ⟨_, y, hr, mem_launched.mp (of_decide_eq_true hy), fanIn_sound _ _ _ y hr⟩

/-- The looping entry node completes twice while the other one still runs,
and their join is launched. -/
theorem fanIn_drained_twice : ∃ cs y, Run (step (Setup.plain .loopJoin) .run) (fun _ _ => True)
      (runStart (Setup.plain .loopJoin) .fresh (Libs.text.state [0])) cs y ∧
    ¬ FanInSound Graph.loopJoin y.log := by
  have h : (check (step (Setup.plain .loopJoin) .run) (fun _ _ => true)
      [.main, .main, .main, .main, .main, .start, .start, .finish 0 (.ok (Libs.text.state [1])) none, .main,
        .main, .main, .main, .main, .main, .start, .finish 1 (.ok (Libs.text.state [2])) none, .main,
        .main, .main, .main]
      (runStart (Setup.plain .loopJoin) .fresh (Libs.text.state [0]))).any
      (fun y => decide ((y.log.drop 19).head?.bind Event.launch? = some "c") &&
        !hasFired (y.log.take 19) ⟨"b", "c", 0, .all⟩ && !decide ("c" ∈ launched (y.log.take 19))) = true := by
    decide
  obtain ⟨y, hr, hy⟩ := Run.exists_of_check (fun _ _ => True) h fun _ _ _ => trivial
  refine ⟨_, y, hr, fun hsound => ?_⟩
  simp only [Bool.and_eq_true, Bool.not_eq_true', decide_eq_true_eq, decide_eq_false_iff_not] at hy
  obtain ⟨⟨h1, h2⟩, h3⟩ := hy
  obtain ⟨ev, hev, hl⟩ := Option.bind_eq_some_iff.mp h1
  obtain ⟨q, hq⟩ := List.head?_eq_some_iff.mp hev
  rw [Event.launch?_eq_some.mp hl] at hq
  have hb := (hsound (y.log.take 19) (.launch "c") q (by rw [← hq, List.take_append_drop]) "c" rfl
    (fun hm => h3 (mem_launched.mpr hm)) ⟨"b", "c", 0, .all⟩ (by decide) rfl rfl rfl).1
  rw [← Bool.not_eq_true, hasFired_iff] at h2
  exact h2 hb

end AgentFlow
