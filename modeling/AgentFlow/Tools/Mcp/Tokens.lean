/-
# Requests, their calls and their tokens

The request of a `CallTool` against the call that makes it: the call waits for
it until it is completed, and returns what its answer gives unless its channel
was closed (`Ended`). The callback of the call's token is the only thing that
posts a cancellation of the request.

Key definitions: `Ended`, `Tokens`.
Key theorems: `tokens_step`.
-/
import AgentFlow.Tools.Mcp.Matching

namespace AgentFlow
namespace Mcp
namespace Stdio

open Json

variable {sp : Spec} {s s' : State} {t : ℕ}

theorem request_method {p : Purpose} {m : Method} {params : Value}
    (h : p.request sp.toClient = .ok (some (m, params))) : m = if p.isCallTool then .toolsCall else .toolsList := by
  cases p with
  | connect => simp [Purpose.request] at h
  | listTools =>
    simp only [Purpose.request, Except.ok.injEq, Option.some.injEq, Prod.mk.injEq] at h
    exact h.1.symm
  | callTool name args =>
    simp only [Purpose.request] at h
    cases ha : arguments sp.toClient args with
    | error e => simp [ha, bind, Except.bind] at h
    | ok v =>
      simp only [ha, bind, Except.bind, Except.ok.injEq, Option.some.injEq, Prod.mk.injEq] at h
      exact h.1.symm

/-- The call `t` returned `o`: its request was closed, or answered so. -/
def Ended (sp : Spec) (log : List Event) (t id : ℕ) (o : Outcome) : Prop :=
  .closed id ∈ log ∨
  ∃ p v, .called t p ∈ log ∧ .delivered id v ∈ log ∧ o = p.outcome sp.toClient (rpcResult v)

theorem Ended.mono {log es : List Event} {id : ℕ} {o : Outcome} (h : Ended sp log t id o) :
    Ended sp (log ++ es) t id o := by
  rcases h with h | ⟨p, v, hp, hv, ho⟩
  · exact Or.inl (List.mem_append_left _ h)
  · exact Or.inr ⟨p, v, List.mem_append_left _ hp, List.mem_append_left _ hv, ho⟩

theorem mem_requestIds {log : List Event} {id : ℕ} : id ∈ requestIds log ↔ ∃ i m, .requested i id m ∈ log := by
  simp only [requestIds, List.filterMap_filterMap, List.mem_filterMap]
  constructor
  · rintro ⟨e, he, hid⟩
    cases e with
    | requested i id' m =>
      obtain rfl : id' = id := by simpa [Event.table?, Requests.Event.registered?] using hid
      exact ⟨i, m, he⟩
    | _ => simp [Event.table?, Requests.Event.registered?] at hid
  · rintro ⟨i, m, he⟩
    exact ⟨_, he, rfl⟩

theorem mem_completedIds {log : List Event} {id : ℕ} :
    id ∈ completedIds log ↔ (∃ v, .delivered id v ∈ log) ∨ .closed id ∈ log := by
  simp only [completedIds, List.filterMap_filterMap, List.mem_filterMap]
  constructor
  · rintro ⟨e, he, hid⟩
    cases e with
    | delivered id' v =>
      obtain rfl : id' = id := by simpa [Event.table?, Requests.Event.completed?] using hid
      exact Or.inl ⟨v, he⟩
    | closed id' =>
      obtain rfl : id' = id := by simpa [Event.table?, Requests.Event.completed?] using hid
      exact Or.inr he
    | _ => simp [Event.table?, Requests.Event.completed?] at hid
  · rintro (⟨v, he⟩ | he)
    · exact ⟨_, he, rfl⟩
    · exact ⟨_, he, rfl⟩

theorem requestIds_append (log es : List Event) : requestIds (log ++ es) = requestIds log ++ requestIds es := by
  simp [requestIds]

theorem completedIds_append (log es : List Event) :
    completedIds (log ++ es) = completedIds log ++ completedIds es := by
  simp [completedIds]

namespace Recorded

variable {id : ℕ}

theorem closed_mem (h : Recorded s) (hc : s.requests.slot id = some .closed) : .closed id ∈ s.log := by
  obtain ⟨e, he, het⟩ := List.mem_filterMap.mp ((h.closed id).mpr hc)
  cases e with
  | closed id' =>
    obtain rfl : id' = id := by simpa [Event.table?] using het
    exact he
  | _ => simp [Event.table?] at het

/-- What a receive ends with is in the log: the answer, or that the channel
was closed. -/
theorem of_receive {r : Except ErrorCode Value} (h : Recorded s) (hr : (s.requests.slot id).bind receive = some r) :
    (.closed id ∈ s.log ∧ r = .error .channelClosed) ∨ ∃ v, .delivered id v ∈ s.log ∧ r = .ok v := by
  obtain ⟨slot, hslot, hrec⟩ := Option.bind_eq_some_iff.mp hr
  cases slot with
  | waiting => simp [receive] at hrec
  | closed => exact Or.inl ⟨h.closed_mem hslot, (Option.some.inj hrec).symm⟩
  | delivered v => exact Or.inr ⟨v, h.delivered_mem hslot, (Option.some.inj hrec).symm⟩

theorem completed_of_receive {r : Except ErrorCode Value} (h : Recorded s)
    (hr : (s.requests.slot id).bind receive = some r) : id ∈ completedIds s.log := by
  rw [mem_completedIds]
  rcases h.of_receive hr with ⟨hc, -⟩ | ⟨v, hv, -⟩
  · exact Or.inr hc
  · exact Or.inl ⟨v, hv⟩

theorem pending_iff (h : Recorded s) :
    id ∈ s.requests.pending ↔ id ∈ requestIds s.log ∧ id ∉ completedIds s.log := by
  have hreg : id ∈ requestIds s.log ↔ s.requests.slot id ≠ none := h.mem_registered
  constructor
  · intro hp
    have hs := (s.requests.mem_pending id).mp hp
    exact ⟨hreg.mpr (by rw [hs]; simp), fun hc => h.not_pending hc hp⟩
  · rintro ⟨hid, hc⟩
    rw [s.requests.mem_pending]
    cases hs : s.requests.slot id with
    | none => exact absurd hs (hreg.mp hid)
    | some slot =>
      cases slot with
      | waiting => rfl
      | closed => exact absurd (h.completed_of_receive (by rw [hs]; rfl)) hc
      | delivered v => exact absurd (h.completed_of_receive (r := .ok v) (by rw [hs]; rfl)) hc

end Recorded

/-- The requests of `CallTool`s against the calls that make them and the tokens
these have. -/
structure Tokens (sp : Spec) (s : State) : Prop where
  made : ∀ i id, .requested i id .toolsCall ∈ s.log → ∃ k, s.tasks[i]? = some k ∧ k.purpose.isCallTool = true ∧
    (k.pc = .request id ∨ k.pc = .done ∧ id ∈ completedIds s.log)
  ended : ∀ i id o, .requested i id .toolsCall ∈ s.log → .returned i o ∈ s.log → Ended sp s.log i id o
  token_isSome : ∀ k ∈ s.tasks, k.token.isSome = k.purpose.isCallTool
  request_of_pc : ∀ k ∈ s.tasks, ∀ id, k.pc = .request id → k.purpose.isCallTool = true → k.request = some id
  request_lt : ∀ k ∈ s.tasks, ∀ id, k.request = some id → id < s.requests.next
  request_inj : ∀ (i j : ℕ) (k k' : Task) (id : ℕ), s.tasks[i]? = some k → s.tasks[j]? = some k' →
    k.request = some id → k'.request = some id → i = j
  fired : ∀ k ∈ s.tasks, ∀ id, k.request = some id → .cancelPosted id ∈ s.log → k.token = some true
  posted_lt : ∀ id, .cancelPosted id ∈ s.log → id < s.requests.next

/-- Entries that are about no request of a `CallTool` and no token. -/
def Event.tokenFree : Event → Bool
  | .requested _ _ m => m ≠ .toolsCall
  | .cancelPosted _ => false
  | _ => true

theorem Pumps.wrote_of_mem {child w w' : Option ℕ} {queue : List Line} {es : List Event}
    (h : Pumps child queue w w' es) {e : Event} (he : e ∈ es) : ∃ c l, e = .wrote c l := by
  cases h with
  | nothing => simp at he
  | starts _ _ => exact ⟨_, _, List.mem_singleton.mp he⟩

theorem Pumps.tokenFree {child w w' : Option ℕ} {queue : List Line} {es : List Event}
    (h : Pumps child queue w w' es) : ∀ e ∈ es, e.tokenFree = true ∧ e.returned? = none := by
  cases h with
  | nothing => simp
  | starts _ _ => simp [Event.tokenFree, Event.returned?]

namespace State.Asked

variable {m : Method} {params : Value} {token : Option Bool} {pc : ℕ → Pc}

theorem log_eq (ha : s.Asked t m params token pc s') : ∃ w es, s'.log = s.log ++ (.requested t s.requests.next m ::
    (Stdio.posted token s.requests.next).map Event.cancelPosted ++
      .queued ⟨s.children, ⟨some s.requests.next, m, params⟩⟩ :: es) ∧
    Pumps s.child (s.writeQueue ++ [⟨s.children, ⟨some s.requests.next, m, params⟩⟩]) s.writing w es := by
  obtain ⟨w, es, rfl, hp⟩ := ha
  exact ⟨w, es, List.append_assoc _ _ _, hp⟩

/-- Only this request is made. -/
theorem requested (ha : s.Asked t m params token pc s') {i id : ℕ} {m' : Method}
    (h : .requested i id m' ∈ s'.log) :
    .requested i id m' ∈ s.log ∨ (i = t ∧ id = s.requests.next ∧ m' = m) := by
  obtain ⟨w, es, hl, hp⟩ := ha.log_eq
  rw [hl] at h
  simp only [List.cons_append, List.mem_append, List.mem_cons, List.mem_map, Event.requested.injEq, reduceCtorEq,
    and_false, exists_false, false_or] at h
  rcases h with h | h | h
  · exact Or.inl h
  · exact Or.inr h
  · obtain ⟨c, l, he⟩ := hp.wrote_of_mem h
    simp at he

/-- Only its own cancellation is posted, by a token that has fired. -/
theorem cancelPosted (ha : s.Asked t m params token pc s') {id : ℕ} (h : .cancelPosted id ∈ s'.log) :
    .cancelPosted id ∈ s.log ∨ (id = s.requests.next ∧ token = some true) := by
  obtain ⟨w, es, hl, hp⟩ := ha.log_eq
  rw [hl] at h
  simp only [List.cons_append, List.mem_append, List.mem_cons, List.mem_map, Event.cancelPosted.injEq, reduceCtorEq,
    exists_eq_right, false_or] at h
  rcases h with h | h | h
  · exact Or.inl h
  · unfold Stdio.posted at h
    split_ifs at h with htok
    · exact Or.inr ⟨by simpa using h, htok⟩
    · simp at h
  · obtain ⟨c, l, he⟩ := hp.wrote_of_mem h
    simp at he

theorem returned (ha : s.Asked t m params token pc s') {i : ℕ} {o : Outcome} (h : .returned i o ∈ s'.log) :
    .returned i o ∈ s.log := by
  obtain ⟨w, es, hl, hp⟩ := ha.log_eq
  rw [hl] at h
  simp only [List.cons_append, List.mem_append, List.mem_cons, List.mem_map, reduceCtorEq, and_false, exists_false,
    false_or] at h
  rcases h with h | h
  · exact h
  · obtain ⟨c, l, he⟩ := hp.wrote_of_mem h
    simp at he

theorem tasks_eq (ha : s.Asked t m params token pc s') :
    s'.tasks = s.tasks.modify t fun k => k.ask token s.requests.next (pc s.requests.next) := by
  obtain ⟨w, es, rfl, -⟩ := ha
  rfl

theorem next_eq (ha : s.Asked t m params token pc s') : s'.requests.next = s.requests.next + 1 := by
  obtain ⟨w, es, rfl, -⟩ := ha
  rfl

/-- The other calls stay as they are. -/
theorem task_cases {k k' : Task} {i : ℕ} (ha : s.Asked t m params token pc s') (hk : s.tasks[t]? = some k)
    (h : s'.tasks[i]? = some k') :
    s.tasks[i]? = some k' ∨ (i = t ∧ k' = k.ask token s.requests.next (pc s.requests.next)) := by
  rw [ha.tasks_eq] at h
  by_cases hi : t = i
  · subst hi
    rw [List.getElem?_modify_eq, hk] at h
    exact Or.inr ⟨rfl, (Option.some.inj h).symm⟩
  · rw [List.getElem?_modify_ne _ _ hi] at h
    exact Or.inl h

end State.Asked

namespace Tokens

/-- A change of one call that keeps its purpose, token and request, and its
place unless it ends, which it does only when its request is completed. -/
structure Moves (log : List Event) (k k' : Task) : Prop where
  purpose : k'.purpose = k.purpose
  token : k'.token = k.token
  request : k'.request = k.request
  back : ∀ id, k'.pc = .request id → k.pc = .request id
  done : k.pc = .done → k'.pc = .done
  waits : ∀ id, k.pc = .request id → k'.pc = .request id ∨ k'.pc = .done ∧ id ∈ completedIds log

/-- One call moves on, and no request of a `CallTool` is made. -/
theorem extend {r : State} {es : List Event} {f : Task → Task} (h : Tokens sp s) (ht : r.tasks = s.tasks.modify t f)
    (hf : ∀ k, s.tasks[t]? = some k → Moves s.log k (f k)) (hn : s.requests.next ≤ r.requests.next)
    (hl : r.log = s.log ++ es) (hes : ∀ e ∈ es, e.tokenFree = true)
    (hret : ∀ i o, .returned i o ∈ es → ∀ id, .requested i id .toolsCall ∈ s.log → Ended sp s.log i id o) :
    Tokens sp r := by
  have hold : ∀ e ∈ r.log, e.tokenFree = false → e ∈ s.log := by
    intro e he hp
    rw [hl, List.mem_append] at he
    rcases he with he | he
    · exact he
    · rw [hes e he] at hp
      simp at hp
  have hback : ∀ (i : ℕ) (k' : Task), r.tasks[i]? = some k' →
      ∃ k, s.tasks[i]? = some k ∧ (k' = k ∨ Moves s.log k k') := by
    intro i k' hk'
    rw [ht, List.getElem?_modify] at hk'
    cases hk : s.tasks[i]? with
    | none => simp [hk] at hk'
    | some k =>
      refine ⟨k, rfl, ?_⟩
      have heq : (if t = i then f k else k) = k' := by simpa [hk] using hk'
      split_ifs at heq with hi
      · subst hi
        exact Or.inr (heq ▸ hf k hk)
      · exact Or.inl heq.symm
  have hmem : ∀ k' ∈ r.tasks, ∃ k ∈ s.tasks, k' = k ∨ Moves s.log k k' := by
    intro k' hk'
    obtain ⟨i, hi⟩ := List.mem_iff_getElem?.mp hk'
    obtain ⟨k, hk, hm⟩ := hback i k' hi
    exact ⟨k, List.mem_of_getElem? hk, hm⟩
  have hreq : ∀ k k' : Task, k' = k ∨ Moves s.log k k' → k'.request = k.request ∧ k'.token = k.token ∧
      k'.purpose = k.purpose := by
    rintro k k' (rfl | hm)
    · exact ⟨rfl, rfl, rfl⟩
    · exact ⟨hm.request, hm.token, hm.purpose⟩
  constructor
  · intro i id hid
    obtain ⟨k, hk, hp, hpc⟩ := h.made i id (hold _ hid rfl)
    rw [ht, List.getElem?_modify, hk, hl, completedIds_append]
    refine ⟨_, rfl, ?_⟩
    split_ifs with hi
    · have hm := hf k (hi ▸ hk)
      rw [hm.purpose]
      refine ⟨hp, ?_⟩
      rcases hpc with hpc | ⟨hpc, hid⟩
      · exact (hm.waits id hpc).imp_right (And.imp_right (List.mem_append_left _))
      · exact Or.inr ⟨hm.done hpc, List.mem_append_left _ hid⟩
    · exact ⟨hp, hpc.imp_right (And.imp_right (List.mem_append_left _))⟩
  · intro i id o hid ho
    have hid' := hold _ hid rfl
    rw [hl, List.mem_append] at ho
    rw [hl]
    rcases ho with ho | ho
    · exact (h.ended i id o hid' ho).mono
    · exact (hret i o ho id hid').mono
  · intro k' hk'
    obtain ⟨k, hk, hm⟩ := hmem k' hk'
    obtain ⟨-, htok, hpur⟩ := hreq k k' hm
    rw [htok, hpur]
    exact h.token_isSome k hk
  · intro k' hk' id hpc hp
    obtain ⟨k, hk, hm⟩ := hmem k' hk'
    obtain ⟨hr, -, hpur⟩ := hreq k k' hm
    rw [hr]
    refine h.request_of_pc k hk id ?_ (hpur ▸ hp)
    rcases hm with rfl | hm
    · exact hpc
    · exact hm.back id hpc
  · intro k' hk' id hid
    obtain ⟨k, hk, hm⟩ := hmem k' hk'
    exact lt_of_lt_of_le (h.request_lt k hk id ((hreq k k' hm).1 ▸ hid)) hn
  · intro i j k k' id hk hk' hid hid'
    obtain ⟨k₀, hk₀, hm⟩ := hback i k hk
    obtain ⟨k₀', hk₀', hm'⟩ := hback j k' hk'
    exact h.request_inj i j k₀ k₀' id hk₀ hk₀' ((hreq _ _ hm).1 ▸ hid) ((hreq _ _ hm').1 ▸ hid')
  · intro k' hk' id hid hpost
    obtain ⟨k, hk, hm⟩ := hmem k' hk'
    obtain ⟨hr, htok, -⟩ := hreq k k' hm
    rw [htok]
    exact h.fired k hk id (hr ▸ hid) (hold _ hpost rfl)
  · intro id hpost
    exact lt_of_lt_of_le (h.posted_lt id (hold _ hpost rfl)) hn

/-- The calls stay as they are. -/
theorem keep {r : State} {l : List Event} (h : Tokens sp s) (ht : r.tasks = s.tasks)
    (hn : s.requests.next ≤ r.requests.next)
    (hl : r.log = s.log ++ l) (hes : ∀ e ∈ l, e.tokenFree = true ∧ e.returned? = none) : Tokens sp r := by
  refine h.extend (t := 0) (f := id) (by rw [ht, List.modify_id]) ?_ hn hl (fun e he => (hes e he).1) ?_
  · exact fun k _ => ⟨rfl, rfl, rfl, fun _ h => h, fun h => h, fun _ h => Or.inl h⟩
  · intro i o ho
    have := (hes _ ho).2
    simp [Event.returned?] at this

theorem finish {o : Outcome} (h : Tokens sp s)
    (hdone : ∀ k id, s.tasks[t]? = some k → k.pc = .request id → id ∈ completedIds s.log)
    (ho : ∀ id, .requested t id .toolsCall ∈ s.log → Ended sp s.log t id o) : Tokens sp (s.finish t o) := by
  refine h.extend (r := s.finish t o) rfl ?_ le_rfl rfl (by simp [Event.tokenFree]) ?_
  · exact fun k hk => ⟨rfl, rfl, rfl, by simp, fun _ => rfl, fun id hpc => Or.inr ⟨rfl, hdone k id hk hpc⟩⟩
  · intro i o' hi id hid
    obtain ⟨rfl, rfl⟩ : i = t ∧ o' = o := by simpa using hi
    exact ho id hid

/-- A call ends that has made no request. -/
theorem finish_early {k : Task} (h : Tokens sp s) (hk : s.tasks[t]? = some k) (hpc : ∀ id, k.pc ≠ .request id)
    (hd : k.pc ≠ .done) (o : Outcome) : Tokens sp (s.finish t o) := by
  refine h.finish ?_ ?_
  · intro k' id hk' hpc'
    obtain rfl := Option.some.inj (hk'.symm.trans hk)
    exact absurd hpc' (hpc id)
  · intro id hid
    obtain ⟨k', hk', -, hpc' | ⟨hd', -⟩⟩ := h.made t id hid
    · obtain rfl := Option.some.inj (hk'.symm.trans hk)
      exact absurd hpc' (hpc id)
    · obtain rfl := Option.some.inj (hk'.symm.trans hk)
      exact absurd hd' hd

theorem setState (h : Tokens sp s) (st : ConnState) : Tokens sp (s.setState st) :=
  h.keep (r := s.setState st) rfl le_rfl (List.append_nil _).symm (by simp)

theorem torn (h : Tokens sp s) : Tokens sp s.torn := by
  unfold State.torn
  split_ifs
  · exact h.keep (r := s.closePipes.failPending) rfl le_rfl rfl (by simp [Event.tokenFree, Event.returned?])
  · exact h

theorem notified {m : Message} (h : Tokens sp s) (hn : s.Notified m s') : Tokens sp s' := by
  rcases hn with ⟨-, rfl⟩ | ⟨-, w, es, rfl, hp⟩
  · exact h
  · refine h.keep (r := s.withWriter _ w _) rfl le_rfl rfl ?_
    simpa [Event.tokenFree, Event.returned?] using hp.tokenFree

/-- `initialize`, sent by a call that runs. -/
theorem asked_init {k : Task} {pc : ℕ → Pc} (h : Tokens sp s) (hk : s.tasks[t]? = some k) (hrun : k.pc = .running)
    (hpc : ∀ n id, pc n ≠ .request id) (ha : s.Asked t .init initParams none pc s') : Tokens sp s' := by
  obtain ⟨w, es, rfl, hp⟩ := ha
  have hl := List.append_assoc s.log (.requested t s.requests.next .init :: (posted none s.requests.next).map
    Event.cancelPosted) (.queued ⟨s.children, ⟨some s.requests.next, .init, initParams⟩⟩ :: es)
  have hes : ∀ e ∈ .requested t s.requests.next .init :: (posted none s.requests.next).map Event.cancelPosted ++
      .queued ⟨s.children, ⟨some s.requests.next, .init, initParams⟩⟩ :: es,
      e.tokenFree = true ∧ e.returned? = none := by
    simpa [posted, Event.tokenFree, Event.returned?] using hp.tokenFree
  refine h.extend (t := t) rfl (fun k' hk' => ?_) (Nat.le_succ _) hl (fun e he => (hes e he).1) ?_
  · obtain rfl := Option.some.inj (hk'.symm.trans hk)
    exact ⟨rfl, rfl, rfl, fun id hid => absurd hid (hpc _ id), fun hd => by simp [hrun] at hd,
      fun id hid => by simp [hrun] at hid⟩
  · intro i o ho
    have := (hes _ ho).2
    simp [Event.returned?] at this

theorem arrive (h : Tokens sp s) (p : Purpose) (fired : Bool) : Tokens sp (s.arrive p fired) := by
  have htask : ∀ (i : ℕ) (k : Task), (s.arrive p fired).tasks[i]? = some k →
      s.tasks[i]? = some k ∨ k = newTask p fired := by
    intro i k hk
    rcases lt_or_ge i s.tasks.length with hi | hi
    · rw [State.arrive, List.getElem?_append_left hi] at hk
      exact Or.inl hk
    · rw [State.arrive, List.getElem?_append_right hi] at hk
      exact Or.inr (List.mem_singleton.mp (List.mem_of_getElem? hk))
  have hmem : ∀ k ∈ (s.arrive p fired).tasks, k ∈ s.tasks ∨ k = newTask p fired := by
    intro k hk
    simpa [State.arrive] using hk
  have hnone : ∀ id, (newTask p fired).request ≠ some id := by simp [newTask]
  have hpost : ∀ id, .cancelPosted id ∈ (s.arrive p fired).log → .cancelPosted id ∈ s.log := by
    intro id hid
    simpa [State.arrive] using hid
  constructor
  · intro i id hid
    obtain ⟨k, hk, hp, hpc⟩ := h.made i id (by simpa [State.arrive] using hid)
    refine ⟨k, ?_, hp, hpc.imp_right (And.imp_right fun hc => ?_)⟩
    · rw [State.arrive, List.getElem?_append_left (List.getElem?_eq_some_iff.mp hk).1, hk]
    · rw [State.arrive, completedIds_append]
      exact List.mem_append_left _ hc
  · intro i id o hid ho
    exact (h.ended i id o (by simpa [State.arrive] using hid) (by simpa [State.arrive] using ho)).mono
  · intro k hk
    rcases hmem k hk with hk | rfl
    · exact h.token_isSome k hk
    · simp only [newTask]
      split_ifs with hp
      · simp [hp]
      · simpa using hp
  · intro k hk id hpc
    rcases hmem k hk with hk | rfl
    · exact h.request_of_pc k hk id hpc
    · simp [newTask] at hpc
  · intro k hk id hid
    rcases hmem k hk with hk | rfl
    · exact h.request_lt k hk id hid
    · exact absurd hid (hnone id)
  · intro i j k k' id hk hk' hid hid'
    rcases htask i k hk with hk | rfl
    · rcases htask j k' hk' with hk' | rfl
      · exact h.request_inj i j k k' id hk hk' hid hid'
      · exact absurd hid' (hnone id)
    · exact absurd hid (hnone id)
  · intro k hk id hid hp
    rcases hmem k hk with hk | rfl
    · exact h.fired k hk id hid (hpost id hp)
    · exact absurd hid (hnone id)
  · exact fun id hp => h.posted_lt id (hpost id hp)

/-- A call that runs or has ended its handshake makes its request. -/
theorem asked {k : Task} {m : Method} {params : Value} (h : Tokens sp s) (hk : s.tasks[t]? = some k)
    (hpc : ∀ id, k.pc ≠ .request id) (hd : k.pc ≠ .done) (hnot : ∀ o, .returned t o ∉ s.log)
    (hm : m = if k.purpose.isCallTool then .toolsCall else .toolsList)
    (ha : s.Asked t m params k.token .request s') : Tokens sp s' := by
  obtain ⟨w, es, hlog, -⟩ := ha.log_eq
  have hkmem := List.mem_of_getElem? hk
  have hmem : ∀ k' ∈ s'.tasks, k' ∈ s.tasks ∨ k' = k.ask k.token s.requests.next (.request s.requests.next) := by
    intro k' hk'
    obtain ⟨i, hi⟩ := List.mem_iff_getElem?.mp hk'
    exact (ha.task_cases hk hi).imp List.mem_of_getElem? And.right
  have hreq : ∀ i id, .requested i id .toolsCall ∈ s'.log →
      .requested i id .toolsCall ∈ s.log ∨ (i = t ∧ id = s.requests.next ∧ k.purpose.isCallTool = true) := by
    intro i id hid
    refine (ha.requested hid).imp_right fun ⟨hi, hn, hm'⟩ => ⟨hi, hn, ?_⟩
    by_contra hc
    rw [← hm', if_neg hc] at hm
    simp at hm
  -- the request on the token is the new one, or one the call had before
  have hask : ∀ id, (k.ask k.token s.requests.next (.request s.requests.next)).request = some id →
      id = s.requests.next ∨ k.request = some id := by
    intro id hid
    simp only [Task.ask] at hid
    split_ifs at hid with htok
    · exact Or.inl (Option.some.inj hid).symm
    · exact Or.inr hid
  have hold : ∀ k' ∈ s'.tasks, ∀ id, k'.request = some id →
      id = s.requests.next ∨ ∃ k₀ ∈ s.tasks, k₀.request = some id ∧ k₀.token = k'.token := by
    intro k' hk' id hid
    rcases hmem k' hk' with hk' | rfl
    · exact Or.inr ⟨k', hk', hid, rfl⟩
    · exact (hask id hid).imp_right fun h => ⟨k, hkmem, h, rfl⟩
  have hlt : ∀ k' ∈ s.tasks, k'.request ≠ some s.requests.next := fun k' hk' hid =>
    lt_irrefl _ (h.request_lt k' hk' _ hid)
  constructor
  · intro i id hid
    rcases hreq i id hid with hid | ⟨rfl, rfl, hc⟩
    · obtain ⟨k', hk', hc, hpc'⟩ := h.made i id hid
      have hne : t ≠ i := by
        rintro rfl
        obtain rfl := Option.some.inj (hk'.symm.trans hk)
        rcases hpc' with hpc' | ⟨hd', -⟩
        · exact hpc id hpc'
        · exact hd hd'
      rw [ha.tasks_eq, List.getElem?_modify_ne _ _ hne, hlog, completedIds_append]
      exact ⟨k', hk', hc, hpc'.imp_right (And.imp_right (List.mem_append_left _))⟩
    · rw [ha.tasks_eq, List.getElem?_modify_eq, hk]
      exact ⟨_, rfl, hc, Or.inl rfl⟩
  · intro i id o hid ho
    rcases hreq i id hid with hid | ⟨rfl, -, -⟩
    · rw [hlog]
      exact (h.ended i id o hid (ha.returned ho)).mono
    · exact absurd (ha.returned ho) (hnot o)
  · intro k' hk'
    rcases hmem k' hk' with hk' | rfl
    · exact h.token_isSome k' hk'
    · exact h.token_isSome k hkmem
  · intro k' hk' id hpc' hc
    rcases hmem k' hk' with hk' | rfl
    · exact h.request_of_pc k' hk' id hpc' hc
    · have htok : k.token.isSome = true := (h.token_isSome k hkmem).trans hc
      simp only [Task.ask, htok, if_true]
      simpa [Task.ask] using hpc'
  · intro k' hk' id hid
    rw [ha.next_eq]
    rcases hold k' hk' id hid with rfl | ⟨k₀, hk₀, hid₀, -⟩
    · exact Nat.lt_succ_self _
    · exact Nat.lt_succ_of_lt (h.request_lt k₀ hk₀ id hid₀)
  · intro i j k₁ k₂ id h₁ h₂ hid₁ hid₂
    -- the call that has `id` in the end had it before, unless `id` is new
    have hback : ∀ (i : ℕ) (k' : Task), s'.tasks[i]? = some k' → k'.request = some id →
        (i = t ∧ id = s.requests.next) ∨ ∃ k₀, s.tasks[i]? = some k₀ ∧ k₀.request = some id := by
      intro i k' hk' hid
      rcases ha.task_cases hk hk' with hk' | ⟨rfl, rfl⟩
      · exact Or.inr ⟨k', hk', hid⟩
      · exact (hask id hid).imp (fun h => ⟨rfl, h⟩) fun h => ⟨k, hk, h⟩
    rcases hback i k₁ h₁ hid₁ with ⟨rfl, rfl⟩ | ⟨k₁', h₁', hid₁'⟩
    · rcases hback j k₂ h₂ hid₂ with ⟨rfl, -⟩ | ⟨k₂', h₂', hid₂'⟩
      · rfl
      · exact absurd hid₂' (hlt k₂' (List.mem_of_getElem? h₂'))
    · rcases hback j k₂ h₂ hid₂ with ⟨rfl, rfl⟩ | ⟨k₂', h₂', hid₂'⟩
      · exact absurd hid₁' (hlt k₁' (List.mem_of_getElem? h₁'))
      · exact h.request_inj i j k₁' k₂' id h₁' h₂' hid₁' hid₂'
  · intro k' hk' id hid hpost
    rcases ha.cancelPosted hpost with hpost | ⟨rfl, htok⟩
    · rcases hold k' hk' id hid with rfl | ⟨k₀, hk₀, hid₀, htok⟩
      · exact absurd (h.posted_lt _ hpost) (lt_irrefl _)
      · rw [← htok]
        exact h.fired k₀ hk₀ id hid₀ hpost
    · rcases hmem k' hk' with hk' | rfl
      · exact absurd hid (hlt k' hk')
      · exact htok
  · intro id hpost
    rw [ha.next_eq]
    rcases ha.cancelPosted hpost with hpost | ⟨rfl, -⟩
    · exact Nat.lt_succ_of_lt (h.posted_lt id hpost)
    · exact Nat.lt_succ_self _

theorem continues {k : Task} (h : Tokens sp s) (hk : s.tasks[t]? = some k) (hpc : ∀ id, k.pc ≠ .request id)
    (hd : k.pc ≠ .done) (hnot : ∀ o, .returned t o ∉ s.log) (hc : Continues sp s t k s') : Tokens sp s' := by
  cases hc with
  | refused _ => exact h.finish_early hk hpc hd _
  | connected _ => exact h.finish_early hk hpc hd _
  | asked hreq ha => exact h.asked hk hpc hd hnot (request_method hreq) ha

/-- The token of a call fires. -/
theorem fire {k : Task} (h : Tokens sp s) (hk : s.tasks[t]? = some k) (htok : k.token = some false) :
    Tokens sp (s.fired t k.request) := by
  have hlog : ∀ e ∈ (s.fired t k.request).log, e ∈ s.log ∨ ∃ id, k.request = some id ∧ e = .cancelPosted id := by
    intro e he
    rcases List.mem_append.mp he with he | he
    · exact Or.inl he
    · obtain ⟨id, hid, rfl⟩ := List.mem_map.mp he
      exact Or.inr ⟨id, by simpa [eq_comm] using hid, rfl⟩
  have hold : ∀ e ∈ (s.fired t k.request).log, (∀ id, e ≠ .cancelPosted id) → e ∈ s.log := by
    intro e he hne
    rcases hlog e he with he | ⟨id, -, rfl⟩
    · exact he
    · exact absurd rfl (hne id)
  have htask : ∀ (i : ℕ) (k' : Task), (s.fired t k.request).tasks[i]? = some k' →
      ∃ k₀, s.tasks[i]? = some k₀ ∧ ((i = t ∧ k' = { k₀ with token := some true }) ∨ k' = k₀) := by
    intro i k' hk'
    simp only [State.fired, List.getElem?_modify] at hk'
    cases hk₀ : s.tasks[i]? with
    | none => simp [hk₀] at hk'
    | some k₀ =>
      have heq : (if t = i then { k₀ with token := some true } else k₀) = k' := by simpa [hk₀] using hk'
      refine ⟨k₀, rfl, ?_⟩
      split_ifs at heq with hi
      · exact Or.inl ⟨hi.symm, heq.symm⟩
      · exact Or.inr heq.symm
  have hmem : ∀ k' ∈ (s.fired t k.request).tasks,
      ∃ k₀ ∈ s.tasks, k'.purpose = k₀.purpose ∧ k'.request = k₀.request ∧ k'.pc = k₀.pc := by
    intro k' hk'
    obtain ⟨i, hi⟩ := List.mem_iff_getElem?.mp hk'
    obtain ⟨k₀, hk₀, ⟨-, rfl⟩ | rfl⟩ := htask i k' hi
    · exact ⟨k₀, List.mem_of_getElem? hk₀, rfl, rfl, rfl⟩
    · exact ⟨_, List.mem_of_getElem? hk₀, rfl, rfl, rfl⟩
  constructor
  · intro i id hid
    obtain ⟨k', hk', hc, hpc⟩ := h.made i id (hold _ hid (by simp))
    simp only [State.fired, List.getElem?_modify, hk', completedIds_append]
    refine ⟨_, rfl, ?_⟩
    split_ifs
    · exact ⟨hc, hpc.imp_right (And.imp_right (List.mem_append_left _))⟩
    · exact ⟨hc, hpc.imp_right (And.imp_right (List.mem_append_left _))⟩
  · intro i id o hid ho
    exact (h.ended i id o (hold _ hid (by simp)) (hold _ ho (by simp))).mono
  · intro k' hk'
    obtain ⟨i, hi⟩ := List.mem_iff_getElem?.mp hk'
    obtain ⟨k₀, hk₀, ⟨rfl, rfl⟩ | rfl⟩ := htask i k' hi
    · obtain rfl := Option.some.inj (hk₀.symm.trans hk)
      rw [← h.token_isSome k₀ (List.mem_of_getElem? hk₀), htok]
      rfl
    · exact h.token_isSome _ (List.mem_of_getElem? hk₀)
  · intro k' hk' id hpc hc
    obtain ⟨k₀, hk₀, hp, hr, hpc₀⟩ := hmem k' hk'
    rw [hr]
    exact h.request_of_pc k₀ hk₀ id (hpc₀ ▸ hpc) (hp ▸ hc)
  · intro k' hk' id hid
    obtain ⟨k₀, hk₀, -, hr, -⟩ := hmem k' hk'
    exact h.request_lt k₀ hk₀ id (hr ▸ hid)
  · have hreq : ∀ (i : ℕ) (k' : Task), (s.fired t k.request).tasks[i]? = some k' →
        ∃ k₀, s.tasks[i]? = some k₀ ∧ k'.request = k₀.request := by
      intro i k' hk'
      obtain ⟨k₀, hk₀, ⟨-, rfl⟩ | rfl⟩ := htask i k' hk'
      · exact ⟨k₀, hk₀, rfl⟩
      · exact ⟨_, hk₀, rfl⟩
    intro i j k₁ k₂ id h₁ h₂ hid₁ hid₂
    obtain ⟨k₁', h₁', hr₁⟩ := hreq i k₁ h₁
    obtain ⟨k₂', h₂', hr₂⟩ := hreq j k₂ h₂
    exact h.request_inj i j k₁' k₂' id h₁' h₂' (hr₁ ▸ hid₁) (hr₂ ▸ hid₂)
  · intro k' hk' id hid hpost
    obtain ⟨i, hi⟩ := List.mem_iff_getElem?.mp hk'
    obtain ⟨k₀, hk₀, ⟨-, rfl⟩ | rfl⟩ := htask i k' hi
    · rfl
    · rcases hlog _ hpost with hpost | ⟨id', hid', he⟩
      · exact h.fired _ (List.mem_of_getElem? hk₀) id hid hpost
      · -- the request on the token is that of the call itself
        obtain rfl : id = id' := by simpa using he
        obtain rfl := h.request_inj i t _ k id hk₀ hk hid hid'
        have hnew : (s.fired i k.request).tasks[i]? = some { k with token := some true } := by
          simp [State.fired, hk]
        rw [Option.some.inj (hi.symm.trans hnew)]
  · intro id hpost
    rcases hlog _ hpost with hpost | ⟨id', hid', he⟩
    · exact h.posted_lt id hpost
    · obtain rfl : id = id' := by simpa using he
      exact h.request_lt k (List.mem_of_getElem? hk) id hid'

end Tokens

theorem tokens_step {c : Choice} (hrec : Recorded s) (hcalls : Calls sp s) (h : Tokens sp s) (hd : Did sp s c s') :
    Tokens sp s' := by
  have hnew : ∀ p fired, (s.arrive p fired).tasks[s.tasks.length]? = some (newTask p fired) := fun p fired =>
    List.getElem?_concat_length
  have htorn : ∀ p fired, (s.arrive p fired).torn.tasks[s.tasks.length]? = some (newTask p fired) :=
    fun p fired => by rw [State.torn_tasks, hnew]
  -- a call that has not ended has not returned
  have hnot : ∀ (i : ℕ) (k : Task), s.tasks[i]? = some k → k.pc ≠ .done → ∀ o, .returned i o ∉ s.log := by
    intro i k hk hd o ho
    obtain ⟨k', hk', hd'⟩ := hcalls.done i o ho
    obtain rfl := Option.some.inj (hk'.symm.trans hk)
    exact hd hd'
  cases hd with
  | refused _ => exact (h.arrive _ _).finish_early (hnew _ _) (by simp [newTask]) (by simp [newTask]) _
  | @ready p fired _ _ _ _ hc =>
    refine (h.arrive _ _).continues (hnew _ _) (by simp [newTask]) (by simp [newTask]) (fun o ho => ?_) hc
    obtain ⟨k, hk, -⟩ := hcalls.done _ o (by simpa [State.arrive] using ho)
    simp at hk
  | notStarted _ _ =>
    exact ((h.arrive _ _).torn.setState .broken).finish_early (htorn _ _) (by simp [newTask]) (by simp [newTask]) _
  | @started p fired _ _ ha =>
    refine Tokens.asked_init (s := (s.arrive p fired).torn.openSession) ?_ (htorn p fired) rfl (by simp) ha
    exact (h.arrive p fired).torn.keep (r := (s.arrive p fired).torn.openSession) rfl le_rfl rfl
      (by simp [Event.tokenFree, Event.returned?])
  | handshakeThrew hk hpc _ _ => exact h.finish_early hk (by simp [hpc]) (by simp [hpc]) _
  | handshakeFailed hk hpc _ _ => exact (h.setState .broken).finish_early hk (by simp [hpc]) (by simp [hpc]) _
  | handshakeDone hk hpc _ _ hn hc =>
    refine ((h.notified hn).setState _).continues ?_ (by simp [hpc]) (by simp [hpc]) (fun o ho => ?_) hc
    · rcases hn with ⟨-, rfl⟩ | ⟨-, w, es, rfl, -⟩
      · exact hk
      · exact hk
    · refine hnot _ _ hk (by simp [hpc]) o ?_
      rcases hn with ⟨-, rfl⟩ | ⟨-, w, es, rfl, hp⟩
      · exact ho
      · rcases List.mem_append.mp ho with ho | ho
        · exact ho
        · rcases List.mem_cons.mp ho with ho | ho
          · simp at ho
          · obtain ⟨c, l, he⟩ := hp.wrote_of_mem ho
            simp at he
  | @answered i k id r hk hpc hr =>
    refine h.finish ?_ ?_
    · intro k' id' hk' hpc'
      obtain rfl := Option.some.inj (hk'.symm.trans hk)
      obtain rfl : id' = id := by simpa [hpc, eq_comm] using hpc'
      exact hrec.completed_of_receive hr
    · intro id' hid'
      obtain ⟨k', hk', -, hpc'⟩ := h.made i id' hid'
      obtain rfl := Option.some.inj (hk'.symm.trans hk)
      obtain rfl : id' = id := by simpa [hpc, eq_comm] using hpc'
      rcases hrec.of_receive hr with ⟨hc, -⟩ | ⟨v, hv, rfl⟩
      · exact Or.inl hc
      · exact Or.inr ⟨k'.purpose, v, hcalls.called i k' hk, hv, rfl⟩
  | fired hk htok => exact h.fire hk htok
  | cancelMissed _ _ => exact h.keep (r := { s with cancels := _ }) rfl le_rfl (List.append_nil _).symm (by simp)
  | @cancelled id _ _ _ hn =>
    refine Tokens.notified (s := s.cancelled id) ?_ hn
    exact h.keep (r := s.cancelled id) rfl (by simp [State.cancelled]) rfl (by simp [Event.tokenFree, Event.returned?])
  | @bytes r c chunk _ => exact h.keep (r := s.fed c chunk) rfl le_rfl (List.append_nil _).symm (by simp)
  | @line _ r rd chunk requests es _ _ ht =>
    refine h.keep (r := ((s.fed rd.child chunk).took requests es).readAgain r)
      (l := .read s.children (s.fed rd.child chunk).firstLine :: es) rfl ?_ rfl ?_
    · cases ht with
      | dropped => exact le_rfl
      | inbound hdis =>
        cases hdis with
        | dropped => exact le_rfl
        | notified _ _ => exact le_rfl
        | delivered _ _ _ => simp [State.readAgain, State.took, State.fed]
    · cases ht with
      | dropped => simp [Event.tokenFree, Event.returned?]
      | inbound hdis => cases hdis <;> simp [Event.tokenFree, Event.returned?]
  | readFailed _ =>
    exact h.keep (r := State.transportDied { s with readers := _ }) rfl le_rfl rfl
      (by simp [Event.tokenFree, Event.returned?])
  | @wrote _ w es _ hp => exact h.keep (r := s.withWriter _ w es) rfl le_rfl rfl hp.tokenFree
  | writeFailed _ =>
    refine h.keep (r := (s.withWriter s.writeQueue.tail none []).transportDied)
      (l := s.requests.pending.map Event.closed) rfl le_rfl ?_ (by simp [Event.tokenFree, Event.returned?])
    simp [State.transportDied, State.setState, State.failPending, State.record, State.withWriter]
  | shutDown => exact h.keep (r := s.stopped) rfl le_rfl rfl (by simp [Event.tokenFree, Event.returned?])
  | handlerSet => exact h.keep (r := { s with handler := _ }) rfl le_rfl (List.append_nil _).symm (by simp)

theorem tokens_init : Tokens sp {} :=
  ⟨by simp, by simp, by simp, by simp, by simp, by simp, by simp, by simp⟩

end Stdio
end Mcp
end AgentFlow
