/-
# Every answer goes to its own request

Concurrent calls share one child, and what completes a request (its answer, a
cancellation, the end of the transport) comes in any order, twice or never.
The table of requests records the log (`Recorded`): no id is given twice and
no request is completed twice. An answer is delivered right after the inbound
message it is, and to the request with its id (`Matched`). A call returns
once, and a result only if the answer to its own request has it (`Calls`).

Key definitions: `Recorded`, `Matched`, `Calls`.
Key theorems: `requests_matched`.
-/
import AgentFlow.Lib.History
import AgentFlow.Tools.Mcp.StdioSteps

namespace AgentFlow
namespace Mcp
namespace Stdio

open Json

variable {sp : Spec} {s s' : State} {t : ℕ}

/-! ### The table of requests -/

/-- What an entry of the log does to the table of requests. -/
def Event.table? : Event → Option (Requests.Event Value)
  | .requested _ id _ => some (.registered id)
  | .delivered id v => some (.delivered id v)
  | .closed id => some (.closed id)
  | _ => none

/-- The table of requests is what the log leads to. -/
def Recorded (s : State) : Prop := Requests.Records s.requests (s.log.filterMap Event.table?)

theorem Pumps.table {child w w' : Option ℕ} {queue : List Line} {es : List Event}
    (h : Pumps child queue w w' es) : es.filterMap Event.table? = [] := by
  cases h with
  | nothing => rfl
  | starts _ _ => rfl

theorem table_closed (ids : List ℕ) :
    (ids.map Event.closed).filterMap Event.table? = ids.map Requests.Event.closed := by
  simp [List.filterMap_map, Function.comp_def, Event.table?]

theorem table_posted (ids : List ℕ) : (ids.map Event.cancelPosted).filterMap Event.table? = [] := by
  simp [List.filterMap_map, Function.comp_def, Event.table?]

namespace Recorded

/-- The table is kept and nothing of it is logged. -/
theorem extend {es : List Event} (h : Recorded s) (hr : s'.requests = s.requests) (hl : s'.log = s.log ++ es)
    (hes : es.filterMap Event.table? = []) : Recorded s' := by
  unfold Recorded
  rw [hr, hl, List.filterMap_append, hes, List.append_nil]
  exact h

theorem finish (h : Recorded s) (t : ℕ) (o : Outcome) : Recorded (s.finish t o) :=
  h.extend rfl rfl rfl

theorem arrive (h : Recorded s) (p : Purpose) (fired : Bool) : Recorded (s.arrive p fired) :=
  h.extend rfl rfl rfl

theorem setState (h : Recorded s) (st : ConnState) : Recorded (s.setState st) := h

/-- All requests fail. -/
theorem closeAll {es : List Event} (h : Recorded s) (hr : s'.requests = s.requests.closeAll)
    (hl : s'.log = s.log ++ es) (hes : es.filterMap Event.table? = s.requests.pending.map .closed) :
    Recorded s' := by
  unfold Recorded
  rw [hr, hl, List.filterMap_append, hes]
  exact Requests.Records.closeAll h

theorem failPending (h : Recorded s) : Recorded s.failPending :=
  h.closeAll rfl rfl (table_closed _)

theorem torn (h : Recorded s) : Recorded s.torn := by
  unfold State.torn
  split_ifs
  · exact Recorded.failPending (s := s.closePipes) h
  · exact h

theorem asked {m : Method} {params : Value} {token : Option Bool} {pc : ℕ → Pc} (h : Recorded s)
    (ha : s.Asked t m params token pc s') : Recorded s' := by
  obtain ⟨w, es, rfl, hp⟩ := ha
  have hlog : ((s.registered t m token pc).withWriter
      (s.writeQueue ++ [⟨s.children, ⟨some s.requests.next, m, params⟩⟩]) w
      (.queued ⟨s.children, ⟨some s.requests.next, m, params⟩⟩ :: es)).log.filterMap Event.table? =
      s.log.filterMap Event.table? ++ [.registered s.requests.next] := by
    simp only [State.withWriter, State.registered, List.filterMap_append, List.filterMap_cons, Event.table?,
      table_posted, hp.table, List.append_nil]
  unfold Recorded
  rw [hlog]
  exact Requests.Records.register h

theorem notified {m : Message} (h : Recorded s) (hn : s.Notified m s') : Recorded s' := by
  rcases hn with ⟨-, rfl⟩ | ⟨-, w, es, rfl, hp⟩
  · exact h
  · refine h.extend rfl rfl ?_
    rw [List.filterMap_cons, hp.table]
    rfl

theorem continues {k : Task} (h : Recorded s) (hc : Continues sp s t k s') : Recorded s' := by
  cases hc with
  | refused _ => exact h.finish _ _
  | connected _ => exact h.finish _ _
  | asked _ ha => exact h.asked ha

theorem took {requests : Requests.Table Value} {es : List Event} (h : Recorded s) (ht : Took s requests es) :
    Recorded (s.took requests es) := by
  cases ht with
  | dropped => exact h.extend rfl rfl rfl
  | inbound hd =>
    cases hd with
    | dropped => exact h.extend rfl rfl rfl
    | notified method params => exact h.extend rfl rfl rfl
    | delivered hid hj hp =>
      rename_i v j id
      have hlog : (s.took (s.requests.deliver id v) [.inbound v, .delivered id v]).log.filterMap Event.table? =
          s.log.filterMap Event.table? ++ [.delivered id v] := by
        simp [State.took, List.filterMap_append, List.filterMap_cons, Event.table?]
      unfold Recorded
      rw [hlog]
      exact Requests.Records.deliver h v hp

/-- The answer in a channel was delivered. -/
theorem delivered_mem {id : ℕ} {v : Value} (h : Recorded s) (hv : s.requests.slot id = some (.delivered v)) :
    .delivered id v ∈ s.log := by
  obtain ⟨e, he, het⟩ := List.mem_filterMap.mp ((h.delivered id v).mpr hv)
  cases e with
  | delivered id' v' =>
    obtain ⟨rfl, rfl⟩ : id' = id ∧ v' = v := by simpa [Event.table?] using het
    exact he
  | _ => simp [Event.table?] at het

end Recorded

theorem recorded_step {c : Choice} (h : Recorded s) (hd : Did sp s c s') : Recorded s' := by
  cases hd with
  | refused _ => exact (h.arrive _ _).finish _ _
  | ready _ _ hc => exact (h.arrive _ _).continues hc
  | notStarted _ _ => exact ((h.arrive _ _).torn.setState _).finish _ _
  | started _ ha =>
    refine Recorded.asked ?_ ha
    exact (h.arrive _ _).torn.extend rfl rfl rfl
  | handshakeThrew _ _ _ _ => exact h.finish _ _
  | handshakeFailed _ _ _ _ => exact (h.setState _).finish _ _
  | handshakeDone _ _ _ _ hn hc => exact ((h.notified hn).setState _).continues hc
  | answered _ _ _ => exact h.finish _ _
  | fired _ _ => exact h.extend rfl rfl (table_posted _)
  | cancelMissed _ _ => exact h
  | cancelled _ hp hn =>
    refine Recorded.notified ?_ hn
    unfold Recorded
    simp only [State.cancelled, List.filterMap_append, List.filterMap_cons, List.filterMap_nil, Event.table?]
    exact Requests.Records.close h hp
  | bytes _ => exact h
  | line _ _ ht => exact Recorded.took (s := s.fed _ _) h ht
  | readFailed _ => exact Recorded.failPending (s := { s with readers := _ }) h
  | wrote _ hp => exact h.extend rfl rfl hp.table
  | writeFailed _ =>
    refine Recorded.failPending (s := s.withWriter _ _ _) ?_
    exact h.extend rfl rfl rfl
  | shutDown =>
    refine h.closeAll rfl rfl ?_
    rw [List.filterMap_cons]
    exact table_closed _
  | handlerSet => exact h

/-! ### Calls and answers -/

/-- The call an entry of the log ends. -/
def Event.returned? : Event → Option ℕ
  | .returned t _ => some t
  | _ => none

/-- An answer is delivered right after the inbound message it is, to the
request that its id is. -/
def FromInbound (before : List Event) (e : Event) : Prop :=
  ∀ id v, e = .delivered id v →
    (∃ l, before = l ++ [.inbound v]) ∧ ∃ j, v.find? "id" = some j ∧ j.toInt64? = some (id : ℤ)

/-- The call `t` has the result `o`, which the answer to its own request gives. -/
def OwnResult (sp : Spec) (log : List Event) (t : ℕ) (o : Outcome) : Prop :=
  ∃ p id m v r, .called t p ∈ log ∧ .requested t id m ∈ log ∧ .delivered id v ∈ log ∧
    rpcResult v = .ok (.ok r) ∧ o = p.returns sp.toClient r

def Outcome.isResult : Outcome → Bool
  | .tools _ => true
  | .text _ => true
  | _ => false

/-- Calls and their requests, against the log. -/
structure Calls (sp : Spec) (s : State) : Prop where
  matched : History.Each FromInbound s.log
  called : ∀ (i : ℕ) (k : Task), s.tasks[i]? = some k → .called i k.purpose ∈ s.log
  asked : ∀ (i : ℕ) (k : Task) (id : ℕ), s.tasks[i]? = some k → k.pc = .request id → ∃ m, .requested i id m ∈ s.log
  done : ∀ i o, .returned i o ∈ s.log → ∃ k, s.tasks[i]? = some k ∧ k.pc = .done
  returned_nodup : (s.log.filterMap Event.returned?).Nodup
  results : ∀ i o, .returned i o ∈ s.log → Outcome.isResult o = true → OwnResult sp s.log i o

theorem OwnResult.mono {log es : List Event} {o : Outcome} (h : OwnResult sp log t o) :
    OwnResult sp (log ++ es) t o := by
  obtain ⟨p, id, m, v, r, hp, hid, hv, hr, ho⟩ := h
  exact ⟨p, id, m, v, r, List.mem_append_left _ hp, List.mem_append_left _ hid, List.mem_append_left _ hv, hr, ho⟩

/-- Entries that neither end a call nor answer a request. -/
def Event.quiet : Event → Bool
  | .returned _ _ => false
  | .delivered _ _ => false
  | _ => true

theorem Pumps.quiet {child w w' : Option ℕ} {queue : List Line} {es : List Event}
    (h : Pumps child queue w w' es) : ∀ e ∈ es, e.quiet = true := by
  cases h with
  | nothing => simp
  | starts _ _ => simp [Event.quiet]

theorem FromInbound.of_quiet {e : Event} (he : e.quiet = true) (l : List Event) : FromInbound l e := by
  rintro id v rfl
  simp [Event.quiet] at he

theorem returned?_of_quiet {e : Event} (he : e.quiet = true) : e.returned? = none := by
  cases e with
  | returned t o => simp [Event.quiet] at he
  | _ => rfl

namespace Calls

/-- The calls after one of them is changed to another with the same purpose,
and no call ends. -/
theorem extend {es : List Event} {f : Task → Task} (h : Calls sp s)
    (ht : s'.tasks = s.tasks.modify t f) (hp : ∀ k, (f k).purpose = k.purpose)
    (hd : ∀ k : Task, s.tasks[t]? = some k → k.pc = .done → (f k).pc = .done)
    (hr : ∀ k id, s.tasks[t]? = some k → (f k).pc = .request id → k.pc = .request id ∨ ∃ m, .requested t id m ∈ es)
    (hl : s'.log = s.log ++ es) (hes : ∀ e ∈ es, e.returned? = none) (hm : History.Each FromInbound s'.log) :
    Calls sp s' := by
  have hold : ∀ i o, .returned i o ∈ s'.log → .returned i o ∈ s.log := by
    intro i o ho
    rw [hl, List.mem_append] at ho
    rcases ho with ho | ho
    · exact ho
    · have := hes _ ho
      simp [Event.returned?] at this
  have hnew : ∀ e ∈ s.log, e ∈ s'.log := fun e he => by
    rw [hl]
    exact List.mem_append_left _ he
  have htask : ∀ i k, s'.tasks[i]? = some k → ∃ k₀, s.tasks[i]? = some k₀ ∧ k = if t = i then f k₀ else k₀ := by
    intro i k hk
    rw [ht, List.getElem?_modify] at hk
    cases hk₀ : s.tasks[i]? with
    | none => simp [hk₀] at hk
    | some k₀ => exact ⟨k₀, rfl, by simpa [hk₀, eq_comm] using hk⟩
  constructor
  · exact hm
  · intro i k hk
    obtain ⟨k₀, hk₀, rfl⟩ := htask i k hk
    have hcalled := hnew _ (h.called i k₀ hk₀)
    split_ifs
    · rw [hp]
      exact hcalled
    · exact hcalled
  · intro i k id hk hpc
    obtain ⟨k₀, hk₀, rfl⟩ := htask i k hk
    split_ifs at hpc with hi
    · subst hi
      rcases hr k₀ id hk₀ hpc with hpc | ⟨m, hm⟩
      · obtain ⟨m, hm⟩ := h.asked t k₀ id hk₀ hpc
        exact ⟨m, hnew _ hm⟩
      · refine ⟨m, ?_⟩
        rw [hl]
        exact List.mem_append_right _ hm
    · obtain ⟨m, hm⟩ := h.asked i k₀ id hk₀ hpc
      exact ⟨m, hnew _ hm⟩
  · intro i o ho
    obtain ⟨k, hk, hpc⟩ := h.done i o (hold i o ho)
    rw [ht, List.getElem?_modify, hk]
    refine ⟨_, rfl, ?_⟩
    split_ifs with hi
    · exact hd k (hi ▸ hk) hpc
    · exact hpc
  · rw [hl, List.filterMap_append, List.filterMap_eq_nil_iff.mpr hes, List.append_nil]
    exact h.returned_nodup
  · intro i o ho hres
    rw [hl]
    exact (h.results i o (hold i o ho) hres).mono

theorem matched_of_quiet {es : List Event} (h : Calls sp s) (hl : s'.log = s.log ++ es)
    (hes : ∀ e ∈ es, e.quiet = true) : History.Each FromInbound s'.log := by
  rw [hl]
  exact h.matched.append_of_forall fun e he l => FromInbound.of_quiet (hes e he) l

/-- The calls stay as they are. -/
theorem keep {es : List Event} (h : Calls sp s) (ht : s'.tasks = s.tasks) (hl : s'.log = s.log ++ es)
    (hes : ∀ e ∈ es, e.returned? = none) (hm : History.Each FromInbound s'.log) : Calls sp s' :=
  h.extend (t := 0) (f := id) (by rw [ht, List.modify_id]) (fun _ => rfl) (fun _ _ hd => hd)
    (fun _ _ _ hr => Or.inl hr) hl hes hm

theorem quiet {es : List Event} (h : Calls sp s) (ht : s'.tasks = s.tasks) (hl : s'.log = s.log ++ es)
    (hes : ∀ e ∈ es, e.quiet = true) : Calls sp s' :=
  h.keep ht hl (fun e he => returned?_of_quiet (hes e he)) (h.matched_of_quiet hl hes)

theorem same (h : Calls sp s) (ht : s'.tasks = s.tasks) (hl : s'.log = s.log) : Calls sp s' := by
  have hl' : s'.log = s.log ++ [] := by rw [hl, List.append_nil]
  exact h.quiet ht hl' (by simp)

theorem finish {k : Task} {o : Outcome} (h : Calls sp s) (hk : s.tasks[t]? = some k) (hpc : k.pc ≠ .done)
    (ho : Outcome.isResult o = true → OwnResult sp s.log t o) : Calls sp (s.finish t o) := by
  have hdone : (s.tasks.modify t fun k => { k with pc := .done })[t]? = some { k with pc := .done } := by
    rw [List.getElem?_modify_eq, hk]
    rfl
  have hnot : ∀ o', .returned t o' ∉ s.log := by
    intro o' ho'
    obtain ⟨k', hk', hpc'⟩ := h.done t o' ho'
    obtain rfl : k' = k := Option.some.inj (hk'.symm.trans hk)
    exact hpc hpc'
  -- first the call ends, then the log says so
  have hset : Calls sp (s.setPc t .done) :=
    h.extend rfl (fun _ => rfl) (fun _ _ _ => rfl) (fun _ _ _ hr => by simp at hr) (List.append_nil _).symm
      (by simp) h.matched
  constructor
  · refine History.each_snoc.mpr ⟨h.matched, ?_⟩
    intro id v he
    simp at he
  · intro i k hk
    exact List.mem_append_left _ (hset.called i k hk)
  · intro i k id hk hpc
    obtain ⟨m, hm⟩ := hset.asked i k id hk hpc
    exact ⟨m, List.mem_append_left _ hm⟩
  · intro i o' ho'
    rcases List.mem_append.mp ho' with ho' | ho'
    · exact hset.done i o' ho'
    · obtain ⟨rfl, -⟩ : i = t ∧ o' = o := by simpa using ho'
      exact ⟨_, hdone, rfl⟩
  · rw [State.finish, State.record, List.filterMap_append, List.nodup_append]
    refine ⟨h.returned_nodup, by simp [Event.returned?], ?_⟩
    intro a ha b hb hab
    obtain rfl : b = t := by simpa [Event.returned?, List.filterMap_cons] using hb
    subst hab
    obtain ⟨e, he, hea⟩ := List.mem_filterMap.mp ha
    cases e with
    | returned i o' =>
      obtain rfl : i = a := by simpa [Event.returned?] using hea
      exact hnot o' he
    | _ => simp [Event.returned?] at hea
  · intro i o' ho' hres
    rcases List.mem_append.mp ho' with ho' | ho'
    · exact (h.results i o' ho' hres).mono
    · obtain ⟨rfl, rfl⟩ : i = t ∧ o' = o := by simpa using ho'
      exact (ho hres).mono

theorem arrive (h : Calls sp s) (p : Purpose) (fired : Bool) : Calls sp (s.arrive p fired) := by
  have htask : ∀ (i : ℕ) (k : Task), (s.tasks ++ [newTask p fired])[i]? = some k →
      s.tasks[i]? = some k ∨ i = s.tasks.length ∧ k = newTask p fired := by
    intro i k hk
    rcases lt_trichotomy i s.tasks.length with hi | rfl | hi
    · rw [List.getElem?_append_left hi] at hk
      exact Or.inl hk
    · rw [List.getElem?_concat_length] at hk
      exact Or.inr ⟨rfl, (Option.some.inj hk).symm⟩
    · rw [List.getElem?_eq_none (by simp; omega)] at hk
      simp at hk
  constructor
  · exact h.matched.append_of_forall fun e he l => FromInbound.of_quiet (by simp_all [Event.quiet]) l
  · intro i k hk
    rcases htask i k hk with hk | ⟨rfl, rfl⟩
    · exact List.mem_append_left _ (h.called i k hk)
    · exact List.mem_append_right _ (by simp [newTask])
  · intro i k id hk hpc
    rcases htask i k hk with hk | ⟨rfl, rfl⟩
    · obtain ⟨m, hm⟩ := h.asked i k id hk hpc
      exact ⟨m, List.mem_append_left _ hm⟩
    · simp [newTask] at hpc
  · intro i o ho
    obtain ⟨k, hk, hpc⟩ := h.done i o (by simpa [State.arrive] using ho)
    refine ⟨k, ?_, hpc⟩
    have hi := (List.getElem?_eq_some_iff.mp hk).1
    rw [State.arrive, List.getElem?_append_left hi, hk]
  · rw [State.arrive, List.filterMap_append]
    simpa [Event.returned?, List.filterMap_cons] using h.returned_nodup
  · intro i o ho hres
    exact (h.results i o (by simpa [State.arrive] using ho) hres).mono

theorem setState (h : Calls sp s) (st : ConnState) : Calls sp (s.setState st) :=
  h.same rfl rfl

theorem failPending (h : Calls sp s) : Calls sp s.failPending :=
  h.quiet rfl rfl (by simp [Event.quiet])

theorem torn (h : Calls sp s) : Calls sp s.torn := by
  unfold State.torn
  split_ifs
  · exact Calls.failPending (s := s.closePipes) (h.same rfl rfl)
  · exact h

theorem notified {m : Message} (h : Calls sp s) (hn : s.Notified m s') : Calls sp s' := by
  rcases hn with ⟨-, rfl⟩ | ⟨-, w, es, rfl, hp⟩
  · exact h
  · refine h.quiet rfl rfl ?_
    simpa [Event.quiet] using hp.quiet

theorem asked_of {k : Task} {m : Method} {params : Value} {token : Option Bool} {pc : ℕ → Pc} (h : Calls sp s)
    (hk : s.tasks[t]? = some k) (hd : k.pc ≠ .done)
    (hpc : ∀ n id, pc n = .request id → id = n) (ha : s.Asked t m params token pc s') : Calls sp s' := by
  obtain ⟨w, es, rfl, hp⟩ := ha
  have hes : ∀ e ∈ .requested t s.requests.next m :: (posted token s.requests.next).map Event.cancelPosted ++
      .queued ⟨s.children, ⟨some s.requests.next, m, params⟩⟩ :: es, e.quiet = true := by
    simp only [List.cons_append, List.mem_cons, List.mem_append, List.mem_map]
    rintro e (rfl | ⟨id, -, rfl⟩ | rfl | he)
    · rfl
    · rfl
    · rfl
    · exact hp.quiet e he
  have hl := List.append_assoc s.log (.requested t s.requests.next m ::
    (posted token s.requests.next).map Event.cancelPosted)
      (.queued ⟨s.children, ⟨some s.requests.next, m, params⟩⟩ :: es)
  refine h.extend (t := t) rfl (fun _ => rfl) ?_ ?_ hl (fun e he => returned?_of_quiet (hes e he))
    (h.matched_of_quiet hl hes)
  · intro k' hk' hd'
    obtain rfl : k' = k := Option.some.inj (hk'.symm.trans hk)
    exact absurd hd' hd
  · intro k' id _ hr
    obtain rfl := hpc _ _ hr
    exact Or.inr ⟨m, by simp⟩

theorem continues {k : Task} (h : Calls sp s) (hk : s.tasks[t]? = some k) (hd : k.pc ≠ .done)
    (hc : Continues sp s t k s') : Calls sp s' := by
  cases hc with
  | refused _ => exact h.finish hk hd (by simp [Outcome.isResult])
  | connected _ => exact h.finish hk hd (by simp [Outcome.isResult])
  | asked _ ha => exact h.asked_of hk hd (fun n id hr => by simpa [eq_comm] using hr) ha

theorem took {requests : Requests.Table Value} {es : List Event} (h : Calls sp s) (ht : Took s requests es) :
    Calls sp (s.took requests es) := by
  cases ht with
  | dropped => exact h.quiet rfl rfl (by simp [Event.quiet])
  | inbound hd =>
    cases hd with
    | dropped => exact h.quiet rfl rfl (by simp [Event.quiet])
    | notified method params => exact h.quiet rfl rfl (by simp [Event.quiet])
    | delivered hid hj hp =>
      rename_i v j id
      have hlog : (s.took (s.requests.deliver id v) [.inbound v, .delivered id v]).log =
          ((s.log ++ [.read s.children s.firstLine]) ++ [.inbound v]) ++ [.delivered id v] := by
        simp [State.took]
      refine h.keep rfl rfl (by simp [Event.returned?]) ?_
      rw [hlog, History.each_snoc, History.each_snoc, History.each_snoc]
      refine ⟨⟨⟨h.matched, ?_⟩, ?_⟩, ?_⟩
      · exact FromInbound.of_quiet rfl _
      · exact FromInbound.of_quiet rfl _
      · intro id' v' he
        obtain ⟨rfl, rfl⟩ : id = id' ∧ v = v' := by simpa using he
        exact ⟨⟨_, rfl⟩, j, hid, hj⟩

end Calls

theorem calls_step {c : Choice} (hrec : Recorded s) (h : Calls sp s) (hd : Did sp s c s') : Calls sp s' := by
  have hnew : ∀ p fired, (s.arrive p fired).tasks[s.tasks.length]? = some (newTask p fired) := fun p fired =>
    List.getElem?_concat_length
  have htorn : ∀ p fired, (s.arrive p fired).torn.tasks[s.tasks.length]? = some (newTask p fired) :=
    fun p fired => by rw [State.torn_tasks, hnew]
  cases hd with
  | refused _ => exact (h.arrive _ _).finish (hnew _ _) (by simp [newTask]) (by simp [Outcome.isResult])
  | ready _ _ hc => exact (h.arrive _ _).continues (hnew _ _) (by simp [newTask]) hc
  | notStarted _ _ =>
    exact ((h.arrive _ _).torn.setState _).finish (htorn _ _) (by simp [newTask]) (by simp [Outcome.isResult])
  | started _ ha =>
    refine Calls.asked_of (s := (s.arrive _ _).torn.openSession) ?_ (htorn _ _) (by simp [newTask]) (by simp) ha
    exact (h.arrive _ _).torn.quiet rfl rfl (by simp [Event.quiet])
  | handshakeThrew hk hpc _ _ => exact h.finish hk (by simp [hpc]) (by simp [Outcome.isResult])
  | handshakeFailed hk hpc _ _ => exact (h.setState _).finish hk (by simp [hpc]) (by simp [Outcome.isResult])
  | handshakeDone hk hpc _ _ hn hc =>
    refine ((h.notified hn).setState _).continues ?_ (by simp [hpc]) hc
    rcases hn with ⟨-, rfl⟩ | ⟨-, w, es, rfl, -⟩
    · exact hk
    · exact hk
  | answered hk hpc hr =>
    rename_i i k id r
    refine h.finish hk (by simp [hpc]) fun hres => ?_
    obtain ⟨result, ha⟩ : ∃ result, answer r = .ok (.ok result) := by
      cases ha : answer r with
      | error e => simp [ha, Purpose.outcome, Outcome.isResult] at hres
      | ok a =>
        cases a with
        | error e => simp [ha, Purpose.outcome, Outcome.isResult] at hres
        | ok result => exact ⟨result, rfl⟩
    obtain ⟨v, hv, hans⟩ := delivered_of_answer hr (by rw [ha]; simp)
    obtain ⟨m, hm⟩ := h.asked i k id hk hpc
    refine ⟨k.purpose, id, m, v, result, h.called i k hk, hm, hrec.delivered_mem hv, hans ▸ ha, ?_⟩
    rw [ha]
    rfl
  | fired hk _ =>
    refine h.extend rfl (fun _ => rfl) (fun _ _ hd => hd) (fun _ _ _ hr => Or.inl hr) rfl ?_ ?_
    · simp [Event.returned?]
    · exact h.matched_of_quiet rfl (by simp [Event.quiet])
  | cancelMissed _ _ => exact h.same rfl rfl
  | cancelled _ hp hn => exact Calls.notified (s := s.cancelled _) (h.quiet rfl rfl (by simp [Event.quiet])) hn
  | bytes _ => exact h.same rfl rfl
  | line _ _ ht =>
    have hfed : ∀ c chunk, Calls sp (s.fed c chunk) := fun _ _ => h.same rfl rfl
    exact ((hfed _ _).took ht).same rfl rfl
  | readFailed _ => exact h.quiet rfl rfl (by simp [Event.quiet])
  | wrote _ hp => exact h.quiet rfl rfl hp.quiet
  | writeFailed _ =>
    have hpop : Calls sp (s.withWriter s.writeQueue.tail none []) := h.same rfl (List.append_nil _)
    exact hpop.failPending.setState _
  | shutDown => exact h.quiet rfl rfl (by simp [Event.quiet])
  | handlerSet => exact h.same rfl rfl

/-! ### Requests that stay pending -/

/-- The steps that end the transport, and every pending request with it: a
failed read or write, `Shutdown()`, and `Connect` on a broken client. -/
def Choice.endsTransport (s : State) : Choice → Bool
  | .readFailed _ => true
  | .written ok => !ok
  | .shutdown => true
  | .call _ _ _ => s.state = .broken && !s.shutdown
  | _ => false

theorem torn_of_not_broken (h : s.state ≠ .broken) : s.torn = s := by
  simp [State.torn, h]

theorem Continues.requests {k : Task} (h : Continues sp s t k s') :
    s'.requests = s.requests ∨ s'.requests = s.requests.register := by
  cases h with
  | refused _ => exact Or.inl rfl
  | connected _ => exact Or.inl rfl
  | asked _ ha =>
    obtain ⟨w, es, rfl, -⟩ := ha
    exact Or.inr rfl

theorem State.Notified.requests {m : Message} (h : s.Notified m s') : s'.requests = s.requests := by
  rcases h with ⟨-, rfl⟩ | ⟨-, w, es, rfl, -⟩
  · rfl
  · rfl

/-- At most one request leaves the table in a step that does not end the
transport: the one that is cancelled or answered. A call that returns, failed
or not, takes none with it. -/
theorem pending_step {c : Choice} (hd : Did sp s c s') (hc : c.endsTransport s = false) :
    ∃ done : Option ℕ, (∀ id ∈ s.requests.pending, done ≠ some id → id ∈ s'.requests.pending) ∧
      (∀ id, c = .runCancel id → done = some id) ∧ (∀ i, c = .resume i → done = none) := by
  -- a step that changes the table only by adding a request
  have hadd : ∀ r, r = s.requests ∨ r = s.requests.register → (∀ id, c ≠ .runCancel id) →
      ∃ done : Option ℕ, (∀ id ∈ s.requests.pending, done ≠ some id → id ∈ r.pending) ∧
        (∀ id, c = .runCancel id → done = some id) ∧ (∀ i, c = .resume i → done = none) := by
    intro r hr hne
    refine ⟨none, fun id hid _ => ?_, fun id h => absurd h (hne id), fun _ _ => rfl⟩
    rcases hr with rfl | rfl
    · exact hid
    · exact List.mem_append_left _ hid
  cases hd with
  | refused _ => exact hadd _ (Or.inl rfl) (by simp)
  | ready _ _ hk => exact hadd _ hk.requests (by simp)
  | notStarted hsd _ =>
    have hb : s.state ≠ .broken := by simpa [Choice.endsTransport, hsd] using hc
    rw [torn_of_not_broken (s := s.arrive _ _) hb]
    exact hadd _ (Or.inl rfl) (by simp)
  | started hsp ha =>
    have hb : s.state ≠ .broken := by simpa [Choice.endsTransport, shutdown_of_spawns hsp] using hc
    rw [torn_of_not_broken (s := s.arrive _ _) hb] at ha
    obtain ⟨w, es, rfl, -⟩ := ha
    exact hadd _ (Or.inr rfl) (by simp)
  | handshakeThrew _ _ _ _ => exact hadd _ (Or.inl rfl) (by simp)
  | handshakeFailed _ _ _ _ => exact hadd _ (Or.inl rfl) (by simp)
  | handshakeDone _ _ _ _ hn hk =>
    refine hadd _ ?_ (by simp)
    have hr : (State.setState _ .ready).requests = s.requests := hn.requests
    rw [← hr]
    exact hk.requests
  | answered _ _ _ => exact hadd _ (Or.inl rfl) (by simp)
  | fired _ _ => exact hadd _ (Or.inl rfl) (by simp)
  | cancelMissed _ _ =>
    rename_i id _ _
    exact ⟨some id, fun _ hid _ => hid, by simp, by simp⟩
  | cancelled _ _ hn =>
    rename_i id _ _
    refine ⟨some id, fun k hk hne => ?_, by simp, by simp⟩
    rw [hn.requests]
    exact Requests.Table.mem_pending_close hk fun h => hne (by rw [h])
  | bytes _ => exact hadd _ (Or.inl rfl) (by simp)
  | line hch _ ht =>
    have hne : ∀ id, c ≠ .runCancel id ∧ c ≠ .resume id := by
      rintro id
      rcases hch with rfl | ⟨rfl, -⟩
      · simp
      · simp
    cases ht with
    | dropped => exact hadd _ (Or.inl rfl) fun id => (hne id).1
    | inbound hdis =>
      cases hdis with
      | dropped => exact hadd _ (Or.inl rfl) fun id => (hne id).1
      | notified _ _ => exact hadd _ (Or.inl rfl) fun id => (hne id).1
      | delivered _ _ _ =>
        rename_i v j id _ _ _
        refine ⟨some id, fun k hk hkn => ?_, fun i h => absurd h (hne i).1, fun i h => absurd h (hne i).2⟩
        exact Requests.Table.mem_pending_deliver v hk fun h => hkn (by rw [h])
  | readFailed _ => simp [Choice.endsTransport] at hc
  | wrote _ _ => exact hadd _ (Or.inl rfl) (by simp)
  | writeFailed _ => simp [Choice.endsTransport] at hc
  | shutDown => simp [Choice.endsTransport] at hc
  | handlerSet => exact hadd _ (Or.inl rfl) (by simp)

/-! ### Whole runs -/

def requestIds (log : List Event) : List ℕ :=
  (log.filterMap Event.table?).filterMap Requests.Event.registered?

def completedIds (log : List Event) : List ℕ :=
  (log.filterMap Event.table?).filterMap Requests.Event.completed?

/-- An inbound message whose id is a floating-point number. -/
def Event.hasFloatId : Event → Bool
  | .inbound v =>
    match v.find? "id" with
    | some (.float _) => true
    | _ => false
  | _ => false

theorem recorded_init : Recorded {} := Requests.Records.empty 1

theorem calls_init : Calls sp {} := ⟨History.each_nil, by simp, by simp, by simp, by simp, by simp⟩

/-- An invariant from what a step can do, where the table and the calls are as
the log says. -/
theorem Reaches.invariant_of_calls {ok : State → Choice → Prop} {I : State → Prop} {cs : List Choice}
    (hstep : ∀ s c s', Recorded s → Calls sp s → I s → ok s c → Did sp s c s' → I s') (h : Reaches sp ok cs s)
    (h0 : I {}) : Recorded s ∧ Calls sp s ∧ I s := by
  refine h.invariant (I := fun s => Recorded s ∧ Calls sp s ∧ I s) ?_ ⟨recorded_init, calls_init, h0⟩
  intro s c s' _ hI hok hd
  exact ⟨recorded_step hI.1 hd, calls_step hI.1 hI.2.1 hd, hstep s c s' hI.1 hI.2.1 hI.2.2 hok hd⟩

/-- **Answers go to their own requests.** In every run, however the calls, the
inbound lines, the cancellations and the failures are interleaved: no request
has an id that was used before; each is completed at most once; an answer is
delivered right after the inbound message it is, whose integer id is that of
the request; a call returns at most once, and a result only from the answer to
its own request; and what ends one request leaves the others pending. -/
theorem requests_matched {cs : List Choice} (h : Reaches sp (fun _ _ => True) cs s)
    (hid : ∀ e ∈ s.log, e.hasFloatId = false) :
    (requestIds s.log).Nodup ∧ (completedIds s.log).Nodup ∧ (completedIds s.log) ⊆ requestIds s.log ∧
    History.Each (fun l e => ∀ id v, e = .delivered id v →
      (∃ l', l = l' ++ [.inbound v]) ∧ v.find? "id" = some (.int id)) s.log ∧
    (s.log.filterMap Event.returned?).Nodup ∧
    (∀ t o, .returned t o ∈ s.log → Outcome.isResult o = true → OwnResult sp s.log t o) ∧
    (∀ c s', step sp c s = some s' → c.endsTransport s = false →
      ∃ done : Option ℕ, (∀ id ∈ s.requests.pending, done ≠ some id → id ∈ s'.requests.pending) ∧
        (∀ id, c = .runCancel id → done = some id) ∧ (∀ i, c = .resume i → done = none)) := by
  obtain ⟨hrec, hcalls, -⟩ := h.invariant_of_calls (I := fun _ => True) (fun _ _ _ _ _ _ _ _ => trivial) trivial
  refine ⟨hrec.registered_nodup, hrec.completed_nodup, hrec.completed_subset, ?_, hcalls.returned_nodup,
    hcalls.results, ?_⟩
  · intro l e r hl id v he
    obtain ⟨⟨l', hl'⟩, j, hj, hi⟩ := hcalls.matched l e r hl id v he
    refine ⟨⟨l', hl'⟩, ?_⟩
    rcases Value.toInt64?_natCast hi with rfl | ⟨bits, rfl⟩
    · exact hj
    · have hmem : .inbound v ∈ s.log := by rw [hl, hl']; simp
      have := hid _ hmem
      simp [Event.hasFloatId, hj] at this
  · intro c s' hstep hc
    exact pending_step (did_of_step (settled_of_reaches h) hstep) hc

/-! ### A server with a few answers -/

/-- The answer to the request `n` with an empty result. -/
def answerText (n : ℕ) : String := "\x7b\"id\":" ++ toString n ++ ",\"result\":\x7b\x7d\x7d"

/-- The answer to the request `n` with an error. -/
def refusalText (n : ℕ) : String :=
  "\x7b\"error\":\x7b\"code\":-1,\"message\":\"no\"\x7d,\"id\":" ++ toString n ++ "\x7d"

/-- A client of a server whose texts are these answers. -/
def Spec.sample : Spec where
  codec := Codec.ofTable
    ([1, 2, 3].map (fun n => (answerText n, .obj [("id", .int n), ("result", .obj [])])) ++
     [1, 2, 3].map (fun n => (refusalText n,
       .obj [("error", .obj [("code", .int (-1)), ("message", .str "no")]), ("id", .int n)])) ++
     [("\x7b\x7d", .obj [])])
  parseError := fun _ => "syntax error"
  transport := .stdio
  transport_ne := by decide
  commandOrUrl := "server"

/-- A line of the child, as the reader gets it. -/
def Choice.line (text : String) : Choice := .data 0 (text.toList ++ ['\n'])

/-- A connection and its handshake. -/
def handshakeRun : List Choice :=
  [.call .connect false .started, .written true, .line (answerText 1), .resume 0, .written true]

/-- Two calls at once, answered in the other order. -/
def crossedRun : List Choice :=
  handshakeRun ++ [.call (.callTool "a" "") false .started, .call .listTools false .started,
    .line (answerText 3), .line (answerText 2), .resume 1, .resume 2]

theorem requests_matched_crossed : ∃ s, Reaches Spec.sample (fun _ _ => True) crossedRun s ∧
    completedIds s.log = [1, 3, 2] ∧ (completedIds s.log).Nodup := by
  have h : (Stepping.check (step Spec.sample) (fun _ _ => true) crossedRun {}).any
      (fun s => completedIds s.log = [1, 3, 2] && s.log.all fun e => !e.hasFloatId) = true := by decide +kernel
  obtain ⟨s, hr, hs⟩ := Stepping.Run.exists_of_check (fun _ _ => True) h fun _ _ _ => trivial
  simp only [Bool.and_eq_true, decide_eq_true_eq, List.all_eq_true, Bool.not_eq_true'] at hs
  exact ⟨s, hr, hs.1, (requests_matched hr hs.2).2.1⟩

end Stdio
end Mcp
end AgentFlow
