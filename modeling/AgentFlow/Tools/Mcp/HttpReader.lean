/-
# The notification reader

A reader keeps a GET open and hands its events to the handler. It is stopped
by clearing the handler, by `Shutdown()` and by dropping a broken transport,
but its coroutine may go on for a while, and a new reader may be started in
the meantime: what it still does then must have no effect.

Every reader has a generation of its own, so at most one is current, and a
reader that is current was started after everything that stops readers
(`Since`). That is kept by every step (`ReadersOk`).

Key definitions: `Since`, `ReadersOk`.
Key theorems: `reader_isolated`.
-/
import AgentFlow.Tools.Mcp.HttpSteps

namespace AgentFlow
namespace Mcp
namespace Http

open Json

variable {sp : Spec} {s s' : State} {t : ℕ}

/-! ### What should hold -/

/-- Entries after which a reader started before must not act: the handler is
cleared, the transport dropped, the client shut down, another reader started. -/
def Event.stops : Event → Bool
  | .readerStarted _ => true
  | .handlerSet set => !set
  | .dropped => true
  | .shutDown => true
  | _ => false

/-- The reader `g` was started, and nothing that stops it has happened since. -/
def Since (g : ℕ) (log : List Event) : Prop :=
  ∃ l r, log = l ++ .readerStarted g :: r ∧ ∀ e ∈ r, e.stops = false

/-- What a reader forwards it forwards while it is the last one started, and
before `Shutdown()`. -/
def Forwards (before : List Event) (e : Event) : Prop :=
  ∀ g ev m ps, e = .forwarded g ev m ps → Since g before ∧ .shutDown ∉ before

/-- The readers that are current and not cancelled. -/
def State.current (s : State) : List Reader :=
  s.readers.filter fun rd => rd.generation = s.readerGeneration && !rd.cancelled

structure ReadersOk (s : State) : Prop where
  nodup : (s.readers.map Reader.generation).Nodup
  le : ∀ rd ∈ s.readers, rd.generation ≤ s.readerGeneration
  delay : ∀ rd ∈ s.readers, 250 ≤ rd.delay ∧ rd.delay ≤ 30000
  since : ∀ rd ∈ s.readers, rd.generation = s.readerGeneration → Since rd.generation s.log
  shutdown : .shutDown ∈ s.log → s.shutdown = true
  forwards : History.Each Forwards s.log

/-! ### Steps that no reader sees -/

/-- Entries that neither stop a reader nor come from one. -/
def Event.plain : Event → Bool
  | .forwarded _ _ _ _ => false
  | e => !e.stops

/-- Calls go on, and what the readers depend on stays as it is. -/
structure Plain (s s' : State) : Prop where
  readers : s'.readers = s.readers
  generation : s'.readerGeneration = s.readerGeneration
  shutdown : s'.shutdown = s.shutdown
  log : ∃ es, s'.log = s.log ++ es ∧ ∀ e ∈ es, e.plain = true

namespace Plain

theorem refl (s : State) : Plain s s := ⟨rfl, rfl, rfl, [], (List.append_nil _).symm, by simp⟩

theorem trans {s'' : State} (h : Plain s s') (h' : Plain s' s'') : Plain s s'' := by
  obtain ⟨es, hl, hes⟩ := h.log
  obtain ⟨es', hl', hes'⟩ := h'.log
  refine ⟨h'.readers.trans h.readers, h'.generation.trans h.generation, h'.shutdown.trans h.shutdown, es ++ es', ?_, ?_⟩
  · rw [hl', hl, List.append_assoc]
  · intro e he
    rcases List.mem_append.mp he with he | he
    · exact hes e he
    · exact hes' e he

theorem record {es : List Event} (h : ∀ e ∈ es, e.plain = true) : Plain s (s.record es) := ⟨rfl, rfl, rfl, es, rfl, h⟩

theorem of_eq (hr : s'.readers = s.readers) (hg : s'.readerGeneration = s.readerGeneration)
    (hs : s'.shutdown = s.shutdown) (hl : s'.log = s.log) : Plain s s' :=
  ⟨hr, hg, hs, [], by rw [hl, List.append_nil], by simp⟩

theorem finish (s : State) (t : ℕ) (o : Outcome) : Plain s (s.finish t o) :=
  ⟨rfl, rfl, rfl, [.returned t o], rfl, by simp [Event.plain, Event.stops]⟩

theorem arrive (s : State) (p : Purpose) (context : String) : Plain s (s.arrive p context) :=
  ⟨rfl, rfl, rfl, [.called s.tasks.length p], rfl, by simp [Event.plain, Event.stops]⟩

theorem notify (s : State) : Plain s s.notifyConnectWaiters := by
  rw [s.notifyConnectWaiters_eq]
  exact of_eq rfl rfl rfl rfl

theorem postRpc (sp : Spec) (s : State) (t : ℕ) (task : Task) (m : Method) (params : Value) (b : Bool) (pc : ℕ → Pc) :
    Plain s (s.postRpc sp t task m params b pc) := by
  cases b
  · exact ⟨rfl, rfl, rfl, [_], rfl, by simp [Event.plain, Event.stops]⟩
  · exact ⟨rfl, rfl, rfl, [_], rfl, by simp [Event.plain, Event.stops]⟩

theorem proceed (sp : Spec) (s : State) (t : ℕ) (task : Task) (status : Option Status.Error) :
    Plain s (s.proceed sp t task status) := by
  cases status with
  | some e => exact finish _ _ _
  | none =>
    simp only [State.proceed]
    split
    · exact finish _ _ _
    · exact finish _ _ _
    · unfold State.sendRequest
      split_ifs
      · exact finish _ _ _
      · exact postRpc _ _ _ _ _ _ _ _

theorem publishSession (s : State) (head : ResponseHead) : Plain s (s.publishSession head) := by
  unfold State.publishSession
  split_ifs
  · exact refl s
  · exact of_eq rfl rfl rfl rfl

theorem postResult (sp : Spec) (s : State) (id : Option ℕ) (head : ResponseHead) (body : Except Status.Error String) :
    Plain s (s.postResult sp id head body).1 := by
  refine (publishSession s head).trans ?_
  unfold State.postResult
  simp only
  split
  · split_ifs
    · exact refl _
    · exact of_eq rfl rfl rfl rfl
  · split
    · exact refl _
    · refine record fun e he => ?_
      obtain ⟨n, -, rfl⟩ := List.mem_map.mp he
      rfl

theorem finishConnect_failed (sp : Spec) (s : State) (t : ℕ) (task : Task) (e : Status.Error) :
    Plain s (s.finishConnect sp t task (some e)) := by
  have hset : Plain s (s.setState .broken) := of_eq rfl rfl rfl rfl
  have hfin : s.finishConnect sp t task (some e) =
      (s.setState .broken).notifyConnectWaiters.proceed sp t task (some e) := rfl
  rw [hfin]
  exact (hset.trans (notify _)).trans (proceed _ _ _ _ _)

theorem startConnect (sp : Spec) (s : State) (t : ℕ) (task : Task) : Plain s (s.startConnect sp t task) := by
  unfold State.startConnect
  simp only
  split_ifs
  · have hset : Plain s (s.setState .connecting) := of_eq rfl rfl rfl rfl
    exact hset.trans (finishConnect_failed _ _ _ _ _)
  · have hset : Plain s { s.setState .connecting with sessionId := "" } := of_eq rfl rfl rfl rfl
    exact hset.trans (postRpc _ _ _ _ _ _ _ _)

theorem initAnswered (sp : Spec) (s : State) (t : ℕ) (task : Task) (head : ResponseHead)
    (r : Except Json.Error (Except Status.Error Value)) : Plain s (s.initAnswered sp t task head r) := by
  unfold State.initAnswered
  split
  · exact finish _ _ _
  · exact finishConnect_failed _ _ _ _ _
  · split_ifs
    · exact finishConnect_failed _ _ _ _ _
    · exact postRpc _ _ _ _ _ _ _ _

end Plain

/-! ### The invariant -/

theorem Since.append {g : ℕ} {log es : List Event} (h : Since g log) (hes : ∀ e ∈ es, e.stops = false) :
    Since g (log ++ es) := by
  obtain ⟨l, r, rfl, hr⟩ := h
  refine ⟨l, r ++ es, by simp, fun e he => ?_⟩
  rcases List.mem_append.mp he with he | he
  · exact hr e he
  · exact hes e he

theorem stops_of_plain {e : Event} (h : e.plain = true) : e.stops = false := by
  cases e with
  | forwarded _ _ _ _ => rfl
  | _ => simpa [Event.plain] using h

theorem Forwards.of_not_forwarded {e : Event} (h : ∀ g ev m ps, e ≠ .forwarded g ev m ps) (l : List Event) :
    Forwards l e := fun g ev m ps he => absurd he (h g ev m ps)

namespace ReadersOk

theorem plain {r : State} (h : ReadersOk s) (hp : Plain s r) : ReadersOk r := by
  obtain ⟨es, hl, hes⟩ := hp.log
  constructor
  · rw [hp.readers]
    exact h.nodup
  · rw [hp.readers, hp.generation]
    exact h.le
  · rw [hp.readers]
    exact h.delay
  · rw [hp.readers, hp.generation, hl]
    exact fun rd hrd hg => (h.since rd hrd hg).append fun e he => stops_of_plain (hes e he)
  · rw [hp.shutdown, hl]
    intro hs
    rcases List.mem_append.mp hs with hs | hs
    · exact h.shutdown hs
    · have := hes _ hs
      simp [Event.plain, Event.stops] at this
  · rw [hl]
    refine h.forwards.append_of_forall fun e he l => Forwards.of_not_forwarded ?_ l
    rintro g ev m ps rfl
    have := hes _ he
    simp [Event.plain] at this

/-- What stops the readers is logged, and they are stopped. -/
theorem stop {es : List Event} (h : ReadersOk s) (hes : ∀ e ∈ es, ∀ g ev m ps, e ≠ .forwarded g ev m ps)
    (hsd : .shutDown ∈ es → s.shutdown = true) : ReadersOk (s.record es).stopHttpReader := by
  have hmap : ∀ rd ∈ (s.record es).stopHttpReader.readers, ∃ rd' ∈ s.readers,
      rd.generation = rd'.generation ∧ rd.delay = rd'.delay := by
    intro rd hrd
    obtain ⟨rd', hrd', rfl⟩ := List.mem_map.mp hrd
    refine ⟨rd', hrd', ?_⟩
    by_cases hc : s.readerCancel = some rd'.generation
    · simp [State.record, hc]
    · simp [State.record, hc]
  constructor
  · have hgen : ((s.record es).stopHttpReader.readers.map Reader.generation) = s.readers.map Reader.generation := by
      simp only [State.stopHttpReader, State.record, List.map_map]
      refine List.map_congr_left fun rd _ => ?_
      by_cases hc : s.readerCancel = some rd.generation
      · simp [hc]
      · simp [hc]
    rw [hgen]
    exact h.nodup
  · intro rd hrd
    obtain ⟨rd', hrd', hg, -⟩ := hmap rd hrd
    rw [hg]
    exact Nat.le_succ_of_le (h.le rd' hrd')
  · intro rd hrd
    obtain ⟨rd', hrd', -, hd⟩ := hmap rd hrd
    rw [hd]
    exact h.delay rd' hrd'
  · intro rd hrd hg
    obtain ⟨rd', hrd', hg', -⟩ := hmap rd hrd
    have hle := h.le rd' hrd'
    have hnew : (s.record es).stopHttpReader.readerGeneration = s.readerGeneration + 1 := rfl
    omega
  · intro hs
    rcases List.mem_append.mp hs with hs | hs
    · exact h.shutdown hs
    · exact hsd hs
  · exact h.forwards.append_of_forall fun e he l => Forwards.of_not_forwarded (hes e he) l

theorem maybeStart (h : ReadersOk s) : ReadersOk s.maybeStartHttpReader := by
  unfold State.maybeStartHttpReader
  split_ifs
  · exact h
  have hlt : ∀ rd ∈ s.readers, rd.generation < s.readerGeneration + 1 := fun rd hrd => Nat.lt_succ_of_le (h.le rd hrd)
  constructor
  · simp only [State.record, List.map_append, List.map_cons, List.map_nil]
    refine List.nodup_append.mpr ⟨h.nodup, by simp, ?_⟩
    intro a ha b hb
    obtain ⟨rd, hrd, rfl⟩ := List.mem_map.mp ha
    obtain rfl : b = s.readerGeneration + 1 := by simpa using hb
    exact ne_of_lt (hlt rd hrd)
  · intro rd hrd
    rcases List.mem_append.mp hrd with hrd | hrd
    · exact le_of_lt (hlt rd hrd)
    · obtain rfl := List.mem_singleton.mp hrd
      exact le_rfl
  · intro rd hrd
    rcases List.mem_append.mp hrd with hrd | hrd
    · exact h.delay rd hrd
    · obtain rfl := List.mem_singleton.mp hrd
      exact ⟨le_rfl, by norm_num⟩
  · intro rd hrd hg
    rcases List.mem_append.mp hrd with hrd | hrd
    · exact absurd hg (ne_of_lt (hlt rd hrd))
    · obtain rfl := List.mem_singleton.mp hrd
      exact ⟨s.log, [], rfl, by simp⟩
  · intro hs
    exact h.shutdown (by simpa [State.record] using hs)
  · exact h.forwards.append_of_forall fun e he l => Forwards.of_not_forwarded (by simp_all) l

/-- One reader moves on, or ends. -/
theorem move {z : State} {readers : List Reader} {r : ℕ} {rd q : Reader} (h : ReadersOk s)
    (hrd : s.readers[r]? = some rd)
    (hg : q.generation = rd.generation) (hd : 250 ≤ q.delay ∧ q.delay ≤ 30000)
    (hr : z.readers = readers) (hrs : readers = s.readers.set r q ∨ readers = s.readers.eraseIdx r)
    (hgen : z.readerGeneration = s.readerGeneration) (hsd : z.shutdown = s.shutdown) (hl : z.log = s.log) :
    ReadersOk z := by
  have hmem : ∀ x ∈ z.readers, ∃ y ∈ s.readers, x.generation = y.generation ∧ 250 ≤ x.delay ∧ x.delay ≤ 30000 := by
    intro x hx
    rw [hr] at hx
    rcases hrs with rfl | rfl
    · rcases List.mem_or_eq_of_mem_set hx with hx | rfl
      · exact ⟨x, hx, rfl, h.delay x hx⟩
      · exact ⟨rd, List.mem_of_getElem? hrd, hg, hd⟩
    · have hx := List.mem_of_mem_eraseIdx hx
      exact ⟨x, hx, rfl, h.delay x hx⟩
  constructor
  · rw [hr]
    rcases hrs with rfl | rfl
    · have hsame : (s.readers.set r q).map Reader.generation = s.readers.map Reader.generation := by
        refine List.ext_getElem? fun i => ?_
        rw [List.getElem?_map, List.getElem?_map, List.getElem?_set]
        split_ifs with hi hlt
        · subst hi
          simp [hrd, hg]
        · subst hi
          rw [List.getElem?_eq_none (by omega)]
        · rfl
      rw [hsame]
      exact h.nodup
    · exact (List.Sublist.map _ (List.eraseIdx_sublist _ _)).nodup h.nodup
  · intro x hx
    obtain ⟨y, hy, hxy, -⟩ := hmem x hx
    rw [hxy, hgen]
    exact h.le y hy
  · intro x hx
    obtain ⟨y, -, -, hd⟩ := hmem x hx
    exact hd
  · intro x hx hxg
    obtain ⟨y, hy, hxy, -⟩ := hmem x hx
    rw [hxy, hl]
    exact h.since y hy (by rw [← hxy, hxg, hgen])
  · rw [hsd, hl]
    exact h.shutdown
  · rw [hl]
    exact h.forwards

theorem shutdownInternal {permanent : Bool} {es : List Event} (h : ReadersOk s)
    (hes : ∀ e ∈ es, ∀ g ev m ps, e ≠ .forwarded g ev m ps) (hsd : .shutDown ∈ es → permanent = true) :
    ReadersOk ((s.record es).shutdownInternal permanent) := by
  have hset : ReadersOk { s with shutdown := s.shutdown || permanent } :=
    ⟨h.nodup, h.le, h.delay, h.since, fun hs => by simp [h.shutdown hs], h.forwards⟩
  have hstop : ReadersOk (State.record { s with shutdown := s.shutdown || permanent } es).stopHttpReader :=
    hset.stop hes fun hs => by simp [hsd hs]
  have hfirst : (if permanent then { s.record es with shutdown := true } else s.record es) =
      State.record { s with shutdown := s.shutdown || permanent } es := by
    cases permanent
    · simp [State.record]
    · simp [State.record]
  unfold State.shutdownInternal
  simp only
  rw [hfirst]
  have hclear := hstop.plain (r := { (State.record { s with shutdown := s.shutdown || permanent } es).stopHttpReader with
    lastEventId := "", sessionId := "" }) (Plain.of_eq rfl rfl rfl rfl)
  exact (hclear.plain (Plain.notify _)).plain (Plain.of_eq rfl rfl rfl rfl)

theorem finishConnect_ok (h : ReadersOk s) (t : ℕ) (task : Task) : ReadersOk (s.finishConnect sp t task none) := by
  have hset : ReadersOk (s.setState .ready) := h.plain (Plain.of_eq rfl rfl rfl rfl)
  have hfin : s.finishConnect sp t task none =
      (s.setState .ready).maybeStartHttpReader.notifyConnectWaiters.proceed sp t task none := rfl
  rw [hfin]
  exact (hset.maybeStart.plain (Plain.notify _)).plain (Plain.proceed _ _ _ _ _)

theorem ackAnswered (h : ReadersOk s) (t : ℕ) (task : Task) (assigned : String)
    (r : Except Json.Error (Except Status.Error Value)) : ReadersOk (s.ackAnswered sp t task assigned r) := by
  unfold State.ackAnswered
  split
  · exact h.plain (Plain.finish _ _ _)
  · exact h.plain (Plain.finishConnect_failed _ _ _ _ _)
  · have hset : ReadersOk (s.setState .ready) := h.plain (Plain.of_eq rfl rfl rfl rfl)
    refine ReadersOk.finishConnect_ok ?_ t task
    exact (hset.plain (Plain.notify _)).plain (Plain.record (by simp [Event.plain, Event.stops]))

theorem endReader {r : ℕ} {rd : Reader} (h : ReadersOk s) (hrd : s.readers[r]? = some rd) (g : ℕ) :
    ReadersOk (s.endReader r g) :=
  h.move (z := s.endReader r g) hrd rfl (h.delay rd (List.mem_of_getElem? hrd)) rfl (Or.inr rfl) rfl rfl rfl

theorem readHttpNotifications {r : ℕ} {rd q : Reader} (h : ReadersOk s) (hrd : s.readers[r]? = some rd)
    (hg : q.generation = rd.generation) (hd : 250 ≤ q.delay ∧ q.delay ≤ 30000) :
    ReadersOk (s.readHttpNotifications sp r q) := by
  unfold State.readHttpNotifications
  split_ifs
  · have hmove : ReadersOk { s with readers := s.readers.set r { q with pc := .getting } } :=
      h.move (q := { q with pc := .getting }) hrd hg hd rfl (Or.inl rfl) rfl rfl rfl
    exact hmove.plain (Plain.record (by simp [Event.plain, Event.stops]))
  · exact h.endReader hrd _

theorem eventDelay_mem {rd : Reader} (h : 250 ≤ rd.delay ∧ rd.delay ≤ 30000) (ev : SseEvent) :
    250 ≤ State.eventDelay rd ev ∧ State.eventDelay rd ev ≤ 30000 := by
  unfold State.eventDelay
  split
  · omega
  · exact h

theorem recordId (h : ReadersOk s) (ev : SseEvent) : ReadersOk (s.recordId ev) := by
  unfold State.recordId
  split
  · exact h.plain (Plain.of_eq rfl rfl rfl rfl)
  · exact h

/-- The current reader forwards an event, before `Shutdown()`. -/
theorem forward {rd : Reader} (h : ReadersOk s) (hg : Since rd.generation s.log) (hsd : s.shutdown = false)
    (ev : SseEvent) : ReadersOk (s.forward sp rd ev) := by
  have hnot : .shutDown ∉ s.log := fun hs => by simp [h.shutdown hs] at hsd
  unfold State.forward
  split
  · refine ⟨h.nodup, h.le, h.delay, fun x hx hxg => ?_, fun hs => ?_, ?_⟩
    · exact (h.since x hx hxg).append (by simp [Event.stops])
    · exact absurd (by simpa [State.record] using hs) hnot
    · refine History.each_snoc.mpr ⟨h.forwards, ?_⟩
      intro g ev' m ps he
      obtain ⟨rfl, -⟩ : rd.generation = g ∧ _ := by simpa using he
      exact ⟨hg, hnot⟩
  · exact h

theorem receive {r : ℕ} {rd : Reader} (h : ReadersOk s) (hrd : s.readers[r]? = some rd) (ev : SseEvent) :
    ReadersOk (s.receive sp r rd ev) := by
  have hmem := List.mem_of_getElem? hrd
  have hset : ReadersOk { s with readers := s.readers.set r { rd with delay := State.eventDelay rd ev } } :=
    h.move (q := { rd with delay := State.eventDelay rd ev }) hrd rfl (eventDelay_mem (h.delay rd hmem) ev) rfl
      (Or.inl rfl) rfl rfl rfl
  unfold State.receive
  split_ifs with hold
  · exact h
  simp only
  split_ifs
  · exact hset
  · rw [not_or, not_not] at hold
    exact (hset.forward (h.since rd hmem hold.1) (by simpa using hold.2) ev).recordId ev

theorem getCompletes {r : ℕ} {rd : Reader} (h : ReadersOk s) (hrd : s.readers[r]? = some rd) (statusCode : ℤ)
    (status : Option Status.Code) : ReadersOk (s.getCompletes r rd statusCode status) := by
  unfold State.getCompletes
  split_ifs
  · exact h.endReader hrd _
  · have hset : ReadersOk (s.setState .broken) := h.plain (Plain.of_eq rfl rfl rfl rfl)
    exact hset.endReader hrd _
  · exact h.endReader hrd _
  · exact h.move (q := { rd with pc := .sleeping }) hrd rfl (h.delay rd (List.mem_of_getElem? hrd)) rfl (Or.inl rfl)
      rfl rfl rfl

theorem setInboundEventHandler (h : ReadersOk s) (b : Bool) : ReadersOk (s.setInboundEventHandler b) := by
  have hset : ReadersOk { s with handler := b } := h.plain (Plain.of_eq rfl rfl rfl rfl)
  cases b with
  | true =>
    have hrec : ReadersOk (State.record { s with handler := true } [.handlerSet true]) :=
      hset.plain (Plain.record (by simp [Event.plain, Event.stops]))
    exact hrec.maybeStart
  | false => exact hset.stop (by simp) (by simp)

end ReadersOk

theorem readersOk_step {c : Choice} (h : ReadersOk s) (hd : Did sp s c s') : ReadersOk s' := by
  have harrive : ∀ p context, ReadersOk (s.arrive p context) := fun p context => h.plain (Plain.arrive s p context)
  cases hd with
  | refused _ _ => exact (harrive _ _).plain (Plain.finish _ _ _)
  | ready _ _ => exact (harrive _ _).plain (Plain.proceed _ _ _ _ _)
  | @waits p context _ _ => exact (harrive p context).plain (Plain.of_eq rfl rfl rfl rfl)
  | @starts p context _ _ _ =>
    have hfresh : ReadersOk (s.arrive p context).fresh := by
      unfold State.fresh
      split_ifs
      · exact (harrive p context).shutdownInternal (by simp) (by simp)
      · exact harrive p context
    exact hfresh.plain (Plain.startConnect _ _ _ _)
  | woken _ _ => exact h.plain (Plain.proceed _ _ _ _ _)
  | initDone _ _ => exact (h.plain (Plain.postResult _ _ _ _ _)).plain (Plain.initAnswered _ _ _ _ _ _)
  | ackDone _ _ => exact (h.plain (Plain.postResult _ _ _ _ _)).ackAnswered _ _ _ _
  | toolDone _ _ => exact (h.plain (Plain.postResult _ _ _ _ _)).plain (Plain.finish _ _ _)
  | @readerLoops _ r rd delay hrd _ hdelay =>
    have hd := h.delay rd (List.mem_of_getElem? hrd)
    refine h.readHttpNotifications (q := { rd with delay := delay }) hrd rfl ?_
    rcases hdelay with rfl | rfl
    · exact hd
    · simp only; omega
  | received hrd _ => exact h.receive hrd _
  | getDone hrd _ => exact h.getCompletes hrd _ _
  | handlerSet => exact h.setInboundEventHandler _
  | shutDown => exact h.shutdownInternal (by simp) (by simp)

theorem readersOk_init : ReadersOk {} :=
  ⟨by simp, by simp, by simp, by simp, by simp, History.each_nil⟩

/-- Of the readers, one at most is current. -/
theorem ReadersOk.current_length (h : ReadersOk s) : s.current.length ≤ 1 := by
  have hnodup : (s.current.map Reader.generation).Nodup := (List.Sublist.map _ List.filter_sublist).nodup h.nodup
  have hall : s.current.map Reader.generation ⊆ [s.readerGeneration] := by
    intro g hg
    rw [List.mem_singleton]
    obtain ⟨rd, hrd, rfl⟩ := List.mem_map.mp hg
    have := (List.mem_filter.mp hrd).2
    simp only [Bool.and_eq_true, decide_eq_true_eq] at this
    exact this.1
  have hle := (List.subperm_of_subset hnodup hall).length_le
  simpa using hle

/-- An event with the recorded id is not forwarded. -/
theorem receive_duplicate {r : ℕ} {rd : Reader} {ev : SseEvent} (hid : ev.id = some s.lastEventId)
    (hne : s.lastEventId ≠ "") : (s.receive sp r rd ev).log = s.log := by
  unfold State.receive
  split_ifs
  · rfl
  simp only [hid, hne, ne_eq, not_false_eq_true, and_self, if_true]

/-- **Old readers have no effect.** In every run: at most one reader is current
and not cancelled; an event is forwarded only by the reader started last, with
nothing that stops it since and before `Shutdown()`; the delays stay in their
bounds; and an event with the recorded id is not forwarded. -/
theorem reader_isolated {cs : List Choice} (h : Reaches sp (fun _ _ => True) cs s) :
    s.current.length ≤ 1 ∧ History.Each Forwards s.log ∧ (∀ rd ∈ s.readers, 250 ≤ rd.delay ∧ rd.delay ≤ 30000) ∧
    (∀ r ev s', step sp (.event r ev) s = some s' → ev.id = some s.lastEventId → s.lastEventId ≠ "" →
      s'.log = s.log) := by
  have hok : ReadersOk s := h.invariant (fun _ _ _ hI _ hd => readersOk_step hI hd) readersOk_init
  refine ⟨hok.current_length, hok.forwards, hok.delay, fun r ev s' hstep hid hne => ?_⟩
  obtain ⟨rd, -, rfl⟩ := Option.map_eq_some_iff.mp hstep
  exact receive_duplicate hid hne

/-! ### A server with a few answers -/

/-- The answer to the request `n` with an empty result. -/
def answerText (n : ℕ) : String := "\x7b\"id\":" ++ toString n ++ ",\"result\":\x7b\x7d\x7d"

/-- A notification of the server. -/
def noticeText : String := "\x7b\"method\":\"changed\",\"params\":\x7b\x7d\x7d"

/-- A client of a server whose texts are these. -/
def Spec.sample : Spec where
  codec := Codec.ofTable
    ([1, 2, 3, 4].map (fun n => (answerText n, .obj [("id", .int n), ("result", .obj [])])) ++
     [(noticeText, .obj [("method", .str "changed"), ("params", .obj [])]), ("\x7b\x7d", .obj [])])
  parseError := fun _ => "syntax error"
  commandOrUrl := "http://server"
  headers := []
  metadataToken := none

/-- The answer to a POST, with the session it assigns. -/
def Choice.answer (t n : ℕ) (session : String) : Choice :=
  .postDone t ⟨200, [("mcp-session-id", session)]⟩ (.ok (answerText n))

/-- The acknowledgement of a notification. -/
def Choice.acked (t : ℕ) : Choice := .postDone t ⟨202, []⟩ (.ok "")

/-- A connection and its handshake. -/
def handshakeRun : List Choice := [.call .connect "", .answer 0 1 "a", .acked 0]

/-- A reader gets an event, the handler is cleared, and the stream has one more. -/
def staleReaderRun : List Choice :=
  .setInboundEventHandler true :: handshakeRun ++ [.runReader 0, .event 0 ⟨noticeText, some "1", none⟩,
    .setInboundEventHandler false, .event 0 ⟨noticeText, some "2", some 5⟩]

/-- The entry is an event that was forwarded. -/
def Event.isForwarded : Event → Bool
  | .forwarded _ _ _ _ => true
  | _ => false

theorem reader_isolated_stale : ∃ s, Reaches Spec.sample (fun _ _ => True) staleReaderRun s ∧
    s.log.countP Event.isForwarded = 1 ∧ s.readers.length = 1 ∧ s.current.length ≤ 1 := by
  have h : (Stepping.check (step Spec.sample) (fun _ _ => true) staleReaderRun {}).any
      (fun s => s.log.countP Event.isForwarded = 1 && s.readers.length = 1) = true := by decide +kernel
  obtain ⟨s, hr, hs⟩ := Stepping.Run.exists_of_check (fun _ _ => True) h fun _ _ _ => trivial
  simp only [Bool.and_eq_true, decide_eq_true_eq] at hs
  exact ⟨s, hr, hs.1, hs.2, (reader_isolated hr).1⟩

end Http
end Mcp
end AgentFlow
