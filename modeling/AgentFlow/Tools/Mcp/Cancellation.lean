/-
# Cancelled calls

A `CallTool` that is pending when its token fires, or when `Shutdown()` is
called, should return the answer to its request or the status Cancelled
(`CancelledOrOwn`). But a closed channel ends the receive with
`channel_closed`, and only `operation_aborted` is made Cancelled, so whoever
closes the channel, the call returns Unavailable. What the contract asks for
holds in the runs in which the answer comes first: no handler of a token finds
its request pending, the transport does not end under a pending call whose
token has fired, and `Shutdown()` finds no pending `CallTool` (`AnswerFirst`).

The handler itself does the rest: it leaves the state as it is, and a request
gets one `notifications/cancelled` (`notices`).

Key definitions: `Interrupted`, `CancelledOrOwn`, `AnswerFirst`, `notices`.
Key theorems: `cancelled_or_own_of_answerFirst`, `not_cancelled_or_own`.
-/
import AgentFlow.Tools.Mcp.Handshake
import AgentFlow.Tools.Mcp.Tokens

namespace AgentFlow
namespace Mcp
namespace Stdio

open Json

variable {sp : Spec} {s s' : State} {t : ℕ}

/-! ### What should hold -/

/-- What interrupts the request `id`: its token's callback, or `Shutdown()`. -/
def Event.interrupts (id : ℕ) (e : Event) : Prop := e = .cancelPosted id ∨ e = .shutDown

/-- The request `id` was pending when it was interrupted. -/
def Interrupted (log : List Event) (id : ℕ) : Prop :=
  ∃ l e r, log = l ++ e :: r ∧ e.interrupts id ∧ id ∈ requestIds l ∧ id ∉ completedIds l

/-- The call `t` returns with the status Cancelled, or with the answer to its
request `id`. -/
def CancelledOrOwn (sp : Spec) (log : List Event) (t id : ℕ) (o : Outcome) : Prop :=
  (∃ e : Status.Error, o = .failed e ∧ e.code = .cancelled) ∨
  ∃ p v, .called t p ∈ log ∧ .delivered id v ∈ log ∧ o = p.outcome sp.toClient (rpcResult v)

/-- **An interrupted `CallTool` is reported as such.** -/
def InterruptReported (sp : Spec) (log : List Event) : Prop :=
  ∀ t id o, .requested t id .toolsCall ∈ log → .returned t o ∈ log → Interrupted log id →
    CancelledOrOwn sp log t id o

def Event.queuedLine? : Event → Option Line
  | .queued l => some l
  | _ => none

def Event.wroteLine? : Event → Option Line
  | .wrote _ l => some l
  | _ => none

def queuedLines (log : List Event) : List Line := log.filterMap Event.queuedLine?

/-- The lines written, to whichever child. -/
def wroteLines (log : List Event) : List Line := log.filterMap Event.wroteLine?

/-- The number of `notifications/cancelled` for the request `id`. -/
def notices (id : ℕ) (lines : List Line) : ℕ := lines.countP fun l => l.message = cancelledNotification id

/-- The call is suspended on a pending request. -/
def State.pendingRequest (s : State) (k : Task) : Bool :=
  match k.pc with
  | .request id => id ∈ s.requests.pending
  | _ => false

/-- What a run has to keep to: answers come before what interrupts their call
closes its channel. -/
def AnswerFirst (s : State) : Choice → Bool
  | .runCancel id => id ∉ s.requests.pending
  | .shutdown => s.tasks.all fun k => !(k.purpose.isCallTool && s.pendingRequest k)
  | c => !c.endsTransport s || s.tasks.all fun k => !(k.token = some true && s.pendingRequest k)

/-! ### What a step adds to the log -/

/-- The entries a step adds: it closes pending requests only if it is the
handler of one or ends the transport; a token's callback runs in a step that
closes nothing; `Shutdown()` makes no request; only the handler of a pending
request queues a notice. -/
structure Adds (s : State) (ch : Choice) (es : List Event) : Prop where
  closed : ∀ id, .closed id ∈ es → id ∈ s.requests.pending ∧ (ch = .runCancel id ∨ ch.endsTransport s = true)
  posted : ∀ id, .cancelPosted id ∈ es → ∀ k, .closed k ∉ es
  shut : .shutDown ∈ es → ch = .shutdown ∧ ∀ i id m, .requested i id m ∉ es
  notices : ∀ id, notices id (queuedLines es) = 0 ∨
    notices id (queuedLines es) = 1 ∧ ch = .runCancel id ∧ id ∈ s.requests.pending ∧ .closed id ∈ es

/-- Entries that neither close, nor interrupt, nor notify. -/
def Event.harmless : Event → Bool
  | .closed _ => false
  | .cancelPosted _ => false
  | .shutDown => false
  | .queued l => l.message.method ≠ .cancelled
  | _ => true

theorem cancelledNotification_inj {a b : ℕ} (h : cancelledNotification a = cancelledNotification b) : a = b := by
  have hp := congrArg (fun m => m.params.find? "requestId") h
  have hfind : ∀ n : ℕ, (cancelledNotification n).params.find? "requestId" = some (.int n) := fun _ => by
    simp [cancelledNotification, Value.object, OrderedMap.lookup_insert]
  simp only [hfind, Option.some.injEq, Value.int.injEq] at hp
  exact_mod_cast hp

theorem notices_eq_zero {es : List Event} (h : ∀ e ∈ es, ∀ l, e = .queued l → l.message.method ≠ .cancelled)
    (id : ℕ) : notices id (queuedLines es) = 0 := by
  rw [notices, List.countP_eq_zero]
  intro l hl
  obtain ⟨e, he, hel⟩ := List.mem_filterMap.mp hl
  cases e with
  | queued l' =>
    obtain rfl : l' = l := by simpa [Event.queuedLine?] using hel
    have := h _ he l' rfl
    simp only [decide_eq_true_eq]
    intro hl
    rw [hl] at this
    exact this rfl
  | _ => simp [Event.queuedLine?] at hel

theorem Pumps.harmless {child w w' : Option ℕ} {queue : List Line} {es : List Event}
    (h : Pumps child queue w w' es) : ∀ e ∈ es, e.harmless = true := by
  cases h with
  | nothing => simp
  | starts _ _ => simp [Event.harmless]

namespace Adds

variable {ch : Choice} {es : List Event}

/-- Nothing is closed. -/
theorem of_open (h : ∀ e ∈ es, e.harmless = true ∨ ∃ id, e = .cancelPosted id) : Adds s ch es where
  closed := by
    intro id hid
    rcases h _ hid with hh | ⟨k, hk⟩
    · simp [Event.harmless] at hh
    · simp at hk
  posted := by
    intro id _ k hk
    rcases h _ hk with hh | ⟨k', hk'⟩
    · simp [Event.harmless] at hh
    · simp at hk'
  shut := by
    intro hs
    rcases h _ hs with hh | ⟨k, hk⟩
    · simp [Event.harmless] at hh
    · simp at hk
  notices := by
    refine fun id => Or.inl (notices_eq_zero ?_ id)
    rintro e he l rfl
    rcases h _ he with hh | ⟨k, hk⟩
    · simpa [Event.harmless] using hh
    · simp at hk

/-- The transport ends. -/
theorem of_ends (hc : ch.endsTransport s = true)
    (h : ∀ e ∈ es, e.harmless = true ∨ (∃ id ∈ s.requests.pending, e = .closed id) ∨
      (e = .shutDown ∧ ch = .shutdown ∧ ∀ i id m, .requested i id m ∉ es)) :
    Adds s ch es where
  closed := by
    intro id hid
    rcases h _ hid with hh | ⟨k, hk, he⟩ | ⟨he, -⟩
    · simp [Event.harmless] at hh
    · obtain rfl : id = k := by simpa using he
      exact ⟨hk, Or.inr hc⟩
    · simp at he
  posted := by
    intro id hid
    rcases h _ hid with hh | ⟨k, -, he⟩ | ⟨he, -⟩
    · simp [Event.harmless] at hh
    · simp at he
    · simp at he
  shut := by
    intro hs
    rcases h _ hs with hh | ⟨k, -, he⟩ | ⟨-, hch⟩
    · simp [Event.harmless] at hh
    · simp at he
    · exact hch
  notices := by
    refine fun id => Or.inl (notices_eq_zero ?_ id)
    rintro e he l rfl
    rcases h _ he with hh | ⟨k, -, hk⟩ | ⟨hk, -⟩
    · simpa [Event.harmless] using hh
    · simp at hk
    · simp at hk

end Adds

theorem asked_log {m : Method} {params : Value} {token : Option Bool} {pc : ℕ → Pc} (hm : m ≠ .cancelled)
    (ha : s.Asked t m params token pc s') : ∃ es, s'.log = s.log ++ es ∧
      ∀ e ∈ es, e.harmless = true ∨ (token = some true ∧ ∃ id, e = .cancelPosted id) := by
  obtain ⟨w, es, rfl, hp⟩ := ha
  refine ⟨_, List.append_assoc _ _ _, ?_⟩
  simp only [List.cons_append, List.mem_cons, List.mem_append, List.mem_map]
  rintro e (rfl | ⟨id, hid, rfl⟩ | rfl | he)
  · exact Or.inl rfl
  · refine Or.inr ⟨?_, id, rfl⟩
    by_contra hne
    simp [posted, hne] at hid
  · exact Or.inl (by simp [Event.harmless, hm])
  · exact Or.inl (hp.harmless e he)

theorem continues_log {k : Task} (h : Continues sp s t k s') : ∃ es, s'.log = s.log ++ es ∧
    ∀ e ∈ es, e.harmless = true ∨ ∃ id, e = .cancelPosted id := by
  cases h with
  | refused _ => exact ⟨_, rfl, by simp [Event.harmless]⟩
  | connected _ => exact ⟨_, rfl, by simp [Event.harmless]⟩
  | asked hreq ha =>
    have hm := request_method hreq
    obtain ⟨es, hl, hes⟩ := asked_log (by rw [hm]; split_ifs <;> simp) ha
    exact ⟨es, hl, fun e he => (hes e he).imp_right And.right⟩

theorem torn_log (s : State) : ∃ es, s.torn.log = s.log ++ es ∧
    ∀ e ∈ es, s.state = .broken ∧ ∃ id ∈ s.requests.pending, e = .closed id := by
  unfold State.torn
  split_ifs with hb
  · refine ⟨_, rfl, ?_⟩
    intro e he
    obtain ⟨id, hid, rfl⟩ := List.mem_map.mp he
    exact ⟨hb, id, hid, rfl⟩
  · exact ⟨[], (List.append_nil _).symm, by simp⟩

/-- The entries of an attempt to connect. -/
private theorem adds_torn {p : Purpose} {fired : Bool} {spawn : Spawn} {tail : List Event} (hsd : s.shutdown = false)
    (ht : ∀ e ∈ tail, e.harmless = true) (hl : s'.log = (s.arrive p fired).torn.log ++ tail) :
    ∃ es, s'.log = s.log ++ es ∧ Adds s (.call p fired spawn) es := by
  obtain ⟨es, hes, hclosed⟩ := torn_log (s.arrive p fired)
  refine ⟨.called s.tasks.length p :: es ++ tail, ?_, ?_⟩
  · rw [hl, hes]
    simp [State.arrive]
  have hall : ∀ e ∈ .called s.tasks.length p :: es ++ tail,
      e.harmless = true ∨ (s.state = .broken ∧ ∃ id ∈ s.requests.pending, e = .closed id) := by
    simp only [List.cons_append, List.mem_cons, List.mem_append]
    rintro e (rfl | he | he)
    · exact Or.inl rfl
    · exact Or.inr (hclosed e he)
    · exact Or.inl (ht e he)
  by_cases hb : s.state = .broken
  · refine Adds.of_ends (by simp [Choice.endsTransport, hb, hsd]) fun e he => ?_
    exact (hall e he).imp_right fun h => Or.inl h.2
  · refine Adds.of_open fun e he => Or.inl ?_
    rcases hall e he with hh | ⟨hb', -⟩
    · exact hh
    · exact absurd hb' hb

theorem adds_of_did {ch : Choice} (hd : Did sp s ch s') : ∃ es, s'.log = s.log ++ es ∧ Adds s ch es := by
  cases hd with
  | refused _ =>
    exact ⟨_, List.append_assoc _ _ _, Adds.of_open (by simp [Event.harmless])⟩
  | @ready p fired spawn _ _ _ hc =>
    obtain ⟨es, hl, hes⟩ := continues_log hc
    refine ⟨.called s.tasks.length p :: es, by rw [hl]; simp [State.arrive], Adds.of_open ?_⟩
    intro e he
    rcases List.mem_cons.mp he with rfl | he
    · exact Or.inl rfl
    · exact hes e he
  | notStarted hsd _ => exact adds_torn hsd (by simp [Event.harmless]) rfl
  | @started p fired _ hsp ha =>
    obtain ⟨es, hl, hes⟩ := asked_log (by simp) ha
    have hsd := shutdown_of_spawns hsp
    have htail : ∀ e ∈ .spawned ((s.arrive p fired).torn.children + 1) :: es, e.harmless = true := by
      intro e he
      rcases List.mem_cons.mp he with rfl | he
      · rfl
      · simpa using hes e he
    refine adds_torn hsd htail ?_
    rw [hl]
    simp [State.openSession]
  | handshakeThrew _ _ _ _ => exact ⟨_, rfl, Adds.of_open (by simp [Event.harmless])⟩
  | handshakeFailed _ _ _ _ => exact ⟨_, rfl, Adds.of_open (by simp [Event.harmless])⟩
  | handshakeDone _ _ _ _ hn hc =>
    obtain ⟨es, hl, hes⟩ := continues_log hc
    rcases hn with ⟨-, rfl⟩ | ⟨-, w, es', rfl, hp⟩
    · exact ⟨es, hl, Adds.of_open hes⟩
    · refine ⟨_, hl.trans (List.append_assoc _ _ _), Adds.of_open ?_⟩
      simp only [List.cons_append, List.mem_cons, List.mem_append]
      rintro e (rfl | he | he)
      · exact Or.inl rfl
      · exact Or.inl (hp.harmless e he)
      · exact hes e he
  | answered _ _ _ => exact ⟨_, rfl, Adds.of_open (by simp [Event.harmless])⟩
  | fired _ _ =>
    refine ⟨_, rfl, Adds.of_open fun e he => Or.inr ?_⟩
    obtain ⟨id, -, rfl⟩ := List.mem_map.mp he
    exact ⟨id, rfl⟩
  | cancelMissed _ _ => exact ⟨[], (List.append_nil _).symm, Adds.of_open (by simp)⟩
  | @cancelled id _ _ hp hn =>
    rcases hn with ⟨-, rfl⟩ | ⟨-, w, es, rfl, hpump⟩
    · refine ⟨[.closed id], rfl, ?_, by simp, by simp, by simp [notices, queuedLines, Event.queuedLine?]⟩
      intro k hk
      obtain rfl : k = id := by simpa using hk
      exact ⟨hp, Or.inl rfl⟩
    · have hes := hpump.harmless
      refine ⟨_, List.append_assoc _ _ _, ?_, ?_, ?_, ?_⟩
      · intro k hk
        simp only [List.singleton_append, List.mem_cons, Event.closed.injEq, reduceCtorEq, false_or] at hk
        rcases hk with rfl | hk
        · exact ⟨hp, Or.inl rfl⟩
        · have := hes _ hk
          simp [Event.harmless] at this
      · intro k hk
        have hk : .cancelPosted k ∈ es := by simpa using hk
        have := hes _ hk
        simp [Event.harmless] at this
      · intro hs
        have hs : .shutDown ∈ es := by simpa using hs
        have := hes _ hs
        simp [Event.harmless] at this
      · intro k
        have hz : notices k (queuedLines es) = 0 := notices_eq_zero (fun e he l hl => by
          subst hl
          simpa [Event.harmless] using hes _ he) k
        rw [notices, queuedLines] at hz
        simp only [List.singleton_append, notices, queuedLines, List.filterMap_cons, Event.queuedLine?, List.countP_cons,
          hz, Choice.runCancel.injEq]
        by_cases hk : id = k
        · exact Or.inr (by simp [hk, hk ▸ hp])
        · have hne : cancelledNotification id ≠ cancelledNotification k := fun h => hk (cancelledNotification_inj h)
          exact Or.inl (by simp [hne])
  | bytes _ => exact ⟨[], (List.append_nil _).symm, Adds.of_open (by simp)⟩
  | line _ _ ht =>
    refine ⟨_, rfl, Adds.of_open fun e he => Or.inl ?_⟩
    revert e
    cases ht with
    | dropped => simp [Event.harmless]
    | inbound hd => cases hd <;> simp [Event.harmless]
  | readFailed _ =>
    refine ⟨_, rfl, Adds.of_ends rfl fun e he => Or.inr (Or.inl ?_)⟩
    obtain ⟨id, hid, rfl⟩ := List.mem_map.mp he
    exact ⟨id, hid, rfl⟩
  | wrote _ hp => exact ⟨_, rfl, Adds.of_open fun e he => Or.inl (hp.harmless e he)⟩
  | writeFailed _ =>
    refine ⟨s.requests.pending.map Event.closed, ?_, Adds.of_ends rfl fun e he => Or.inr (Or.inl ?_)⟩
    · simp [State.transportDied, State.setState, State.failPending, State.record, State.withWriter]
    · obtain ⟨id, hid, rfl⟩ := List.mem_map.mp he
      exact ⟨id, hid, rfl⟩
  | shutDown =>
    refine ⟨_, rfl, Adds.of_ends rfl fun e he => Or.inr ?_⟩
    rcases List.mem_cons.mp he with rfl | he
    · exact Or.inr ⟨rfl, rfl, by simp⟩
    · obtain ⟨id, hid, rfl⟩ := List.mem_map.mp he
      exact Or.inl ⟨id, hid, rfl⟩
  | handlerSet => exact ⟨[], (List.append_nil _).symm, Adds.of_open (by simp)⟩

/-! ### Lines are written as they are queued -/

/-- The lines written and those still to be written are the lines queued. -/
structure Lined (s : State) : Prop where
  busy : s.writing.isSome = true → s.writeQueue ≠ []
  lines : wroteLines s.log ++ s.unwritten = queuedLines s.log

theorem wroteLines_append (log es : List Event) : wroteLines (log ++ es) = wroteLines log ++ wroteLines es := by
  simp [wroteLines]

theorem queuedLines_append (log es : List Event) : queuedLines (log ++ es) = queuedLines log ++ queuedLines es := by
  simp [queuedLines]

/-- Entries that are about no line. -/
def Event.lineless : Event → Bool
  | .queued _ => false
  | .wrote _ _ => false
  | _ => true

theorem lines_of_lineless {es : List Event} (h : ∀ e ∈ es, e.lineless = true) :
    wroteLines es = [] ∧ queuedLines es = [] := by
  constructor
  · rw [wroteLines, List.filterMap_eq_nil_iff]
    intro e he
    have := h e he
    cases e with
    | wrote c l => simp [Event.lineless] at this
    | _ => rfl
  · rw [queuedLines, List.filterMap_eq_nil_iff]
    intro e he
    have := h e he
    cases e with
    | queued l => simp [Event.lineless] at this
    | _ => rfl

theorem Pumps.queuedLines_eq {child w w' : Option ℕ} {queue : List Line} {es : List Event}
    (h : Pumps child queue w w' es) : queuedLines es = [] := by
  cases h with
  | nothing => rfl
  | starts _ _ => rfl

namespace Lined

/-- A step that the writer does not see. -/
theorem keep {l : List Event} (h : Lined s) (hq : s'.writeQueue = s.writeQueue) (hw : s'.writing = s.writing)
    (hl : s'.log = s.log ++ l) (hes : ∀ e ∈ l, e.lineless = true) : Lined s' := by
  obtain ⟨hwrote, hqueued⟩ := lines_of_lineless hes
  have hu : s'.unwritten = s.unwritten := by simp [State.unwritten, hw, hq]
  constructor
  · rw [hw, hq]
    exact h.busy
  · rw [hl, wroteLines_append, queuedLines_append, hwrote, hqueued, List.append_nil, List.append_nil, hu]
    exact h.lines

theorem same (h : Lined s) (hq : s'.writeQueue = s.writeQueue) (hw : s'.writing = s.writing)
    (hl : s'.log = s.log) : Lined s' := by
  have hl' : s'.log = s.log ++ [] := by rw [hl, List.append_nil]
  exact h.keep hq hw hl' (by simp)

/-- A line is queued, and the writer started if it is idle. -/
theorem push {l : Line} {w : Option ℕ} {es : List Event} (h : Lined s)
    (hp : Pumps s.child (s.writeQueue ++ [l]) s.writing w es) :
    Lined (s.withWriter (s.writeQueue ++ [l]) w (.queued l :: es)) := by
  refine ⟨by simp [State.withWriter], ?_⟩
  have hall : wroteLines es ++ (if w.isSome then (s.writeQueue ++ [l]).tail else s.writeQueue ++ [l]) =
      s.unwritten ++ [l] := hp.lineup_snoc (fun _ _ _ => rfl) h.busy
  have hlog : (s.withWriter (s.writeQueue ++ [l]) w (.queued l :: es)).log = s.log ++ ([.queued l] ++ es) := rfl
  rw [hlog, wroteLines_append, wroteLines_append, queuedLines_append, queuedLines_append, hp.queuedLines_eq, ← h.lines]
  have hu : (s.withWriter (s.writeQueue ++ [l]) w (.queued l :: es)).unwritten =
      if w.isSome then (s.writeQueue ++ [l]).tail else s.writeQueue ++ [l] := rfl
  have hone : wroteLines [.queued l] = [] ∧ queuedLines [.queued l] = [l] := ⟨rfl, rfl⟩
  rw [hu, hone.1, hone.2, List.nil_append, List.append_assoc, hall, List.append_nil, List.append_assoc]

/-- The write that is out completes. -/
theorem pop {w : Option ℕ} {es : List Event} (h : Lined s) (hw : s.writing.isSome = true)
    (hp : Pumps s.child s.writeQueue.tail none w es) : Lined (s.withWriter s.writeQueue.tail w es) := by
  have hu : (s.withWriter s.writeQueue.tail w es).unwritten =
      if w.isSome then s.writeQueue.tail.tail else s.writeQueue.tail := rfl
  have hall : wroteLines es ++ (if w.isSome then s.writeQueue.tail.tail else s.writeQueue.tail) =
      s.writeQueue.tail := hp.lineup fun _ _ _ => rfl
  have hbefore : s.unwritten = s.writeQueue.tail := by simp [State.unwritten, hw]
  constructor
  · intro hsome
    cases hp with
    | nothing => simp [State.withWriter] at hsome
    | starts _ hq => simp [State.withWriter, hq]
  · have hlog : (s.withWriter s.writeQueue.tail w es).log = s.log ++ es := rfl
    rw [hlog, wroteLines_append, queuedLines_append, hp.queuedLines_eq, hu, List.append_assoc, hall, List.append_nil,
      ← h.lines, hbefore]

theorem asked {m : Method} {params : Value} {token : Option Bool} {pc : ℕ → Pc} (h : Lined s)
    (ha : s.Asked t m params token pc s') : Lined s' := by
  obtain ⟨w, es, rfl, hp⟩ := ha
  refine Lined.push (s := s.registered t m token pc) ?_ hp
  refine h.keep rfl rfl rfl ?_
  simp [Event.lineless]

theorem notified {m : Message} (h : Lined s) (hn : s.Notified m s') : Lined s' := by
  rcases hn with ⟨-, rfl⟩ | ⟨-, w, es, rfl, hp⟩
  · exact h
  · exact h.push hp

theorem finish (h : Lined s) (t : ℕ) (o : Outcome) : Lined (s.finish t o) :=
  h.keep rfl rfl rfl (by simp [Event.lineless])

theorem setState (h : Lined s) (st : ConnState) : Lined (s.setState st) := h.same rfl rfl rfl

theorem arrive (h : Lined s) (p : Purpose) (fired : Bool) : Lined (s.arrive p fired) :=
  h.keep rfl rfl rfl (by simp [Event.lineless])

theorem failPending (h : Lined s) : Lined s.failPending := h.keep rfl rfl rfl (by simp [Event.lineless])

theorem torn (h : Lined s) : Lined s.torn := by
  unfold State.torn
  split_ifs
  · exact Lined.failPending (s := s.closePipes) (h.same rfl rfl rfl)
  · exact h

theorem continues {k : Task} (h : Lined s) (hc : Continues sp s t k s') : Lined s' := by
  cases hc with
  | refused _ => exact h.finish _ _
  | connected _ => exact h.finish _ _
  | asked _ ha => exact h.asked ha

end Lined

theorem lined_step {c : Choice} (h : Lined s) (hd : Did sp s c s') : Lined s' := by
  cases hd with
  | refused _ => exact (h.arrive _ _).finish _ _
  | ready _ _ hc => exact (h.arrive _ _).continues hc
  | notStarted _ _ => exact ((h.arrive _ _).torn.setState .broken).finish _ _
  | started _ ha =>
    refine Lined.asked ?_ ha
    exact (h.arrive _ _).torn.keep rfl rfl rfl (by simp [Event.lineless])
  | handshakeThrew _ _ _ _ => exact h.finish _ _
  | handshakeFailed _ _ _ _ => exact (h.setState .broken).finish _ _
  | handshakeDone _ _ _ _ hn hc => exact ((h.notified hn).setState .ready).continues hc
  | answered _ _ _ => exact h.finish _ _
  | fired _ _ => exact h.keep rfl rfl rfl (by simp [Event.lineless])
  | cancelMissed _ _ => exact h.same rfl rfl rfl
  | cancelled _ _ hn =>
    refine Lined.notified (s := s.cancelled _) ?_ hn
    exact h.keep rfl rfl rfl (by simp [Event.lineless])
  | bytes _ => exact h.same rfl rfl rfl
  | @line _ r rd chunk requests es _ _ ht =>
    refine h.keep (l := .read s.children (s.fed rd.child chunk).firstLine :: es) rfl rfl rfl ?_
    cases ht with
    | dropped => simp [Event.lineless]
    | inbound hdis => cases hdis <;> simp [Event.lineless]
  | readFailed _ => exact h.keep rfl rfl rfl (by simp [Event.lineless])
  | wrote hw hp => exact h.pop (by rw [hw]; rfl) hp
  | writeFailed hw =>
    have hpop : Lined (s.withWriter s.writeQueue.tail none []) := h.pop (by rw [hw]; rfl) (.nothing none)
    exact hpop.failPending.setState .broken
  | shutDown => exact h.keep rfl rfl rfl (by simp [Event.lineless])
  | handlerSet => exact h.same rfl rfl rfl

theorem lined_init : Lined {} := ⟨by simp, rfl⟩

theorem Lined.notices_le (h : Lined s) (id : ℕ) : notices id (wroteLines s.log) ≤ notices id (queuedLines s.log) := by
  rw [← h.lines, notices, notices, List.countP_append]
  exact Nat.le_add_right _ _

/-! ### One notice for a request -/

/-- A request has at most one notice, and it is completed when it has one. -/
def NoticedOnce (log : List Event) : Prop :=
  ∀ id, notices id (queuedLines log) ≤ 1 ∧ (0 < notices id (queuedLines log) → id ∈ completedIds log)

theorem notices_append (id : ℕ) (log es : List Event) :
    notices id (queuedLines (log ++ es)) = notices id (queuedLines log) + notices id (queuedLines es) := by
  rw [queuedLines_append, notices, List.countP_append]
  rfl

theorem noticedOnce_step {c : Choice} (hrec : Recorded s) (h : NoticedOnce s.log) (hd : Did sp s c s') :
    NoticedOnce s'.log := by
  obtain ⟨es, hl, hes⟩ := adds_of_did hd
  rw [hl]
  intro id
  rw [notices_append, completedIds_append, List.mem_append]
  obtain ⟨hle, hdone⟩ := h id
  rcases hes.notices id with hz | ⟨hone, -, hp, hclosed⟩
  · rw [hz, Nat.add_zero]
    exact ⟨hle, fun hpos => Or.inl (hdone hpos)⟩
  · have hzero : notices id (queuedLines s.log) = 0 := by
      by_contra hne
      exact (hrec.pending_iff.mp hp).2 (hdone (Nat.pos_of_ne_zero hne))
    rw [hzero, hone]
    exact ⟨le_rfl, fun _ => Or.inr (mem_completedIds.mpr (Or.inr hclosed))⟩

/-! ### Interrupted requests -/

/-- A request is interrupted by what was logged before, or by what is new. -/
theorem Interrupted.of_append {log es : List Event} {id : ℕ} (h : Interrupted (log ++ es) id) :
    Interrupted log id ∨ ∃ p e, e ∈ es ∧ e.interrupts id ∧ (∀ e' ∈ p, e' ∈ es) ∧
      id ∈ requestIds (log ++ p) ∧ id ∉ completedIds (log ++ p) := by
  obtain ⟨l, e, r, heq, he, hreq, hcomp⟩ := h
  rcases List.append_eq_append_iff.mp heq with ⟨p, rfl, rfl⟩ | ⟨c, rfl, hc⟩
  · exact Or.inr ⟨p, e, by simp, he, fun e' he' => List.mem_append_left _ he', hreq, hcomp⟩
  · cases c with
    | nil =>
      have hes : es = e :: r := by simpa using hc.symm
      exact Or.inr ⟨[], e, by simp [hes], he, by simp, by simpa using hreq, by simpa using hcomp⟩
    | cons b c =>
      obtain ⟨rfl, -⟩ := List.cons.inj hc
      exact Or.inl ⟨l, e, c, rfl, he, hreq, hcomp⟩

/-- What interrupted a request of a `CallTool` was its token, and its channel
was not closed. -/
def Unclosed (log : List Event) : Prop :=
  ∀ i id, .requested i id .toolsCall ∈ log → Interrupted log id → .closed id ∉ log ∧ .cancelPosted id ∈ log

/-- The call of a pending request waits for it. -/
theorem Tokens.waiting {i id : ℕ} (hrec : Recorded s) (h : Tokens sp s) (hreq : .requested i id .toolsCall ∈ s.log)
    (hp : id ∈ s.requests.pending) :
    ∃ k ∈ s.tasks, k.purpose.isCallTool = true ∧ k.request = some id ∧ s.pendingRequest k = true := by
  obtain ⟨k, hk, hc, hpc | ⟨-, hdone⟩⟩ := h.made i id hreq
  · have hmem := List.mem_of_getElem? hk
    exact ⟨k, hmem, hc, h.request_of_pc k hmem id hpc hc, by simp [State.pendingRequest, hpc, hp]⟩
  · exact absurd hdone (hrec.pending_iff.mp hp).2

/-- When answers come first, `Shutdown()` finds no pending `CallTool`. -/
theorem AnswerFirst.not_pending {i id : ℕ} (hrec : Recorded s) (h : Tokens sp s)
    (hok : AnswerFirst s .shutdown = true) (hreq : .requested i id .toolsCall ∈ s.log) :
    id ∉ s.requests.pending := by
  intro hp
  obtain ⟨k, hk, hc, -, hpend⟩ := h.waiting hrec hreq hp
  simp only [AnswerFirst, List.all_eq_true] at hok
  have := hok k hk
  simp [hc, hpend] at this

/-- When answers come first, only requests whose token has not fired are closed. -/
theorem AnswerFirst.not_closed {i id : ℕ} {c : Choice} {es : List Event} (hrec : Recorded s) (h : Tokens sp s)
    (hok : AnswerFirst s c = true) (hes : Adds s c es) (hreq : .requested i id .toolsCall ∈ s.log)
    (hclosed : .closed id ∈ es) : c ≠ .shutdown ∧ .cancelPosted id ∉ s.log := by
  obtain ⟨hp, hc⟩ := hes.closed id hclosed
  have hne : c ≠ .shutdown := by
    rintro rfl
    exact AnswerFirst.not_pending hrec h hok hreq hp
  refine ⟨hne, fun hpost => ?_⟩
  obtain ⟨k, hk, -, hkreq, hpend⟩ := h.waiting hrec hreq hp
  have htok := h.fired k hk id hkreq hpost
  have hall : c.endsTransport s = true → False := by
    intro hends
    have hothers : (!c.endsTransport s || s.tasks.all fun k => !(k.token = some true && s.pendingRequest k)) = true := by
      cases c with
      | runCancel id' => simp [Choice.endsTransport] at hends
      | shutdown => exact absurd rfl hne
      | _ => exact hok
    simp only [hends, Bool.not_true, Bool.false_or, List.all_eq_true] at hothers
    have := hothers k hk
    simp [htok, hpend] at this
  rcases hc with rfl | hends
  · simp [AnswerFirst, hp] at hok
  · exact hall hends

theorem unclosed_step {c : Choice} (hrec : Recorded s) (htok : Tokens sp s) (h : Unclosed s.log)
    (hok : AnswerFirst s c = true) (hd : Did sp s c s') : Unclosed s'.log := by
  have hrec' := recorded_step hrec hd
  obtain ⟨es, hl, hes⟩ := adds_of_did hd
  intro i id hreq hint
  -- a request that is in the old log is not made again
  have hold : id ∈ requestIds s.log → .requested i id .toolsCall ∈ s.log := by
    intro hid
    rw [hl, List.mem_append] at hreq
    rcases hreq with hreq | hreq
    · exact hreq
    · have hnodup : (requestIds s'.log).Nodup := hrec'.registered_nodup
      rw [hl, requestIds_append] at hnodup
      exact absurd (mem_requestIds.mpr ⟨i, _, hreq⟩) (List.disjoint_of_nodup_append hnodup hid)
  have hbefore : Interrupted s.log id → .closed id ∉ s.log ∧ .cancelPosted id ∈ s.log := by
    intro hint₀
    have hid : id ∈ requestIds s.log := by
      obtain ⟨l, e, r, heq, -, hid, -⟩ := hint₀
      rw [heq, requestIds_append]
      exact List.mem_append_left _ hid
    exact h i id (hold hid) hint₀
  rw [hl] at hint ⊢
  have hpost : .cancelPosted id ∈ s.log ++ es := by
    rcases hint.of_append with hint | ⟨p, e, he, rfl | rfl, hp, hid, hcomp⟩
    · exact List.mem_append_left _ (hbefore hint).2
    · exact List.mem_append_right _ he
    · -- `Shutdown()` while the request is pending
      obtain ⟨rfl, hnone⟩ := hes.shut he
      rw [requestIds_append, List.mem_append] at hid
      have hid : id ∈ requestIds s.log := by
        rcases hid with hid | hid
        · exact hid
        · obtain ⟨j, m, hj⟩ := mem_requestIds.mp hid
          exact absurd (hp _ hj) (hnone j id m)
      rw [completedIds_append, List.mem_append, not_or] at hcomp
      exact absurd (hrec.pending_iff.mpr ⟨hid, hcomp.1⟩) (AnswerFirst.not_pending hrec htok hok (hold hid))
  refine ⟨?_, hpost⟩
  rw [List.mem_append, not_or]
  constructor
  · intro hclosed
    have hcomp : id ∈ completedIds s.log := mem_completedIds.mpr (Or.inr hclosed)
    rcases hint.of_append with hint | ⟨p, e, -, -, -, -, hcomp'⟩
    · exact (hbefore hint).1 hclosed
    · rw [completedIds_append] at hcomp'
      exact hcomp' (List.mem_append_left _ hcomp)
  · intro hclosed
    have hid := (hrec.pending_iff.mp (hes.closed id hclosed).1).1
    have hnot := (AnswerFirst.not_closed hrec htok hok hes (hold hid) hclosed).2
    rcases List.mem_append.mp hpost with hpost | hpost
    · exact hnot hpost
    · exact hes.posted id hpost id hclosed

/-! ### Whole runs -/

/-- What every run keeps. -/
theorem invariants_of_reaches {ok : State → Choice → Prop} {cs : List Choice} (h : Reaches sp ok cs s) :
    Recorded s ∧ Tokens sp s ∧ NoticedOnce s.log ∧ Lined s := by
  have hnone : NoticedOnce [] := fun id => ⟨by simp [notices, queuedLines], by simp [notices, queuedLines]⟩
  have hall := h.invariant_of_calls (I := fun s => Tokens sp s ∧ NoticedOnce s.log ∧ Lined s)
    (fun s c s' hrec hcalls hI _ hd =>
      ⟨tokens_step hrec hcalls hI.1 hd, noticedOnce_step hrec hI.2.1 hd, lined_step hI.2.2 hd⟩)
    ⟨tokens_init, hnone, lined_init⟩
  exact ⟨hall.1, hall.2.2⟩

theorem unclosed_of_reaches {cs : List Choice} (h : Reaches sp (fun s c => AnswerFirst s c = true) cs s) :
    Unclosed s.log := by
  have hnone : Unclosed [] := fun i id hreq => by simp at hreq
  have hall := h.invariant_of_calls (I := fun s => Tokens sp s ∧ Unclosed s.log)
    (fun s c s' hrec hcalls hI hok hd => ⟨tokens_step hrec hcalls hI.1 hd, unclosed_step hrec hI.1 hI.2 hok hd⟩)
    ⟨tokens_init, hnone⟩
  exact hall.2.2.2

/-- The handler of a pending request leaves the state as it is, and one notice. -/
theorem cancelled_step {id : ℕ} (hd : Did sp s (.runCancel id) s') (hp : id ∈ s.requests.pending) :
    s'.state = s.state ∧ (s.child.isSome = true → 0 < notices id (queuedLines s'.log)) := by
  cases hd with
  | cancelMissed _ hnot => exact absurd hp hnot
  | line hch _ _ => simp at hch
  | cancelled _ _ hn =>
    rcases hn with ⟨hc, rfl⟩ | ⟨-, w, es, rfl, -⟩
    · refine ⟨rfl, fun hsome => ?_⟩
      change s.child = none at hc
      simp [hc] at hsome
    · refine ⟨rfl, fun _ => ?_⟩
      have hlog : ((s.cancelled id).withWriter ((s.cancelled id).writeQueue ++
          [⟨(s.cancelled id).children, cancelledNotification id⟩]) w
          (.queued ⟨(s.cancelled id).children, cancelledNotification id⟩ :: es)).log =
        (s.cancelled id).log ++ (.queued ⟨(s.cancelled id).children, cancelledNotification id⟩ :: es) := rfl
      rw [hlog, notices_append]
      refine Nat.lt_of_lt_of_le ?_ (Nat.le_add_left _ _)
      simp [notices, queuedLines, Event.queuedLine?]

/-- **What becomes of an interrupted call.** In every run the handler of a
token leaves the state as it is, a request gets one notice when its handler
finds it pending and a child to tell, and never a second one, queued or
written. In every run in which answers come first, an interrupted `CallTool`
returns Cancelled or what the answer to its own request gives. -/
theorem cancelled_or_own_of_answerFirst :
    (∀ cs s, Reaches sp (fun _ _ => True) cs s →
      (∀ id, notices id (wroteLines s.log) ≤ notices id (queuedLines s.log) ∧
        notices id (queuedLines s.log) ≤ 1) ∧
      ∀ id s', step sp (.runCancel id) s = some s' → id ∈ s.requests.pending →
        s'.state = s.state ∧ (s.child.isSome = true → notices id (queuedLines s'.log) = 1)) ∧
    (∀ cs s, Reaches sp (fun s c => AnswerFirst s c = true) cs s → InterruptReported sp s.log) := by
  refine ⟨fun cs s h => ?_, fun cs s h => ?_⟩
  · obtain ⟨-, -, hnot, hlined⟩ := invariants_of_reaches h
    refine ⟨fun id => ⟨hlined.notices_le id, (hnot id).1⟩, fun id s' hstep hp => ?_⟩
    have h' : Reaches sp (fun _ _ => True) (cs ++ [.runCancel id]) s' := Stepping.Run.snoc h trivial hstep
    obtain ⟨hst, hone⟩ := cancelled_step (did_of_step (settled_of_reaches h) hstep) hp
    obtain ⟨-, -, hnot', -⟩ := invariants_of_reaches h'
    exact ⟨hst, fun hc => le_antisymm (hnot' id).1 (hone hc)⟩
  · obtain ⟨-, htok, -, -⟩ := invariants_of_reaches h
    intro t id o hreq hret hint
    rcases htok.ended t id o hreq hret with hclosed | hown
    · exact absurd hclosed (unclosed_of_reaches h t id hreq hint).1
    · exact Or.inr hown

/-- A call whose answer comes after its token has fired, and before the handler
runs. -/
def lateCancelRun : List Choice :=
  handshakeRun ++ [.call (.callTool "a" "") false .started, .fire 1, .line (answerText 2), .runCancel 2, .resume 1]

/-- The request `id` is pending where the log has the callback of its token. -/
def interruptedAt (log : List Event) (id n : ℕ) : Bool :=
  log[n]? = some (.cancelPosted id) && id ∈ requestIds (log.take n) && id ∉ completedIds (log.take n)

theorem interrupted_of_interruptedAt {log : List Event} {id n : ℕ} (h : interruptedAt log id n = true) :
    Interrupted log id := by
  simp only [interruptedAt, Bool.and_eq_true, decide_eq_true_eq] at h
  obtain ⟨⟨hget, hreq⟩, hcomp⟩ := h
  obtain ⟨hlt, hget⟩ := List.getElem?_eq_some_iff.mp hget
  refine ⟨log.take n, .cancelPosted id, log.drop (n + 1), ?_, Or.inl rfl, hreq, hcomp⟩
  rw [← hget, List.getElem_cons_drop, List.take_append_drop]

theorem cancelled_or_own_of_answerFirst_late :
    ∃ s, Reaches Spec.sample (fun s c => AnswerFirst s c = true) lateCancelRun s ∧ Interrupted s.log 2 ∧
      InterruptReported Spec.sample s.log := by
  have h : (Stepping.check (step Spec.sample) AnswerFirst lateCancelRun {}).any
      (fun s => (List.range s.log.length).any (interruptedAt s.log 2)) = true := by decide +kernel
  obtain ⟨s, hr, hs⟩ := Stepping.Run.exists_of_check (fun s c => AnswerFirst s c = true) h fun _ _ h => h
  obtain ⟨n, -, hn⟩ := List.any_eq_true.mp hs
  exact ⟨s, hr, interrupted_of_interruptedAt hn, cancelled_or_own_of_answerFirst.2 _ s hr⟩

/-- A call whose token fires, and whose handler runs before the answer. -/
def cancelRun : List Choice :=
  handshakeRun ++ [.call (.callTool "a" "") false .started, .fire 1, .runCancel 2, .resume 1]

def Event.answers (id : ℕ) : Event → Bool
  | .delivered id' _ => id' = id
  | _ => false

/-- The cancelled call returns Unavailable. -/
theorem not_cancelled_or_own :
    ¬ ∀ cs s, Reaches Spec.sample (fun _ _ => True) cs s → InterruptReported Spec.sample s.log := by
  intro hall
  have h : (Stepping.check (step Spec.sample) (fun _ _ => true) cancelRun {}).any
      (fun s => (List.range s.log.length).any (interruptedAt s.log 2) && (.requested 1 2 .toolsCall ∈ s.log) &&
        (.returned 1 (.failed ⟨.unavailable, "MCP transport error: Channel closed"⟩) ∈ s.log) &&
        s.log.all fun e => !e.answers 2) = true := by
    decide +kernel
  obtain ⟨s, hr, hs⟩ := Stepping.Run.exists_of_check (fun _ _ => True) h fun _ _ _ => trivial
  simp only [Bool.and_eq_true, decide_eq_true_eq, List.any_eq_true, List.all_eq_true] at hs
  obtain ⟨⟨⟨⟨n, -, hn⟩, hreq⟩, hret⟩, hnone⟩ := hs
  rcases hall _ s hr 1 2 _ hreq hret (interrupted_of_interruptedAt hn) with ⟨e, he, hcode⟩ | ⟨p, v, -, hv, -⟩
  · obtain rfl := Outcome.failed.inj he
    simp at hcode
  · have := hnone _ hv
    simp [Event.answers] at this

end Stdio
end Mcp
end AgentFlow
