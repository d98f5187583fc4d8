/-
# Shutdown is final, once no handshake is left

`Shutdown()` drops the transport, ends what waits for it and sets the state to
broken. A call that is suspended in its handshake then goes on where it was:
when its answer is a success it sends what is left of the handshake and sets
the state to ready, and from then on calls are not refused any more.

While that does not happen (`Revived`), nothing is sent or started after
`Shutdown()` and every call returns an error at once, over both transports.

Key definitions: `quietAfterShutdown`, `Stdio.Revived`, `Http.Revived`.
Key theorems: `shutdown_final_of_unrevived`, `not_shutdown_final`.
-/
import AgentFlow.Tools.Mcp.Cancellation
import AgentFlow.Tools.Mcp.SingleFlight

namespace AgentFlow
namespace Mcp

open Json

/-! ### What should hold -/

/-- What an entry of a log is to a client that was shut down: something is
sent to the server or started, a call is made, or a call returns an error. -/
inductive Mark
  | shutDown
  | effect
  | called (t : ℕ)
  | refused (t : ℕ)
  | other
  deriving DecidableEq

section Log

variable {ε : Type} {mark : ε → Mark}

/-- Nothing is sent or started, and a call that is made returns an error at
once. -/
def quiet (mark : ε → Mark) : List ε → Bool
  | [] => true
  | e :: es =>
    (match mark e with
      | .effect => false
      | .called t => es.head?.any fun e' => mark e' = .refused t
      | _ => true) && quiet mark es

/-- What comes after `Shutdown()` is quiet. -/
def quietAfterShutdown (mark : ε → Mark) : List ε → Bool
  | [] => true
  | e :: es => (mark e ≠ .shutDown || quiet mark es) && quietAfterShutdown mark es

theorem quiet_append {es es' : List ε} (h : quiet mark es = true) (h' : quiet mark es' = true) :
    quiet mark (es ++ es') = true := by
  induction es with
  | nil => exact h'
  | cons e es ih =>
    rw [quiet, Bool.and_eq_true] at h
    rw [List.cons_append, quiet, Bool.and_eq_true]
    refine ⟨?_, ih h.2⟩
    have hhead := h.1
    split at hhead
    · cases hhead
    · cases es with
      | nil => simp at hhead
      | cons _ _ => exact hhead
    · rfl

/-- Entries of no account. -/
theorem quiet_of_forall {es : List ε} (h : ∀ e ∈ es, mark e ≠ .effect ∧ ∀ t, mark e ≠ .called t) :
    quiet mark es = true := by
  induction es with
  | nil => rfl
  | cons e es ih =>
    have he := h e (List.mem_cons_self ..)
    rw [quiet, Bool.and_eq_true]
    refine ⟨?_, ih fun e' he' => h e' (List.mem_cons_of_mem _ he')⟩
    split
    · rename_i heq
      exact absurd heq he.1
    · rename_i heq
      exact absurd heq (he.2 _)
    · rfl

theorem quietAfterShutdown_of_quiet {es : List ε} (h : quiet mark es = true) : quietAfterShutdown mark es = true := by
  induction es with
  | nil => rfl
  | cons e es ih =>
    rw [quiet, Bool.and_eq_true] at h
    rw [quietAfterShutdown, h.2, ih h.2, Bool.or_true, Bool.and_true]

/-- Before `Shutdown()` anything goes. -/
theorem quietAfterShutdown_append_of_not {log es : List ε} (h : ∀ e ∈ log, mark e ≠ .shutDown)
    (hes : quietAfterShutdown mark es = true) : quietAfterShutdown mark (log ++ es) = true := by
  induction log with
  | nil => exact hes
  | cons e log ih =>
    have he := h e (List.mem_cons_self ..)
    simp [quietAfterShutdown, he, ih fun e' he' => h e' (List.mem_cons_of_mem _ he')]

theorem quietAfterShutdown_append {log es : List ε} (h : quietAfterShutdown mark log = true)
    (hes : quiet mark es = true) : quietAfterShutdown mark (log ++ es) = true := by
  induction log with
  | nil => exact quietAfterShutdown_of_quiet hes
  | cons e log ih =>
    rw [quietAfterShutdown, Bool.and_eq_true, Bool.or_eq_true] at h
    rw [List.cons_append, quietAfterShutdown, Bool.and_eq_true, Bool.or_eq_true]
    exact ⟨h.1.imp_right fun hq => quiet_append hq hes, ih h.2⟩

end Log

/-! ### Over pipes -/

namespace Stdio

variable {sp : Spec} {s s' : State} {t : ℕ}

def Event.mark : Event → Mark
  | .shutDown => .shutDown
  | .spawned _ => .effect
  | .wrote _ _ => .effect
  | .called t _ => .called t
  | .returned t (.failed _) => .refused t
  | _ => .other

/-- A handshake that is resumed has its answer, and the answer is a result. -/
def State.handshakeAnswered (s : State) (t : ℕ) : Bool :=
  match s.tasks[t]?.map Task.pc with
  | some (.handshake id _) =>
    match s.requests.slot id with
    | some (.delivered v) =>
      match rpcResult v with
      | .ok (.ok _) => true
      | _ => false
    | _ => false
  | _ => false

/-- A client that is shut down goes on with a handshake that was answered. -/
def Revived (s : State) : Choice → Bool
  | .resume t => s.shutdown && s.handshakeAnswered t
  | _ => false

/-- A client that is shut down has no transport and is not ready. -/
structure Stopped (s : State) : Prop where
  shutdown : .shutDown ∈ s.log → s.shutdown = true
  idle : s.shutdown = true → s.state ≠ .ready ∧ s.child = none
  quiet : quietAfterShutdown Event.mark s.log = true

theorem mark_returned (t : ℕ) (o : Outcome) :
    Event.mark (.returned t o) ≠ .effect ∧ ∀ t', Event.mark (.returned t o) ≠ .called t' := by
  cases o <;> simp [Event.mark]

theorem quiet_called (t : ℕ) (p : Purpose) (e : Status.Error) :
    Mcp.quiet Event.mark [.called t p, .returned t (.failed e)] = true := by
  simp [Mcp.quiet, Event.mark]

/-- A step after which the client is shut down as it was before, and that adds
nothing of account. -/
def Rests (s s' : State) : Prop :=
  ∃ es, s'.log = s.log ++ es ∧ Mcp.quiet Event.mark es = true ∧ s'.state ≠ .ready ∧ s'.child = none ∧ s'.shutdown = true

theorem Rests.finish (hsd : s.shutdown = true) (hst : s.state ≠ .ready) (hc : s.child = none) (t : ℕ) (o : Outcome) :
    Rests s (s.finish t o) :=
  ⟨[.returned t o], rfl, quiet_of_forall (by simpa using mark_returned t o), hst, hc, hsd⟩

theorem quiet_closed (ids : List ℕ) : Mcp.quiet Event.mark (ids.map Event.closed) = true :=
  quiet_of_forall (by simp [Event.mark])

theorem Rests.died (hsd : s.shutdown = true) (hc : s.child = none) : Rests s s.transportDied :=
  ⟨_, rfl, quiet_closed _, by simp [State.transportDied, State.setState], hc, hsd⟩

theorem quiet_took {requests : Requests.Table Value} {es : List Event} (h : Took s requests es) :
    ∀ e ∈ es, e.mark ≠ .effect ∧ ∀ t, e.mark ≠ .called t := by
  cases h with
  | dropped => simp
  | inbound hd =>
    cases hd with
    | dropped => simp [Event.mark]
    | notified _ _ => simp [Event.mark]
    | delivered _ _ _ => simp [Event.mark]

theorem rests_of_did {c : Choice} (hsd : s.shutdown = true) (hst : s.state ≠ .ready) (hc : s.child = none)
    (hok : Revived s c = false) (hd : Did sp s c s') : Rests s s' := by
  cases hd with
  | refused _ => exact ⟨_, List.append_assoc _ _ _, quiet_called _ _ _, hst, hc, hsd⟩
  | ready hr _ _ => exact absurd hr hst
  | notStarted h _ => simp [hsd] at h
  | started h _ =>
    have := shutdown_of_spawns h
    simp [hsd] at this
  | handshakeThrew _ _ _ _ => exact Rests.finish hsd hst hc _ _
  | handshakeFailed _ _ _ _ => exact Rests.finish (s := s.setState .broken) hsd (by simp [State.setState]) hc _ _
  | handshakeDone hk hpc hslot hres _ _ =>
    simp [Revived, State.handshakeAnswered, hsd, hk, hpc, hslot, hres] at hok
  | answered _ _ _ => exact Rests.finish hsd hst hc _ _
  | fired _ _ => exact ⟨_, rfl, quiet_of_forall (by simp [Event.mark]), hst, hc, hsd⟩
  | cancelMissed _ _ => exact ⟨[], (List.append_nil _).symm, rfl, hst, hc, hsd⟩
  | cancelled _ _ hn =>
    rcases hn with ⟨-, rfl⟩ | ⟨⟨c, hc'⟩, -⟩
    · exact ⟨_, rfl, quiet_of_forall (by simp [Event.mark]), hst, hc, hsd⟩
    · have hc' : s.child = some c := hc'
      simp [hc] at hc'
  | bytes _ => exact ⟨[], (List.append_nil _).symm, rfl, hst, hc, hsd⟩
  | line _ _ ht =>
    refine ⟨_, rfl, quiet_of_forall fun e he => ?_, hst, hc, hsd⟩
    rcases List.mem_cons.mp he with rfl | he
    · simp [Event.mark]
    · exact quiet_took ht e he
  | readFailed _ => exact Rests.died hsd hc
  | wrote _ hp =>
    rw [hc] at hp
    cases hp with
    | nothing => exact ⟨[], rfl, rfl, hst, hc, hsd⟩
    | starts h _ => simp at h
  | writeFailed _ =>
    obtain ⟨es, hl, h⟩ := Rests.died (s := s.withWriter s.writeQueue.tail none []) hsd hc
    exact ⟨es, by simpa [State.withWriter] using hl, h⟩
  | shutDown =>
    refine ⟨_, rfl, quiet_of_forall ?_, ?_, rfl, rfl⟩
    · intro e he
      rcases List.mem_cons.mp he with rfl | he
      · simp [Event.mark]
      · obtain ⟨id, -, rfl⟩ := List.mem_map.mp he
        simp [Event.mark]
    · simp [State.stopped, hst]
  | handlerSet => exact ⟨[], (List.append_nil _).symm, rfl, hst, hc, hsd⟩

theorem mark_eq_shutDown {e : Event} : e.mark = .shutDown ↔ e = .shutDown := by
  cases e with
  | returned t o => cases o <;> simp [Event.mark]
  | _ => simp [Event.mark]

theorem State.Asked.shutdown {m : Method} {params : Value} {token : Option Bool} {pc : ℕ → Pc}
    (h : s.Asked t m params token pc s') : s'.shutdown = s.shutdown := by
  obtain ⟨w, es, rfl, -⟩ := h
  rfl

theorem Continues.shutdown {k : Task} (h : Continues sp s t k s') : s'.shutdown = s.shutdown := by
  cases h with
  | refused _ => rfl
  | connected _ => rfl
  | asked _ h => exact h.shutdown

theorem State.Notified.shutdown {m : Message} (h : s.Notified m s') : s'.shutdown = s.shutdown := by
  rcases h with ⟨-, rfl⟩ | ⟨-, w, es, rfl, -⟩
  · rfl
  · rfl

theorem torn_shutdown (s : State) : s.torn.shutdown = s.shutdown := by
  unfold State.torn
  split_ifs
  · rfl
  · rfl

/-- Only `Shutdown()` changes the flag. -/
theorem shutdown_of_did {c : Choice} (hne : c ≠ .shutdown) (hd : Did sp s c s') : s'.shutdown = s.shutdown := by
  cases hd with
  | refused _ => rfl
  | ready _ _ h => exact h.shutdown
  | notStarted _ _ => exact torn_shutdown _
  | started _ h => exact h.shutdown.trans (torn_shutdown _)
  | handshakeThrew _ _ _ _ => rfl
  | handshakeFailed _ _ _ _ => rfl
  | handshakeDone _ _ _ _ hn h => exact h.shutdown.trans hn.shutdown
  | answered _ _ _ => rfl
  | fired _ _ => rfl
  | cancelMissed _ _ => rfl
  | cancelled _ _ hn => exact hn.shutdown
  | bytes _ => rfl
  | line _ _ _ => rfl
  | readFailed _ => rfl
  | wrote _ _ => rfl
  | writeFailed _ => rfl
  | shutDown => exact absurd rfl hne
  | handlerSet => rfl

theorem stopped_step {c : Choice} (h : Stopped s) (hok : Revived s c = false) (hd : Did sp s c s') : Stopped s' := by
  cases hsd : s.shutdown with
  | true =>
    obtain ⟨hst, hc⟩ := h.idle hsd
    obtain ⟨es, hl, hq, hst', hc', hsd'⟩ := rests_of_did hsd hst hc hok hd
    exact ⟨fun _ => hsd', fun _ => ⟨hst', hc'⟩, by rw [hl]; exact quietAfterShutdown_append h.quiet hq⟩
  | false =>
    have hnot : ∀ e ∈ s.log, e.mark ≠ .shutDown := by
      intro e he hm
      rw [mark_eq_shutDown.mp hm] at he
      simp [h.shutdown he] at hsd
    by_cases hc : c = .shutdown
    · subst hc
      cases hd with
      | shutDown =>
        refine ⟨fun _ => rfl, fun _ => ⟨?_, rfl⟩, ?_⟩
        · simp only [State.stopped]
          split_ifs with hst
          · simp
          · exact hst
        · refine quietAfterShutdown_append_of_not hnot ?_
          have hq := quiet_closed s.requests.pending
          simp [quietAfterShutdown, hq, quietAfterShutdown_of_quiet hq]
      | line h _ _ => simp at h
    · obtain ⟨es, hl, hadds⟩ := adds_of_did hd
      have hes : ∀ e ∈ es, e.mark ≠ .shutDown := fun e he hm => hc (hadds.shut (mark_eq_shutDown.mp hm ▸ he)).1
      have hsd' := shutdown_of_did hc hd
      rw [hsd] at hsd'
      refine ⟨fun hmem => ?_, by simp [hsd'], ?_⟩
      · rw [hl, List.mem_append] at hmem
        rcases hmem with hmem | hmem
        · exact absurd rfl (hnot _ hmem)
        · exact absurd rfl (hes _ hmem)
      · have hall : quietAfterShutdown Event.mark (es ++ []) = true := quietAfterShutdown_append_of_not hes rfl
        rw [hl]
        exact quietAfterShutdown_append_of_not hnot (by simpa using hall)

theorem stopped_init : Stopped {} := ⟨by simp, by simp, rfl⟩

end Stdio

/-! ### Over HTTP -/

namespace Http

variable {sp : Spec} {s s' : State} {t : ℕ}

def Event.mark : Event → Mark
  | .shutDown => .shutDown
  | .posted _ _ _ => .effect
  | .got _ _ => .effect
  | .readerStarted _ => .effect
  | .called t _ => .called t
  | .returned t (.failed _) => .refused t
  | _ => .other

/-- The response is one that `PostRpc` succeeds with. -/
def accepted (sp : Spec) (id : Option ℕ) (head : ResponseHead) : Except Status.Error String → Bool
  | .error _ => false
  | .ok body =>
    match decodeMcpHttpMessages sp.toClient head.statusCode head.headers body, id with
    | .error _, _ => false
    | .ok _, none => true
    | .ok messages, some id =>
      match rpcAnswer sp.toClient id messages with
      | .ok (.ok _) => true
      | _ => false

/-- A client that is shut down gets an answer that makes a handshake go on:
`initialize` succeeds and there is a session, or the acknowledgement does. -/
def Revived (sp : Spec) (s : State) : Choice → Bool
  | .postDone t head body =>
    s.shutdown &&
      match s.tasks[t]?.map Task.pc with
      | some (.initPost id) =>
        accepted sp (some id) head body && (sessionIdFromHeaders head.headers ≠ "" || s.sessionId ≠ "")
      | some (.ackPost _) => accepted sp none head body
      | _ => false
  | _ => false

structure Stopped (s : State) : Prop where
  idle : s.shutdown = true → s.state ≠ .ready
  quiet : quietAfterShutdown Event.mark s.log = true

/-- As `Stdio.Rests`. -/
def Rests (s s' : State) : Prop :=
  ∃ es, s'.log = s.log ++ es ∧ Mcp.quiet Event.mark es = true ∧ s'.state ≠ .ready ∧ s'.shutdown = true

theorem Rests.andThen {s'' : State} (h : Rests s s')
    (h' : s'.shutdown = true → s'.state ≠ .ready → Rests s' s'') : Rests s s'' := by
  obtain ⟨es, hl, hq, hst, hsd⟩ := h
  obtain ⟨es', hl', hq', hst', hsd'⟩ := h' hsd hst
  exact ⟨es ++ es', by rw [hl', hl, List.append_assoc], quiet_append hq hq', hst', hsd'⟩

theorem mark_returned (t : ℕ) (o : Outcome) :
    Event.mark (.returned t o) ≠ .effect ∧ ∀ t', Event.mark (.returned t o) ≠ .called t' := by
  cases o <;> simp [Event.mark]

namespace Rests

variable (hsd : s.shutdown = true) (hst : s.state ≠ .ready)
include hsd hst

theorem finish (t : ℕ) (o : Outcome) : Rests s (s.finish t o) :=
  ⟨[.returned t o], rfl, quiet_of_forall (by simpa using mark_returned t o), hst, hsd⟩

omit hst in
theorem finishConnect (t : ℕ) (task : Task) (e : Status.Error) : Rests s (s.finishConnect sp t task (some e)) := by
  have hfin : s.finishConnect sp t task (some e) = (s.setState .broken).notifyConnectWaiters.finish t (.failed e) := rfl
  rw [hfin, State.notifyConnectWaiters_eq]
  exact Rests.finish (s := { s.setState .broken with tasks := _, connectWaiters := [] }) hsd (by simp [State.setState]) t _

theorem publishSession (head : ResponseHead) : Rests s (s.publishSession head) := by
  unfold State.publishSession
  split_ifs
  · exact ⟨[], (List.append_nil _).symm, rfl, hst, hsd⟩
  · exact ⟨[], (List.append_nil _).symm, rfl, hst, hsd⟩

theorem postResult (sp : Spec) (id : Option ℕ) (head : ResponseHead) (body : Except Status.Error String) :
    Rests s (s.postResult sp id head body).1 := by
  refine (Rests.publishSession hsd hst head).andThen fun hsd' hst' => ?_
  unfold State.postResult
  simp only
  split
  · split_ifs
    · exact ⟨[], (List.append_nil _).symm, rfl, hst', hsd'⟩
    · exact ⟨[], (List.append_nil _).symm, rfl, by simp [State.setState], hsd'⟩
  · split
    · exact ⟨[], (List.append_nil _).symm, rfl, hst', hsd'⟩
    · refine ⟨_, rfl, quiet_of_forall fun e he => ?_, hst', hsd'⟩
      obtain ⟨n, -, rfl⟩ := List.mem_map.mp he
      simp [Event.mark]

end Rests

theorem accepted_of_postResult {id : Option ℕ} {head : ResponseHead} {body : Except Status.Error String} {v : Value}
    (h : (s.postResult sp id head body).2 = .ok (.ok v)) : accepted sp id head body = true := by
  unfold State.postResult at h
  simp only at h
  split at h
  · simp at h
  · unfold accepted
    simp only
    split at h
    · simp at h
    · rename_i messages hdec
      rw [hdec]
      cases id with
      | none => rfl
      | some id =>
        have h : rpcAnswer sp.toClient id messages = .ok (.ok v) := h
        simp [h]

theorem shutdown_shutdownInternal (s : State) (permanent : Bool) :
    (s.shutdownInternal permanent).shutdown = (permanent || s.shutdown) := by
  unfold State.shutdownInternal
  simp only [State.notifyConnectWaiters_eq]
  cases permanent with
  | true => rfl
  | false => rfl

theorem rests_of_did {c : Choice} (hsd : s.shutdown = true) (hst : s.state ≠ .ready) (hok : Revived sp s c = false)
    (hd : Did sp s c s') : Rests s s' := by
  cases hd with
  | refused _ _ =>
    refine ⟨_, List.append_assoc _ _ _, ?_, hst, hsd⟩
    simp [Mcp.quiet, Event.mark]
  | ready hr _ => exact absurd hr hst
  | waits h _ => simp [hsd] at h
  | starts h _ _ => simp [hsd] at h
  | @woken t k _ _ =>
    rw [if_neg hst]
    exact Rests.finish hsd hst t _
  | @initDone t k id head body hk hpc =>
    refine (Rests.postResult hsd hst sp (some id) head body).andThen fun hsd' hst' => ?_
    unfold State.initAnswered
    split
    · exact Rests.finish hsd' hst' t _
    · exact Rests.finishConnect hsd' t k _
    · rename_i heq
      have hsession := (completes_postResult sp s (some id) head body).session
      split_ifs with hsid
      · exact Rests.finishConnect hsd' t k _
      · rw [hsession] at hsid
        have hacc := accepted_of_postResult heq
        simp only [Revived, hsd, hk, hpc, hacc, Option.map_some, Bool.true_and, Bool.or_eq_false_iff] at hok
        simp only [ne_eq, decide_not, Bool.not_eq_false', decide_eq_true_eq] at hok
        simp [hok] at hsid
  | @ackDone t k assigned head body hk hpc =>
    refine (Rests.postResult hsd hst sp none head body).andThen fun hsd' hst' => ?_
    unfold State.ackAnswered
    split
    · exact Rests.finish hsd' hst' t _
    · exact Rests.finishConnect hsd' t k _
    · rename_i heq
      have hacc := accepted_of_postResult heq
      simp [Revived, hsd, hk, hpc, hacc] at hok
  | @toolDone t k id head body _ _ =>
    exact (Rests.postResult hsd hst sp (some id) head body).andThen fun hsd' hst' => Rests.finish hsd' hst' t _
  | readerLoops _ _ _ =>
    unfold State.readHttpNotifications
    rw [if_neg (by simp [hsd])]
    exact ⟨[], (List.append_nil _).symm, rfl, hst, hsd⟩
  | received _ _ =>
    unfold State.receive
    rw [if_pos (by simp [hsd])]
    exact ⟨[], (List.append_nil _).symm, rfl, hst, hsd⟩
  | getDone _ _ =>
    unfold State.getCompletes
    split_ifs
    · exact ⟨[], (List.append_nil _).symm, rfl, hst, hsd⟩
    · exact ⟨[], (List.append_nil _).symm, rfl, by simp [State.endReader, State.setState], hsd⟩
    · exact ⟨[], (List.append_nil _).symm, rfl, hst, hsd⟩
    · exact ⟨[], (List.append_nil _).symm, rfl, hst, hsd⟩
  | @handlerSet b =>
    refine ⟨[.handlerSet b], ?_, quiet_of_forall (by simp [Event.mark]), ?_, ?_⟩ <;>
      cases b <;>
      simp [State.setInboundEventHandler, State.maybeStartHttpReader, State.stopHttpReader, State.record, hsd, hst]
  | shutDown =>
    obtain ⟨-, -, hlog, hbroken⟩ := shutdownInternal_eq (s.record [.shutDown]) true
    refine ⟨[.shutDown], hlog, quiet_of_forall (by simp [Event.mark]), by simp [hbroken], ?_⟩
    rw [shutdown_shutdownInternal, Bool.true_or]

theorem mark_eq_shutDown {e : Event} : e.mark = .shutDown ↔ e = .shutDown := by
  cases e with
  | returned t o => cases o <;> simp [Event.mark]
  | _ => simp [Event.mark]

theorem maybeStart_shutdown (s : State) : s.maybeStartHttpReader.shutdown = s.shutdown := by
  unfold State.maybeStartHttpReader
  split_ifs
  · rfl
  · rfl

/-- Only `Shutdown()` changes the flag. -/
theorem shutdown_of_did {c : Choice} (hne : c ≠ .shutdown) (hd : Did sp s c s') : s'.shutdown = s.shutdown := by
  cases hd with
  | refused _ _ => rfl
  | ready _ _ => exact (Plain.proceed _ _ _ _ _).shutdown
  | waits _ _ => rfl
  | @starts p context _ _ _ =>
    refine (Plain.startConnect _ _ _ _).shutdown.trans ?_
    unfold State.fresh
    split_ifs
    · exact shutdown_shutdownInternal _ _
    · rfl
  | woken _ _ => exact (Plain.proceed _ _ _ _ _).shutdown
  | @initDone t k id head body _ _ =>
    exact (Plain.initAnswered _ _ _ _ _ _).shutdown.trans (Plain.postResult sp s (some id) head body).shutdown
  | @ackDone t k assigned head body _ _ =>
    refine Eq.trans ?_ (Plain.postResult sp s none head body).shutdown
    unfold State.ackAnswered
    split
    · rfl
    · exact (Plain.finishConnect_failed _ _ _ _ _).shutdown
    · set s₁ := (s.postResult sp none head body).1
      have hproceed := Plain.proceed sp
        ((((s₁.setState .ready).notifyConnectWaiters.record [.handshaken t assigned]).setState .ready
          ).maybeStartHttpReader.notifyConnectWaiters) t k none
      have hstart := maybeStart_shutdown
        (((s₁.setState .ready).notifyConnectWaiters.record [.handshaken t assigned]).setState .ready)
      exact hproceed.shutdown.trans ((Plain.notify _).shutdown.trans (hstart.trans (Plain.notify _).shutdown))
  | @toolDone t k id head body _ _ => exact (Plain.postResult sp s (some id) head body).shutdown
  | readerLoops _ _ _ =>
    unfold State.readHttpNotifications
    split_ifs
    · rfl
    · rfl
  | received _ _ =>
    unfold State.receive
    split_ifs
    · rfl
    simp only
    split_ifs
    · rfl
    · unfold State.recordId State.forward
      split <;> split <;> rfl
  | getDone _ _ =>
    unfold State.getCompletes
    split_ifs
    · rfl
    · rfl
    · rfl
    · rfl
  | @handlerSet b =>
    unfold State.setInboundEventHandler
    simp only
    split_ifs
    · exact maybeStart_shutdown _
    · rfl
  | shutDown => exact absurd rfl hne

theorem stopped_step {c : Choice} (hr : ReadersOk s) (hr' : ReadersOk s') (h : Stopped s)
    (hok : Revived sp s c = false) (hd : Did sp s c s') : Stopped s' := by
  have hnot : ∀ {s : State}, ReadersOk s → s.shutdown = false → ∀ e ∈ s.log, e.mark ≠ .shutDown := by
    intro s hr hsd e he hm
    rw [mark_eq_shutDown.mp hm] at he
    simp [hr.shutdown he] at hsd
  cases hsd : s.shutdown with
  | true =>
    obtain ⟨es, hl, hq, hst, -⟩ := rests_of_did hsd (h.idle hsd) hok hd
    exact ⟨fun _ => hst, by rw [hl]; exact quietAfterShutdown_append h.quiet hq⟩
  | false =>
    by_cases hc : c = .shutdown
    · subst hc
      cases hd with
      | shutDown =>
        obtain ⟨-, -, hlog, hbroken⟩ := shutdownInternal_eq (s.record [.shutDown]) true
        refine ⟨fun _ => by simp [hbroken], ?_⟩
        rw [hlog]
        exact quietAfterShutdown_append_of_not (hnot hr hsd) rfl
      | readerLoops _ h _ => simp at h
    · have hsd' := shutdown_of_did hc hd
      rw [hsd] at hsd'
      have hall : quietAfterShutdown _ (_ ++ []) = true := quietAfterShutdown_append_of_not (hnot hr' hsd') rfl
      exact ⟨by simp [hsd'], by simpa using hall⟩

theorem stopped_init : Stopped {} := ⟨by simp, rfl⟩

end Http

/-! ### Whole runs -/

/-- **Shutdown is final.** Over either transport, in every run in which no
handshake of a client that is shut down is answered with success: after
`Shutdown()` nothing is sent to the server, no child and no reader is started,
and every call that is made returns an error. -/
theorem shutdown_final_of_unrevived (piped : Stdio.Spec) (sp : Http.Spec) :
    (∀ cs s, Stdio.Reaches piped (fun s c => Stdio.Revived s c = false) cs s →
      quietAfterShutdown Stdio.Event.mark s.log = true) ∧
    (∀ cs s, Http.Reaches sp (fun s c => Http.Revived sp s c = false) cs s →
      quietAfterShutdown Http.Event.mark s.log = true) := by
  constructor
  · intro cs s h
    have hI : Stdio.Stopped s := Stdio.Reaches.invariant
      (fun _ _ _ _ hI hok hd => Stdio.stopped_step hI hok hd) h Stdio.stopped_init
    exact hI.quiet
  · intro cs s h
    have hI : Http.ReadersOk s ∧ Http.Stopped s := Http.Reaches.invariant
      (I := fun s => Http.ReadersOk s ∧ Http.Stopped s)
      (fun _ _ _ hI hok hd => ⟨Http.readersOk_step hI.1 hd,
        Http.stopped_step hI.1 (Http.readersOk_step hI.1 hd) hI.2 hok hd⟩)
      h ⟨Http.readersOk_init, Http.stopped_init⟩
    exact hI.2.quiet

/-- A client is shut down while `initialize` is outstanding, which then fails. -/
def Http.abortedRun : List Http.Choice := [.call .connect "", .shutdown, .failed 0, .call .listTools ""]

/-- A client is shut down before the answer to `initialize` is read. -/
def Stdio.abortedRun : List Stdio.Choice :=
  [.call .connect false .started, .written true, .shutdown, .resume 0, .call .listTools false .started]

theorem shutdown_final_of_unrevived_aborted :
    (∃ s, Stdio.Reaches Stdio.Spec.sample (fun s c => Stdio.Revived s c = false) Stdio.abortedRun s ∧
      s.shutdown = true ∧ quietAfterShutdown Stdio.Event.mark s.log = true) ∧
    (∃ s, Http.Reaches Http.Spec.sample (fun s c => Http.Revived Http.Spec.sample s c = false) Http.abortedRun s ∧
      s.shutdown = true ∧ quietAfterShutdown Http.Event.mark s.log = true) := by
  constructor
  · have h : (Stepping.check (Stdio.step Stdio.Spec.sample) (fun s c => !Stdio.Revived s c) Stdio.abortedRun {}).any
        (fun s => s.shutdown) = true := by decide
    obtain ⟨s, hr, hs⟩ := Stepping.Run.exists_of_check (fun s c => Stdio.Revived s c = false) h
      fun _ _ h => by simpa using h
    exact ⟨s, hr, hs, (shutdown_final_of_unrevived Stdio.Spec.sample Http.Spec.sample).1 _ _ hr⟩
  · have h : (Stepping.check (Http.step Http.Spec.sample) (fun s c => !Http.Revived Http.Spec.sample s c)
        Http.abortedRun {}).any (fun s => s.shutdown) = true := by decide
    obtain ⟨s, hr, hs⟩ := Stepping.Run.exists_of_check (fun s c => Http.Revived Http.Spec.sample s c = false) h
      fun _ _ h => by simpa using h
    exact ⟨s, hr, hs, (shutdown_final_of_unrevived Stdio.Spec.sample Http.Spec.sample).2 _ _ hr⟩

/-- The answer to `initialize` comes after `Shutdown()`. -/
def Http.revivedRun : List Http.Choice := [.call .connect "", .shutdown, .answer 0 1 "a"]

/-- The rest of the handshake is sent after `Shutdown()`. -/
theorem not_shutdown_final : ∃ s, Http.Reaches Http.Spec.sample (fun _ _ => True) Http.revivedRun s ∧
    quietAfterShutdown Http.Event.mark s.log = false := by
  have h : (Stepping.check (Http.step Http.Spec.sample) (fun _ _ => true) Http.revivedRun {}).any
      (fun s => !quietAfterShutdown Http.Event.mark s.log) = true := by decide
  obtain ⟨s, hr, hs⟩ := Stepping.Run.exists_of_check (fun _ _ => True) h fun _ _ _ => trivial
  exact ⟨s, hr, by simpa using hs⟩

end Mcp
end AgentFlow
