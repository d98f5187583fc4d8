/-
# The handshake comes first

On every child the first line written should be `initialize`, and no other
request before its answer has arrived and `notifications/initialized` is
queued (`HandshakeFirst`). `ConnectStdio` makes the client ready before the
handshake, and nothing ties lines or handshakes to their child, so the code
does this only in runs whose steps keep four conditions (`Careful`): no line is
left unwritten when a child is started, no call begins while the handshake of
the present child is under way, no handshake of an earlier child ends well, and
no answer to `initialize` has a malformed error member.

The lines of the present child, written or not, are a queue that starts with
`initialize` (`Starts`); that is the invariant (`Orderly`).

Key definitions: `HandshakeFirst`, `Careful`, `Orderly`.
Key theorems: `handshake_first_of_careful`, `not_handshake_first`.
-/
import AgentFlow.Tools.Mcp.Matching

namespace AgentFlow
namespace Mcp
namespace Stdio

open Json

variable {sp : Spec} {s s' : State} {t c : ℕ}

/-! ### Lines, written and not -/

/-- The lines of the queue whose write has not started. -/
def State.unwritten (s : State) : List Line := if s.writing.isSome then s.writeQueue.tail else s.writeQueue

def Event.written? (c : ℕ) : Event → Option Line
  | .wrote c' l => if c' = c then some l else none
  | _ => none

/-- The lines written to the child `c`. -/
def written (c : ℕ) (log : List Event) : List Line := log.filterMap (Event.written? c)

@[simp]
theorem written_append (log es : List Event) : written c (log ++ es) = written c log ++ written c es :=
  List.filterMap_append

/-- Entries that write nothing. -/
def Event.still : Event → Bool
  | .wrote _ _ => false
  | _ => true

theorem written_of_still {es : List Event} (h : ∀ e ∈ es, e.still = true) : written c es = [] := by
  rw [written, List.filterMap_eq_nil_iff]
  intro e he
  have := h e he
  cases e with
  | wrote c' l => simp [Event.still] at this
  | _ => rfl

/-- What is written starts the queue: the lines, written or not, stay the same.
`f` reads the written lines off the log. -/
theorem Pumps.lineup {f : Event → Option Line} {child w : Option ℕ} {queue : List Line} {es : List Event}
    (hf : ∀ c l, child = some c → f (.wrote c l) = some l) (h : Pumps child queue none w es) :
    es.filterMap f ++ (if w.isSome then queue.tail else queue) = queue := by
  cases h with
  | nothing => simp
  | starts hchild hq => simp [hf _ _ hchild, hq]

/-- A new line is the last of the lines. -/
theorem Pumps.lineup_snoc {f : Event → Option Line} {child w : Option ℕ} {l : Line} {es : List Event}
    (hf : ∀ c l, child = some c → f (.wrote c l) = some l)
    (hbusy : s.writing.isSome = true → s.writeQueue ≠ [])
    (h : Pumps child (s.writeQueue ++ [l]) s.writing w es) :
    es.filterMap f ++ (if w.isSome then (s.writeQueue ++ [l]).tail else s.writeQueue ++ [l]) = s.unwritten ++ [l] := by
  cases hw : s.writing with
  | none =>
    rw [hw] at h
    rw [h.lineup hf, State.unwritten, hw]
    simp
  | some c' =>
    rw [hw] at h
    cases h
    have hne := hbusy (by rw [hw]; rfl)
    rw [State.unwritten, hw]
    simp [List.tail_append_of_ne_nil hne]

theorem written?_of_child {child : Option ℕ} (hc : child = some c) (c' : ℕ) (l : Line) (h : child = some c') :
    Event.written? c (.wrote c' l) = some l := by
  obtain rfl := Option.some.inj (hc.symm.trans h)
  simp [Event.written?]

/-! ### What should hold -/

/-- The `initialize` request of the child `c`. -/
def IsInit (c : ℕ) (l : Line) : Prop := ∃ id, l = ⟨c, ⟨some id, .init, initParams⟩⟩

/-- The answer to the `initialize` of the child `c` has come with a result, and
`notifications/initialized` is queued. -/
def Handshaken (c : ℕ) (log : List Event) : Prop :=
  ∃ id v r, .queued ⟨c, ⟨some id, .init, initParams⟩⟩ ∈ log ∧ .delivered id v ∈ log ∧
    rpcResult v = .ok (.ok r) ∧ .queued ⟨c, initializedNotification⟩ ∈ log

/-- A line written first is `initialize`; a later request is written only after
the handshake. -/
def InOrder (before : List Event) (e : Event) : Prop :=
  ∀ c l, e = .wrote c l →
    (written c before = [] → IsInit c l) ∧
    (written c before ≠ [] → l.message.isRequest = true → Handshaken c before)

/-- **On every child the handshake comes first.** -/
def HandshakeFirst (log : List Event) : Prop := History.Each InOrder log

theorem Handshaken.mono {log es : List Event} (h : Handshaken c log) : Handshaken c (log ++ es) := by
  obtain ⟨id, v, r, hq, hv, hr, hn⟩ := h
  exact ⟨id, v, r, List.mem_append_left _ hq, List.mem_append_left _ hv, hr, List.mem_append_left _ hn⟩

theorem InOrder.of_still {e : Event} (he : e.still = true) (before : List Event) : InOrder before e := by
  rintro c l rfl
  simp [Event.still] at he

/-- The lines of a child: `initialize`, and then requests only after the
handshake. -/
def Starts (c : ℕ) (log : List Event) (lines : List Line) : Prop :=
  ∃ l rest, lines = l :: rest ∧ IsInit c l ∧ ∀ l' ∈ rest, l'.message.isRequest = true → Handshaken c log

namespace Starts

variable {log : List Event} {lines : List Line}

theorem mono {es : List Event} (h : Starts c log lines) : Starts c (log ++ es) lines := by
  obtain ⟨l, rest, rfl, hi, hr⟩ := h
  exact ⟨l, rest, rfl, hi, fun l' hl' hq => (hr l' hl' hq).mono⟩

theorem singleton {l : Line} (h : IsInit c l) : Starts c log [l] := ⟨l, [], rfl, h, by simp⟩

theorem snoc {l : Line} (h : Starts c log lines) (hl : l.message.isRequest = true → Handshaken c log) :
    Starts c log (lines ++ [l]) := by
  obtain ⟨l₀, rest, rfl, hi, hr⟩ := h
  refine ⟨l₀, rest ++ [l], rfl, hi, fun l' hl' hq => ?_⟩
  rcases List.mem_append.mp hl' with hl' | hl'
  · exact hr l' hl' hq
  · obtain rfl : l' = l := by simpa using hl'
    exact hl hq

/-- The next line to write is in order. -/
theorem next {l : Line} {done rest : List Line} (h : Starts c log (done ++ l :: rest)) :
    (done = [] → IsInit c l) ∧ (done ≠ [] → l.message.isRequest = true → Handshaken c log) := by
  obtain ⟨l₀, rest', heq, hi, hr⟩ := h
  constructor
  · rintro rfl
    obtain ⟨rfl, -⟩ : l = l₀ ∧ rest = rest' := by simpa using heq
    exact hi
  · intro hne hq
    obtain ⟨d, done', rfl⟩ := List.exists_cons_of_ne_nil hne
    obtain ⟨-, rfl⟩ : d = l₀ ∧ done' ++ l :: rest = rest' := by simpa using heq
    exact hr l (by simp) hq

end Starts

/-! ### The invariant -/

/-- A call is suspended in the handshake of the child `c`. -/
def State.InHandshake (s : State) (id c : ℕ) : Prop := ∃ k ∈ s.tasks, k.pc = .handshake id c

structure Orderly (s : State) : Prop where
  order : HandshakeFirst s.log
  le_children : ∀ c l, .wrote c l ∈ s.log → c ≤ s.children
  child : ∀ c, s.child = some c → c = s.children
  busy : s.writing.isSome = true → s.writeQueue ≠ []
  lines : ∀ c, s.child = some c → Starts c s.log (written c s.log ++ s.unwritten)
  ready : ∀ c, s.child = some c → s.state = .ready → Handshaken c s.log ∨ ∃ id, s.InHandshake id c
  sent : ∀ id c, s.InHandshake id c → .queued ⟨c, ⟨some id, .init, initParams⟩⟩ ∈ s.log

namespace Orderly

/-- A step that the writer does not see. -/
theorem quiet {r : State} {es : List Event} (h : Orderly s) (hc : ∀ c, r.child = some c → s.child = some c)
    (hn : r.children = s.children) (hq : r.writeQueue = s.writeQueue) (hw : r.writing = s.writing)
    (hl : r.log = s.log ++ es) (hes : ∀ e ∈ es, e.still = true)
    (hready : ∀ c, r.child = some c → r.state = .ready → Handshaken c r.log ∨ ∃ id, r.InHandshake id c)
    (hsent : ∀ id c, r.InHandshake id c → s.InHandshake id c) : Orderly r where
  order := by
    rw [hl]
    exact History.Each.append_of_forall h.order fun e he l => InOrder.of_still (hes e he) l
  le_children := by
    intro c l hcl
    rw [hl, List.mem_append] at hcl
    rw [hn]
    rcases hcl with hcl | hcl
    · exact h.le_children c l hcl
    · have := hes _ hcl
      simp [Event.still] at this
  child := by
    intro c hc'
    rw [hn]
    exact h.child c (hc c hc')
  busy := by
    rw [hw, hq]
    exact h.busy
  lines := by
    intro c hc'
    have hu : r.unwritten = s.unwritten := by simp [State.unwritten, hw, hq]
    rw [hl, hu, written_append, written_of_still hes, List.append_nil]
    exact (h.lines c (hc c hc')).mono
  ready := hready
  sent := by
    intro id c hi
    rw [hl]
    exact List.mem_append_left _ (h.sent id c (hsent id c hi))

/-- The writer goes on with the queue `queue`. -/
theorem pumped {w w' : Option ℕ} {queue : List Line} {es es' : List Event}
    (order : HandshakeFirst s.log) (le_children : ∀ c l, .wrote c l ∈ s.log → c ≤ s.children)
    (child : ∀ c, s.child = some c → c = s.children)
    (hp : Pumps s.child queue w w' es') (hes : ∀ e ∈ es, e.still = true)
    (hbusy : w'.isSome = true → queue ≠ [])
    (hnext : ∀ c, s.child = some c → w = none → Starts c s.log (written c s.log ++ queue))
    (hlines : ∀ c, s.child = some c →
      Starts c s.log (written c s.log ++ (written c es' ++ if w'.isSome then queue.tail else queue)))
    (hready : ∀ c, s.child = some c → s.state = .ready →
      Handshaken c (s.log ++ es) ∨ ∃ id, s.InHandshake id c)
    (hsent : ∀ id c, s.InHandshake id c → .queued ⟨c, ⟨some id, .init, initParams⟩⟩ ∈ s.log ++ es) :
    Orderly (s.withWriter queue w' (es ++ es')) := by
  have hlog : (s.withWriter queue w' (es ++ es')).log = s.log ++ es ++ es' := by simp [State.withWriter]
  have hbefore : HandshakeFirst (s.log ++ es) :=
    History.Each.append_of_forall order fun e he l => InOrder.of_still (hes e he) l
  constructor
  · rw [hlog]
    cases hp with
    | nothing => simpa using hbefore
    | starts hc hq =>
      rename_i c l rest
      refine History.each_snoc.mpr ⟨hbefore, ?_⟩
      intro c' l' he
      obtain ⟨rfl, rfl⟩ : c = c' ∧ l = l' := by simpa using he
      have hst := hnext c hc rfl
      rw [hq] at hst
      rw [written_append, written_of_still hes, List.append_nil]
      exact ⟨hst.next.1, fun hne hr => (hst.next.2 hne hr).mono⟩
  · intro c l hcl
    rw [hlog, List.append_assoc, List.mem_append, List.mem_append] at hcl
    rcases hcl with hcl | hcl | hcl
    · exact le_children c l hcl
    · have := hes _ hcl
      simp [Event.still] at this
    · cases hp with
      | nothing => simp at hcl
      | starts hc hq =>
        rename_i c' l' rest
        obtain ⟨rfl, rfl⟩ : c = c' ∧ l = l' := by simpa using hcl
        exact le_of_eq (child c hc)
  · exact child
  · exact hbusy
  · intro c hc
    have hu : (s.withWriter queue w' (es ++ es')).unwritten = if w'.isSome then queue.tail else queue := rfl
    rw [hlog, hu, written_append, written_append, written_of_still hes, List.append_nil, List.append_assoc,
      List.append_assoc]
    exact (hlines c hc).mono
  · intro c hc hr
    rw [hlog]
    rcases hready c hc hr with hh | hh
    · exact Or.inl hh.mono
    · exact Or.inr hh
  · intro id c hi
    rw [hlog]
    exact List.mem_append_left _ (hsent id c hi)

/-- A line is queued. -/
theorem push {l : Line} {w : Option ℕ} {es : List Event}
    (order : HandshakeFirst s.log) (le_children : ∀ c l, .wrote c l ∈ s.log → c ≤ s.children)
    (child : ∀ c, s.child = some c → c = s.children) (busy : s.writing.isSome = true → s.writeQueue ≠ [])
    (hp : Pumps s.child (s.writeQueue ++ [l]) s.writing w es)
    (hlines : ∀ c, s.child = some c → Starts c s.log (written c s.log ++ (s.unwritten ++ [l])))
    (hready : ∀ c, s.child = some c → s.state = .ready →
      Handshaken c (s.log ++ [.queued l]) ∨ ∃ id, s.InHandshake id c)
    (hsent : ∀ id c, s.InHandshake id c → .queued ⟨c, ⟨some id, .init, initParams⟩⟩ ∈ s.log ++ [.queued l]) :
    Orderly (s.withWriter (s.writeQueue ++ [l]) w (.queued l :: es)) := by
  refine pumped order le_children child hp (by simp [Event.still]) (by simp) ?_ ?_ hready hsent
  · intro c hc hw
    have hu : s.unwritten = s.writeQueue := by simp [State.unwritten, hw]
    rw [← hu]
    exact hlines c hc
  · intro c hc
    have hall : written c es ++ _ = s.unwritten ++ [l] := hp.lineup_snoc (written?_of_child hc) busy
    rw [hall]
    exact hlines c hc

end Orderly

/-! ### Tasks in a handshake -/

theorem InHandshake.of_modify {f : Task → Task} {l : List Task} {id : ℕ}
    (h : ∃ k ∈ l.modify t f, k.pc = .handshake id c) :
    (∃ k ∈ l, k.pc = .handshake id c) ∨ ∃ k, l[t]? = some k ∧ (f k).pc = .handshake id c := by
  by_contra hnot
  rw [not_or] at hnot
  obtain ⟨k, hk, hpc⟩ := h
  refine forall_modify (P := fun k => k.pc ≠ .handshake id c) ?_ ?_ k hk hpc
  · intro j a ha _ hpc
    exact hnot.1 ⟨a, List.mem_of_getElem? ha, hpc⟩
  · intro a ha hpc
    exact hnot.2 ⟨a, ha, hpc⟩

/-- A call in a handshake stays there when another one is changed. -/
theorem InHandshake.modify {f : Task → Task} {id : ℕ} (h : s.InHandshake id c)
    (hk : ∀ k, s.tasks[t]? = some k → k.pc = .handshake id c → (f k).pc = .handshake id c) :
    ∃ k ∈ s.tasks.modify t f, k.pc = .handshake id c := by
  obtain ⟨k, hmem, hpc⟩ := h
  obtain ⟨j, hj⟩ := List.mem_iff_getElem?.mp hmem
  by_cases htj : t = j
  · subst htj
    refine ⟨f k, List.mem_iff_getElem?.mpr ⟨t, ?_⟩, hk k hj hpc⟩
    rw [List.getElem?_modify_eq, hj]
    rfl
  · refine ⟨k, List.mem_iff_getElem?.mpr ⟨j, ?_⟩, hpc⟩
    rw [List.getElem?_modify_ne _ _ htj, hj]

namespace Orderly

/-- A step that changes neither the writer, the child, nor the calls. -/
theorem same {r : State} {es : List Event} (h : Orderly s) (hc : ∀ c, r.child = some c → s.child = some c)
    (hn : r.children = s.children) (hq : r.writeQueue = s.writeQueue) (hw : r.writing = s.writing)
    (hst : r.state = .ready → s.state = .ready) (ht : r.tasks = s.tasks)
    (hl : r.log = s.log ++ es) (hes : ∀ e ∈ es, e.still = true) : Orderly r := by
  have hin : ∀ id c, r.InHandshake id c ↔ s.InHandshake id c := by
    intro id c
    unfold State.InHandshake
    rw [ht]
  refine h.quiet hc hn hq hw hl hes ?_ fun id c => (hin id c).mp
  intro c hc' hr
  rcases h.ready c (hc c hc') (hst hr) with hh | ⟨id, hid⟩
  · rw [hl]
    exact Or.inl hh.mono
  · exact Or.inr ⟨id, (hin id c).mpr hid⟩

theorem finish {o : Outcome} (h : Orderly s)
    (hready : ∀ c id, s.child = some c → s.state = .ready → s.InHandshake id c →
      Handshaken c s.log ∨ ∀ k, s.tasks[t]? = some k → k.pc ≠ .handshake id c) : Orderly (s.finish t o) := by
  refine h.quiet (r := s.finish t o) (fun _ hc => hc) rfl rfl rfl rfl (by simp [Event.still]) ?_ ?_
  · intro c hc hr
    rcases h.ready c hc hr with hh | ⟨id, hid⟩
    · exact Or.inl hh.mono
    · rcases hready c id hc hr hid with hh | hne
      · exact Or.inl hh.mono
      · exact Or.inr ⟨id, InHandshake.modify hid fun k hk hpc => absurd hpc (hne k hk)⟩
  · intro id c hin
    rcases InHandshake.of_modify hin with hin | ⟨k, -, hk⟩
    · exact hin
    · simp at hk

/-- The end of a call that is in no handshake. -/
theorem finish_of_ne {k : Task} {o : Outcome} (h : Orderly s) (hk : s.tasks[t]? = some k)
    (hpc : ∀ id c, k.pc ≠ .handshake id c) : Orderly (s.finish t o) := by
  refine h.finish fun c id _ _ _ => Or.inr fun k' hk' => ?_
  obtain rfl := Option.some.inj (hk'.symm.trans hk)
  exact hpc id c

theorem arrive (h : Orderly s) (p : Purpose) (fired : Bool) : Orderly (s.arrive p fired) := by
  have hin : ∀ id c, (s.arrive p fired).InHandshake id c ↔ s.InHandshake id c := by
    intro id c
    simp [State.InHandshake, State.arrive, newTask, or_and_right, exists_or]
  refine h.quiet (r := s.arrive p fired) (fun _ hc => hc) rfl rfl rfl rfl (by simp [Event.still]) ?_
    fun id c => (hin id c).mp
  intro c hc hr
  rcases h.ready c hc hr with hh | ⟨id, hid⟩
  · exact Or.inl hh.mono
  · exact Or.inr ⟨id, (hin id c).mpr hid⟩

theorem torn (h : Orderly s) : Orderly s.torn := by
  unfold State.torn
  split_ifs
  · exact h.same (r := s.closePipes.failPending) (fun _ hc => by cases hc) rfl rfl rfl (fun hr => hr) rfl rfl
      (by simp [Event.still])
  · exact h

theorem transportDied (h : Orderly s) : Orderly s.transportDied :=
  h.same (r := s.transportDied) (fun _ hc => hc) rfl rfl rfl (fun hr => by cases hr) rfl rfl (by simp [Event.still])

theorem notified {m : Message} (h : Orderly s) (hm : m.isRequest = false) (hn : s.Notified m s') : Orderly s' := by
  rcases hn with ⟨-, rfl⟩ | ⟨-, w, es, rfl, hp⟩
  · exact h
  refine push h.order h.le_children h.child h.busy hp ?_ ?_ ?_
  · intro c hc
    rw [← List.append_assoc]
    exact (h.lines c hc).snoc fun hr => by simp [hm] at hr
  · intro c hc hr
    rcases h.ready c hc hr with hh | hh
    · exact Or.inl hh.mono
    · exact Or.inr hh
  · intro id c hi
    exact List.mem_append_left _ (h.sent id c hi)

/-- A request of a tool, after the handshake. -/
theorem asked {m : Method} {params : Value} {token : Option Bool} (h : Orderly s)
    (hh : ∀ c, s.child = some c → Handshaken c s.log) (ha : s.Asked t m params token .request s') : Orderly s' := by
  obtain ⟨w, es, rfl, hp⟩ := ha
  have hreg : Orderly (s.registered t m token .request) := by
    refine h.quiet (r := s.registered t m token .request) (fun _ hc => hc) rfl rfl rfl rfl ?_ ?_ ?_
    · simp [Event.still]
    · intro c hc _
      exact Or.inl (hh c hc).mono
    · intro id c hin
      rcases InHandshake.of_modify hin with hin | ⟨k, -, hk⟩
      · exact hin
      · simp [Task.ask] at hk
  refine push (s := s.registered t m token .request) hreg.order hreg.le_children hreg.child hreg.busy hp ?_ ?_ ?_
  · intro c hc
    rw [← List.append_assoc]
    exact (hreg.lines c hc).snoc fun _ => (hh c hc).mono
  · intro c hc _
    exact Or.inl (hh c hc).mono.mono
  · intro id c hi
    exact List.mem_append_left _ (hreg.sent id c hi)

theorem continues {k : Task} (h : Orderly s)
    (hh : ∀ c, s.child = some c → Handshaken c s.log) (hc : Continues sp s t k s') : Orderly s' := by
  have hfin : ∀ o, Orderly (s.finish t o) := fun o => h.finish fun c _ hc _ _ => Or.inl (hh c hc)
  cases hc with
  | refused _ => exact hfin _
  | connected _ => exact hfin _
  | asked _ ha => exact h.asked hh ha

/-- A child is started with no line left unwritten, and sent `initialize`. -/
theorem opened {k : Task} (h : Orderly s) (hu : s.unwritten = []) (hk : s.tasks[t]? = some k)
    (ha : s.openSession.Asked t .init initParams none (Pc.handshake · (s.children + 1)) s') : Orderly s' := by
  obtain ⟨w, es, rfl, hp⟩ := ha
  let s₁ := s.openSession.registered t .init none (Pc.handshake · (s.children + 1))
  have hlog : s₁.log = s.log ++ [.spawned (s.children + 1), .requested t s.requests.next .init] := by
    simp [s₁, State.registered, State.openSession, posted]
  have hstill : ∀ e ∈ [Event.spawned (s.children + 1), .requested t s.requests.next .init], e.still = true := by
    simp [Event.still]
  have hold : ∀ c l, .wrote c l ∈ s₁.log → c ≤ s.children := by
    intro c l hcl
    rw [hlog] at hcl
    exact h.le_children c l (by simpa using hcl)
  have hnone : written (s.children + 1) s₁.log = [] := by
    rw [written, List.filterMap_eq_nil_iff]
    intro e he
    cases e with
    | wrote c l =>
      have := hold c l he
      simp [Event.written?]
      omega
    | _ => rfl
  refine push (s := s₁) ?_ ?_ ?_ h.busy hp ?_ ?_ ?_
  · rw [hlog]
    exact History.Each.append_of_forall h.order fun e he l => InOrder.of_still (hstill e he) l
  · intro c l hcl
    exact Nat.le_succ_of_le (hold c l hcl)
  · intro c hc
    exact (Option.some.inj hc).symm
  · intro c hc
    obtain rfl : s.children + 1 = c := Option.some.inj hc
    have hun : s₁.unwritten = [] := hu
    rw [hnone, hun]
    exact Starts.singleton ⟨s.requests.next, rfl⟩
  · intro c hc _
    obtain rfl : s.children + 1 = c := Option.some.inj hc
    refine Or.inr ⟨s.requests.next, k.ask none s.requests.next (.handshake s.requests.next (s.children + 1)), ?_, rfl⟩
    refine List.mem_iff_getElem?.mpr ⟨t, ?_⟩
    have hmod : s₁.tasks = s.tasks.modify t fun k =>
        k.ask none s.requests.next (.handshake s.requests.next (s.children + 1)) := rfl
    rw [hmod, List.getElem?_modify_eq, hk]
    rfl
  · intro id c hin
    rcases InHandshake.of_modify hin with hin | ⟨k, -, hpc⟩
    · refine List.mem_append_left _ ?_
      rw [hlog]
      exact List.mem_append_left _ (h.sent id c hin)
    · obtain ⟨rfl, rfl⟩ : s.openSession.requests.next = id ∧ s.children + 1 = c := by simpa [Task.ask] using hpc
      exact List.mem_append_right _ (by simp [State.openSession])

/-- The outstanding write is over. -/
theorem pop {c : ℕ} {w : Option ℕ} {es : List Event} (h : Orderly s) (hw : s.writing = some c)
    (hp : Pumps s.child s.writeQueue.tail none w es) (hbusy : w.isSome = true → s.writeQueue.tail ≠ []) :
    Orderly (s.withWriter s.writeQueue.tail w es) := by
  have hu : s.unwritten = s.writeQueue.tail := by simp [State.unwritten, hw]
  have hnil : ∀ e ∈ ([] : List Event), e.still = true := by simp
  refine pumped h.order h.le_children h.child hp hnil hbusy ?_ ?_ ?_ ?_
  · intro c hc _
    rw [← hu]
    exact h.lines c hc
  · intro c hc
    have hall : written c es ++ _ = s.writeQueue.tail := hp.lineup (written?_of_child hc)
    rw [hall, ← hu]
    exact h.lines c hc
  · intro c hc hr
    rw [List.append_nil]
    exact h.ready c hc hr
  · intro id c hi
    rw [List.append_nil]
    exact h.sent id c hi

end Orderly

/-! ### Careful runs -/

/-- The handshake of the present child is under way. -/
def State.handshaking (s : State) : Bool :=
  s.tasks.any fun k =>
    match k.pc with
    | .handshake _ c => c = s.children
    | _ => false

/-- How the handshake of the child `c` may end: not in a thrown error, and well
only if the child is still the present one. -/
def handshakeMayEnd (s : State) (c : ℕ) : Option (Requests.Slot Value) → Bool
  | some (.delivered v) =>
    match rpcResult v with
    | .error _ => false
    | .ok (.error _) => true
    | .ok (.ok _) => c = s.children
  | _ => true

/-- What a run has to keep to for the handshake to come first. -/
def Careful (sp : Spec) (s : State) : Choice → Bool
  | .call p fired spawn =>
    (!s.spawns sp (.call p fired spawn) || s.unwritten = []) &&
      (p = .connect || s.state ≠ .ready || !s.handshaking)
  | .resume t =>
    match (s.tasks[t]?).map Task.pc with
    | some (.handshake id c) => handshakeMayEnd s c (s.requests.slot id)
    | _ => true
  | _ => true

theorem not_inHandshake_of_not_handshaking (h : s.handshaking = false) (id : ℕ) : ¬ s.InHandshake id s.children := by
  rintro ⟨k, hk, hpc⟩
  rw [State.handshaking, List.any_eq_false] at h
  have := h k hk
  simp [hpc] at this

theorem careful_resume {k : Task} {id : ℕ} (hk : s.tasks[t]? = some k) (hpc : k.pc = .handshake id c)
    (h : Careful sp s (.resume t) = true) : handshakeMayEnd s c (s.requests.slot id) = true := by
  simpa [Careful, hk, hpc] using h

theorem Pumps.tail_ne {child w : Option ℕ} {queue : List Line} {es : List Event}
    (h : Pumps child queue none w es) : w.isSome = true → queue ≠ [] := by
  cases h with
  | nothing => simp
  | starts _ hq => simp [hq]

theorem orderly_step {ch : Choice} (hrec : Recorded s) (h : Orderly s) (hok : Careful sp s ch = true)
    (hd : Did sp s ch s') : Orderly s' := by
  have hnew : ∀ p fired, (s.arrive p fired).tasks[s.tasks.length]? = some (newTask p fired) := fun p fired =>
    List.getElem?_concat_length
  cases hd with
  | refused _ => exact (h.arrive _ _).finish_of_ne (hnew _ _) (by simp [newTask])
  | @ready p fired spawn _ hr _ hc =>
    have ha := h.arrive p fired
    cases hc with
    | refused _ => exact ha.finish_of_ne (hnew _ _) (by simp [newTask])
    | connected _ => exact ha.finish_of_ne (hnew _ _) (by simp [newTask])
    | asked hreq hask =>
      refine ha.asked (fun c hc => ?_) hask
      have hp : p ≠ .connect := by
        rintro rfl
        simp [newTask, Purpose.request] at hreq
      have hno : s.handshaking = false := by
        simp only [Careful, Bool.and_eq_true, Bool.or_eq_true, decide_eq_true_eq] at hok
        have := hok.2
        simpa [hp, hr] using this
      rcases h.ready c hc hr with hh | ⟨id, hid⟩
      · exact hh.mono
      · rw [h.child c hc] at hid
        exact absurd hid (not_inHandshake_of_not_handshaking hno id)
  | @notStarted p fired _ _ _ _ =>
    have hk : ((s.arrive p fired).torn.setState .broken).tasks[s.tasks.length]? = some (newTask p fired) := by
      rw [← hnew p fired, ← State.torn_tasks (s.arrive p fired)]
      rfl
    refine Orderly.finish_of_ne ?_ hk (by simp [newTask])
    exact (h.arrive p fired).torn.same (r := State.setState _ _) (fun _ hc => hc) rfl rfl rfl (fun hr => by cases hr)
      rfl (List.append_nil _).symm (by simp)
  | @started p fired _ hsp ha =>
    have hu : (s.arrive p fired).torn.unwritten = [] := by
      simp only [Careful, hsp, Bool.and_eq_true, Bool.or_eq_true, decide_eq_true_eq] at hok
      have hu : s.unwritten = [] := by simpa using hok.1
      unfold State.torn
      split_ifs
      · exact hu
      · exact hu
    have hk : (s.arrive p fired).torn.tasks[s.tasks.length]? = some (newTask p fired) := by
      rw [State.torn_tasks, hnew]
    have hcn : (s.arrive p fired).torn.children = s.children := (s.arrive p fired).torn_children
    rw [← hcn] at ha
    exact (h.arrive p fired).torn.opened hu hk ha
  | handshakeThrew hk hpc hv he =>
    have := careful_resume hk hpc hok
    simp [hv, handshakeMayEnd, he] at this
  | handshakeFailed hk hpc hv he =>
    refine Orderly.finish ?_ fun _ _ _ hr => by cases hr
    exact h.same (r := s.setState .broken) (fun _ hc => hc) rfl rfl rfl (fun hr => by cases hr) rfl
      (List.append_nil _).symm (by simp)
  | @handshakeDone i k id c v result s₁ _ hk hpc hv he hn hc =>
    have hcur : c = s.children := by
      have := careful_resume hk hpc hok
      simpa [hv, handshakeMayEnd, he] using this
    have h₁ := h.notified rfl hn
    have hh : ∀ c', s₁.child = some c' → Handshaken c' s₁.log := by
      intro c' hc'
      rcases hn with ⟨hnone, rfl⟩ | ⟨⟨c₀, hc₀⟩, w, es, rfl, hp⟩
      · rw [hnone] at hc'
        simp at hc'
      · obtain rfl : c₀ = c' := Option.some.inj (hc₀.symm.trans hc')
        have hcc : c₀ = c := (h.child c₀ hc₀).trans hcur.symm
        subst hcc
        refine ⟨id, v, result, ?_, ?_, he, ?_⟩
        · exact List.mem_append_left _ (h.sent id c₀ ⟨k, List.mem_of_getElem? hk, hpc⟩)
        · exact List.mem_append_left _ (hrec.delivered_mem hv)
        · refine List.mem_append_right _ ?_
          rw [hcur]
          simp
    refine Orderly.continues (s := s₁.setState .ready) ?_ hh hc
    refine h₁.quiet (r := s₁.setState .ready) (fun _ hc => hc) rfl rfl rfl (List.append_nil _).symm (by simp) ?_
      fun _ _ hin => hin
    exact fun c hc _ => Or.inl (hh c hc)
  | answered hk hpc _ => exact h.finish_of_ne hk (by simp [hpc])
  | fired hk _ =>
    refine h.quiet (r := s.fired _ _) (fun _ hc => hc) rfl rfl rfl rfl (by simp [Event.still]) ?_ ?_
    · intro c hc hr
      rcases h.ready c hc hr with hh | ⟨id, hid⟩
      · exact Or.inl hh.mono
      · exact Or.inr ⟨id, InHandshake.modify hid fun _ _ hpc => hpc⟩
    · intro id c hin
      rcases InHandshake.of_modify hin with hin | ⟨k, hk, hpc⟩
      · exact hin
      · exact ⟨k, List.mem_of_getElem? hk, hpc⟩
  | cancelMissed _ _ =>
    exact h.same (r := { s with cancels := _ }) (fun _ hc => hc) rfl rfl rfl (fun hr => hr) rfl
      (List.append_nil _).symm (by simp)
  | cancelled _ _ hn =>
    refine Orderly.notified ?_ rfl hn
    exact h.same (r := s.cancelled _) (fun _ hc => hc) rfl rfl rfl (fun hr => hr) rfl rfl (by simp [Event.still])
  | bytes _ =>
    exact h.same (r := s.fed _ _) (fun _ hc => hc) rfl rfl rfl (fun hr => hr) rfl (List.append_nil _).symm (by simp)
  | line _ _ ht =>
    refine h.same (r := State.readAgain _ _) (fun _ hc => hc) rfl rfl rfl (fun hr => hr) rfl rfl ?_
    cases ht with
    | dropped => simp [Event.still]
    | inbound hd => cases hd <;> simp [Event.still]
  | readFailed _ =>
    refine Orderly.transportDied ?_
    exact h.same (r := { s with readers := _ }) (fun _ hc => hc) rfl rfl rfl (fun hr => hr) rfl
      (List.append_nil _).symm (by simp)
  | wrote hw hp => exact h.pop hw hp hp.tail_ne
  | writeFailed hw => exact (h.pop hw (.nothing none) (by simp)).transportDied
  | shutDown =>
    refine h.same (r := s.stopped) (fun _ hc => by cases hc) rfl rfl rfl ?_ rfl rfl (by simp [Event.still])
    intro hr
    simp only [State.stopped] at hr
    split_ifs at hr
    exact hr
  | handlerSet =>
    exact h.same (r := { s with handler := _ }) (fun _ hc => hc) rfl rfl rfl (fun hr => hr) rfl
      (List.append_nil _).symm (by simp)

theorem orderly_init : Orderly {} where
  order := History.each_nil
  le_children := by simp
  child := by simp
  busy := by simp
  lines := by simp
  ready := by simp
  sent := by simp [State.InHandshake]

/-- **The handshake comes first in every careful run.** -/
theorem handshake_first_of_careful {cs : List Choice} (h : Reaches sp (fun s c => Careful sp s c = true) cs s) :
    HandshakeFirst s.log :=
  (h.invariant_of_calls (fun _ _ _ hrec _ hI hok hd => orderly_step hrec hI hok hd) orderly_init).2.2.order

/-- A connection, and then a call, with nothing in between. -/
theorem handshake_first_of_careful_call : ∃ s, Reaches Spec.sample (fun s c => Careful Spec.sample s c = true)
    (handshakeRun ++ [.call (.callTool "a" "") false .started]) s ∧
    (written 1 s.log).map (·.message.method) = [.init, .initialized, .toolsCall] ∧ HandshakeFirst s.log := by
  have h : (Stepping.check (step Spec.sample) (fun s c => Careful Spec.sample s c)
      (handshakeRun ++ [.call (.callTool "a" "") false .started]) {}).any
      (fun s => (written 1 s.log).map (·.message.method) = [.init, .initialized, .toolsCall]) = true := by
    decide
  obtain ⟨s, hr, hs⟩ := Stepping.Run.exists_of_check (fun s c => Careful Spec.sample s c = true) h fun _ _ hc => hc
  exact ⟨s, hr, by simpa using hs, handshake_first_of_careful hr⟩

/-- The log of a call made while the handshake is under way: its request is
written before `initialize` is answered. -/
def slippedLog : List Event :=
  let init : Line := ⟨1, ⟨some 1, .init, initParams⟩⟩
  let call : Line := ⟨1, ⟨some 2, .toolsCall, Value.object [("name", .str "a"), ("arguments", .obj [])]⟩⟩
  [.called 0 .connect, .spawned 1, .requested 0 1 .init, .queued init, .wrote 1 init,
    .called 1 (.callTool "a" ""), .requested 1 2 .toolsCall, .queued call, .wrote 1 call]

/-- **The handshake does not always come first.** -/
theorem not_handshake_first : ∃ cs s, Reaches Spec.sample (fun _ _ => True) cs s ∧ ¬ HandshakeFirst s.log := by
  have h : (Stepping.check (step Spec.sample) (fun _ _ => true)
      [.call .connect false .started, .call (.callTool "a" "") false .started, .written true] {}).any
      (fun s => s.log = slippedLog) = true := by decide
  obtain ⟨s, hr, hs⟩ := Stepping.Run.exists_of_check (fun _ _ => True) h fun _ _ _ => trivial
  simp only [decide_eq_true_eq] at hs
  refine ⟨_, s, hr, fun hfirst => ?_⟩
  rw [hs] at hfirst
  have hsplit : slippedLog = slippedLog.take 8 ++ slippedLog.getLast (by simp [slippedLog]) :: [] := by decide
  obtain ⟨-, hlate⟩ := hfirst _ _ _ hsplit 1 _ (by rfl)
  obtain ⟨id, v, r, -, hv, -⟩ := hlate (by decide) (by decide)
  simp [slippedLog] at hv

end Stdio
end Mcp
end AgentFlow
