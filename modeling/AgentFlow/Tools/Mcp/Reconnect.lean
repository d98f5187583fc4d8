/-
# What a reconnect inherits from the old child

After a reconnect only lines queued for the new child should be written to it,
only its bytes parsed as its messages, and no completion of the old child may
fail a request, take a line or change the state (`Isolated`). The queue, the
buffer and the outstanding handlers are members that a reconnect does not
touch, so this holds exactly as long as there is nothing in them: in every run
in which a child is started only when no line is left unwritten, the buffer is
empty and no read is outstanding, and in which a write of an older child does
not fail (`Clean`).

Key definitions: `Isolated`, `Clean`, `Fresh`.
Key theorems: `isolated_of_clean`, `not_isolated`.
-/
import AgentFlow.Tools.Mcp.Handshake

namespace AgentFlow
namespace Mcp
namespace Stdio

open Json

variable {sp : Spec} {s s' : State} {t : ℕ}

/-! ### What should hold -/

/-- The completion of a read or a write of an earlier child. -/
def State.stale (s : State) : Choice → Bool
  | .data r _ => (s.readers[r]?).any fun rd => rd.child ≠ s.children
  | .lineReady r => (s.readers[r]?).any fun rd => rd.child ≠ s.children
  | .readFailed r => (s.readers[r]?).any fun rd => rd.child ≠ s.children
  | .written _ => s.writing.any fun c => c ≠ s.children
  | _ => false

/-- The lines of the present session that are in the queue. -/
def State.ownLines (s : State) (session : ℕ) : List Line := s.writeQueue.filter fun l => l.session = session

/-- No request failed, no line of the session gone, the state the same. -/
def Untouched (s s' : State) : Prop :=
  s'.requests.pending = s.requests.pending ∧ s'.ownLines s.children = s.ownLines s.children ∧ s'.state = s.state

/-- **A session is isolated from those before it.** Only its own lines are
written to a child, only its own bytes are parsed, and what is left to complete
of an older child does nothing to it. -/
def Isolated (sp : Spec) (ok : State → Choice → Prop) (s : State) : Prop :=
  (∀ c l, .wrote c l ∈ s.log → l.session = c) ∧
  (∀ n line, .read n line ∈ s.log → ∀ x ∈ line, x.1 = n) ∧
  ∀ ch s', ok s ch → s.stale ch = true → step sp ch s = some s' → Untouched s s'

/-- What a run has to keep to for its sessions to be isolated. -/
def Clean (sp : Spec) (s : State) : Choice → Bool
  | .call p fired spawn =>
    !s.spawns sp (.call p fired spawn) || (s.unwritten = [] && s.readBuf = [] && s.readers = [])
  | .written ok => ok || s.writing = some s.children
  | _ => true

/-! ### The invariant -/

/-- Lines, bytes, reads and writes are those of the present child, but for a
write that an earlier one has under way. -/
structure Fresh (s : State) : Prop where
  wrote_own : ∀ c l, .wrote c l ∈ s.log → l.session = c
  read_own : ∀ n line, .read n line ∈ s.log → ∀ x ∈ line, x.1 = n
  child : ∀ c, s.child = some c → c = s.children
  unwritten : ∀ l ∈ s.unwritten, l.session = s.children
  writing : ∀ c, s.writing = some c → ∃ l rest, s.writeQueue = l :: rest ∧ l.session = c
  readers : ∀ rd ∈ s.readers, rd.child = s.children
  readBuf : ∀ x ∈ s.readBuf, x.1 = s.children

/-- Entries about neither lines nor bytes. -/
def Event.plain : Event → Bool
  | .wrote _ _ => false
  | .read _ _ => false
  | _ => true

namespace Fresh

/-- Reads and writes go on as they were. -/
theorem quiet {r : State} {es : List Event} (h : Fresh s) (hc : ∀ c, r.child = some c → s.child = some c)
    (hn : r.children = s.children) (hq : r.writeQueue = s.writeQueue) (hw : r.writing = s.writing)
    (hr : r.readers = s.readers) (hb : r.readBuf = s.readBuf)
    (hl : r.log = s.log ++ es) (hes : ∀ e ∈ es, e.plain = true) : Fresh r := by
  have hu : r.unwritten = s.unwritten := by simp [State.unwritten, hw, hq]
  have hold : ∀ e ∈ r.log, e.plain = false → e ∈ s.log := by
    intro e he hp
    rw [hl, List.mem_append] at he
    rcases he with he | he
    · exact he
    · rw [hes e he] at hp
      simp at hp
  constructor
  · exact fun c l hcl => h.wrote_own c l (hold _ hcl rfl)
  · exact fun n line hln => h.read_own n line (hold _ hln rfl)
  · rw [hn]
    exact fun c hc' => h.child c (hc c hc')
  · rw [hu, hn]
    exact h.unwritten
  · rw [hw, hq]
    exact h.writing
  · rw [hr, hn]
    exact h.readers
  · rw [hb, hn]
    exact h.readBuf

/-- The writer goes on with the queue `queue`, whose lines are of this session
unless one of them is being written. -/
theorem pumped {w : Option ℕ} {queue : List Line} {es es' : List Event} {w' : Option ℕ} (h : Fresh s)
    (hp : Pumps s.child queue w w' es') (hes : ∀ e ∈ es, e.plain = true)
    (hnone : w = none → ∀ l ∈ queue, l.session = s.children)
    (hsome : ∀ c, w = some c → (∃ l rest, queue = l :: rest ∧ l.session = c) ∧
      ∀ l ∈ queue.tail, l.session = s.children) :
    Fresh (s.withWriter queue w' (es ++ es')) := by
  have hlog : ∀ e, e ∈ (s.withWriter queue w' (es ++ es')).log → e ∈ s.log ∨ e ∈ es ∨ e ∈ es' := by
    intro e he
    simpa [State.withWriter] using he
  cases hp with
  | nothing =>
    constructor
    · intro c l hcl
      rcases hlog _ hcl with hcl | hcl | hcl
      · exact h.wrote_own c l hcl
      · have := hes _ hcl
        simp [Event.plain] at this
      · simp at hcl
    · intro n line hln
      rcases hlog _ hln with hln | hln | hln
      · exact h.read_own n line hln
      · have := hes _ hln
        simp [Event.plain] at this
      · simp at hln
    · exact h.child
    · cases w with
      | none => exact hnone rfl
      | some c => exact (hsome c rfl).2
    · exact fun c hc => (hsome c hc).1
    · exact h.readers
    · exact h.readBuf
  | starts hc hq =>
    rename_i c₀ l₀ rest
    have hown := hnone rfl
    have hcur := h.child c₀ hc
    constructor
    · intro c l hcl
      rcases hlog _ hcl with hcl | hcl | hcl
      · exact h.wrote_own c l hcl
      · have := hes _ hcl
        simp [Event.plain] at this
      · obtain ⟨rfl, rfl⟩ : c = c₀ ∧ l = l₀ := by simpa using hcl
        rw [hcur]
        exact hown l (by simp [hq])
    · intro n line hln
      rcases hlog _ hln with hln | hln | hln
      · exact h.read_own n line hln
      · have := hes _ hln
        simp [Event.plain] at this
      · simp at hln
    · exact h.child
    · intro l hl
      refine hown l ?_
      have hl' : l ∈ queue.tail := hl
      exact List.mem_of_mem_tail hl'
    · intro c hc'
      obtain rfl : c₀ = c := Option.some.inj hc'
      refine ⟨l₀, rest, hq, ?_⟩
      rw [hcur]
      exact hown l₀ (by simp [hq])
    · exact h.readers
    · exact h.readBuf

/-- A line is queued. -/
theorem push {m : Message} {w : Option ℕ} {es : List Event} (h : Fresh s)
    (hp : Pumps s.child (s.writeQueue ++ [⟨s.children, m⟩]) s.writing w es) :
    Fresh (s.withWriter (s.writeQueue ++ [⟨s.children, m⟩]) w (.queued ⟨s.children, m⟩ :: es)) := by
  have hplain : ∀ e ∈ [Event.queued ⟨s.children, m⟩], e.plain = true := by simp [Event.plain]
  refine h.pumped hp hplain ?_ ?_
  · intro hw l hl
    rcases List.mem_append.mp hl with hl | hl
    · exact h.unwritten l (by simpa [State.unwritten, hw] using hl)
    · obtain rfl : l = ⟨s.children, m⟩ := by simpa using hl
      rfl
  · intro c hw
    obtain ⟨l, rest, hq, hl⟩ := h.writing c hw
    refine ⟨⟨l, rest ++ [⟨s.children, m⟩], by rw [hq]; rfl, hl⟩, ?_⟩
    intro l' hl'
    rw [hq, List.cons_append, List.tail_cons, List.mem_append] at hl'
    rcases hl' with hl' | hl'
    · exact h.unwritten l' (by simpa [State.unwritten, hw, hq] using hl')
    · obtain rfl : l' = ⟨s.children, m⟩ := by simpa using hl'
      rfl

/-- The outstanding write is over. -/
theorem pop {c : ℕ} {w : Option ℕ} {es : List Event} (h : Fresh s) (hw : s.writing = some c)
    (hp : Pumps s.child s.writeQueue.tail none w es) : Fresh (s.withWriter s.writeQueue.tail w es) := by
  have hplain : ∀ e ∈ ([] : List Event), e.plain = true := by simp
  refine h.pumped hp hplain ?_ nofun
  intro _ l hl
  exact h.unwritten l (by simpa [State.unwritten, hw] using hl)

theorem notified {m : Message} (h : Fresh s) (hn : s.Notified m s') : Fresh s' := by
  rcases hn with ⟨-, rfl⟩ | ⟨-, w, es, rfl, hp⟩
  · exact h
  · exact h.push hp

theorem asked {m : Method} {params : Value} {token : Option Bool} {pc : ℕ → Pc} (h : Fresh s)
    (ha : s.Asked t m params token pc s') : Fresh s' := by
  obtain ⟨w, es, rfl, hp⟩ := ha
  have hreg : Fresh (s.registered t m token pc) :=
    h.quiet (r := s.registered t m token pc) (fun _ hc => hc) rfl rfl rfl rfl rfl rfl (by simp [Event.plain])
  exact hreg.push hp

theorem finish (h : Fresh s) (t : ℕ) (o : Outcome) : Fresh (s.finish t o) :=
  h.quiet (r := s.finish t o) (fun _ hc => hc) rfl rfl rfl rfl rfl rfl (by simp [Event.plain])

theorem arrive (h : Fresh s) (p : Purpose) (fired : Bool) : Fresh (s.arrive p fired) :=
  h.quiet (r := s.arrive p fired) (fun _ hc => hc) rfl rfl rfl rfl rfl rfl (by simp [Event.plain])

theorem setState (h : Fresh s) (st : ConnState) : Fresh (s.setState st) :=
  h.quiet (r := s.setState st) (fun _ hc => hc) rfl rfl rfl rfl rfl (List.append_nil _).symm (by simp)

theorem failPending (h : Fresh s) : Fresh s.failPending :=
  h.quiet (r := s.failPending) (fun _ hc => hc) rfl rfl rfl rfl rfl rfl (by simp [Event.plain])

theorem torn (h : Fresh s) : Fresh s.torn := by
  unfold State.torn
  split_ifs
  · exact h.quiet (r := s.closePipes.failPending) nofun rfl rfl rfl rfl rfl rfl (by simp [Event.plain])
  · exact h

theorem continues {k : Task} (h : Fresh s) (hc : Continues sp s t k s') : Fresh s' := by
  cases hc with
  | refused _ => exact h.finish _ _
  | connected _ => exact h.finish _ _
  | asked _ ha => exact h.asked ha

/-- A child is started with nothing left of the one before. -/
theorem openSession (h : Fresh s) (hu : s.unwritten = []) (hb : s.readBuf = []) (hr : s.readers = []) :
    Fresh s.openSession where
  wrote_own := by
    intro c l hcl
    exact h.wrote_own c l (by simpa [State.openSession] using hcl)
  read_own := by
    intro n line hln
    exact h.read_own n line (by simpa [State.openSession] using hln)
  child := by
    intro c hc
    exact (Option.some.inj hc).symm
  unwritten := by
    have hu' : s.openSession.unwritten = [] := hu
    simp [hu']
  writing := h.writing
  readers := by simp [State.openSession, hr]
  readBuf := by simp [State.openSession, hb]

theorem fed {c : ℕ} (h : Fresh s) (hc : c = s.children) (chunk : List Char) : Fresh (s.fed c chunk) :=
  { h with
    readBuf := by
      intro x hx
      rcases List.mem_append.mp hx with hx | hx
      · exact h.readBuf x hx
      · obtain ⟨y, -, rfl⟩ := List.mem_map.mp hx
        exact hc }

theorem readAgain (h : Fresh s) (r : ℕ) : Fresh (s.readAgain r) :=
  { h with
    readers := by
      intro rd hrd
      unfold State.readAgain State.nextRead at hrd
      cases hc : s.child with
      | none =>
        simp only [hc, Option.map_none] at hrd
        exact h.readers rd (List.mem_of_mem_eraseIdx hrd)
      | some c =>
        simp only [hc, Option.map_some] at hrd
        rcases List.mem_or_eq_of_mem_set hrd with hrd | rfl
        · exact h.readers rd hrd
        · exact h.child c hc }

theorem took {requests : Requests.Table Value} {es : List Event} (h : Fresh s) (ht : Took s requests es) :
    Fresh (s.took requests es) := by
  have hes : ∀ e ∈ es, e.plain = true := by
    cases ht with
    | dropped => simp
    | inbound hd => cases hd <;> simp [Event.plain]
  have hlog : ∀ e ∈ (s.took requests es).log, e.plain = false → e ∈ s.log ∨ e = .read s.children s.firstLine := by
    intro e he hp
    simp only [State.took, List.mem_append, List.mem_cons] at he
    rcases he with he | he | he
    · exact Or.inl he
    · exact Or.inr he
    · rw [hes e he] at hp
      simp at hp
  refine { h with wrote_own := ?_, read_own := ?_, readBuf := ?_ }
  · intro c l hcl
    rcases hlog _ hcl rfl with hcl | hcl
    · exact h.wrote_own c l hcl
    · simp at hcl
  · intro n line hln x hx
    rcases hlog _ hln rfl with hln | hln
    · exact h.read_own n line hln x hx
    · obtain ⟨rfl, rfl⟩ : n = s.children ∧ line = s.firstLine := by simpa using hln
      exact h.readBuf x ((List.takeWhile_sublist _).mem hx)
  · intro x hx
    exact h.readBuf x (List.mem_of_mem_drop hx)

end Fresh

theorem fresh_step {ch : Choice} (h : Fresh s) (hok : Clean sp s ch = true) (hd : Did sp s ch s') : Fresh s' := by
  cases hd with
  | refused _ => exact (h.arrive _ _).finish _ _
  | ready _ _ hc => exact (h.arrive _ _).continues hc
  | notStarted _ _ => exact ((h.arrive _ _).torn.setState _).finish _ _
  | @started p fired _ hsp ha =>
    obtain ⟨⟨hu, hb⟩, hr⟩ : (s.unwritten = [] ∧ s.readBuf = []) ∧ s.readers = [] := by
      simpa [Clean, hsp] using hok
    refine Fresh.asked ?_ ha
    have htorn : (s.arrive p fired).torn.unwritten = s.unwritten ∧ (s.arrive p fired).torn.readBuf = s.readBuf ∧
        (s.arrive p fired).torn.readers = s.readers := by
      unfold State.torn
      split_ifs
      · exact ⟨rfl, rfl, rfl⟩
      · exact ⟨rfl, rfl, rfl⟩
    exact (h.arrive p fired).torn.openSession (htorn.1.trans hu) (htorn.2.1.trans hb) (htorn.2.2.trans hr)
  | handshakeThrew _ _ _ _ => exact h.finish _ _
  | handshakeFailed _ _ _ _ => exact (h.setState _).finish _ _
  | handshakeDone _ _ _ _ hn hc => exact ((h.notified hn).setState _).continues hc
  | answered _ _ _ => exact h.finish _ _
  | fired _ _ =>
    exact h.quiet (r := s.fired _ _) (fun _ hc => hc) rfl rfl rfl rfl rfl rfl (by simp [Event.plain])
  | cancelMissed _ _ => exact { h with }
  | cancelled _ _ hn =>
    refine Fresh.notified ?_ hn
    exact h.quiet (r := s.cancelled _) (fun _ hc => hc) rfl rfl rfl rfl rfl rfl (by simp [Event.plain])
  | bytes hr => exact h.fed (h.readers _ (List.mem_of_getElem? hr)) _
  | line _ hr ht => exact ((h.fed (h.readers _ (List.mem_of_getElem? hr)) _).took ht).readAgain _
  | readFailed _ =>
    refine Fresh.setState (Fresh.failPending ?_) _
    exact { h with readers := fun rd hrd => h.readers rd (List.mem_of_mem_eraseIdx hrd) }
  | wrote hw hp => exact h.pop hw hp
  | writeFailed hw => exact (h.pop hw (.nothing none)).failPending.setState _
  | shutDown => exact h.quiet (r := s.stopped) nofun rfl rfl rfl rfl rfl rfl (by simp [Event.plain])
  | handlerSet => exact { h with }

theorem fresh_init : Fresh {} where
  wrote_own := by simp
  read_own := by simp
  child := by simp
  unwritten := by simp [State.unwritten]
  writing := by simp
  readers := by simp
  readBuf := by simp

/-- What is left of an older child is a write, and it takes its own line. -/
theorem untouched_of_stale {ch : Choice} (h : Fresh s) (hok : Clean sp s ch = true) (hst : s.stale ch = true)
    (hd : Did sp s ch s') : Untouched s s' := by
  have hread : ∀ (r : ℕ) (rd : Reader), s.readers[r]? = some rd →
      (s.readers[r]?.any fun rd => rd.child ≠ s.children) = true → False := by
    intro r rd hr hne
    have := h.readers rd (List.mem_of_getElem? hr)
    simp [hr, this] at hne
  cases hd with
  | bytes hr => exact (hread _ _ hr hst).elim
  | line hc hr _ =>
    rcases hc with rfl | ⟨rfl, -⟩
    · exact (hread _ _ hr hst).elim
    · exact (hread _ _ hr hst).elim
  | readFailed hr => exact (hread _ _ hr hst).elim
  | wrote hw _ =>
    rename_i c w es _
    have hne : c ≠ s.children := by simpa [State.stale, hw] using hst
    obtain ⟨l, rest, hq, hl⟩ := h.writing c hw
    refine ⟨rfl, ?_, rfl⟩
    simp [State.ownLines, State.withWriter, hq, hl, hne]
  | writeFailed hw =>
    rename_i c
    have hne : c ≠ s.children := by simpa [State.stale, hw] using hst
    simp [Clean, hw, hne] at hok
  | _ => simp [State.stale] at hst

/-- **Sessions are isolated in every clean run.** -/
theorem isolated_of_clean {cs : List Choice} (h : Reaches sp (fun s c => Clean sp s c = true) cs s) :
    Isolated sp (fun s c => Clean sp s c = true) s := by
  have hf : Fresh s := h.invariant (fun _ _ _ _ hI hok hd => fresh_step hI hok hd) fresh_init
  refine ⟨hf.wrote_own, hf.read_own, fun ch s' hok hst hstep => ?_⟩
  exact untouched_of_stale hf hok hst (did_of_step (settled_of_reaches h) hstep)

/-- A child that ends after its answer, and the next one. -/
def restartRun : List Choice :=
  handshakeRun ++ [.readFailed 0, .call .connect false .started, .written true, .line (answerText 2), .resume 1]

theorem isolated_of_clean_restart : ∃ s, Reaches Spec.sample (fun s c => Clean Spec.sample s c = true) restartRun s ∧
    (s.children = 2 ∧ s.state = .ready) ∧ Isolated Spec.sample (fun s c => Clean Spec.sample s c = true) s := by
  have h : (Stepping.check (step Spec.sample) (fun s c => Clean Spec.sample s c) restartRun {}).any
      (fun s => s.children = 2 && s.state = .ready) = true := by decide +kernel
  obtain ⟨s, hr, hs⟩ := Stepping.Run.exists_of_check (fun s c => Clean Spec.sample s c = true) h fun _ _ hc => hc
  exact ⟨s, hr, by simpa using hs, isolated_of_clean hr⟩

/-- The server refuses `initialize`; the next connection is open when the read
on the first child, which the reconnect closed, completes. -/
def inheritedRun : List Choice :=
  [.call .connect false .started, .written true, .line (refusalText 1), .resume 0,
    .call .connect false .started]

/-- **Sessions are not always isolated.** The aborted read of the old child
breaks the new session in the middle of its handshake. -/
theorem not_isolated : ∃ cs s, Reaches Spec.sample (fun _ _ => True) cs s ∧
    ¬ Isolated Spec.sample (fun _ _ => True) s := by
  have h : (Stepping.check (step Spec.sample) (fun _ _ => true) inheritedRun {}).any
      (fun s => s.state = .ready && s.stale (.readFailed 0) &&
        (step Spec.sample (.readFailed 0) s).any fun s' => s'.state = .broken) = true := by decide +kernel
  obtain ⟨s, hr, hs⟩ := Stepping.Run.exists_of_check (fun _ _ => True) h fun _ _ _ => trivial
  simp only [Bool.and_eq_true, decide_eq_true_eq] at hs
  obtain ⟨⟨hready, hstale⟩, hbroken⟩ := hs
  refine ⟨_, s, hr, fun hiso => ?_⟩
  obtain ⟨s', hstep, hst⟩ : ∃ s', step Spec.sample (.readFailed 0) s = some s' ∧ s'.state = .broken := by
    simpa [Option.any_eq_true] using hbroken
  obtain ⟨-, -, hsame⟩ := hiso.2.2 _ s' trivial hstale hstep
  rw [hst, hready] at hsame
  simp at hsame

end Stdio
end Mcp
end AgentFlow
