/-
# The flow of chunks through a turn

The callback's handlers send into a channel of 256 chunks and do not wait. As
long as every handler finds room (`Room`), the chunks that the engine called
back are at each moment those returned, those in the channel and those
posted, in the order of the callbacks (`Flow`); each step keeps this
(`flow_step`). A call that has read the sentinel has read everything
(`flow_resume`), since only the final chunk has it.

Key definitions: `tokens`, `Undisturbed`, `Room`, `Phase`, `Flow`.
Key theorems: `Intact.handle`, `flow_step`.
-/
import AgentFlow.Inference.LiteRt.SendAsync
import AgentFlow.Lib.Run

namespace AgentFlow.LiteRt

open Json

/-- What a handler has to send: its text, and the sentinel after it. -/
def handlerTokens : Handler → List String
  | .error => []
  | .chunk text isFinal => (if text = "" then [] else [text]) ++ if isFinal then [""] else []

def tokens (hs : List Handler) : List String := hs.flatMap handlerTokens

/-- The chunks before the last one. -/
def Running (hs : List Handler) : Prop := ∀ h ∈ hs, ∃ text, h = .chunk text false

/-- The chunks of a turn, the last one final. -/
def Finished (hs : List Handler) : Prop := ∃ init text, hs = init ++ [.chunk text true] ∧ Running init

def Handler.text : Handler → String
  | .error => ""
  | .chunk text _ => text

/-- The answer to some chunks. -/
def answer (B : Settings) (chunks : List String) : LiteRtStreamAssembler := chunks.foldl (·.feed B.codec) {}

/-- What a turn with these chunks returns. -/
def turnResult (B : Settings) (hs : List Handler) : Result :=
  .ok (decodeSpecialTokens ((answer B (hs.map Handler.text)).canonical B.codec) B.specialTokens)

/-! ### The chunks of a turn -/

theorem tokens_append (hs hs' : List Handler) : tokens (hs ++ hs') = tokens hs ++ tokens hs' :=
  List.flatMap_append

/-- Only the final chunk has the sentinel. -/
theorem Running.sentinel_notMem {hs : List Handler} (h : Running hs) : "" ∉ tokens hs := by
  intro hmem
  obtain ⟨g, hg, hmem⟩ := List.mem_flatMap.mp hmem
  obtain ⟨text, rfl⟩ := h g hg
  by_cases ht : text = ""
  · simp [handlerTokens, ht] at hmem
  · simp [handlerTokens, ht, Ne.symm ht] at hmem

theorem Finished.tokens {hs : List Handler} (h : Finished hs) : ∃ ts, tokens hs = ts ++ [""] ∧ "" ∉ ts := by
  obtain ⟨init, text, rfl, hinit⟩ := h
  refine ⟨LiteRt.tokens init ++ if text = "" then [] else [text], ?_, ?_⟩
  · simp [LiteRt.tokens, handlerTokens]
  · intro hmem
    rcases List.mem_append.mp hmem with hmem | hmem
    · exact hinit.sentinel_notMem hmem
    · by_cases ht : text = ""
      · simp [ht] at hmem
      · simp [ht, Ne.symm ht] at hmem

/-- With the sentinel everything has been read. -/
theorem eq_nil_of_sentinel {a ts x : List String} (h : a ++ [""] ++ x = ts ++ [""]) (hts : "" ∉ ts) : x = [] := by
  rcases List.eq_nil_or_concat x with rfl | ⟨y, z, rfl⟩
  · rfl
  · refine absurd ?_ hts
    rw [List.concat_eq_append, ← List.append_assoc] at h
    rw [← (List.append_inj' h rfl).1]
    simp

/-- The handlers that are left of a finished turn have the sentinel. -/
theorem Finished.eq_nil_of_suffix {hs posted : List Handler} (h : Finished hs) (hs' : posted <:+ hs)
    (ht : LiteRt.tokens posted = []) : posted = [] := by
  obtain ⟨init, text, rfl, -⟩ := h
  rcases List.eq_nil_or_concat posted with rfl | ⟨before, last, rfl⟩
  · rfl
  · rw [List.concat_eq_append] at hs' ht
    obtain ⟨pre, hpre⟩ := hs'
    rw [← List.append_assoc] at hpre
    obtain rfl := List.singleton_inj.mp (List.append_inj' hpre rfl).2
    simp [LiteRt.tokens, handlerTokens] at ht

/-- The empty chunk adds nothing to an answer. -/
theorem feed_empty (C : Codec) (acc : LiteRtStreamAssembler) : acc.feed C "" = acc := if_pos rfl

theorem foldl_feed_handlerTokens (B : Settings) (h : Handler) (acc : LiteRtStreamAssembler) :
    (handlerTokens h).foldl (·.feed B.codec) acc = acc.feed B.codec h.text := by
  cases h with
  | error => exact (feed_empty _ _).symm
  | chunk text isFinal =>
    by_cases ht : text = ""
    · cases isFinal <;> simp [handlerTokens, Handler.text, ht, feed_empty]
    · cases isFinal <;> simp [handlerTokens, Handler.text, ht, feed_empty]

theorem answer_tokens (B : Settings) (hs : List Handler) : answer B (tokens hs) = answer B (hs.map Handler.text) := by
  unfold answer tokens
  generalize ({} : LiteRtStreamAssembler) = acc
  induction hs generalizing acc with
  | nil => rfl
  | cons h hs ih =>
    rw [List.flatMap_cons, List.foldl_append, foldl_feed_handlerTokens, ih, List.map_cons, List.foldl_cons]

namespace Conversation

/-- Nobody cancels, and neither the engine nor the sink fails. -/
def Undisturbed (_ : Conversation) : Choice → Prop
  | .call fired => fired = false
  | .slot r started _ => r = .value () ∧ started = true
  | .callback h => h ≠ .error
  | .sunk threw => threw = false
  | .handle | .resume => True
  | .abort | .mark | .close => False

/-- The handler that runs next finds room for all it has to send: a receiver
that waits takes one value past the buffer. -/
def Room (c : Conversation) : Prop :=
  ∀ h rest, c.posted = h :: rest →
    c.channel.buffer.length + (handlerTokens h).length ≤ channelCapacity + c.channel.waiting.length

def messageToken : Message → List String
  | .ok tok => [tok]
  | .error () => []

def completionToken : Completion Message → List String
  | .value m => messageToken m
  | .closed | .aborted => []

/-- What has been sent and not been returned. -/
def inChannel (c : Conversation) : List String :=
  c.completed.toList.flatMap completionToken ++ c.channel.buffer.flatMap messageToken

def IsToken (m : Message) : Prop := ∃ tok, m = .ok tok

/-- The channel of a conversation that nobody cancels. -/
structure Intact (c : Conversation) : Prop where
  wf : c.channel.WF channelCapacity
  unclosed : c.channel.closed = false
  uncancelled : c.cancelled = false
  buffered : ∀ m ∈ c.channel.buffer, IsToken m
  received : ∀ r, c.completed = some r → ∃ m, r = .value m ∧ IsToken m

/-- The call waits for a chunk, or has one to go on with. -/
def Expecting (c : Conversation) : Prop :=
  (c.completed = none ∧ c.channel.waiting = [()]) ∨ (c.completed.isSome ∧ c.channel.waiting = [])

def Unexpecting (c : Conversation) : Prop := c.completed = none ∧ c.channel.waiting = []

/-! ### Sending -/

/-- From `c` to `c'` the tokens `ts` have gone into the channel. -/
structure Sends (c c' : Conversation) (ts : List String) : Prop where
  rest : ∃ channel completed accum, c' = { c with channel, completed, accum }
  intact : c'.Intact
  inChannel : c'.inChannel = c.inChannel ++ ts
  expecting : c.Expecting → c'.Expecting
  unexpecting : c.Unexpecting → c'.Unexpecting
  room : c'.channel.buffer.length + c.channel.waiting.length =
    c.channel.buffer.length + ts.length + c'.channel.waiting.length

theorem Intact.sends_nil {c : Conversation} (h : c.Intact) (accum : String) : Sends c { c with accum } [] where
  rest := ⟨c.channel, c.completed, accum, rfl⟩
  intact := ⟨h.wf, h.unclosed, h.uncancelled, h.buffered, h.received⟩
  inChannel := (List.append_nil _).symm
  expecting := id
  unexpecting := id
  room := rfl

theorem Sends.trans {c c' c'' : Conversation} {ts ts' : List String} (h : Sends c c' ts) (h' : Sends c' c'' ts') :
    Sends c c'' (ts ++ ts') := by
  obtain ⟨channel, completed, accum, rfl⟩ := h.rest
  obtain ⟨channel', completed', accum', rfl⟩ := h'.rest
  refine ⟨⟨channel', completed', accum', rfl⟩, h'.intact, ?_, h'.expecting ∘ h.expecting,
    h'.unexpecting ∘ h.unexpecting, ?_⟩
  · rw [h'.inChannel, h.inChannel, List.append_assoc]
  · have h1 := h.room
    have h2 := h'.room
    simp only [List.length_append] at h1 h2 ⊢
    omega

/-- With room for it, a token goes to the receiver that waits or into the
buffer. -/
theorem Intact.trySend {c : Conversation} (h : c.Intact) (hseat : c.Expecting ∨ c.Unexpecting) (tok : String)
    (hroom : c.channel.buffer.length + 1 ≤ channelCapacity + c.channel.waiting.length) :
    Sends c (c.trySend (.ok tok)) [tok] := by
  have hwf := h.wf.trySend (.ok tok)
  unfold Conversation.trySend
  rcases Chan.trySend_cases channelCapacity (.ok tok) c.channel with
    ⟨hfull, -⟩ | ⟨r, rs, hc, hw, he⟩ | ⟨hc, hw, hlt, he⟩
  · rcases hfull with hc | ⟨hw, hle⟩
    · exact absurd (h.unclosed.symm.trans hc) (by decide)
    · rw [hw] at hroom
      simp only [List.length_nil] at hroom
      omega
  · -- the receiver that waits is the call, which had nothing to go on with
    have hnone : c.completed = none ∧ rs = [] := by
      rcases hseat with (⟨hn, hw'⟩ | ⟨-, hw'⟩) | ⟨-, hw'⟩
      · rw [hw'] at hw
        exact ⟨hn, (List.cons.inj hw).2.symm⟩
      · rw [hw'] at hw
        cases hw
      · rw [hw'] at hw
        cases hw
    obtain ⟨hn, rfl⟩ := hnone
    have hb : c.channel.buffer = [] := h.wf.served.resolve_left (by simp [hw])
    rw [he] at hwf ⊢
    refine ⟨⟨_, _, c.accum, rfl⟩, ⟨hwf, h.unclosed, h.uncancelled, h.buffered, ?_⟩, ?_, ?_, ?_, ?_⟩
    · intro r hr
      exact ⟨.ok tok, (Option.some.inj hr).symm, tok, rfl⟩
    · simp [inChannel, hb, hn, completionToken, messageToken]
    · exact fun _ => Or.inr ⟨rfl, rfl⟩
    · intro hu
      rw [hu.2] at hw
      cases hw
    · simp [hb, hw]
  · rw [he] at hwf ⊢
    refine ⟨⟨_, _, c.accum, rfl⟩, ⟨hwf, h.unclosed, h.uncancelled, ?_, h.received⟩, ?_, id, id, ?_⟩
    · intro m hm
      rcases List.mem_append.mp hm with hm | hm
      · exact h.buffered m hm
      · exact ⟨tok, List.mem_singleton.mp hm⟩
    · simp [inChannel, messageToken]
    · simp only [List.length_append, List.length_singleton]

/-- A handler that finds room sends all it has to send. -/
theorem Intact.handle {c : Conversation} (h : c.Intact) (hseat : c.Expecting ∨ c.Unexpecting) {text : String}
    {isFinal : Bool} (hroom : c.channel.buffer.length + (handlerTokens (.chunk text isFinal)).length ≤
      channelCapacity + c.channel.waiting.length) :
    Sends c (c.handle (.chunk text isFinal)) (handlerTokens (.chunk text isFinal)) := by
  simp only [handlerTokens, List.length_append] at hroom
  -- the text, if there is any
  have htext : Sends c (if text = "" then c else
      { c with accum := c.accum ++ text }.trySend (.ok text)) (if text = "" then [] else [text]) := by
    by_cases ht : text = ""
    · simp only [ht, if_true]
      exact h.sends_nil c.accum
    · simp only [ht, if_false, List.length_singleton] at hroom ⊢
      have hs := (h.sends_nil (c.accum ++ text)).trans
        ((h.sends_nil (c.accum ++ text)).intact.trySend hseat text (by dsimp only; omega))
      exact hs
  cases isFinal with
  | false => simpa [Conversation.handle, handlerTokens] using htext
  | true =>
    have hseat' := hseat.imp htext.expecting htext.unexpecting
    have hlen := htext.room
    have hend := htext.intact.trySend hseat' "" (by simp only [if_true, List.length_singleton] at hroom; omega)
    simpa [Conversation.handle, handlerTokens] using htext.trans hend

/-! ### The flow of a turn -/

/-- The engine still calls back, or has come to its final chunk. -/
def Engine (c : Conversation) : Prop :=
  (c.streaming = true ∧ Running c.called) ∨ (c.streaming = false ∧ Finished c.called)

/-- Where the call is in its turn. -/
def Phase (B : Settings) (c : Conversation) : Prop :=
  match c.call with
  | none | some .slot => c.Unexpecting ∧ c.streaming = false ∧ c.called = []
  | some (.token acc) => c.Expecting ∧ c.Engine ∧ acc = answer B c.yielded ∧ "" ∉ c.yielded
  | some (.sink acc _ _) => c.Unexpecting ∧ c.Engine ∧ acc = answer B c.yielded ∧ "" ∉ c.yielded
  | some (.returned r) => c.Unexpecting ∧ c.streaming = false ∧ Finished c.called ∧
      c.yielded = tokens c.called ∧ r = turnResult B c.called

/-- Nothing is lost: what the engine called back has been returned, is in the
channel or is posted. -/
structure Flow (B : Settings) (c : Conversation) : Prop where
  intact : c.Intact
  balance : tokens c.called = c.yielded ++ c.inChannel ++ tokens c.posted
  posted : c.posted <:+ c.called
  phase : c.Phase B

theorem flow_fresh (B : Settings) : Flow B fresh := by
  refine ⟨⟨Chan.wf_empty, rfl, rfl, ?_, ?_⟩, rfl, List.suffix_rfl, ⟨rfl, rfl⟩, rfl, rfl⟩
  · intro m hm
    cases hm
  · intro r hr
    cases hr

/-- What is in the channel of one that waits for nothing is in the buffer. -/
theorem Unexpecting.inChannel {c : Conversation} (h : c.Unexpecting) :
    c.inChannel = c.channel.buffer.flatMap messageToken := by
  simp [Conversation.inChannel, h.1]

theorem Intact.buffer_eq_nil {c : Conversation} (h : c.Intact) (ht : c.channel.buffer.flatMap messageToken = []) :
    c.channel.buffer = [] := by
  cases hb : c.channel.buffer with
  | nil => rfl
  | cons m ms =>
    obtain ⟨tok, rfl⟩ := h.buffered m (by simp [hb])
    rw [hb] at ht
    simp [messageToken] at ht

/-- Between two turns nothing is left. -/
theorem Flow.drained {B : Settings} {c : Conversation} (h : Flow B c) (hu : c.Unexpecting)
    (hy : c.yielded = tokens c.called) (hd : c.called = [] ∨ Finished c.called) :
    c.channel.buffer = [] ∧ c.posted = [] := by
  have hb := h.balance
  rw [← hy, List.append_assoc, List.self_eq_append_right, List.append_eq_nil_iff, hu.inChannel] at hb
  refine ⟨h.intact.buffer_eq_nil hb.1, ?_⟩
  rcases hd with hd | hd
  · have hp := h.posted
    rw [hd] at hp
    exact List.suffix_nil.mp hp
  · exact hd.eq_nil_of_suffix h.posted hb.2

/-- The call goes on to the next delta or the next chunk. -/
theorem Intact.goOn_forward {c : Conversation} (h : c.Intact) (hw : c.channel.waiting = [])
    (acc : LiteRtStreamAssembler) (ds : List String) :
    ∃ channel completed, c.goOn (Pc.forward acc ds) =
        { c with channel, completed, call := some (Pc.forward acc ds) } ∧
      (c.goOn (Pc.forward acc ds)).Intact ∧
      (c.goOn (Pc.forward acc ds)).inChannel = c.channel.buffer.flatMap messageToken ∧
      (ds = [] → (c.goOn (Pc.forward acc ds)).Expecting) ∧ (ds ≠ [] → (c.goOn (Pc.forward acc ds)).Unexpecting) := by
  cases ds with
  | cons d ds =>
    refine ⟨c.channel, none, rfl, ⟨h.wf, h.unclosed, h.uncancelled, h.buffered, ?_⟩, ?_, ?_, fun _ => ⟨rfl, hw⟩⟩
    · intro r hr
      cases hr
    · simp [goOn, Pc.forward, inChannel]
    · intro hne
      cases hne
  | nil =>
    have hwf := h.wf.receive ()
    simp only [Pc.forward, goOn]
    rcases Chan.receive_cases () c.channel with ⟨m, ms, hb, he⟩ | ⟨-, hc, -⟩ | ⟨hb, hc, he⟩
    · rw [he] at hwf ⊢
      have hm : IsToken m := h.buffered m (by simp [hb])
      have hms : ∀ m ∈ ms, IsToken m := fun m hm => h.buffered m (by simp [hb, hm])
      refine ⟨_, _, rfl, ⟨hwf, h.unclosed, h.uncancelled, hms, ?_⟩, ?_, fun _ => Or.inr ⟨rfl, hw⟩,
        fun hne => absurd rfl hne⟩
      · intro r hr
        exact ⟨m, (Option.some.inj hr).symm, hm⟩
      · simp [inChannel, hb, completionToken]
    · exact absurd (h.unclosed.symm.trans hc) (by decide)
    · rw [he] at hwf ⊢
      refine ⟨_, _, rfl, ⟨hwf, h.unclosed, h.uncancelled, h.buffered, ?_⟩, ?_, fun _ => Or.inl ⟨rfl, ?_⟩,
        fun hne => absurd rfl hne⟩
      · intro r hr
        cases hr
      · simp [inChannel]
      · simp [hw]

theorem flow_forward {B : Settings} {c : Conversation} (h : c.Intact) (hw : c.channel.waiting = [])
    (hbalance : tokens c.called = c.yielded ++ c.channel.buffer.flatMap messageToken ++ tokens c.posted)
    (hposted : c.posted <:+ c.called) (he : c.Engine) (hne : "" ∉ c.yielded) (ds : List String) :
    Flow B (c.goOn (Pc.forward (answer B c.yielded) ds)) := by
  obtain ⟨channel, completed, heq, hI, hin, hexp, hunexp⟩ := h.goOn_forward hw (answer B c.yielded) ds
  generalize c.goOn (Pc.forward (answer B c.yielded) ds) = c' at *
  subst heq
  rw [← hin] at hbalance
  refine ⟨hI, hbalance, hposted, ?_⟩
  cases ds with
  | nil => exact ⟨hexp rfl, he, rfl, hne⟩
  | cons d ds => exact ⟨hunexp (by simp), he, rfl, hne⟩

/-- The call has the slot and has not returned. -/
def Awake (c : Conversation) : Prop := ∃ pc, c.call = some pc ∧ pc.holdsSlot

/-- While the engine calls back or a handler is posted, the turn goes on. -/
theorem Flow.awake {B : Settings} {c : Conversation} (h : Flow B c) (hbusy : c.streaming = true ∨ c.posted ≠ []) :
    c.Awake := by
  have hphase := h.phase
  unfold Phase at hphase
  have hbefore : c.Unexpecting ∧ c.streaming = false ∧ c.called = [] → False := by
    rintro ⟨-, hs, hcalled⟩
    have hp := h.posted
    rw [hcalled, List.suffix_nil] at hp
    simp [hs, hp] at hbusy
  cases hc : c.call with
  | none =>
    rw [hc] at hphase
    exact absurd hphase hbefore
  | some pc =>
    rw [hc] at hphase
    cases pc with
    | slot => exact absurd hphase hbefore
    | token acc => exact ⟨_, hc, rfl⟩
    | sink acc d rest => exact ⟨_, hc, rfl⟩
    | returned r =>
      obtain ⟨hu, hs, hf, hy, -⟩ := hphase
      simp [hs, (h.drained hu hy (Or.inr hf)).2] at hbusy

theorem Awake.phase {B : Settings} {c : Conversation} (h : c.Awake) (hp : c.Phase B) :
    (c.Expecting ∨ c.Unexpecting) ∧ c.Engine := by
  obtain ⟨pc, hc, hpc⟩ := h
  rw [Phase, hc] at hp
  cases pc with
  | token acc => exact ⟨Or.inl hp.1, hp.2.1⟩
  | sink acc d rest => exact ⟨Or.inr hp.1, hp.2.1⟩
  | slot => cases hpc
  | returned r => cases hpc

/-- The call does not notice what the engine and the handlers do. -/
theorem Awake.phase_of {B : Settings} {c c' : Conversation} (h : c.Awake) (hp : c.Phase B) (hcall : c'.call = c.call)
    (hy : c'.yielded = c.yielded) (hexp : c.Expecting → c'.Expecting) (hunexp : c.Unexpecting → c'.Unexpecting)
    (he : c'.Engine) : c'.Phase B := by
  obtain ⟨pc, hc, hpc⟩ := h
  rw [Phase, hc] at hp
  rw [Phase, hcall, hc]
  cases pc with
  | token acc => exact ⟨hexp hp.1, he, by rw [hy]; exact hp.2.2⟩
  | sink acc d rest => exact ⟨hunexp hp.1, he, by rw [hy]; exact hp.2.2⟩
  | slot => cases hpc
  | returned r => cases hpc

/-! ### One step -/

section Step

variable {B : Settings} {c c' : Conversation}

theorem flow_call (h : Flow B c) (hidle : c.idle) : Flow B (c.startCall false) := by
  have hstart : c.startCall false =
      { c with hooked := true, call := some .slot, completed := none, called := [], yielded := [] } := by
    simp [startCall, Pc.begin]
  have hphase := h.phase
  have hdrained : c.Unexpecting ∧ c.streaming = false ∧ c.channel.buffer = [] ∧ c.posted = [] := by
    unfold Phase at hphase
    unfold idle at hidle
    split at hphase
    · obtain ⟨hu, hs, hc⟩ := hphase
      have hb := h.balance
      rw [hc] at hb
      have hy : c.yielded = tokens c.called := by
        rw [hc]
        simp [tokens] at hb ⊢
        exact hb.1
      exact ⟨hu, hs, h.drained hu hy (Or.inl hc)⟩
    · simp_all
    · simp_all
    · simp_all
    · obtain ⟨hu, hs, hf, hy, -⟩ := hphase
      exact ⟨hu, hs, h.drained hu hy (Or.inr hf)⟩
  obtain ⟨hu, hs, hb, hp⟩ := hdrained
  rw [hstart]
  refine ⟨⟨h.intact.wf, h.intact.unclosed, h.intact.uncancelled, h.intact.buffered, ?_⟩, ?_, ?_, ⟨rfl, hu.2⟩, hs, rfl⟩
  · intro r hr
    cases hr
  · simp [inChannel, hb, hp, tokens]
  · rw [hp]

theorem flow_slot (h : Flow B c) (hB : Pc.streams B) (hc : c.call = some .slot) (response : Option String) :
    Flow B (c.slotDone B true response (.value ())) := by
  have hphase := h.phase
  rw [Phase, hc] at hphase
  obtain ⟨hu, -, hcalled⟩ := hphase
  have hb := h.balance
  rw [hcalled, hu.inChannel] at hb
  simp only [tokens, List.flatMap_nil] at hb
  have hempty := List.append_eq_nil_iff.mp hb.symm
  have hy := (List.append_eq_nil_iff.mp hempty.1).1
  have hstart : c.slotDone B true response (.value ()) =
      ({ c with accum := "", streaming := true } : Conversation).goOn (Pc.forward (answer B c.yielded) []) := by
    simp only [slotDone, Pc.slotDone, hB, if_true, sendMessage, h.intact.uncancelled, Bool.false_eq_true, if_false]
    rw [hy]
    rfl
  have hI : ({ c with accum := "", streaming := true } : Conversation).Intact :=
    ⟨h.intact.wf, h.intact.unclosed, h.intact.uncancelled, h.intact.buffered, h.intact.received⟩
  rw [hstart]
  refine flow_forward hI hu.2 ?_ h.posted (Or.inl ⟨rfl, ?_⟩) ?_ []
  · have hbal := h.balance
    rw [hu.inChannel] at hbal
    exact hbal
  · dsimp only
    rw [hcalled]
    intro g hg
    cases hg
  · dsimp only
    rw [hy]
    simp

theorem flow_callback (h : Flow B c) (hs : c.streaming = true) {g : Handler} (hg : g ≠ .error) :
    Flow B (c.callback g) := by
  obtain ⟨text, isFinal, rfl⟩ : ∃ text isFinal, g = .chunk text isFinal := by
    cases g with
    | error => exact absurd rfl hg
    | chunk text isFinal => exact ⟨text, isFinal, rfl⟩
  have hcallback : c.callback (.chunk text isFinal) = { c with
      streaming := !isFinal
      called := c.called ++ [.chunk text isFinal]
      posted := c.posted ++ [.chunk text isFinal] } := by
    simp [callback, h.intact.uncancelled]
  have hawake := h.awake (Or.inl hs)
  obtain ⟨-, he⟩ := hawake.phase h.phase
  have hrun : Running c.called := by
    rcases he with ⟨-, hr⟩ | ⟨hs', -⟩
    · exact hr
    · rw [hs] at hs'
      cases hs'
  rw [hcallback]
  refine ⟨⟨h.intact.wf, h.intact.unclosed, h.intact.uncancelled, h.intact.buffered, h.intact.received⟩, ?_, ?_,
    hawake.phase_of h.phase rfl rfl id id ?_⟩
  · dsimp only
    rw [tokens_append, tokens_append, h.balance]
    simp [inChannel]
  · obtain ⟨before, hbefore⟩ := h.posted
    refine ⟨before, ?_⟩
    dsimp only
    rw [← hbefore, List.append_assoc]
  · cases isFinal with
    | true => exact Or.inr ⟨rfl, _, _, rfl, hrun⟩
    | false =>
      refine Or.inl ⟨rfl, fun x hx => ?_⟩
      rcases List.mem_append.mp hx with hx | hx
      · exact hrun x hx
      · exact ⟨text, List.mem_singleton.mp hx⟩

/-- A handler runs that finds room. -/
theorem flow_handle (h : Flow B c) {g : Handler} {posted : List Handler} (hp : c.posted = g :: posted)
    (hroom : c.Room) : Flow B (({ c with posted } : Conversation).handle g) := by
  have hmem : g ∈ c.called := h.posted.subset (by simp [hp])
  have hawake := h.awake (Or.inr (by simp [hp]))
  obtain ⟨hseat, he⟩ := hawake.phase h.phase
  obtain ⟨text, isFinal, rfl⟩ : ∃ text isFinal, g = .chunk text isFinal := by
    rcases he with ⟨-, hr⟩ | ⟨-, init, last, hcalled, hr⟩
    · obtain ⟨text, rfl⟩ := hr g hmem
      exact ⟨text, false, rfl⟩
    · rw [hcalled] at hmem
      rcases List.mem_append.mp hmem with hmem | hmem
      · obtain ⟨text, rfl⟩ := hr g hmem
        exact ⟨text, false, rfl⟩
      · exact ⟨last, true, List.mem_singleton.mp hmem⟩
  have hI : ({ c with posted } : Conversation).Intact :=
    ⟨h.intact.wf, h.intact.unclosed, h.intact.uncancelled, h.intact.buffered, h.intact.received⟩
  have hsends := hI.handle hseat (hroom _ _ hp)
  generalize ({ c with posted } : Conversation).handle (.chunk text isFinal) = c' at *
  obtain ⟨channel, completed, accum, rfl⟩ := hsends.rest
  refine ⟨hsends.intact, ?_, ?_, ?_⟩
  · have hb := h.balance
    rw [hp] at hb
    have hin := hsends.inChannel
    rw [hin]
    dsimp only
    rw [hb, tokens, List.flatMap_cons, ← List.append_assoc, ← List.append_assoc]
    rfl
  · exact (List.suffix_cons _ _).trans (hp ▸ h.posted)
  · exact hawake.phase_of h.phase rfl rfl hsends.expecting hsends.unexpecting he

/-- The call goes on with a chunk, and with the sentinel returns. -/
theorem flow_resume (h : Flow B c) {acc : LiteRtStreamAssembler} (hc : c.call = some (.token acc))
    {r : Completion Message} (hr : c.completed = some r) : Flow B (c.tokenDone B acc r) := by
  have hphase := h.phase
  rw [Phase, hc] at hphase
  obtain ⟨hexp, he, rfl, hne⟩ := hphase
  obtain ⟨_, rfl, tok, rfl⟩ := h.intact.received r hr
  have hw : c.channel.waiting = [] := by
    rcases hexp with ⟨hn, -⟩ | ⟨-, hw⟩
    · rw [hr] at hn
      cases hn
    · exact hw
  have hb := h.balance
  have hin : c.inChannel = [tok] ++ c.channel.buffer.flatMap messageToken := by
    simp [inChannel, hr, completionToken, messageToken]
  rw [hin] at hb
  have hI : ({ c with yielded := c.yielded ++ [tok] } : Conversation).Intact :=
    ⟨h.intact.wf, h.intact.unclosed, h.intact.uncancelled, h.intact.buffered, h.intact.received⟩
  by_cases ht : tok = ""
  · subst ht
    have hdone : c.tokenDone B (answer B c.yielded) (.value (.ok "")) =
        { c with
          yielded := c.yielded ++ [""], completed := none
          call := some (.returned (.ok (decodeSpecialTokens ((answer B c.yielded).canonical B.codec)
            B.specialTokens))) } := by
      simp [tokenDone, nextToken, Pc.tokenDone, goOn]
    rcases he with ⟨-, hrun⟩ | ⟨hs, hf⟩
    · -- no chunk so far was final
      refine absurd ?_ hrun.sentinel_notMem
      rw [hb]
      simp
    · obtain ⟨ts, hts, hnm⟩ := hf.tokens
      have hsplit : c.yielded ++ [""] ++ (c.channel.buffer.flatMap messageToken ++ tokens c.posted) = ts ++ [""] := by
        rw [← hts, hb]
        simp
      have hrest := eq_nil_of_sentinel hsplit hnm
      have hall : tokens c.called = c.yielded ++ [""] := by
        rw [hb]
        simpa [List.append_assoc] using hrest
      obtain ⟨hbuf, hpost⟩ := List.append_eq_nil_iff.mp hrest
      rw [hdone]
      refine ⟨⟨h.intact.wf, h.intact.unclosed, h.intact.uncancelled, h.intact.buffered, ?_⟩, ?_, h.posted,
        ⟨rfl, hw⟩, hs, hf, hall.symm, ?_⟩
      · intro r hr
        cases hr
      · dsimp only
        rw [hall, hpost]
        simp [inChannel, hbuf]
      · have hfeed : answer B (c.yielded ++ [""]) = answer B c.yielded := by
          simp [answer, feed_empty]
        rw [turnResult, ← answer_tokens, hall, hfeed]
  · have hanswer : (answer B c.yielded).feed B.codec tok = answer B (c.yielded ++ [tok]) := by
      simp [answer]
    have hdone : c.tokenDone B (answer B c.yielded) (.value (.ok tok)) =
        ({ c with yielded := c.yielded ++ [tok] } : Conversation).goOn
          (Pc.forward (answer B (c.yielded ++ [tok]))
            ((answer B (c.yielded ++ [tok])).deltas.drop (answer B c.yielded).deltas.length)) := by
      simp only [tokenDone, nextToken, Pc.tokenDone, ht, if_false, hanswer, Option.toList_some]
    rw [hdone]
    refine flow_forward hI hw ?_ h.posted he ?_ _
    · dsimp only
      rw [hb]
      simp
    · dsimp only
      intro hmem
      rcases List.mem_append.mp hmem with hmem | hmem
      · exact hne hmem
      · exact ht (List.mem_singleton.mp hmem).symm

theorem flow_sunk (h : Flow B c) {acc : LiteRtStreamAssembler} {d : String} {rest : List String}
    (hc : c.call = some (.sink acc d rest)) : Flow B (c.goOn (Pc.sinkDone acc rest false)) := by
  have hphase := h.phase
  rw [Phase, hc] at hphase
  obtain ⟨hu, he, rfl, hne⟩ := hphase
  have hb := h.balance
  rw [hu.inChannel] at hb
  exact flow_forward h.intact hu.2 hb h.posted he hne rest

/-- **Step lemma.** A step of a turn that nobody disturbs keeps the flow, if
the handler that runs finds room. -/
theorem flow_step (hB : Pc.streams B) (h : Flow B c) {choice : Choice} (hok : c.Undisturbed choice)
    (hroom : choice = .handle → c.Room) (hs : step B choice c = some c') : Flow B c' := by
  cases choice with
  | call fired =>
    obtain rfl : fired = false := hok
    simp only [step, Option.ite_none_right_eq_some, Option.some.injEq] at hs
    obtain ⟨hidle, rfl⟩ := hs
    exact flow_call h hidle
  | slot r started response =>
    obtain ⟨rfl, rfl⟩ := hok
    simp only [step] at hs
    split at hs
    · rename_i hc
      obtain rfl := Option.some.inj hs
      exact flow_slot h hB hc response
    · cases hs
  | callback g =>
    simp only [step, Option.ite_none_right_eq_some, Option.some.injEq] at hs
    obtain ⟨hstream, rfl⟩ := hs
    exact flow_callback h hstream hok
  | handle =>
    simp only [step] at hs
    split at hs
    · cases hs
    · rename_i g posted hp
      obtain rfl := Option.some.inj hs
      exact flow_handle h hp (hroom rfl)
  | resume =>
    simp only [step] at hs
    split at hs
    · rename_i acc r hc hr
      obtain rfl := Option.some.inj hs
      exact flow_resume h hc hr
    · cases hs
  | sunk threw =>
    obtain rfl : threw = false := hok
    simp only [step] at hs
    split at hs
    · rename_i acc d rest hc
      obtain rfl := Option.some.inj hs
      exact flow_sunk h hc
    · cases hs
  | abort => exact absurd hok id
  | mark => exact absurd hok id
  | close => exact absurd hok id

end Step

end Conversation

end AgentFlow.LiteRt
