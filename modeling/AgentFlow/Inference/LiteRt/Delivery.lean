/-
# A turn returns what the engine called back

A step that is left when the engine is done lowers `work`, so a turn comes to
rest; and a turn at rest whose handlers all found room has returned every
chunk (`delivers_of_room`). A handler that finds no room drops its chunk, or
the end of the turn, for good: a sink that is held up over the first of 257
chunks leaves the call waiting for ever (`not_delivers`).

Key definitions: `Internal`, `work`, `Roomy`, `AtRest`.
Key theorems: `work_step`, `delivers_of_room`.
-/
import AgentFlow.Inference.LiteRt.Stream

namespace AgentFlow.LiteRt

open Json

namespace Conversation

/-! ### A turn comes to its end -/

/-- The steps that are left when the engine has called back for the last
time. -/
def Internal : Choice → Prop
  | .handle | .resume | .sunk _ => True
  | .call _ | .slot _ _ _ | .callback _ | .abort | .mark | .close => False

/-- What is in the channel and what has been taken from it. -/
def load (c : Conversation) : ℕ := c.completed.toList.length + c.channel.buffer.length

/-- The steps that are left, at most. -/
def work (c : Conversation) : ℕ :=
  5 * c.posted.length + 2 * c.load +
    match c.call with
    | some (.sink _ _ rest) => 1 + rest.length
    | _ => 0

/-- The channel stays open: no handler that is posted closes it. -/
def StaysOpen (c : Conversation) : Prop := c.channel.closed = false ∧ ∀ h ∈ c.posted, h ≠ .error

/-- Sending a token adds at most that token and changes nothing else. -/
theorem trySend_adds (c : Conversation) (m : Message) :
    (c.trySend m).load ≤ c.load + 1 ∧ (c.trySend m).posted = c.posted ∧ (c.trySend m).call = c.call ∧
      (c.trySend m).channel.closed = c.channel.closed := by
  unfold Conversation.trySend
  rcases Chan.trySend_cases channelCapacity m c.channel with ⟨-, he⟩ | ⟨r, rs, -, -, he⟩ | ⟨-, -, -, he⟩
  · rw [he]
    exact ⟨Nat.le_succ _, rfl, rfl, rfl⟩
  · rw [he]
    refine ⟨?_, rfl, rfl, rfl⟩
    simp only [load, Option.toList_some, List.length_singleton]
    omega
  · rw [he]
    refine ⟨?_, rfl, rfl, rfl⟩
    simp only [load, List.length_append, List.length_singleton]
    omega

theorem handle_adds (c : Conversation) (text : String) (isFinal : Bool) :
    (c.handle (.chunk text isFinal)).load ≤ c.load + 2 ∧ (c.handle (.chunk text isFinal)).posted = c.posted ∧
      (c.handle (.chunk text isFinal)).call = c.call ∧
      (c.handle (.chunk text isFinal)).channel.closed = c.channel.closed := by
  obtain ⟨c₁, hc₁, hl, hp, hcall, hcl⟩ : ∃ c₁ : Conversation,
      (if text = "" then c else { c with accum := c.accum ++ text }.trySend (.ok text)) = c₁ ∧
      c₁.load ≤ c.load + 1 ∧ c₁.posted = c.posted ∧ c₁.call = c.call ∧ c₁.channel.closed = c.channel.closed := by
    refine ⟨_, rfl, ?_⟩
    split_ifs
    · exact ⟨Nat.le_succ _, rfl, rfl, rfl⟩
    · exact trySend_adds _ _
  simp only [Conversation.handle, hc₁]
  cases isFinal with
  | false => exact ⟨hl.trans (Nat.le_succ _), hp, hcall, hcl⟩
  | true =>
    obtain ⟨hl', hp', hcall', hcl'⟩ := trySend_adds c₁ (.ok "")
    exact ⟨by simp only [if_true]; omega, hp'.trans hp, hcall'.trans hcall, hcl'.trans hcl⟩

/-- Going on takes at most one token from the buffer. -/
theorem work_forward {c : Conversation} (hc : c.channel.closed = false) (acc : LiteRtStreamAssembler)
    (ds : List String) :
    (c.goOn (Pc.forward acc ds)).work = 5 * c.posted.length + 2 * c.channel.buffer.length + ds.length ∧
      (c.goOn (Pc.forward acc ds)).posted = c.posted ∧
      (c.goOn (Pc.forward acc ds)).channel.closed = false := by
  cases ds with
  | cons d ds =>
    refine ⟨?_, rfl, hc⟩
    simp only [Pc.forward, goOn, work, load, Option.toList_none, List.length_nil, List.length_cons]
    omega
  | nil =>
    simp only [Pc.forward, goOn]
    rcases Chan.receive_cases () c.channel with ⟨m, ms, hb, he⟩ | ⟨-, hcl, -⟩ | ⟨hb, -, he⟩
    · rw [he]
      refine ⟨?_, trivial, hc⟩
      simp only [work, load, hb, Option.toList_some, List.length_cons, List.length_nil]
      omega
    · rw [hc] at hcl
      cases hcl
    · rw [he]
      exact ⟨by simp [work, load, hb], trivial, hc⟩

theorem work_returned (c : Conversation) (r : Result) :
    (c.goOn (.returned r)).work = 5 * c.posted.length + 2 * c.channel.buffer.length := by
  simp [goOn, work, load]

/-- A chunk has at most one delta. -/
theorem length_deltas_feed (C : Codec) (acc : LiteRtStreamAssembler) (chunk : String) :
    (acc.feed C chunk).deltas.length ≤ acc.deltas.length + 1 := by
  unfold LiteRtStreamAssembler.feed
  split_ifs
  · exact Nat.le_succ _
  · cases LiteRtStreamAssembler.chunkOf C chunk with
    | toolCalls json => exact Nat.le_succ _
    | text delta =>
      dsimp only
      split_ifs
      · exact Nat.le_succ _
      · simp

theorem work_resume {c : Conversation} (B : Settings) {acc : LiteRtStreamAssembler} {r : Completion Message}
    (ho : c.StaysOpen) (hc : c.call = some (.token acc)) (hr : c.completed = some r) :
    (c.tokenDone B acc r).work < c.work ∧ (c.tokenDone B acc r).StaysOpen := by
  have hwork : c.work = 5 * c.posted.length + 2 * (1 + c.channel.buffer.length) := by
    simp [work, load, hc, hr]
  have hreturned : ∀ res : Result,
      (({ c with yielded := c.yielded ++ (nextToken r).toList } : Conversation).goOn (.returned res)).work < c.work ∧
      (({ c with yielded := c.yielded ++ (nextToken r).toList } : Conversation).goOn (.returned res)).StaysOpen := by
    intro res
    refine ⟨?_, ho⟩
    rw [work_returned, hwork]
    dsimp only
    omega
  unfold tokenDone
  cases hn : nextToken r with
  | none =>
    rw [hn] at hreturned
    exact hreturned _
  | some chunk =>
    rw [hn] at hreturned
    by_cases ht : chunk = ""
    · simp only [Pc.tokenDone, ht, if_true] at hreturned ⊢
      exact hreturned _
    · simp only [Pc.tokenDone, ht, if_false]
      have hlen := length_deltas_feed B.codec acc chunk
      obtain ⟨hw, hp, hcl⟩ := @work_forward
        ({ c with yielded := c.yielded ++ (some chunk).toList } : Conversation) ho.1 (acc.feed B.codec chunk)
        ((acc.feed B.codec chunk).deltas.drop acc.deltas.length)
      refine ⟨?_, hcl, ?_⟩
      · rw [hw, hwork, List.length_drop]
        dsimp only
        omega
      · rw [hp]
        exact ho.2

/-- A step that is left brings the end nearer. -/
theorem work_step {B : Settings} {c c' : Conversation} (ho : c.StaysOpen) {choice : Choice} (hi : Internal choice)
    (hs : step B choice c = some c') : c'.work < c.work ∧ c'.StaysOpen := by
  cases choice with
  | handle =>
    simp only [step] at hs
    split at hs
    · cases hs
    · rename_i h posted hp
      obtain rfl := Option.some.inj hs
      have hne : h ≠ .error := ho.2 h (by simp [hp])
      cases h with
      | error => exact absurd rfl hne
      | chunk text isFinal =>
        obtain ⟨hl, hposted, hcall, hcl⟩ := handle_adds { c with posted } text isFinal
        refine ⟨?_, hcl.trans ho.1, ?_⟩
        · unfold work
          rw [hposted, hcall, hp, List.length_cons]
          dsimp only at hl ⊢
          have hload : ({ c with posted } : Conversation).load = c.load := rfl
          omega
        · rw [hposted]
          exact fun h hh => ho.2 h (by simp only [hp, List.mem_cons]; exact Or.inr hh)
  | resume =>
    simp only [step] at hs
    split at hs
    · rename_i acc r hc hr
      obtain rfl := Option.some.inj hs
      exact work_resume B ho hc hr
    · cases hs
  | sunk threw =>
    simp only [step] at hs
    split at hs
    · rename_i acc d rest hc
      obtain rfl := Option.some.inj hs
      have hwork : c.work = 5 * c.posted.length + 2 * c.load + (1 + rest.length) := by
        simp only [work, hc]
      have hload : c.channel.buffer.length ≤ c.load := Nat.le_add_left _ _
      cases threw with
      | true =>
        refine ⟨?_, ho⟩
        simp only [Pc.sinkDone, if_true]
        rw [work_returned, hwork]
        omega
      | false =>
        obtain ⟨hw, hp, hcl⟩ := work_forward ho.1 acc rest
        simp only [Pc.sinkDone, Bool.false_eq_true, if_false]
        refine ⟨?_, hcl, ?_⟩
        · rw [hw, hwork]
          omega
        · rw [hp]
          exact ho.2
    · cases hs
  | call fired => exact absurd hi id
  | slot r started response => exact absurd hi id
  | callback h => exact absurd hi id
  | abort => exact absurd hi id
  | mark => exact absurd hi id
  | close => exact absurd hi id

/-! ### The stream loses nothing -/

/-- A step of an undisturbed conversation whose handlers find room. -/
def Roomy (c : Conversation) (choice : Choice) : Prop := c.Undisturbed choice ∧ (choice = .handle → c.Room)

/-- Nothing is left to do until the engine calls back or is called again. -/
def AtRest (B : Settings) (c : Conversation) : Prop := ∀ choice, Internal choice → step B choice c = none

/-- The callbacks of a turn that is under way, or is over. -/
theorem Flow.chunks {B : Settings} {c : Conversation} (h : Flow B c) :
    ∀ g ∈ c.called, ∃ text isFinal, g = .chunk text isFinal := by
  have hengine : c.Engine → ∀ g ∈ c.called, ∃ text isFinal, g = .chunk text isFinal := by
    rintro (⟨-, hr⟩ | ⟨-, init, last, hcalled, hr⟩) g hg
    · obtain ⟨text, rfl⟩ := hr g hg
      exact ⟨text, false, rfl⟩
    · rw [hcalled] at hg
      rcases List.mem_append.mp hg with hg | hg
      · obtain ⟨text, rfl⟩ := hr g hg
        exact ⟨text, false, rfl⟩
      · exact ⟨last, true, List.mem_singleton.mp hg⟩
  have hnil : c.called = [] → ∀ g ∈ c.called, ∃ text isFinal, g = .chunk text isFinal := by
    intro hcalled g hg
    rw [hcalled] at hg
    cases hg
  have hphase := h.phase
  unfold Phase at hphase
  cases hc : c.call with
  | none => exact hnil (by rw [hc] at hphase; exact hphase.2.2)
  | some pc =>
    rw [hc] at hphase
    cases pc with
    | slot => exact hnil hphase.2.2
    | token acc => exact hengine hphase.2.1
    | sink acc d rest => exact hengine hphase.2.1
    | returned r => exact hengine (Or.inr ⟨hphase.2.1, hphase.2.2.1⟩)

theorem Flow.staysOpen {B : Settings} {c : Conversation} (h : Flow B c) : c.StaysOpen := by
  refine ⟨h.intact.unclosed, fun g hg => ?_⟩
  obtain ⟨text, isFinal, rfl⟩ := h.chunks g (h.posted.subset hg)
  simp

/-- A turn at rest whose engine is done has returned. -/
theorem Flow.returned {B : Settings} {c : Conversation} (h : Flow B c) (hf : Finished c.called) (hr : c.AtRest B) :
    c.yielded = tokens c.called ∧ c.call = some (.returned (turnResult B c.called)) := by
  have hposted : c.posted = [] := by
    have hstep := hr .handle trivial
    simp only [step] at hstep
    split at hstep
    · assumption
    · cases hstep
  obtain ⟨ts, hts, -⟩ := hf.tokens
  have hcalled : c.called ≠ [] := by
    obtain ⟨init, text, he, -⟩ := hf
    simp [he]
  have hphase := h.phase
  unfold Phase at hphase
  cases hc : c.call with
  | none =>
    rw [hc] at hphase
    exact absurd hphase.2.2 hcalled
  | some pc =>
    rw [hc] at hphase
    cases pc with
    | slot => exact absurd hphase.2.2 hcalled
    | sink acc d rest =>
      have hstep := hr (.sunk false) trivial
      simp [step, hc] at hstep
    | token acc =>
      -- a call that waits has read everything, and the sentinel with it
      obtain ⟨hexp, -, -, hne⟩ := hphase
      rcases hexp with ⟨hn, hw⟩ | ⟨hsome, -⟩
      · have hb : c.channel.buffer = [] := h.intact.wf.served.resolve_left (by simp [hw])
        have hbal := h.balance
        rw [hts, hposted] at hbal
        simp only [inChannel, hn, hb, tokens, Option.toList_none, List.flatMap_nil, List.append_nil] at hbal
        exact absurd (by rw [← hbal]; simp) hne
      · obtain ⟨r, hr'⟩ := Option.isSome_iff_exists.mp hsome
        have hstep := hr .resume trivial
        simp [step, hc, hr'] at hstep
    | returned r =>
      obtain ⟨-, -, -, hy, rfl⟩ := hphase
      exact ⟨hy, rfl⟩

/-- The engine's chunks in a turn are passed over by nothing but a full
channel: **as long as each handler finds room, a turn returns them all.** In
each state reached the call has been given a first part of the chunks, in
their order; only so many steps are left; and when none is, after the final
chunk, it has been given all and has returned their text. -/
theorem delivers_of_room (B : Settings) (hB : Pc.streams B) (choices : List Choice) (c : Conversation)
    (h : Stepping.Run (step B) Roomy fresh choices c) :
    c.yielded <+: tokens c.called ∧
      (∀ rest c', Stepping.Run (step B) (fun _ => Internal) c rest c' → rest.length ≤ c.work) ∧
      (Finished c.called → c.AtRest B →
        c.yielded = tokens c.called ∧ c.call = some (.returned (turnResult B c.called))) := by
  have hflow : Flow B c := by
    refine Stepping.Run.invariant (fun x choice y hx hok hs => ?_) h (flow_fresh B)
    exact flow_step hB hx hok.1 hok.2 hs
  refine ⟨?_, ?_, hflow.returned⟩
  · rw [hflow.balance, List.append_assoc]
    exact List.prefix_append _ _
  · intro rest c' hrun
    have hlen := Stepping.Run.length_le (fun x choice y hx hi hs => (work_step hx hi hs).2)
      (fun x choice y hx hi hs => (work_step hx hi hs).1) hrun hflow.staysOpen
    omega

instance (c : Conversation) (choice : Choice) : Decidable (c.Undisturbed choice) :=
  match choice with
  | .call fired => inferInstanceAs (Decidable (fired = false))
  | .slot r started _ => inferInstanceAs (Decidable (r = .value () ∧ started = true))
  | .callback h => inferInstanceAs (Decidable (h ≠ .error))
  | .sunk threw => inferInstanceAs (Decidable (threw = false))
  | .handle | .resume => isTrue trivial
  | .abort | .mark | .close => isFalse id

/-- Whether there is room for the handler that runs next. -/
def roomFor (c : Conversation) : List Handler → Bool
  | [] => true
  | h :: _ => c.channel.buffer.length + (handlerTokens h).length ≤ channelCapacity + c.channel.waiting.length

theorem room_of_roomFor {c : Conversation} (h : c.roomFor c.posted = true) : c.Room := by
  intro g rest hp
  rw [hp] at h
  exact of_decide_eq_true h

def roomy (c : Conversation) (choice : Choice) : Bool :=
  decide (c.Undisturbed choice) && (choice != .handle || c.roomFor c.posted)

theorem roomy_iff {c : Conversation} {choice : Choice} (h : roomy c choice = true) : c.Roomy choice := by
  unfold roomy at h
  rw [Bool.and_eq_true, Bool.or_eq_true] at h
  refine ⟨of_decide_eq_true h.1, fun hh => room_of_roomFor (h.2.resolve_left ?_)⟩
  simp [hh]

def helloText : String :=
  "\x7b\"content\":[\x7b\"text\":\"Hello\",\"type\":\"text\"\x7d],\"role\":\"assistant\"\x7d"

/-- A conversation whose engine streams plain text. -/
def plain : Settings := ⟨.ofTable [(helloText, textMessage "Hello")], false, true, ⟨[]⟩⟩

def helloChoices : List Choice :=
  [.call false, .slot (.value ()) true none, .callback (.chunk "Hel" false), .handle, .callback (.chunk "lo" true),
    .resume, .handle, .sunk false, .resume, .sunk false, .resume]

/-- Nothing posted, and nothing to go on with. -/
def still (c : Conversation) : Bool :=
  c.posted.isEmpty && c.completed.isNone &&
    match c.call with
    | some (.sink _ _ _) => false
    | _ => true

theorem atRest_of_still {B : Settings} {c : Conversation} (h : c.still = true) : c.AtRest B := by
  unfold still at h
  rw [Bool.and_eq_true, Bool.and_eq_true, List.isEmpty_iff, Option.isNone_iff_eq_none] at h
  obtain ⟨⟨hp, hcompleted⟩, hc⟩ := h
  intro choice hi
  cases choice with
  | handle => simp [step, hp]
  | resume => simp [step, hcompleted]
  | sunk threw =>
    simp only [step]
    split
    · rename_i hcall
      rw [hcall] at hc
      cases hc
    · rfl
  | _ => exact absurd hi id

theorem delivers_of_room_hello :
    ∃ c, Stepping.Run (step plain) Roomy fresh helloChoices c ∧ c.yielded = ["Hel", "lo", ""] ∧
      c.call = some (.returned (.ok helloText)) := by
  have h : (Stepping.check (step plain) roomy helloChoices fresh).any
      (fun c => c.still && c.called == [.chunk "Hel" false, .chunk "lo" true]) = true := by decide +kernel
  obtain ⟨c, hrun, hc⟩ := Stepping.Run.exists_of_check Roomy h fun _ _ => roomy_iff
  rw [Bool.and_eq_true, beq_iff_eq] at hc
  obtain ⟨hstill, hcalled⟩ := hc
  have hfinished : Finished c.called := by
    rw [hcalled]
    refine ⟨[.chunk "Hel" false], "lo", rfl, fun g hg => ?_⟩
    exact ⟨"Hel", List.mem_singleton.mp hg⟩
  obtain ⟨-, -, hall⟩ := delivers_of_room plain rfl helloChoices c hrun
  obtain ⟨hy, hcall⟩ := hall hfinished (atRest_of_still hstill)
  refine ⟨c, hrun, ?_, ?_⟩
  · rw [hy, hcalled]
    decide
  · rw [hcall, hcalled]
    decide +kernel

/-- The sink takes its time over the first chunk, and meanwhile 256 more and
the end of the turn come. -/
def stalledChoices : List Choice :=
  List.flatten
    [[Choice.call false, Choice.slot (.value ()) true none, Choice.callback (.chunk "x" false), Choice.handle,
        Choice.resume],
      List.replicate 256 (Choice.callback (.chunk "x" false)), [Choice.callback (.chunk "" true)],
      List.replicate 257 Choice.handle, (List.replicate 256 [Choice.sunk false, Choice.resume]).flatten,
      [Choice.sunk false]]

/-- With one chunk too many the end of the turn is lost: the call has been
given each chunk, and waits for ever. -/
theorem not_delivers :
    ∃ c, Stepping.Run (step plain) Undisturbed fresh stalledChoices c ∧ Finished c.called ∧ c.AtRest plain ∧
      c.yielded ≠ tokens c.called ∧ ∀ r, c.call ≠ some (.returned r) := by
  have h : (Stepping.check (step plain) (fun c choice => decide (c.Undisturbed choice)) stalledChoices fresh).any
      (fun c => c.still && c.called == List.replicate 257 (.chunk "x" false) ++ [.chunk "" true] &&
        (c.yielded.length == 257) && c.call.any Pc.holdsSlot) = true := by
    decide +kernel
  obtain ⟨c, hrun, hc⟩ := Stepping.Run.exists_of_check Undisturbed h fun _ _ => of_decide_eq_true
  rw [Bool.and_eq_true, Bool.and_eq_true, Bool.and_eq_true, beq_iff_eq, beq_iff_eq] at hc
  obtain ⟨⟨⟨hstill, hcalled⟩, hlen⟩, hcall⟩ := hc
  refine ⟨c, hrun, ?_, atRest_of_still hstill, ?_, fun r hr => ?_⟩
  · rw [hcalled]
    exact ⟨_, "", rfl, fun g hg => ⟨"x", List.eq_of_mem_replicate hg⟩⟩
  · intro hy
    rw [hy, hcalled] at hlen
    revert hlen
    decide +kernel
  · rw [hr] at hcall
    simp [Pc.holdsSlot] at hcall

end Conversation

end AgentFlow.LiteRt
