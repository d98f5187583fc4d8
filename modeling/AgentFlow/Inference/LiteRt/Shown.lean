/-
# What is shown and what is returned

The deltas of a turn are handed to the sink as they come, and the special
tokens are stripped only from the message that is returned. The sink is shown
the deltas of the assembled message, each once and in order (`Viewed.Shows`);
the text that is read from the returned message is theirs as long as no token
occurs in it (`shown_eq_returned`), and with a token in a chunk it is not
(`not_shown_eq_returned`).

Key definitions: `Viewed`, `Viewed.step`, `Viewed.Shows`, `Renders`, `Stripped`.
Key theorems: `Viewed.shows_step`, `Viewed.shown_eq_returned`.
-/
import AgentFlow.Inference.LiteRt.Delivery
import AgentFlow.Inference.SpecialTokens
import AgentFlow.Inference.StreamAssembly

namespace AgentFlow.LiteRt

open Json
open Stepping (Run)

/-- A conversation, and what its sink has been handed in this turn. -/
structure Viewed where
  conversation : Conversation
  shown : List String
  deriving DecidableEq, Repr

namespace Viewed

def fresh : Viewed := ⟨.fresh, []⟩

/-- The delta that the sink is handed as a call comes to it. -/
def handed (choice : Conversation.Choice) (c : Conversation) : List String :=
  match choice, c.call with
  | .resume, some (.sink _ delta _) | .sunk _, some (.sink _ delta _) => [delta]
  | _, _ => []

def step (B : Settings) (choice : Conversation.Choice) (v : Viewed) : Option Viewed :=
  (Conversation.step B choice v.conversation).map fun c =>
    ⟨c, match choice with
      | .call _ => []
      | _ => v.shown ++ handed choice c⟩

/-- What the sink has been shown, by where the call is. -/
def Shows (B : Settings) (v : Viewed) : Prop :=
  match v.conversation.call with
  | none | some .slot => v.shown = []
  | some (.token acc) => v.shown = acc.deltas
  | some (.sink acc _ rest) => v.shown ++ rest = acc.deltas
  | some (.returned _) => v.shown = (answer B v.conversation.yielded).deltas

/-- The deltas of an answer are added at its end. -/
theorem deltas_prefix_feed (C : Codec) (acc : LiteRtStreamAssembler) (chunk : String) :
    acc.deltas <+: (acc.feed C chunk).deltas := by
  unfold LiteRtStreamAssembler.feed
  split_ifs
  · exact List.prefix_rfl
  · cases LiteRtStreamAssembler.chunkOf C chunk with
    | toolCalls json => exact List.prefix_rfl
    | text delta =>
      dsimp only
      split_ifs
      · exact List.prefix_rfl
      · exact List.prefix_append _ _

variable {B : Settings} {c : Conversation} {shown : List String}

/-- The call goes on to the first of the deltas that are left, or to the next
chunk. -/
theorem shows_forward (choice : Conversation.Choice) (hchoice : choice = .resume ∨ ∃ threw, choice = .sunk threw)
    (acc : LiteRtStreamAssembler) (ds : List String) (h : shown ++ ds = acc.deltas) :
    Shows B ⟨c.goOn (Pc.forward acc ds), shown ++ handed choice (c.goOn (Pc.forward acc ds))⟩ := by
  cases ds with
  | nil =>
    have hcall : (c.goOn (Pc.forward acc [])).call = some (.token acc) := rfl
    have hnone : handed choice (c.goOn (Pc.forward acc [])) = [] := by
      unfold handed
      rw [hcall]
      rcases hchoice with rfl | ⟨threw, rfl⟩ <;> rfl
    unfold Shows
    rw [hcall, hnone]
    exact h
  | cons d ds =>
    have hcall : (c.goOn (Pc.forward acc (d :: ds))).call = some (.sink acc d ds) := rfl
    have hone : handed choice (c.goOn (Pc.forward acc (d :: ds))) = [d] := by
      unfold handed
      rw [hcall]
      rcases hchoice with rfl | ⟨threw, rfl⟩ <;> rfl
    unfold Shows
    rw [hcall, hone]
    simpa using h

/-- A step that leaves the call where it is shows nothing. -/
theorem Shows.of_call {v : Viewed} {c' : Conversation} (h : v.Shows B) (hcall : c'.call = v.conversation.call)
    (hy : c'.yielded = v.conversation.yielded) : Shows B ⟨c', v.shown⟩ := by
  unfold Shows at h ⊢
  rw [hcall, hy]
  exact h

theorem trySend_keeps (c : Conversation) (m : Message) :
    (c.trySend m).call = c.call ∧ (c.trySend m).yielded = c.yielded := by
  unfold Conversation.trySend
  split <;> exact ⟨rfl, rfl⟩

theorem close_keeps (c : Conversation) : c.close.call = c.call ∧ c.close.yielded = c.yielded := by
  unfold Conversation.close
  split <;> exact ⟨rfl, rfl⟩

/-- A handler does not touch the call. -/
theorem handle_keeps (c : Conversation) (g : Handler) :
    (c.handle g).call = c.call ∧ (c.handle g).yielded = c.yielded := by
  have hthen : ∀ {d : Conversation} (m : Message), d.call = c.call ∧ d.yielded = c.yielded →
      (d.trySend m).call = c.call ∧ (d.trySend m).yielded = c.yielded := fun m hd =>
    ⟨(trySend_keeps _ m).1.trans hd.1, (trySend_keeps _ m).2.trans hd.2⟩
  cases g with
  | error =>
    obtain ⟨h1, h2⟩ := hthen (.error ()) ⟨rfl, rfl⟩
    exact ⟨(close_keeps _).1.trans h1, (close_keeps _).2.trans h2⟩
  | chunk text isFinal =>
    simp only [Conversation.handle]
    have htext : (if text = "" then c else
        Conversation.trySend { c with accum := c.accum ++ text } (.ok text)).call = c.call ∧
        (if text = "" then c else
          Conversation.trySend { c with accum := c.accum ++ text } (.ok text)).yielded = c.yielded := by
      split_ifs
      · exact ⟨rfl, rfl⟩
      · exact trySend_keeps { c with accum := c.accum ++ text } (.ok text)
    cases isFinal with
    | false => exact htext
    | true => exact hthen (.ok "") htext

/-- **Step lemma.** An undisturbed step shows what it should. -/
theorem shows_step {v v' : Viewed} {choice : Conversation.Choice} (hflow : v.conversation.Flow B) (h : v.Shows B)
    (hok : v.conversation.Undisturbed choice) (hs : step B choice v = some v') : v'.Shows B := by
  obtain ⟨c', hc', rfl⟩ := Option.map_eq_some_iff.mp hs
  have hphase := hflow.phase
  cases choice with
  | call fired =>
    obtain rfl : fired = false := hok
    simp only [Conversation.step, Option.ite_none_right_eq_some, Option.some.injEq] at hc'
    obtain ⟨-, rfl⟩ := hc'
    simp [Shows, Conversation.startCall, Pc.begin]
  | slot r started response =>
    obtain ⟨rfl, rfl⟩ := hok
    simp only [Conversation.step] at hc'
    split at hc'
    · next hc =>
      cases hc'
      unfold Shows at h
      rw [hc] at h
      by_cases hB : Pc.streams B
      · simp [Shows, Conversation.slotDone, Pc.slotDone, hB, Conversation.goOn, h, handed]
      · have hy : v.conversation.yielded = [] := by
          unfold Conversation.Phase at hphase
          rw [hc] at hphase
          have hb := hflow.balance
          rw [hphase.2.2] at hb
          simp only [tokens, List.flatMap_nil] at hb
          exact (List.append_eq_nil_iff.mp (List.append_eq_nil_iff.mp hb.symm).1).1
        simp [Shows, Conversation.slotDone, Pc.slotDone, hB, Conversation.goOn, h, handed, hy, answer]
    · cases hc'
  | callback g =>
    simp only [Conversation.step] at hc'
    split_ifs at hc'
    cases hc'
    have hkeep : Shows B ⟨v.conversation.callback g, v.shown⟩ := h.of_call rfl rfl
    simpa [handed] using hkeep
  | handle =>
    simp only [Conversation.step] at hc'
    split at hc'
    · cases hc'
    · next g posted hp =>
      cases hc'
      obtain ⟨hcall, hy⟩ := handle_keeps ({ v.conversation with posted } : Conversation) g
      simpa [handed] using h.of_call hcall hy
  | resume =>
    simp only [Conversation.step] at hc'
    split at hc'
    · next acc r hc hr =>
      cases hc'
      unfold Shows at h
      rw [hc] at h
      unfold Conversation.Phase at hphase
      rw [hc] at hphase
      obtain ⟨-, -, hacc, -⟩ := hphase
      obtain ⟨_, rfl, tok, rfl⟩ := hflow.intact.received r hr
      by_cases ht : tok = ""
      · -- the sentinel adds nothing to what was shown
        subst ht
        have hanswer : answer B (v.conversation.yielded ++ [""]) = answer B v.conversation.yielded := by
          simp [answer, feed_empty]
        simp [Shows, Conversation.tokenDone, nextToken, Pc.tokenDone, Conversation.goOn, handed, h, hanswer, ← hacc]
      · obtain ⟨new, hnew⟩ := deltas_prefix_feed B.codec acc tok
        have hdone : v.conversation.tokenDone B acc (.value (.ok tok)) =
            ({ v.conversation with yielded := v.conversation.yielded ++ [tok] } : Conversation).goOn
              (Pc.forward (acc.feed B.codec tok) new) := by
          simp [Conversation.tokenDone, nextToken, Pc.tokenDone, ht, ← hnew]
        rw [hdone]
        exact shows_forward .resume (Or.inl rfl) _ new (by rw [h, hnew])
    · cases hc'
  | sunk threw =>
    obtain rfl : threw = false := hok
    simp only [Conversation.step] at hc'
    split at hc'
    · next acc d rest hc =>
      cases hc'
      unfold Shows at h
      rw [hc] at h
      exact shows_forward (.sunk false) (Or.inr ⟨false, rfl⟩) acc rest h
    · cases hc'
  | abort => exact absurd hok id
  | mark => exact absurd hok id
  | close => exact absurd hok id

end Viewed

/-! ### The text of a turn -/

/-- The chunk has no tool calls. -/
def ToolFree (C : Codec) (chunk : String) : Prop := ∀ json, LiteRtStreamAssembler.chunkOf C chunk ≠ .toolCalls json

/-- The assembled text is that of the deltas, if no chunk had tool calls. -/
theorem answer_of_toolFree {B : Settings} {chunks : List String} (h : ∀ chunk ∈ chunks, ToolFree B.codec chunk) :
    (answer B chunks).toolCallJson = "" ∧ (answer B chunks).text = String.join (answer B chunks).deltas := by
  induction chunks using List.reverseRecOn with
  | nil => exact ⟨rfl, rfl⟩
  | append_singleton chunks chunk ih =>
    obtain ⟨htool, htext⟩ := ih fun c hc => h c (List.mem_append_left _ hc)
    have hfree := h chunk (by simp)
    have hanswer : answer B (chunks ++ [chunk]) = (answer B chunks).feed B.codec chunk := by simp [answer]
    cases hc : LiteRtStreamAssembler.chunkOf B.codec chunk with
    | toolCalls json => exact absurd hc (hfree json)
    | text delta =>
      obtain ⟨htool', htext', hdeltas⟩ := LiteRtStreamAssembler.feed_of_text hc (answer B chunks)
      rw [hanswer, htext', hdeltas, htext]
      exact ⟨htool'.trans htool, rfl⟩

/-- The codec prints the text as a message, and reads it back. -/
def Renders (C : Codec) (text : String) : Prop :=
  C.dump (textMessage text) = String.ofList (textJson text.toList) ∧
    C.parse (String.ofList (textJson text.toList)) = some (textMessage text)

/-- The needles that were found, each in what the ones before it left. -/
def stripped : List (List Char) → List Char → List (List Char)
  | [], _ => []
  | n :: ns, text => if n <:+: text then n :: stripped ns (eraseAll text n) else stripped ns (eraseAll text n)

theorem stripped_eq_nil {needles : List (List Char)} (hne : ∀ n ∈ needles, n ≠ []) {text : List Char}
    (h : ∀ n ∈ needles, ¬ n <:+: text) : stripped needles text = [] := by
  induction needles with
  | nil => rfl
  | cons n ns ih =>
    rw [List.forall_mem_cons] at h hne
    rw [stripped, if_neg h.1, (eraseAll_eq_self_iff hne.1 text).mpr h.1]
    exact ih hne.2 h.2

theorem assistantText_textMessage (text : String) : assistantText (textMessage text) = text := by
  have hitem : itemText (.object [("type", .str "text"), ("text", .str text)]) = text := by
    simp [itemText, Value.stringAt?, Value.find?, Value.object, OrderedMap.lookup_insert]
  have hcontent : (textMessage text).arrayAt? "content" =
      some [.object [("type", .str "text"), ("text", .str text)]] := by
    simp [textMessage, Value.arrayAt?, Value.find?, Value.object, OrderedMap.lookup_insert]
  rw [assistantText, hcontent]
  simp [hitem, String.join]

namespace Viewed

variable {B : Settings}

/-- What the user saw is what the message says, and none of it was stripped
from the message. -/
def Agrees (B : Settings) (v : Viewed) (json : String) : Prop :=
  String.join v.shown = extractAssistantText B.codec json ∧
    ∀ t ∈ B.specialTokens.strip,
      jsonEscape t.toList ∈ stripped B.specialTokens.needles (textJson (String.join v.shown).toList) →
        ¬ t.toList <:+: (String.join v.shown).toList

theorem extract_rendered {C : Codec} {text : String} (h : Renders C text) :
    extractAssistantText C (String.ofList (textJson text.toList)) = text := by
  simp only [extractAssistantText, h.2]
  exact assistantText_textMessage text

/-- A turn without tool calls that nobody disturbs and that loses nothing:
**as long as no special token occurs in the printed message, what was shown is
what is returned.** With tokens in angle brackets it is so in no other case. -/
theorem shown_eq_returned (B : Settings) (hB : Pc.streams B) (choices : List Conversation.Choice) (v : Viewed)
    (hrun : Run (step B) (fun v choice => v.conversation.Roomy choice) fresh choices v)
    (hfin : Finished v.conversation.called) (hrest : v.conversation.AtRest B)
    (hfree : ∀ g ∈ v.conversation.called, ToolFree B.codec g.text) (hshown : Renders B.codec (String.join v.shown))
    (hstrip : Renders B.codec (String.ofList (B.specialTokens.stripText (String.join v.shown).toList))) :
    ∃ json, v.conversation.call = some (.returned (.ok json)) ∧
      ((∀ n ∈ B.specialTokens.needles, ¬ n <:+: textJson (String.join v.shown).toList) → v.Agrees B json) ∧
      ((∀ t ∈ B.specialTokens.strip, Angled t.toList) → v.Agrees B json →
        ∀ n ∈ B.specialTokens.needles, ¬ n <:+: textJson (String.join v.shown).toList) := by
  obtain ⟨hflow, hshows⟩ : v.conversation.Flow B ∧ v.Shows B := by
    refine Run.invariant (I := fun v => v.conversation.Flow B ∧ v.Shows B) (fun x choice y hx hok hs => ?_) hrun
      ⟨Conversation.flow_fresh B, rfl⟩
    have hshows := shows_step hx.1 hx.2 hok.1 hs
    obtain ⟨c', hc', rfl⟩ := Option.map_eq_some_iff.mp hs
    exact ⟨Conversation.flow_step hB hx.1 hok.1 hok.2 hc', hshows⟩
  obtain ⟨hy, hcall⟩ := hflow.returned hfin hrest
  have hdeltas : v.shown = (answer B (v.conversation.called.map Handler.text)).deltas := by
    unfold Shows at hshows
    rw [hcall] at hshows
    rw [hshows, hy, answer_tokens]
  obtain ⟨htool, htext⟩ := @answer_of_toolFree B (v.conversation.called.map Handler.text) fun chunk hc => by
    obtain ⟨g, hg, rfl⟩ := List.mem_map.mp hc
    exact hfree g hg
  have hcanonical : (answer B (v.conversation.called.map Handler.text)).canonical B.codec =
      String.ofList (textJson (String.join v.shown).toList) := by
    simp only [LiteRtStreamAssembler.canonical, htool, ne_eq, not_true_eq_false, if_false, htext, ← hdeltas]
    exact hshown.1
  refine ⟨_, hcall, fun hno => ?_, fun hangled hagrees => ?_⟩
  · have hsame : decodeSpecialTokens (String.ofList (textJson (String.join v.shown).toList)) B.specialTokens =
        String.ofList (textJson (String.join v.shown).toList) := by
      unfold decodeSpecialTokens
      rw [String.toList_ofList, (foldl_eraseAll_eq_self_iff _ B.specialTokens.needles_ne_nil _).mpr]
      exact fun n hn => (eraseAll_eq_self_iff (B.specialTokens.needles_ne_nil n hn) _).mpr (hno n hn)
    rw [hcanonical, hsame]
    refine ⟨(extract_rendered hshown).symm, fun t _ hmem => ?_⟩
    rw [stripped_eq_nil B.specialTokens.needles_ne_nil hno] at hmem
    cases hmem
  · have htexts := hagrees.1
    rw [hcanonical, decodeSpecialTokens_textJson hangled] at htexts
    have hextract := extract_rendered hstrip
    rw [String.toList_ofList] at hextract
    rw [hextract] at htexts
    -- nothing was stripped from the text, so no token occurs in it
    have hsame : B.specialTokens.stripText (String.join v.shown).toList = (String.join v.shown).toList := by
      conv_rhs => rw [htexts]
      rw [String.toList_ofList]
    have htokens : ∀ t ∈ B.specialTokens.strip.map String.toList, t ≠ [] := by
      intro t ht
      obtain ⟨t', ht', rfl⟩ := List.mem_map.mp ht
      intro he
      have hhead := (hangled t' ht').1
      rw [he] at hhead
      cases hhead
    have heach := (foldl_eraseAll_eq_self_iff _ htokens _).mp hsame
    intro n hn
    obtain ⟨t, ht, rfl⟩ := List.mem_map.mp (List.mem_filter.mp hn).1
    rw [← eraseAll_eq_self_iff (B.specialTokens.needles_ne_nil _ hn), eraseAll_textJson (hangled t ht),
      heach t.toList (List.mem_map_of_mem ht)]

/-- An engine whose turns end with a special token. -/
def marked (texts : List String) : Settings :=
  ⟨.ofTable (texts.map fun text => (String.ofList (textJson text.toList), textMessage text)), false, true, ⟨["<eot>"]⟩⟩

def turn (text : String) : List Conversation.Choice :=
  [.call false, .slot (.value ()) true none, .callback (.chunk text true), .handle, .resume, .sunk false, .resume]

/-- A turn of one chunk, run to its end. -/
theorem exists_turn (texts : List String) (text : String) (p : Viewed → Bool)
    (h : (Stepping.check (step (marked texts)) (fun v choice => Conversation.roomy v.conversation choice) (turn text)
      fresh).any (fun v => v.conversation.still && v.conversation.called == [.chunk text true] && p v) = true) :
    ∃ v, Run (step (marked texts)) (fun v choice => v.conversation.Roomy choice) fresh (turn text) v ∧
      Finished v.conversation.called ∧ v.conversation.AtRest (marked texts) ∧
      v.conversation.called = [.chunk text true] ∧ p v = true := by
  obtain ⟨v, hrun, hv⟩ := Run.exists_of_check (fun (v : Viewed) choice => v.conversation.Roomy choice) h
    fun _ _ => Conversation.roomy_iff
  rw [Bool.and_eq_true, Bool.and_eq_true, beq_iff_eq] at hv
  obtain ⟨⟨hstill, hcalled⟩, hp⟩ := hv
  refine ⟨v, hrun, ?_, Conversation.atRest_of_still hstill, hcalled, hp⟩
  rw [hcalled]
  exact ⟨[], text, rfl, fun g hg => by cases hg⟩

theorem toolFree_turn {texts : List String} {text : String} {v : Viewed} (hv : v.conversation.called = [.chunk text true])
    (hnone : (marked texts).codec.parse text = none) :
    ∀ g ∈ v.conversation.called, ToolFree (marked texts).codec g.text := by
  intro g hg json hjson
  rw [hv, List.mem_singleton] at hg
  subst hg
  simp [Handler.text, LiteRtStreamAssembler.chunkOf, hnone] at hjson

theorem renders_hello : Renders (marked ["Hello"]).codec "Hello" := ⟨by decide, by decide⟩

theorem stripText_hello : String.ofList ((marked ["Hello"]).specialTokens.stripText "Hello".toList) = "Hello" := by
  decide

theorem hello_unmarked : ∀ n ∈ (marked ["Hello"]).specialTokens.needles, ¬ n <:+: textJson "Hello".toList := by
  decide

theorem shown_eq_returned_hello :
    ∃ v json, Run (step (marked ["Hello"])) (fun v choice => v.conversation.Roomy choice) fresh (turn "Hello") v ∧
      v.conversation.call = some (.returned (.ok json)) ∧ v.Agrees (marked ["Hello"]) json := by
  obtain ⟨v, hrun, hfin, hrest, hcalled, hshown⟩ := exists_turn ["Hello"] "Hello"
    (fun v => String.join v.shown == "Hello") (by decide)
  have hjoin : String.join v.shown = "Hello" := eq_of_beq hshown
  obtain ⟨json, hcall, hagrees, -⟩ := shown_eq_returned (marked ["Hello"]) rfl (turn "Hello") v hrun hfin hrest
    (toolFree_turn hcalled (by decide)) (by rw [hjoin]; exact renders_hello)
    (by rw [hjoin, stripText_hello]; exact renders_hello)
  refine ⟨v, json, hrun, hcall, hagrees ?_⟩
  rw [hjoin]
  exact hello_unmarked

/-- The token at the end of a chunk is shown, and is not in the message. -/
theorem not_shown_eq_returned :
    ∃ v json, Run (step (marked ["Hi<eot>", "Hi"])) (fun v choice => v.conversation.Roomy choice) fresh (turn "Hi<eot>") v ∧
      Finished v.conversation.called ∧ v.conversation.AtRest (marked ["Hi<eot>", "Hi"]) ∧
      v.conversation.call = some (.returned (.ok json)) ∧ String.join v.shown = "Hi<eot>" ∧
      extractAssistantText (marked ["Hi<eot>", "Hi"]).codec json = "Hi" := by
  obtain ⟨v, hrun, hfin, hrest, -, hv⟩ := exists_turn ["Hi<eot>", "Hi"] "Hi<eot>"
    (fun v => v.shown == ["Hi<eot>"] &&
      v.conversation.call == some (.returned (.ok (String.ofList (textJson "Hi".toList))))) (by decide)
  rw [Bool.and_eq_true, beq_iff_eq, beq_iff_eq] at hv
  refine ⟨v, _, hrun, hfin, hrest, hv.2, ?_, by decide⟩
  rw [hv.1]
  decide

end Viewed

end AgentFlow.LiteRt
