/-
# The pieces of a streamed answer

A `Reply` is an answer, and frames may say it in pieces, its strings cut
anywhere and its calls interleaved (`Reply.Cut`, `Carries`). Feeding the
frames leaves what the pieces add up to (`feedFrames_carries`), the calls at
the keys that the accumulator gives their indices (`lookup_addFragments`):
with 32-bit indices that is the answer, in its order (`Reply.Cut.streamed`).

Key definitions: `Reply`, `Piece`, `Reply.Cut`, `Carries`, `streamed`.
Key theorems: `feedFrames_carries`, `Reply.Cut.streamed`.
-/
import AgentFlow.Inference.Openai.Canonical

namespace AgentFlow.Openai

open Json StreamAccumulator

/-! ### The answer, and how it is said -/

/-- An assistant's answer. -/
structure Reply where
  text : String
  reasoning : Option String
  calls : List PartialCall
  /-- The members of the usage object. -/
  usage : Option (List (String × Value))
  model : Option String
  reasoned : reasoning ≠ some ""
  named : model ≠ some ""

/-- What one entry of a delta's `tool_calls` adds to the call at an index. The
first one opens the call: it has the id and the name. -/
structure Fragment where
  index : ℕ
  opening : Option (String × String)
  arguments : String

/-- What one frame adds to an answer. -/
structure Piece where
  text : String
  reasoning : String
  fragments : List Fragment
  usage : Option (List (String × Value))
  model : Option String

/-- Some fragments are a call, cut into its opening and more arguments. -/
inductive Spells : List Fragment → Option PartialCall → Prop
  | absent : Spells [] none
  | call {g : Fragment} {gs : List Fragment} {call : PartialCall}
      (opening : g.opening = some (call.id, call.name)) (later : ∀ g ∈ gs, g.opening = none)
      (arguments : g.arguments ++ String.join (gs.map Fragment.arguments) = call.arguments) :
      Spells (g :: gs) (some call)

/-- `o` is there at least once, and nothing else is. -/
structure Appears {α : Type*} (o : Option α) (xs : List (Option α)) : Prop where
  only : ∀ x ∈ xs, x = none ∨ x = o
  once : o ≠ none → o ∈ xs

/-- The pieces are the answer, cut up. -/
structure Reply.Cut (m : Reply) (pieces : List Piece) : Prop where
  text : String.join (pieces.map Piece.text) = m.text
  reasoning : String.join (pieces.map Piece.reasoning) = m.reasoning.getD ""
  calls : ∀ i, Spells ((pieces.flatMap Piece.fragments).filter (·.index = i)) m.calls[i]?
  usage : Appears m.usage (pieces.map Piece.usage)
  model : Appears m.model (pieces.map Piece.model)

/-- The string member `k` of an object's member `function`. -/
def functionString? (tc : Value) (k : String) : Option String :=
  ((tc.find? "function").filter Value.isObject).bind (·.stringAt? k)

/-- An entry of `tool_calls` is the fragment. -/
structure Adds (tc : Value) (g : Fragment) : Prop where
  index : tc.find? "index" = some (.int g.index)
  id : tc.stringAt? "id" = g.opening.map Prod.fst
  name : functionString? tc "name" = g.opening.map Prod.snd
  arguments : (functionString? tc "arguments").getD "" = g.arguments

/-- The delta of a frame. A frame without choices, or whose choice has no
delta, is as good as an empty one. -/
inductive DeltaOf (f : Value) : Value → Prop
  | bare (h : (f.arrayAt? "choices").getD [] = []) : DeltaOf f (.obj [])
  | last {choice : Value} {rest : List Value} (h : f.arrayAt? "choices" = some (choice :: rest))
      (hd : (choice.find? "delta").filter Value.isObject = none) : DeltaOf f (.obj [])
  | delta {choice ms : List (String × Value)} {rest : List Value}
      (h : f.arrayAt? "choices" = some (.obj choice :: rest)) (hd : choice.lookup "delta" = some (.obj ms)) :
      DeltaOf f (.obj ms)

/-- A frame carries the piece. Whether it has a reason to finish is open. -/
structure Carries (f : Value) (p : Piece) : Prop where
  delta : ∃ d, DeltaOf f d ∧ (d.stringAt? "content").getD "" = p.text ∧
    (d.stringAt? "reasoning_content").getD "" = p.reasoning ∧
    List.Forall₂ Adds ((d.arrayAt? "tool_calls").getD []) p.fragments
  usage : (f.find? "usage").filter Value.isObject = p.usage.map Value.obj
  model : f.stringAt? "model" = p.model

/-! ### Feeding the frames -/

def Fragment.extend (g : Fragment) (call : PartialCall) : PartialCall :=
  { id := (g.opening.map Prod.fst).getD call.id
    name := (g.opening.map Prod.snd).getD call.name
    arguments := call.arguments ++ g.arguments }

def addFragment (calls : List (ℤ × PartialCall)) (g : Fragment) : List (ℤ × PartialCall) :=
  OrderedMap.insert (toInt32 g.index) (g.extend ((calls.lookup (toInt32 g.index)).getD {})) calls

def addInput (n : ℤ) (usage : Option (List (String × Value))) : ℤ :=
  ((usage.map Value.obj).bind (tokensAt? · "prompt_tokens")).getD n

def addOutput (provider : UsageProvider) (n : ℤ) (usage : Option (List (String × Value))) : ℤ :=
  ((usage.map Value.obj).bind (outputTokenCount · provider)).getD n

def addModel (name : String) (model : Option String) : String := if name = "" then model.getD name else name

/-- What a piece adds to an accumulator. -/
def Piece.feed (acc : StreamAccumulator) (p : Piece) : StreamAccumulator :=
  { acc with
    text := acc.text ++ p.text
    reasoning := acc.reasoning ++ p.reasoning
    calls := p.fragments.foldl addFragment acc.calls
    inputTokens := addInput acc.inputTokens p.usage
    outputTokens := addOutput acc.provider acc.outputTokens p.usage
    model := addModel acc.model p.model }

theorem Adds.feedCall {tc : Value} {g : Fragment} (h : Adds tc g) (calls : List (ℤ × PartialCall)) :
    feedCall calls tc = addFragment calls g := by
  have hobj : tc.isObject := by
    cases tc with
    | obj ms => rfl
    | _ => cases h.index
  have hi : callIndex tc = some (toInt32 g.index) := by simp [callIndex, h.index, Value.int?]
  have hc : ∀ call : PartialCall, PartialCall.update call tc = g.extend call := by
    intro call
    have hname := h.name
    have hargs := h.arguments
    unfold functionString? at hname hargs
    simp only [PartialCall.update, Fragment.extend, h.id, hname, hargs]
  simp only [StreamAccumulator.feedCall, hobj, if_true, hi, addFragment, hc]

theorem feedCalls_fragments {tcs : List Value} {gs : List Fragment} (h : List.Forall₂ Adds tcs gs)
    (calls : List (ℤ × PartialCall)) : tcs.foldl feedCall calls = gs.foldl addFragment calls := by
  induction h generalizing calls with
  | nil => rfl
  | cons hadd _ ih => rw [List.foldl_cons, List.foldl_cons, hadd.feedCall, ih]

/-- Feeding the delta of a frame. A frame that has none adds nothing. -/
theorem feedFrame_delta {f d : Value} (h : DeltaOf f d) (acc : StreamAccumulator) :
    ∃ r, (acc.feedFrame f).1 = { (acc.feedUsage f).feedDelta d with finishReason := r } := by
  have hbare : ∀ acc : StreamAccumulator, acc.feedDelta (.obj []) = acc := by
    intro acc
    simp [feedDelta, Value.stringAt?, Value.arrayAt?]
  cases h with
  | bare h =>
    have hc : choice? f = none := by simp [choice?, h]
    exact ⟨_, by rw [feedFrame, hc, hbare]⟩
  | @last choice rest h hd =>
    cases ho : choice.isObject with
    | false =>
      have hc : choice? f = none := by simp [choice?, h, ho, Option.filter]
      exact ⟨_, by rw [feedFrame, hc, hbare]⟩
    | true =>
      have hc : choice? f = some choice := by simp [choice?, h, ho, Option.filter]
      have hn : delta? choice = none := hd
      refine ⟨(choice.stringAt? "finish_reason").getD acc.finishReason, ?_⟩
      simp only [feedFrame, hc, hn, hbare]
      rfl
  | @delta choice ms rest h hd =>
    have hc : choice? f = some (.obj choice) := by simp [choice?, h, Option.filter, Value.isObject]
    have hs : delta? (.obj choice) = some (.obj ms) := by simp [delta?, hd, Option.filter, Value.isObject]
    refine ⟨((Value.obj choice).stringAt? "finish_reason").getD acc.finishReason, ?_⟩
    simp only [feedFrame, hc, hs, feedDelta]
    rfl

theorem Carries.feedFrame {f : Value} {p : Piece} (h : Carries f p) (acc : StreamAccumulator) :
    ∃ r, (acc.feedFrame f).1 = { p.feed acc with finishReason := r } := by
  obtain ⟨d, hd, ht, hr, hc⟩ := h.delta
  obtain ⟨r, hf⟩ := feedFrame_delta hd acc
  refine ⟨r, ?_⟩
  rw [hf]
  simp only [feedDelta, feedUsage, Piece.feed, ht, hr, feedCalls_fragments hc, h.usage, h.model, addInput,
    addOutput, addModel]

theorem foldl_feed_finishReason (r : String) : ∀ (pieces : List Piece) (acc : StreamAccumulator),
    pieces.foldl Piece.feed { acc with finishReason := r } = { pieces.foldl Piece.feed acc with finishReason := r }
  | [], _ => rfl
  | p :: pieces, acc => foldl_feed_finishReason r pieces (p.feed acc)

/-- **Run lemma.** Frames that carry pieces leave what the pieces add. -/
theorem feedFrames_carries {C : Codec} {frames : List String} {pieces : List Piece}
    (h : List.Forall₂ (fun frame p => ∃ f, C.parse frame = some f ∧ Carries f p) frames pieces)
    (acc : StreamAccumulator) :
    ∃ r, (feedFrames C acc frames).1 = { pieces.foldl Piece.feed acc with finishReason := r } := by
  induction h generalizing acc with
  | nil => exact ⟨acc.finishReason, rfl⟩
  | @cons frame p frames pieces hframe _ ih =>
    obtain ⟨f, hf, hcarries⟩ := hframe
    obtain ⟨r, hr⟩ := hcarries.feedFrame acc
    have hfeed : (acc.feed C frame).1 = { p.feed acc with finishReason := r } := by rw [feed, hf, hr]
    obtain ⟨r', hr'⟩ := ih (acc.feed C frame).1
    refine ⟨r', ?_⟩
    rw [feedFrames, hr', hfeed, foldl_feed_finishReason, List.foldl_cons]

/-! ### What the pieces add up to -/

theorem foldl_feed_provider : ∀ (pieces : List Piece) (acc : StreamAccumulator),
    (pieces.foldl Piece.feed acc).provider = acc.provider
  | [], _ => rfl
  | p :: pieces, acc => foldl_feed_provider pieces (p.feed acc)

theorem foldl_feed_text : ∀ (pieces : List Piece) (acc : StreamAccumulator),
    (pieces.foldl Piece.feed acc).text = acc.text ++ String.join (pieces.map Piece.text)
  | [], acc => by simp
  | p :: pieces, acc => by
    rw [List.foldl_cons, foldl_feed_text pieces, List.map_cons, String.join_cons, ← String.append_assoc]
    rfl

theorem foldl_feed_reasoning : ∀ (pieces : List Piece) (acc : StreamAccumulator),
    (pieces.foldl Piece.feed acc).reasoning = acc.reasoning ++ String.join (pieces.map Piece.reasoning)
  | [], acc => by simp
  | p :: pieces, acc => by
    rw [List.foldl_cons, foldl_feed_reasoning pieces, List.map_cons, String.join_cons, ← String.append_assoc]
    rfl

theorem foldl_feed_calls : ∀ (pieces : List Piece) (acc : StreamAccumulator),
    (pieces.foldl Piece.feed acc).calls = (pieces.flatMap Piece.fragments).foldl addFragment acc.calls
  | [], _ => rfl
  | p :: pieces, acc => by
    rw [List.foldl_cons, foldl_feed_calls pieces, List.flatMap_cons, List.foldl_append]
    rfl

theorem foldl_feed_model : ∀ (pieces : List Piece) (acc : StreamAccumulator),
    (pieces.foldl Piece.feed acc).model = (pieces.map Piece.model).foldl addModel acc.model
  | [], _ => rfl
  | p :: pieces, acc => foldl_feed_model pieces (p.feed acc)

theorem foldl_feed_inputTokens : ∀ (pieces : List Piece) (acc : StreamAccumulator),
    (pieces.foldl Piece.feed acc).inputTokens = (pieces.map Piece.usage).foldl addInput acc.inputTokens
  | [], _ => rfl
  | p :: pieces, acc => foldl_feed_inputTokens pieces (p.feed acc)

theorem foldl_feed_outputTokens : ∀ (pieces : List Piece) (acc : StreamAccumulator),
    (pieces.foldl Piece.feed acc).outputTokens = (pieces.map Piece.usage).foldl (addOutput acc.provider) acc.outputTokens
  | [], _ => rfl
  | p :: pieces, acc => foldl_feed_outputTokens pieces (p.feed acc)

/-- What appears, however often, is taken once. -/
theorem Appears.foldl {α β : Type*} {o : Option α} {xs : List (Option α)} (h : Appears o xs)
    {step : β → Option α → β} (hnone : ∀ b, step b none = b) (hagain : ∀ b, step (step b o) o = step b o) (b : β) :
    xs.foldl step b = step b o := by
  have settled : ∀ ys : List (Option α), (∀ y ∈ ys, y = none ∨ y = o) → ys.foldl step (step b o) = step b o := by
    intro ys hys
    induction ys with
    | nil => rfl
    | cons y ys ih =>
      rw [List.foldl_cons]
      rcases hys y List.mem_cons_self with rfl | rfl
      · rw [hnone]
        exact ih fun y hy => hys y (List.mem_cons_of_mem _ hy)
      · rw [hagain]
        exact ih fun y hy => hys y (List.mem_cons_of_mem _ hy)
  obtain ⟨honly, honce⟩ := h
  induction xs with
  | nil =>
    have ho : o = none := by
      by_contra hne
      exact absurd (honce hne) List.not_mem_nil
    rw [ho, hnone]
    rfl
  | cons x xs ih =>
    rw [List.foldl_cons]
    have hrest : ∀ y ∈ xs, y = none ∨ y = o := fun y hy => honly y (List.mem_cons_of_mem _ hy)
    by_cases hx : x = o
    · rw [hx]
      exact settled xs hrest
    · have hn : x = none := (honly x List.mem_cons_self).resolve_right hx
      rw [hn, hnone]
      exact ih hrest fun hne => (List.mem_cons.mp (honce hne)).resolve_left (Ne.symm hx)

/-! ### The calls -/

/-- The calls at one key, as the fragments with that key leave them. -/
def extendCall (call : Option PartialCall) (g : Fragment) : Option PartialCall := some (g.extend (call.getD {}))

/-- What is at a key after some fragments is what the fragments with that key
make of what was there. -/
theorem lookup_addFragments (k : ℤ) : ∀ (gs : List Fragment) (calls : List (ℤ × PartialCall)),
    (gs.foldl addFragment calls).lookup k =
      (gs.filter fun g => toInt32 g.index = k).foldl extendCall (calls.lookup k)
  | [], _ => rfl
  | g :: gs, calls => by
    rw [List.foldl_cons, lookup_addFragments k gs, addFragment, OrderedMap.lookup_insert]
    by_cases hk : toInt32 g.index = k
    · rw [List.filter_cons_of_pos (by simpa using hk), if_pos hk.symm, List.foldl_cons, hk]
      rfl
    · rw [List.filter_cons_of_neg (by simpa using hk), if_neg (Ne.symm hk)]

theorem sorted_addFragments : ∀ (gs : List Fragment) {calls : List (ℤ × PartialCall)}, OrderedMap.Sorted calls →
    OrderedMap.Sorted (gs.foldl addFragment calls)
  | [], _, h => h
  | _ :: gs, _, h => sorted_addFragments gs (h.insert _ _)

theorem extendCall_later {gs : List Fragment} (h : ∀ g ∈ gs, g.opening = none) (call : PartialCall) :
    gs.foldl extendCall (some call) =
      some { call with arguments := call.arguments ++ String.join (gs.map Fragment.arguments) } := by
  induction gs generalizing call with
  | nil => simp
  | cons g gs ih =>
    have hg : g.opening = none := h g List.mem_cons_self
    have hext : extendCall (some call) g = some { call with arguments := call.arguments ++ g.arguments } := by
      simp [extendCall, Fragment.extend, hg]
    rw [List.foldl_cons, hext, ih fun g hg => h g (List.mem_cons_of_mem _ hg)]
    simp [String.append_assoc]

/-- The fragments of a call make the call. -/
theorem Spells.foldl {gs : List Fragment} {call : Option PartialCall} (h : Spells gs call) :
    gs.foldl extendCall none = call := by
  cases h with
  | absent => rfl
  | @call g gs call ho hl ha =>
    have hext : extendCall none g = some ⟨call.id, call.name, g.arguments⟩ := by
      simp [extendCall, Fragment.extend, ho]
    rw [List.foldl_cons, hext, extendCall_later hl, ha]

/-- The calls, each at its index. -/
def numbered (i : ℤ) : List PartialCall → List (ℤ × PartialCall)
  | [] => []
  | call :: calls => (i, call) :: numbered (i + 1) calls

theorem map_snd_numbered : ∀ (calls : List PartialCall) (i : ℤ), (numbered i calls).map Prod.snd = calls
  | [], _ => rfl
  | call :: calls, i => by rw [numbered, List.map_cons, map_snd_numbered calls]

theorem le_of_mem_numbered : ∀ {calls : List PartialCall} {i : ℤ} {b : ℤ × PartialCall}, b ∈ numbered i calls → i ≤ b.1
  | [], _, _, h => absurd h List.not_mem_nil
  | call :: calls, i, b, h => by
    rcases List.mem_cons.mp h with rfl | h
    · exact le_rfl
    · have := le_of_mem_numbered h
      omega

theorem sorted_numbered : ∀ (calls : List PartialCall) (i : ℤ), OrderedMap.Sorted (numbered i calls)
  | [], _ => OrderedMap.sorted_nil
  | call :: calls, i => by
    refine List.pairwise_cons.mpr ⟨fun b hb => ?_, sorted_numbered calls (i + 1)⟩
    have := le_of_mem_numbered hb
    dsimp only
    omega

theorem lookup_numbered (n : ℕ) : ∀ (calls : List PartialCall) (i : ℤ),
    (numbered i calls).lookup (i + n) = calls[n]?
  | [], _ => by simp [numbered]
  | call :: calls, i => by
    rw [numbered, OrderedMap.lookup_cons]
    cases n with
    | zero => simp
    | succ n =>
      have hne : i + ((n + 1 : ℕ) : ℤ) ≠ i := by omega
      have hshift : i + ((n + 1 : ℕ) : ℤ) = i + 1 + n := by omega
      rw [if_neg hne, hshift, lookup_numbered n calls (i + 1), List.getElem?_cons_succ]

theorem toInt32_of_lt {i : ℕ} (h : i < 2 ^ 31) : toInt32 i = i := by
  unfold toInt32
  rw [Int.bmod_eq_of_le] <;> omega

/-- Only indices of the answer's calls occur. -/
theorem Reply.Cut.index_lt {m : Reply} {pieces : List Piece} (h : m.Cut pieces) {g : Fragment}
    (hg : g ∈ pieces.flatMap Piece.fragments) : g.index < m.calls.length := by
  by_contra hlt
  have hs := h.calls g.index
  rw [List.getElem?_eq_none (not_lt.mp hlt)] at hs
  have hmem : g ∈ (pieces.flatMap Piece.fragments).filter (·.index = g.index) := by simp [hg]
  cases hn : (pieces.flatMap Piece.fragments).filter (·.index = g.index) with
  | nil => rw [hn] at hmem; simp at hmem
  | cons g' gs => rw [hn] at hs; cases hs

/-- With indices that fit, the calls come out in their order. -/
theorem Reply.Cut.addFragments {m : Reply} {pieces : List Piece} (h : m.Cut pieces)
    (hfit : m.calls.length ≤ 2 ^ 31) :
    (pieces.flatMap Piece.fragments).foldl addFragment [] = numbered 0 m.calls := by
  refine (sorted_addFragments _ OrderedMap.sorted_nil).ext (sorted_numbered _ _) fun k => ?_
  have hkey : ∀ g ∈ pieces.flatMap Piece.fragments, toInt32 g.index = g.index := fun g hg =>
    toInt32_of_lt ((h.index_lt hg).trans_le hfit)
  rw [lookup_addFragments]
  rcases lt_or_ge k 0 with hneg | hpos
  · -- no fragment has a negative key
    rw [OrderedMap.lookup_of_lt fun b hb => hneg.trans_le (le_of_mem_numbered hb)]
    rw [List.filter_eq_nil_iff.mpr]
    · rfl
    · intro g hg
      have := hkey g hg
      simp only [decide_eq_true_eq]
      omega
  · obtain ⟨i, rfl⟩ := Int.eq_ofNat_of_zero_le hpos
    have hfilter : ((pieces.flatMap Piece.fragments).filter fun g => toInt32 g.index = (i : ℤ)) =
        (pieces.flatMap Piece.fragments).filter (·.index = i) := by
      refine List.filter_congr fun g hg => ?_
      rw [hkey g hg]
      simp
    have hl := lookup_numbered i m.calls 0
    rw [zero_add] at hl
    rw [hfilter, hl]
    exact (h.calls i).foldl

/-! ### The answer that is read -/

/-- The accumulator that has read an answer. -/
def Reply.accumulator (m : Reply) (provider : UsageProvider) (finishReason : String) : StreamAccumulator :=
  { provider
    text := m.text
    finishReason
    reasoning := m.reasoning.getD ""
    calls := numbered 0 m.calls
    inputTokens := addInput 0 m.usage
    outputTokens := addOutput provider 0 m.usage
    model := m.model.getD "" }

theorem addInput_again (usage : Option (List (String × Value))) (n : ℤ) :
    addInput (addInput n usage) usage = addInput n usage := by
  unfold addInput
  cases (usage.map Value.obj).bind (tokensAt? · "prompt_tokens") <;> rfl

theorem addOutput_again (provider : UsageProvider) (usage : Option (List (String × Value))) (n : ℤ) :
    addOutput provider (addOutput provider n usage) usage = addOutput provider n usage := by
  unfold addOutput
  cases (usage.map Value.obj).bind (outputTokenCount · provider) <;> rfl

theorem addModel_again (model : Option String) (name : String) :
    addModel (addModel name model) model = addModel name model := by
  cases model with
  | none => simp [addModel]
  | some model =>
    unfold addModel
    split_ifs <;> rfl

/-- The pieces of an answer add up to it. -/
theorem Reply.Cut.foldl_feed {m : Reply} {pieces : List Piece} (h : m.Cut pieces) (hfit : m.calls.length ≤ 2 ^ 31)
    (provider : UsageProvider) : ∃ r, pieces.foldl Piece.feed { provider } = m.accumulator provider r := by
  have hprovider := foldl_feed_provider pieces { provider }
  have htext := foldl_feed_text pieces { provider }
  have hreasoning := foldl_feed_reasoning pieces { provider }
  have hcalls := foldl_feed_calls pieces { provider }
  have hinput := foldl_feed_inputTokens pieces { provider }
  have houtput := foldl_feed_outputTokens pieces { provider }
  have hmodel := foldl_feed_model pieces { provider }
  rw [h.text, String.empty_append] at htext
  rw [h.reasoning, String.empty_append] at hreasoning
  rw [h.addFragments hfit] at hcalls
  rw [h.usage.foldl (fun _ => rfl) (addInput_again m.usage)] at hinput
  rw [h.usage.foldl (fun _ => rfl) (addOutput_again provider m.usage)] at houtput
  rw [h.model.foldl (fun _ => by simp [addModel]) (addModel_again m.model)] at hmodel
  refine ⟨(pieces.foldl Piece.feed { provider }).finishReason, ?_⟩
  generalize pieces.foldl Piece.feed { provider } = acc at *
  obtain ⟨_, _, _, _, _, _, _, _⟩ := acc
  dsimp only at *
  rw [hprovider, htext, hreasoning, hcalls, hinput, houtput, hmodel]
  rfl

/-- The accumulator that some frames leave. -/
def streamed (C : Codec) (provider : UsageProvider) (frames : List String) : StreamAccumulator :=
  (feedFrames C { provider } frames).1

/-- Some frames are the pieces of an answer. -/
def Frames (C : Codec) (frames : List String) (pieces : List Piece) : Prop :=
  List.Forall₂ (fun frame p => ∃ f, C.parse frame = some f ∧ Carries f p) frames pieces

theorem Reply.Cut.streamed {m : Reply} {pieces : List Piece} (h : m.Cut pieces) (hfit : m.calls.length ≤ 2 ^ 31)
    {C : Codec} {frames : List String} (hframes : Frames C frames pieces) (provider : UsageProvider) :
    ∃ r, streamed C provider frames = m.accumulator provider r := by
  obtain ⟨r, hr⟩ := feedFrames_carries hframes { provider }
  obtain ⟨r', hr'⟩ := h.foldl_feed hfit provider
  refine ⟨r, ?_⟩
  rw [Openai.streamed, hr, hr']
  rfl

/-! ### An answer in one frame -/

/-- The calls, each in one fragment. -/
def openings (i : ℕ) : List PartialCall → List Fragment
  | [] => []
  | call :: calls => ⟨i, some (call.id, call.name), call.arguments⟩ :: openings (i + 1) calls

/-- The answer in one piece. -/
def Reply.whole (m : Reply) : Piece := ⟨m.text, m.reasoning.getD "", openings 0 m.calls, m.usage, m.model⟩

theorem le_index_of_mem_openings : ∀ {calls : List PartialCall} {i : ℕ} {g : Fragment}, g ∈ openings i calls → i ≤ g.index
  | [], _, _, h => absurd h List.not_mem_nil
  | call :: calls, i, g, h => by
    rcases List.mem_cons.mp h with rfl | h
    · exact le_rfl
    · have := le_index_of_mem_openings h
      omega

theorem spells_openings (n : ℕ) : ∀ (calls : List PartialCall) (i : ℕ),
    Spells ((openings i calls).filter (·.index = i + n)) calls[n]?
  | [], _ => by
    rw [List.getElem?_nil]
    exact .absent
  | call :: calls, i => by
    cases n with
    | zero =>
      have hrest : (openings (i + 1) calls).filter (·.index = i + 0) = [] := by
        refine List.filter_eq_nil_iff.mpr fun g hg => ?_
        have := le_index_of_mem_openings hg
        simp only [decide_eq_true_eq]
        omega
      rw [openings, List.filter_cons_of_pos (by simp), hrest]
      exact .call rfl (by simp) (by simp)
    | succ n =>
      have ih := spells_openings n calls (i + 1)
      rw [Nat.add_right_comm] at ih
      rw [openings, List.filter_cons_of_neg (by simp), List.getElem?_cons_succ]
      exact ih

/-- One piece is a way to cut the answer. -/
theorem Reply.cut_whole (m : Reply) : m.Cut [m.whole] := by
  refine ⟨by simp [Reply.whole], by simp [Reply.whole], fun i => ?_, ⟨?_, ?_⟩, ⟨?_, ?_⟩⟩
  · have h := spells_openings i m.calls 0
    simpa [Reply.whole] using h
  · simp [Reply.whole]
  · simp [Reply.whole]
  · simp [Reply.whole]
  · simp [Reply.whole]

def Fragment.value (g : Fragment) : Value :=
  .object (("index", .int g.index) ::
    match g.opening with
    | some (id, name) => [("id", .str id), ("type", .str "function"),
        ("function", .object [("name", .str name), ("arguments", .str g.arguments)])]
    | none => [("function", .object [("arguments", .str g.arguments)])])

theorem Fragment.adds_value (g : Fragment) : Adds g.value g := by
  cases ho : g.opening with
  | none =>
    constructor <;> simp [Fragment.value, ho, Value.object, Value.stringAt?, functionString?, Option.filter,
      Value.isObject]
  | some opening =>
    constructor <;> simp [Fragment.value, ho, Value.object, Value.stringAt?, functionString?, Option.filter,
      Value.isObject]

/-- A string member that is only written if there is one. -/
def insertSome (k : String) (s : Option String) (ms : List (String × Value)) : List (String × Value) :=
  match s with
  | some s => OrderedMap.insert k (.str s) ms
  | none => ms

@[simp]
theorem lookup_insertSome (k k' : String) (s : Option String) (ms : List (String × Value)) :
    (insertSome k s ms).lookup k' = if k' = k then (s.map Value.str).or (ms.lookup k') else ms.lookup k' := by
  cases s with
  | none => simp [insertSome]
  | some s => simp [insertSome]

def insertUsage (usage : Option (List (String × Value))) (ms : List (String × Value)) : List (String × Value) :=
  match usage with
  | some u => OrderedMap.insert "usage" (.obj u) ms
  | none => ms

/-- A frame or a body with the choice. -/
def withChoice (choice : Value) (usage : Option (List (String × Value))) (model : Option String) : Value :=
  .obj (insertSome "model" model (insertUsage usage [("choices", .arr [choice])]))

/-- A frame that carries the piece. -/
def Piece.value (p : Piece) : Value :=
  withChoice (.object [("delta", .object [("content", .str p.text), ("reasoning_content", .str p.reasoning),
    ("tool_calls", .arr (p.fragments.map Fragment.value))])]) p.usage p.model

theorem withChoice_reads (choice : Value) (usage : Option (List (String × Value))) (model : Option String) :
    (withChoice choice usage model).arrayAt? "choices" = some [choice] ∧
      ((withChoice choice usage model).find? "usage").filter Value.isObject = usage.map Value.obj ∧
      (withChoice choice usage model).stringAt? "model" = model := by
  refine ⟨?_, ?_, ?_⟩
  · cases usage <;> simp [withChoice, Value.arrayAt?, insertUsage]
  · cases usage <;> simp [withChoice, insertUsage, OrderedMap.lookup_cons, Option.filter, Value.isObject]
  · cases usage <;> cases model <;> simp [withChoice, Value.stringAt?, insertUsage, OrderedMap.lookup_cons]

theorem Piece.carries_value (p : Piece) : Carries p.value p := by
  obtain ⟨hchoices, husage, hmodel⟩ := withChoice_reads (.object [("delta", .object [("content", .str p.text),
    ("reasoning_content", .str p.reasoning), ("tool_calls", .arr (p.fragments.map Fragment.value))])]) p.usage p.model
  refine ⟨⟨_, .delta hchoices rfl, ?_, ?_, ?_⟩, husage, hmodel⟩
  · simp [Value.stringAt?]
  · simp [Value.stringAt?]
  · have hforall : List.Forall₂ Adds (p.fragments.map Fragment.value) p.fragments := by
      rw [List.forall₂_map_left_iff]
      exact List.forall₂_same.mpr fun g _ => g.adds_value
    simpa [Value.arrayAt?] using hforall

end AgentFlow.Openai
