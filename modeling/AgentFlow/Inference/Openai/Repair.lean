/-
# The repair of a history, as a loop

The source repairs a history in place: an index runs over a vector that the
loop itself inserts into. `repairLoop` is that loop, with a bound on its
rounds; it ends within one round for each message it began with, and leaves
what the recursion over the messages leaves (`repairLoop_eq`).

A history is a list of blocks (`blocks`): single messages, and assistant
turns with the run of tool messages after them. The repair appends to each
turn's run a placeholder for every id that the run does not answer.

Key definitions: `repairLoop`, `WellTyped`, `Block`, `Repairs`.
Key theorems: `repairLoop_eq`, `repairs_blocks`, `repairLoop_repairs`.
-/
import AgentFlow.Inference.Openai.Pairing

namespace AgentFlow.Openai

open Json

/-- The rounds of `RepairToolCallPairing`, at most `fuel` of them: the
messages as they are at the end, and the exception that ended the loop. -/
def repairLoop : ℕ → List Value → ℕ → Option (List Value × Option Json.Error)
  | 0, _, _ => none
  | fuel + 1, messages, i =>
    match messages[i]? with
    | none => some (messages, none)
    | some m =>
      match assistantCalls m with
      | .error e => some (messages, some e)
      | .ok none => repairLoop fuel messages (i + 1)
      | .ok (some calls) =>
        match toolRun (messages.drop (i + 1)) with
        | .error e => some (messages, some e)
        | .ok answered =>
          let stop := i + 1 + answered.length
          let missing := missingResults (wantedIds calls) answered
          -- the run is skipped: the next round is at the message after it
          let last := stop + missing.length - 1
          repairLoop fuel (messages.take stop ++ missing ++ messages.drop stop) (last + 1)

theorem toolRun_length_le : ∀ {rest : List Value} {answered : List String}, toolRun rest = .ok answered →
    answered.length ≤ rest.length
  | [], answered, h => by
    obtain rfl := Except.ok.inj h
    exact le_rfl
  | m :: rest, answered, h => by
    rw [toolRun] at h
    split_ifs at h with hobj
    · cases hrole : m.value "role" "" with
      | error e => simp [hrole, bind, Except.bind] at h
      | ok role =>
        simp only [hrole, bind, Except.bind] at h
        split_ifs at h
        · cases hid : m.value "tool_call_id" "" with
          | error e => simp [hid] at h
          | ok id =>
            cases hrun : toolRun rest with
            | error e => simp [hid, hrun] at h
            | ok ids =>
              simp only [hid, hrun, pure, Except.pure, Except.ok.injEq] at h
              have hle := toolRun_length_le hrun
              rw [← h, List.length_cons, List.length_cons]
              omega
        · obtain rfl := Except.ok.inj h
          exact Nat.zero_le _
    · obtain rfl := Except.ok.inj h
      exact Nat.zero_le _

/-- **The loop ends**, within a round for each message that is left and one
more, and leaves what the recursion leaves. -/
theorem repairLoop_eq : ∀ (fuel : ℕ) (before messages : List Value), messages.length < fuel →
    repairLoop fuel (before ++ messages) before.length =
      some (before ++ (repairToolCallPairing messages).1, (repairToolCallPairing messages).2)
  | fuel + 1, before, [], _ => by
    rw [repairLoop, repairToolCallPairing, List.append_nil, List.getElem?_eq_none le_rfl]
  | fuel + 1, before, m :: rest, h => by
    rw [List.length_cons] at h
    have hm : (before ++ m :: rest)[before.length]? = some m := by simp
    rw [repairLoop, repairToolCallPairing, hm]
    simp only
    cases assistantCalls m with
    | error e => rfl
    | ok calls? =>
      cases calls? with
      | none =>
        have ih := repairLoop_eq fuel (before ++ [m]) rest (by omega)
        rw [List.length_append, List.length_singleton, List.append_assoc, List.singleton_append] at ih
        simp only [ih, List.append_assoc, List.singleton_append]
      | some calls =>
        have hdrop : (before ++ m :: rest).drop (before.length + 1) = rest := by
          rw [← List.drop_drop, List.drop_left, List.drop_succ_cons, List.drop_zero]
        simp only [hdrop]
        cases hrun : toolRun rest with
        | error e => rfl
        | ok answered =>
          simp only
          have hlen : (rest.take answered.length).length = answered.length :=
            List.length_take_of_le (toolRun_length_le hrun)
          generalize missingResults (wantedIds calls) answered = missing
          have ih := repairLoop_eq fuel (before ++ m :: (rest.take answered.length ++ missing))
            (rest.drop answered.length) (by rw [List.length_drop]; omega)
          have htake : (before ++ m :: rest).take (before.length + 1 + answered.length) =
              before ++ m :: rest.take answered.length := by
            rw [Nat.add_assoc, List.take_length_add_append, Nat.add_comm 1, List.take_succ_cons]
          have hdrop' : (before ++ m :: rest).drop (before.length + 1 + answered.length) =
              rest.drop answered.length := by
            rw [← List.drop_drop, hdrop]
          have hindex : before.length + 1 + answered.length + missing.length - 1 + 1 =
              (before ++ m :: (rest.take answered.length ++ missing)).length := by
            simp only [List.length_append, List.length_cons, hlen]
            omega
          rw [htake, hdrop', hindex]
          simpa only [List.append_assoc, List.cons_append] using ih

/-! ### What is read of a message -/

/-- The role and the id of a message are strings, where it has any. -/
def WellTyped (m : Value) : Prop := ∀ k ∈ ["role", "tool_call_id"], ∀ v, m.find? k = some v → v.str?.isSome

instance (m : Value) : Decidable (WellTyped m) :=
  decidable_of_iff (∀ k ∈ ["role", "tool_call_id"], (m.find? k).all fun v => v.str?.isSome)
    (by simp only [WellTyped, Option.all_eq_true])

theorem value_of_isSome {m : Value} {k : String} (hobj : m.isObject = true)
    (h : ∀ v, m.find? k = some v → v.str?.isSome) : m.value k "" = .ok ((m.stringAt? k).getD "") := by
  cases m with
  | obj ms =>
    cases hv : ms.lookup k with
    | none => simp [Value.value, Value.stringAt?, hv]
    | some v =>
      obtain ⟨s, hs⟩ := Option.isSome_iff_exists.mp (h v hv)
      rw [Value.str?_eq_some hs] at hv
      simp [Value.value, Value.stringAt?, hv]
  | _ => cases hobj

theorem callsOf_of_not_object {m : Value} (h : ¬ m.isObject = true) : callsOf m = [] := by
  rw [callsOf, if_neg]
  intro hrole
  exact h (stringAt?_object hrole)

theorem assistantCalls_of_wellTyped {m : Value} (h : WellTyped m) :
    assistantCalls m = .ok (if callsOf m = [] then none else some (callsOf m)) := by
  rw [assistantCalls]
  by_cases hobj : m.isObject = true
  · have hrole := value_of_isSome hobj (h "role" (by simp))
    simp only [hobj, if_true, hrole, bind, Except.bind]
    cases hs : m.stringAt? "role" with
    | none => simp [callsOf, hs, pure, Except.pure]
    | some role =>
      by_cases ha : role = "assistant"
      · subst ha
        simp only [Option.getD_some, if_true, callsOf, hs]
        cases hc : m.arrayAt? "tool_calls" with
        | none => rfl
        | some cs => cases cs <;> rfl
      · simp [callsOf, hs, ha, pure, Except.pure]
  · rw [if_neg hobj, callsOf_of_not_object hobj]
    rfl

theorem toolRun_of_wellTyped : ∀ {rest : List Value}, (∀ m ∈ rest, WellTyped m) →
    toolRun rest = .ok ((rest.takeWhile isTool).map toolCallId)
  | [], _ => rfl
  | m :: rest, h => by
    have ih := toolRun_of_wellTyped fun u hu => h u (List.mem_cons_of_mem m hu)
    have hm := h m List.mem_cons_self
    rw [toolRun]
    by_cases hobj : m.isObject = true
    · have hrole := value_of_isSome hobj (hm "role" (by simp))
      have hid := value_of_isSome hobj (hm "tool_call_id" (by simp))
      simp only [hobj, if_true, hrole, bind, Except.bind]
      by_cases ht : isTool m = true
      · have hs : m.stringAt? "role" = some "tool" := by simpa [isTool] using ht
        simp only [hs, Option.getD_some, if_true, hid, ih, List.takeWhile_cons_of_pos ht, List.map_cons, toolCallId]
        rfl
      · have hs : ¬ (m.stringAt? "role").getD "" = "tool" := by
          intro heq
          cases hrole' : m.stringAt? "role" with
          | none => simp [hrole'] at heq
          | some role => simp [isTool, hrole'] at ht heq; exact ht heq
        rw [if_neg hs, List.takeWhile_cons_of_neg ht]
        rfl
    · have ht : ¬ isTool m = true := fun ht => hobj (stringAt?_object (by simpa [isTool] using ht))
      rw [if_neg hobj, List.takeWhile_cons_of_neg ht]
      rfl

/-! ### Blocks -/

/-- A part of a history: a message, or an assistant turn with the tool messages after it. -/
inductive Block
  | other (m : Value)
  | turn (m : Value) (run : List Value)

namespace Block

def messages : Block → List Value
  | .other m => [m]
  | .turn m run => m :: run

/-- What the run of the turn leaves unanswered. -/
def missing (m : Value) (run : List Value) : List Value :=
  missingResults (wantedIds (callsOf m)) (run.map toolCallId)

/-- The block with a placeholder for each id that is not answered. -/
def repaired : Block → List Value
  | .other m => [m]
  | .turn m run => m :: (run ++ missing m run)

end Block

def blocks (messages : List Value) : List Block :=
  match messages with
  | [] => []
  | m :: rest =>
    if callsOf m = [] then .other m :: blocks rest
    else .turn m (rest.takeWhile isTool) :: blocks (rest.dropWhile isTool)
termination_by messages.length
decreasing_by
  · simp
  · have hle := (List.dropWhile_suffix isTool (l := rest)).length_le
    simp only [List.length_cons]
    omega

/-- An induction over the blocks of a history. -/
theorem blocks_induction {motive : List Value → Prop} (nil : motive [])
    (other : ∀ m rest, callsOf m = [] → motive rest → motive (m :: rest))
    (turn : ∀ m rest, callsOf m ≠ [] → motive (rest.dropWhile isTool) → motive (m :: rest)) :
    ∀ ms : List Value, motive ms := by
  intro ms
  induction hn : ms.length using Nat.strong_induction_on generalizing ms with
  | _ n ih =>
    cases ms with
    | nil => exact nil
    | cons m rest =>
      by_cases hc : callsOf m = []
      · exact other m rest hc (ih rest.length (by simp [← hn]) rest rfl)
      · have hle := (List.dropWhile_suffix isTool (l := rest)).length_le
        exact turn m rest hc (ih _ (by rw [← hn, List.length_cons]; omega) _ rfl)

theorem flatMap_messages_blocks (ms : List Value) : (blocks ms).flatMap Block.messages = ms := by
  induction ms using blocks_induction with
  | nil => simp [blocks]
  | other m rest hc ih => rw [blocks, if_pos hc, List.flatMap_cons, ih]; rfl
  | turn m rest hc ih =>
    rw [blocks, if_neg hc, List.flatMap_cons, ih, Block.messages, List.cons_append, List.takeWhile_append_dropWhile]

/-- **The repair throws nothing**, and repairs block by block. -/
theorem repairToolCallPairing_of_wellTyped (ms : List Value) :
    (∀ m ∈ ms, WellTyped m) → repairToolCallPairing ms = ((blocks ms).flatMap Block.repaired, none) := by
  induction ms using blocks_induction with
  | nil => intro _; rw [repairToolCallPairing, blocks]; rfl
  | other m rest hc ih =>
    intro h
    rw [repairToolCallPairing, assistantCalls_of_wellTyped (h m List.mem_cons_self), if_pos hc, blocks, if_pos hc,
      ih fun u hu => h u (List.mem_cons_of_mem m hu)]
    rfl
  | turn m rest hc ih =>
    intro h
    have hrest : ∀ u ∈ rest, WellTyped u := fun u hu => h u (List.mem_cons_of_mem m hu)
    have htake : rest.take (rest.takeWhile isTool).length = rest.takeWhile isTool :=
      (List.prefix_iff_eq_take.mp (List.takeWhile_prefix isTool)).symm
    have hdrop : rest.drop (rest.takeWhile isTool).length = rest.dropWhile isTool := by
      conv_lhs => rw [← List.takeWhile_append_dropWhile (p := isTool) (l := rest)]
      rw [List.drop_left']
      rw [List.takeWhile_append_dropWhile]
    rw [repairToolCallPairing, assistantCalls_of_wellTyped (h m List.mem_cons_self), if_neg hc]
    simp only [toolRun_of_wellTyped hrest, List.length_map, htake, hdrop]
    rw [blocks, if_neg hc, ih fun u hu => hrest u ((List.dropWhile_suffix isTool).mem hu), List.flatMap_cons]
    simp only [Block.repaired, Block.missing, List.append_assoc, List.cons_append]

theorem repaired_blocks (ms : List Value) : Repaired ms ((blocks ms).flatMap Block.repaired) := by
  induction ms using blocks_induction with
  | nil => rw [blocks]; exact Repaired.nil
  | other m rest hc ih =>
    rw [blocks, if_pos hc]
    exact Repaired.skip hc ih
  | turn m rest hc ih =>
    have hr := @Repaired.answer m (rest.takeWhile isTool) _ _ hc (fun t ht => List.mem_takeWhile_imp ht) ih
    rw [List.takeWhile_append_dropWhile] at hr
    rw [blocks, if_neg hc, List.flatMap_cons]
    simpa only [Block.repaired, Block.missing, List.append_assoc, List.cons_append] using hr

theorem Block.sublist_repaired (b : Block) : b.messages.Sublist b.repaired := by
  cases b with
  | other m => exact List.Sublist.refl _
  | turn m run => exact (List.sublist_append_left run _).cons_cons m

theorem sublist_flatMap_repaired : ∀ bs : List Block, (bs.flatMap Block.messages).Sublist (bs.flatMap Block.repaired)
  | [] => List.Sublist.refl _
  | b :: bs => by
    rw [List.flatMap_cons, List.flatMap_cons]
    exact b.sublist_repaired.append (sublist_flatMap_repaired bs)

/-- A turn has calls, and its run is all of the tool messages that follow it. -/
theorem blocks_turn (ms : List Value) : ∀ (p : List Block) (m : Value) (run : List Value) (s : List Block),
    blocks ms = p ++ .turn m run :: s →
      callsOf m ≠ [] ∧ run = (run ++ s.flatMap Block.messages).takeWhile isTool := by
  induction ms using blocks_induction with
  | nil =>
    intro p m run s h
    rw [blocks] at h
    simp at h
  | other m rest hc ih =>
    intro p m' run s h
    rw [blocks, if_pos hc] at h
    cases p with
    | nil => simp at h
    | cons b p =>
      obtain ⟨-, h⟩ := List.cons.inj h
      exact ih p m' run s h
  | turn m rest hc ih =>
    intro p m' run s h
    rw [blocks, if_neg hc] at h
    cases p with
    | nil =>
      obtain ⟨hb, rfl⟩ := List.cons.inj h
      obtain ⟨rfl, rfl⟩ := Block.turn.inj hb
      rw [flatMap_messages_blocks, List.takeWhile_append_dropWhile]
      exact ⟨hc, rfl⟩
    | cons b p =>
      obtain ⟨-, h⟩ := List.cons.inj h
      exact ih p m' run s h

theorem Paired.of_append {before ms : List Value} (h : Paired (before ++ ms)) : Paired ms :=
  fun p m rest hs => h (before ++ p) m rest (by rw [hs, List.append_assoc])

/-- Nothing is missing where all calls are answered. -/
theorem missing_of_answers {m : Value} {rest : List Value} (h : Answers m rest) :
    Block.missing m (rest.takeWhile isTool) = [] := by
  rw [Block.missing, missingResults, List.map_eq_nil_iff, List.filter_eq_nil_iff]
  intro id hid
  obtain ⟨c, hc, hcid⟩ := List.mem_filterMap.mp hid
  obtain ⟨hstring, hne⟩ := Option.filter_eq_some_iff.mp hcid
  obtain ⟨t, ht, htid⟩ := h c hc id hstring (by simpa using hne)
  have hmem : id ∈ (rest.takeWhile isTool).map toolCallId :=
    List.mem_map.mpr ⟨t, ht, by rw [toolCallId, htid, Option.getD_some]⟩
  simpa using hmem

theorem flatMap_repaired_of_paired (ms : List Value) : Paired ms → (blocks ms).flatMap Block.repaired = ms := by
  induction ms using blocks_induction with
  | nil => intro _; rw [blocks]; rfl
  | other m rest hc ih =>
    intro h
    rw [blocks, if_pos hc, List.flatMap_cons, ih (paired_cons.mp h).2]
    rfl
  | turn m rest hc ih =>
    intro h
    obtain ⟨hm, hrest⟩ := paired_cons.mp h
    have hdrop : Paired (rest.dropWhile isTool) := by
      rw [← List.takeWhile_append_dropWhile (p := isTool) (l := rest)] at hrest
      exact hrest.of_append
    rw [blocks, if_neg hc, List.flatMap_cons, ih hdrop, Block.repaired, missing_of_answers hm, List.append_nil,
      List.cons_append, List.takeWhile_append_dropWhile]

/-! ### The repair -/

/-- `r` is the history `ms` with its calls answered, and as little else. -/
structure Repairs (ms r : List Value) : Prop where
  /-- Every call is answered directly after it. -/
  paired : Paired r
  /-- The messages stay, in their order. -/
  kept : ms.Sublist r
  /-- What is added stands at the end of a run, for an id that the run does not answer. -/
  added : ∃ bs : List Block, ms = bs.flatMap Block.messages ∧ r = bs.flatMap Block.repaired ∧
    ∀ p m run s, bs = p ++ .turn m run :: s →
      callsOf m ≠ [] ∧ run = (run ++ s.flatMap Block.messages).takeWhile isTool
  /-- A history whose calls are answered stays as it is. -/
  unchanged : Paired ms → r = ms

theorem repairs_blocks (ms : List Value) : Repairs ms ((blocks ms).flatMap Block.repaired) where
  paired := (repaired_blocks ms).paired
  kept := by
    have hs := sublist_flatMap_repaired (blocks ms)
    rwa [flatMap_messages_blocks] at hs
  added := ⟨blocks ms, (flatMap_messages_blocks ms).symm, rfl, blocks_turn ms⟩
  unchanged := flatMap_repaired_of_paired ms

theorem wellTyped_toolMessage (id content : String) : WellTyped (toolMessage id content) := by
  intro k hk v hv
  simp only [List.mem_cons, List.not_mem_nil, or_false] at hk
  rcases hk with rfl | rfl <;> simp [toolMessage, Value.object] at hv <;> rw [← hv] <;> rfl

theorem repairLoop_of_wellTyped {ms : List Value} (h : ∀ m ∈ ms, WellTyped m) :
    repairLoop (ms.length + 1) ms 0 = some ((blocks ms).flatMap Block.repaired, none) := by
  have hl := repairLoop_eq (ms.length + 1) [] ms (Nat.lt_succ_self _)
  rwa [List.nil_append, List.length_nil, repairToolCallPairing_of_wellTyped ms h] at hl

/-- **`RepairToolCallPairing`** ends, repairs the history, and leaves a
history that it does not change any more. -/
theorem repairLoop_repairs {ms : List Value} (h : ∀ m ∈ ms, WellTyped m) : ∃ r,
    repairLoop (ms.length + 1) ms 0 = some (r, none) ∧ Repairs ms r ∧
      repairLoop (r.length + 1) r 0 = some (r, none) := by
  have hr := repairs_blocks ms
  have htyped : ∀ m ∈ (blocks ms).flatMap Block.repaired, WellTyped m := by
    intro m hm
    rcases (repaired_blocks ms).mem hm with hm | ⟨id, rfl⟩
    · exact h m hm
    · exact wellTyped_toolMessage id _
  refine ⟨_, repairLoop_of_wellTyped h, hr, ?_⟩
  rw [repairLoop_of_wellTyped htyped, flatMap_repaired_of_paired _ hr.paired]

/-- A turn with two calls, one of them answered. -/
def halfAnswered : List Value :=
  [.obj [("role", .str "assistant"), ("tool_calls", .arr [.obj [("id", .str "a")], .obj [("id", .str "b")]])],
    toolMessage "a" "done", .obj [("role", .str "user"), ("content", .str "and now?")]]

theorem repairLoop_repairs_half : ∃ r, repairLoop 4 halfAnswered 0 = some (r, none) ∧ Repairs halfAnswered r ∧
    repairLoop (r.length + 1) r 0 = some (r, none) := by
  have htyped : ∀ m ∈ halfAnswered, WellTyped m := by decide +kernel
  exact repairLoop_repairs htyped

end AgentFlow.Openai
