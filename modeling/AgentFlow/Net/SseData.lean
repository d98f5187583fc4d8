/-
# The two framers on one stream

The payloads of `SseFramer` and the data of the events of `SseEventFramer`,
without the data that is empty or `[DONE]`. Each parser of a field block joins
the `data:` lines in its own way: one asks whether there is a payload yet, the
other whether there was a line. They differ where a frame with several data
lines starts with an empty one, and only there (`payloads_eq_iff`).

Key definitions: `dataValues`, `Bounded`, `Led`.
Key theorems: `payloads_eq_iff`.
-/
import AgentFlow.Net.SseLimit

namespace AgentFlow
namespace Net

/-- The values of the data lines of a field block. -/
def dataValues (block : List Char) : List (List Char) := (frameLines block.length block).filterMap dataValue?

/-- Values after others, each on a line of its own. -/
def further (values : List (List Char)) : List Char := values.flatMap ('\n' :: ·)

/-- The values joined by line feeds. -/
def joined : List (List Char) → List Char
  | [] => []
  | value :: values => value ++ further values

/-! ### The parser of the event framer -/

/-- A line adds to the data if it is a data line. -/
theorem addField_data (ev : SseEvent × Bool) (line : List Char) :
    ((addField ev line).1.data, (addField ev line).2) =
      (dataValue? line).elim (ev.1.data, ev.2) fun value =>
        ((if ev.2 then ev.1.data ++ ['\n'] else ev.1.data) ++ value, true) := by
  unfold addField dataValue?
  simp only
  by_cases hskip : stripCr line = [] ∨ (stripCr line).head? = some ':'
  · rw [if_pos hskip, if_pos hskip]
    rfl
  rw [if_neg hskip, if_neg hskip]
  by_cases hname : (splitOnce (stripCr line) [':']).1 = "data".toList
  · rw [if_pos hname, if_neg (not_not.mpr hname)]
    rfl
  · rw [if_neg hname, if_pos hname, Option.elim_none]
    -- the fields that are no data
    split_ifs
    · rfl
    · rfl
    · cases retryValue? (stripSpace (splitOnce (stripCr line) [':']).2) <;> rfl
    · rfl

theorem foldl_addField_data (lines : List (List Char)) (ev : SseEvent × Bool) :
    ((lines.foldl addField ev).1.data, (lines.foldl addField ev).2) =
      (if ev.2 then ev.1.data ++ further (lines.filterMap dataValue?)
        else ev.1.data ++ joined (lines.filterMap dataValue?), ev.2 || !(lines.filterMap dataValue?).isEmpty) := by
  induction lines generalizing ev with
  | nil => simp [further, joined]
  | cons line lines ih =>
    have hline := addField_data ev line
    rw [List.foldl_cons, ih]
    cases hv : dataValue? line with
    | none =>
      rw [hv] at hline
      obtain ⟨hdata, hseen⟩ := Prod.mk.inj hline
      rw [hdata, hseen, List.filterMap_cons_none hv]
    | some value =>
      rw [hv] at hline
      obtain ⟨hdata, hseen⟩ := Prod.mk.inj hline
      rw [hdata, hseen, List.filterMap_cons_some hv]
      cases ev.2 <;> simp [further, joined]

/-- The data of the event of a field block, as far as it counts. -/
theorem eventOf_data (block : List Char) :
    (eventOf block).flatMap (fun ev => delivered ev.data) = delivered (joined (dataValues block)) := by
  have hfold := foldl_addField_data (frameLines block.length block) ({}, false)
  obtain ⟨hdata, hseen⟩ := Prod.mk.inj hfold
  rw [eventOf]
  simp only
  split_ifs with hkept
  · rw [List.flatMap_singleton, hdata]
    rfl
  · -- an event that is not delivered has no data
    rw [Bool.or_eq_true, Bool.or_eq_true, not_or, not_or, hseen] at hkept
    have hempty : ¬ (false || !(dataValues block).isEmpty) = true := hkept.1.1
    have hnone : dataValues block = [] := by simpa using hempty
    simp [hnone, joined, delivered]

/-! ### The parser of the other one -/

theorem foldl_payload {payload : List Char} (h : payload ≠ []) (values : List (List Char)) :
    values.foldl (fun payload value => (if payload = [] then payload else payload ++ ['\n']) ++ value) payload =
      payload ++ further values := by
  induction values generalizing payload with
  | nil => simp [further]
  | cons value values ih =>
    rw [List.foldl_cons, if_neg h, ih (by simp [h])]
    simp [further]

/-- Empty values at the start of a payload leave no trace. -/
theorem framePayload_eq (block : List Char) :
    framePayload block = joined ((dataValues block).dropWhile fun value => value = []) := by
  unfold framePayload
  change (dataValues block).foldl _ [] = _
  induction dataValues block with
  | nil => rfl
  | cons value values ih =>
    by_cases hv : value = []
    · rw [List.foldl_cons, hv]
      simpa using ih
    · rw [List.foldl_cons, if_pos rfl, List.nil_append, foldl_payload hv]
      simp [hv, joined]

/-! ### When they agree -/

/-- The first data line of the frame is not empty, or it is the only one. -/
def Led (block : List Char) : Prop := ∀ values, dataValues block = [] :: values → values = []

theorem length_joined_dropWhile_le (values : List (List Char)) :
    (joined (values.dropWhile fun value => value = [])).length ≤ (further values).length ∧
      (values ≠ [] → (joined (values.dropWhile fun value => value = [])).length < (further values).length) := by
  induction values with
  | nil => simp [joined]
  | cons value values ih =>
    by_cases hv : value = []
    · simp [hv, further] at ih ⊢
      omega
    · simp [hv, further, joined]

/-- A block gives the same to both, or an event and not its payload. -/
theorem delivered_cases (block : List Char) :
    (Led block ∧ framePayload block = joined (dataValues block)) ∨
      (¬ Led block ∧ framePayload block ≠ joined (dataValues block) ∧
        delivered (joined (dataValues block)) = [joined (dataValues block)]) := by
  rw [framePayload_eq, Led]
  cases hv : dataValues block with
  | nil => exact Or.inl ⟨by simp, rfl⟩
  | cons value values =>
    by_cases hempty : value = []
    · subst hempty
      cases values with
      | nil => exact Or.inl ⟨by simp, rfl⟩
      | cons v vs =>
        refine Or.inr ⟨fun h => (by cases h _ rfl), fun heq => ?_, ?_⟩
        · have hlt := (length_joined_dropWhile_le (v :: vs)).2 (by simp)
          have hlen : (joined ((v :: vs).dropWhile fun value => value = [])).length = (further (v :: vs)).length :=
            congrArg List.length heq
          omega
        · have hne : joined ([] :: v :: vs) = '\n' :: (v ++ further vs) := by simp [joined, further]
          rw [delivered, hne, if_neg (by simp [done])]
    · refine Or.inl ⟨fun vs h => absurd (List.cons.inj h).1 hempty, ?_⟩
      simp [hempty]

theorem delivered_eq_iff (block : List Char) :
    delivered (framePayload block) = delivered (joined (dataValues block)) ↔ Led block := by
  rcases delivered_cases block with ⟨hled, heq⟩ | ⟨hled, hne, hd⟩
  · rw [heq]
    exact iff_of_true rfl hled
  · refine iff_of_false (fun heq => hne ?_) hled
    rw [hd, delivered] at heq
    split_ifs at heq
    exact List.singleton_inj.mp heq

theorem length_delivered_le (block : List Char) :
    (delivered (framePayload block)).length ≤ (delivered (joined (dataValues block))).length := by
  rcases delivered_cases block with ⟨-, heq⟩ | ⟨-, -, hd⟩
  · rw [heq]
  · rw [hd, delivered]
    split_ifs <;> simp

theorem flatMap_eq_iff_of_length_le {α β : Type} {f g : α → List β} {as : List α}
    (h : ∀ a ∈ as, (f a).length ≤ (g a).length) : as.flatMap f = as.flatMap g ↔ ∀ a ∈ as, f a = g a := by
  induction as with
  | nil => simp
  | cons a as ih =>
    obtain ⟨ha, has⟩ := List.forall_mem_cons.mp h
    rw [List.flatMap_cons, List.flatMap_cons, List.forall_mem_cons, ← ih has]
    constructor
    · intro heq
      have hle : (as.flatMap f).length ≤ (as.flatMap g).length := by
        rw [List.length_flatMap, List.length_flatMap]
        exact List.sum_le_sum has
      have hlen := congrArg List.length heq
      rw [List.length_append, List.length_append] at hlen
      exact List.append_inj heq (by omega)
    · rintro ⟨hfg, hrest⟩
      rw [hfg, hrest]

/-! ### Streams -/

/-- The frames of the stream are within the limit, and so is what is there of
one between two reads. -/
def Bounded (pieces : List (List Char)) : Prop :=
  (∀ b ∈ blocks pieces.flatten, short b = true) ∧
    ∀ k < pieces.length, (rest (pieces.take k).flatten).length ≤ 65536

theorem Bounded.init {pieces : List (List Char)} {bytes : List Char} (h : Bounded (pieces ++ [bytes])) :
    Bounded pieces ∧ (rest pieces.flatten).length ≤ 65536 := by
  obtain ⟨hblocks, hrest⟩ := h
  rw [List.flatten_append, List.flatten_singleton, blocks_append] at hblocks
  refine ⟨⟨fun b hb => hblocks b (List.mem_append_left _ hb), fun k hk => ?_⟩, ?_⟩
  · have := hrest k (by simp; omega)
    rwa [List.take_append_of_le_length (by omega)] at this
  · have := hrest pieces.length (by simp)
    rwa [List.take_append_of_le_length le_rfl, List.take_length] at this

/-- A bounded stream is read by its field blocks. -/
theorem SseEventFramer.feeds_of_bounded {pieces : List (List Char)} (h : Bounded pieces) :
    (feeds {} pieces).2 = (blocks pieces.flatten).flatMap eventOf ∧
      ((rest pieces.flatten).length ≤ 65536 → (feeds {} pieces).1 = { buf := rest pieces.flatten }) := by
  induction pieces using List.reverseRecOn with
  | nil =>
    obtain ⟨hblocks, hrest⟩ := run_of_frameEnd?_eq_none (l := []) rfl
    simp [feeds, hblocks, hrest]
  | append_singleton pieces bytes ih =>
    obtain ⟨hinit, hle⟩ := h.init
    obtain ⟨hevents, hstate⟩ := ih hinit
    have hall := h.1
    rw [List.flatten_append, List.flatten_singleton, blocks_append] at hall
    have hnew : ∀ b ∈ blocks (rest pieces.flatten ++ bytes), short b = true := fun b hb =>
      hall b (List.mem_append_right _ hb)
    rw [feeds_concat, hstate hle, hevents, feed_eq rfl, List.flatten_append, List.flatten_singleton,
      blocks_append pieces.flatten, rest_append pieces.flatten, List.takeWhile_eq_self_iff.mpr hnew, List.flatMap_append]
    exact ⟨rfl, fun hlen => if_pos ⟨hnew, hlen⟩⟩

/-- **When the framers agree**: if no frame with several data lines starts with
an empty one. -/
theorem payloads_eq_iff {pieces : List (List Char)} (h : Bounded pieces) :
    (SseFramer.feeds {} pieces).2 =
        ((SseEventFramer.feeds {} pieces).2.map SseEvent.data).filter (fun data => data ≠ [] ∧ data ≠ done) ↔
      ∀ b ∈ blocks pieces.flatten, Led b := by
  have hkept : ∀ events : List SseEvent,
      (events.map SseEvent.data).filter (fun data => data ≠ [] ∧ data ≠ done) =
        events.flatMap fun ev => delivered ev.data := by
    intro events
    induction events with
    | nil => rfl
    | cons ev events ih =>
      rw [List.map_cons, List.filter_cons, ih, List.flatMap_cons, delivered]
      by_cases hd : ev.data = [] ∨ ev.data = done
      · rw [if_pos hd, if_neg (by simpa [not_or, imp_iff_not_or] using hd)]
        rfl
      · rw [if_neg hd, if_pos (by simpa [not_or] using hd)]
        rfl
  rw [SseFramer.feeds_payloads, hkept, (SseEventFramer.feeds_of_bounded h).1, List.flatMap_assoc]
  simp only [eventOf_data]
  rw [flatMap_eq_iff_of_length_le fun b _ => length_delivered_le b]
  exact forall₂_congr fun b _ => delivered_eq_iff b

/-- A frame with two data lines, the second of them empty. -/
def ledStream : List Char := "data: a\ndata:\n\n".toList

theorem blocks_ledStream : blocks ledStream = ["data: a\ndata:".toList] := by
  have h : frameEnd? ledStream = some (13, 2) := by decide
  obtain ⟨hnil, -⟩ := run_of_frameEnd?_eq_none (l := []) rfl
  rw [(run_of_frameEnd?_eq_some h).1, show ledStream.drop (13 + 2) = [] by decide, hnil]
  decide

theorem payloads_eq_iff_ledStream : (SseFramer.feeds {} [ledStream]).2 =
    ((SseEventFramer.feeds {} [ledStream]).2.map SseEvent.data).filter (fun data => data ≠ [] ∧ data ≠ done) := by
  have hflat : [ledStream].flatten = ledStream := List.flatten_singleton
  have hbounded : Bounded [ledStream] := by
    obtain ⟨-, hrest⟩ := run_of_frameEnd?_eq_none (l := []) rfl
    refine ⟨?_, fun k hk => ?_⟩
    · rw [hflat, blocks_ledStream]
      decide
    · obtain rfl : k = 0 := by simpa using hk
      simp [hrest]
  refine (payloads_eq_iff hbounded).mpr ?_
  rw [hflat, blocks_ledStream]
  have hvalues : dataValues "data: a\ndata:".toList = [['a'], []] := by decide
  intro b hb values hv
  rw [List.mem_singleton.mp hb, hvalues] at hv
  cases hv

/-- **An empty data line at the start of a frame is lost by one of them.** -/
theorem not_payloads_eq : (SseFramer.feed {} "data:\ndata: a\n\n".toList).2 = ["a".toList] ∧
    (SseEventFramer.feed {} "data:\ndata: a\n\n".toList).2.map SseEvent.data = ["\na".toList] := by
  decide +kernel

end Net
end AgentFlow
