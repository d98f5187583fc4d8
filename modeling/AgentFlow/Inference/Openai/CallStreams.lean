/-
# Calls that are streamed in parallel

The entries of the frames' `tool_calls`, each with the index it is for
(`entries`), are to make one call for each index: with the last id and name
given, and all the arguments in their order (`callAt`). The accumulator keeps
the calls under the low 32 bits of the index, so this is so as long as the
indices stay apart, and in their order, when they are cut (`Narrowed`).

Key definitions: `entries`, `callAt`, `Separate`, `Narrowed`.
Key theorems: `lookup_calls_streamed`, `separate_iff_narrowed`.
-/
import AgentFlow.Inference.Openai.Fragments
import Mathlib.Data.List.Sort

namespace AgentFlow.Openai

open Json StreamAccumulator

/-! ### What the frames carry -/

/-- The index that an entry is for: 0 if it names none. An entry that is no
object, or whose index is no integer, is for none. -/
def entryIndex? (tc : Value) : Option ℤ :=
  if tc.isObject then
    match tc.find? "index" with
    | none => some 0
    | some v => v.int?
  else none

/-- The delta of a frame's first choice. -/
def frameDelta? (C : Codec) (frame : String) : Option Value := ((C.parse frame).bind choice?).bind delta?

/-- The entries of a frame, with their indices. -/
def frameEntries (C : Codec) (frame : String) : List (ℤ × Value) :=
  (((frameDelta? C frame).bind (·.arrayAt? "tool_calls")).getD []).filterMap fun tc =>
    (entryIndex? tc).map fun index => (index, tc)

def entries (C : Codec) (frames : List String) : List (ℤ × Value) := frames.flatMap (frameEntries C)

/-- The call that some entries make: the last id and the last name, and all arguments. -/
def callOf (tcs : List Value) : PartialCall where
  id := (tcs.filterMap (·.stringAt? "id")).getLast?.getD ""
  name := (tcs.filterMap (functionString? · "name")).getLast?.getD ""
  arguments := String.join (tcs.filterMap (functionString? · "arguments"))

/-- The call of the entries with index `k`. -/
def callAt (es : List (ℤ × Value)) (k : ℤ) : PartialCall := callOf ((es.filter fun e => e.1 = k).map Prod.snd)

/-- The indices that occur, each once. -/
def Occurring (es : List (ℤ × Value)) (ks : List ℤ) : Prop := ∀ k, k ∈ ks ↔ k ∈ es.map Prod.fst

/-- The calls are those of the indices that occur, in the order of the indices. -/
def Separate (es : List (ℤ × Value)) (calls : List Value) : Prop :=
  ∃ ks : List ℤ, ks.Pairwise (· < ·) ∧ Occurring es ks ∧ calls = ks.map fun k => callValue (callAt es k)

/-- The indices that occur stay apart when they are cut to 32 bits, and if
their order changes, that of the calls does not. -/
def Narrowed (es : List (ℤ × Value)) : Prop :=
  ∃ ks cut : List ℤ, ks.Pairwise (· < ·) ∧ Occurring es ks ∧ cut.Pairwise (fun k l => toInt32 k < toInt32 l) ∧
    Occurring es cut ∧ cut.map (callAt es) = ks.map (callAt es)

/-- The calls that `Canonical` reports. -/
def reportedCalls (acc : StreamAccumulator) : List Value := (acc.canonicalValue.arrayAt? "tool_calls").getD []

/-! ### What the accumulator keeps -/

theorem reportedCalls_eq (acc : StreamAccumulator) : reportedCalls acc = acc.calls.map fun c => callValue c.2 := by
  rw [reportedCalls]
  by_cases hc : acc.calls = []
  · simp [canonicalValue, Value.arrayAt?, OrderedMap.lookup_cons, hc]
  · simp [canonicalValue, Value.arrayAt?, hc]

/-- One more entry of the same call. -/
theorem update_callOf (tcs : List Value) (tc : Value) : PartialCall.update (callOf tcs) tc = callOf (tcs ++ [tc]) := by
  have hlast : ∀ (x : Option String) (xs : List String),
      x.getD (xs.getLast?.getD "") = (xs ++ x.toList).getLast?.getD "" := by
    intro x xs
    cases x <;> simp
  have hjoin : ∀ (x : Option String) (xs : List String),
      String.join xs ++ x.getD "" = String.join (xs ++ x.toList) := by
    intro x xs
    cases x <;> simp
  have hsnoc : ∀ f : Value → Option String,
      (tcs ++ [tc]).filterMap f = tcs.filterMap f ++ (f tc).toList := by
    intro f
    rw [List.filterMap_append, List.filterMap_cons]
    cases f tc <;> rfl
  rw [PartialCall.update, callOf, callOf, hsnoc, hsnoc, hsnoc]
  simp only [PartialCall.mk.injEq]
  exact ⟨hlast _ _, hlast _ _, hjoin _ _⟩

theorem foldl_update (tcs : List Value) : tcs.foldl PartialCall.update {} = callOf tcs := by
  induction tcs using List.reverseRecOn with
  | nil => rfl
  | append_singleton tcs tc ih => rw [List.foldl_append, ih, List.foldl_cons, update_callOf, List.foldl_nil]

/-- What one entry does to the calls. -/
def addEntry (calls : List (ℤ × PartialCall)) (e : ℤ × Value) : List (ℤ × PartialCall) :=
  OrderedMap.insert (toInt32 e.1) (PartialCall.update ((calls.lookup (toInt32 e.1)).getD {}) e.2) calls

theorem callIndex_of_isObject {tc : Value} (h : tc.isObject = true) : callIndex tc = (entryIndex? tc).map toInt32 := by
  rw [callIndex, entryIndex?, if_pos h]
  cases tc.find? "index" with
  | none => rfl
  | some v => rfl

theorem feedCall_eq (calls : List (ℤ × PartialCall)) (tc : Value) :
    feedCall calls tc = ((entryIndex? tc).map fun index => (index, tc)).elim calls (addEntry calls) := by
  rw [feedCall]
  by_cases hobj : tc.isObject = true
  · rw [if_pos hobj, callIndex_of_isObject hobj]
    cases entryIndex? tc <;> rfl
  · rw [if_neg hobj, entryIndex?, if_neg hobj]
    rfl

theorem foldl_feedCall : ∀ (tcs : List Value) (calls : List (ℤ × PartialCall)), tcs.foldl feedCall calls =
    (tcs.filterMap fun tc => (entryIndex? tc).map fun index => (index, tc)).foldl addEntry calls
  | [], _ => rfl
  | tc :: tcs, calls => by
    rw [List.foldl_cons, foldl_feedCall tcs, feedCall_eq, List.filterMap_cons]
    cases entryIndex? tc <;> rfl

theorem calls_feed (C : Codec) (acc : StreamAccumulator) (frame : String) :
    (acc.feed C frame).1.calls = (frameEntries C frame).foldl addEntry acc.calls := by
  rw [feed, frameEntries, frameDelta?, ← foldl_feedCall]
  cases C.parse frame with
  | none => rfl
  | some f =>
    simp only [feedFrame, Option.bind_some]
    cases choice? f with
    | none => rfl
    | some choice =>
      simp only [Option.bind_some]
      cases delta? choice <;> rfl

theorem calls_feedFrames (C : Codec) : ∀ (frames : List String) (acc : StreamAccumulator),
    (feedFrames C acc frames).1.calls = (entries C frames).foldl addEntry acc.calls
  | [], _ => rfl
  | frame :: frames, acc => by
    have hcons : entries C (frame :: frames) = frameEntries C frame ++ entries C frames := List.flatMap_cons
    rw [feedFrames, calls_feedFrames C frames, calls_feed, hcons, List.foldl_append]

theorem sorted_foldl_addEntry : ∀ (es : List (ℤ × Value)) {calls : List (ℤ × PartialCall)}, OrderedMap.Sorted calls →
    OrderedMap.Sorted (es.foldl addEntry calls)
  | [], _, h => h
  | _ :: es, _, h => sorted_foldl_addEntry es (h.insert _ _)

/-- What is kept under a key is what the entries with that key make. -/
theorem lookup_foldl_addEntry (j : ℤ) : ∀ (es : List (ℤ × Value)) (calls : List (ℤ × PartialCall)),
    (es.foldl addEntry calls).lookup j =
      ((es.filter fun e => toInt32 e.1 = j).map Prod.snd).foldl
        (fun call tc => some (PartialCall.update (call.getD {}) tc)) (calls.lookup j)
  | [], _ => rfl
  | e :: es, calls => by
    rw [List.foldl_cons, lookup_foldl_addEntry j es, addEntry, OrderedMap.lookup_insert]
    by_cases hj : toInt32 e.1 = j
    · rw [List.filter_cons_of_pos (by simpa using hj), if_pos hj.symm, List.map_cons, List.foldl_cons, hj]
    · rw [List.filter_cons_of_neg (by simpa using hj), if_neg (Ne.symm hj)]

theorem foldl_some (tcs : List Value) (call : PartialCall) :
    tcs.foldl (fun call tc => some (PartialCall.update (call.getD {}) tc)) (some call) =
      some (tcs.foldl PartialCall.update call) := by
  induction tcs generalizing call with
  | nil => rfl
  | cons tc tcs ih => exact ih (PartialCall.update call tc)

/-- **The call under a key** is that of the entries whose indices are cut to the key. -/
theorem lookup_calls_streamed (C : Codec) (provider : UsageProvider) (frames : List String) (j : ℤ) :
    (streamed C provider frames).calls.lookup j =
      let tcs := ((entries C frames).filter fun e => toInt32 e.1 = j).map Prod.snd
      if tcs = [] then none else some (callOf tcs) := by
  rw [streamed, calls_feedFrames, lookup_foldl_addEntry]
  cases htcs : ((entries C frames).filter fun e => toInt32 e.1 = j).map Prod.snd with
  | nil => rfl
  | cons tc tcs =>
    simp only [reduceCtorEq, if_false]
    rw [List.foldl_cons, List.lookup_nil, foldl_some, ← foldl_update (tc :: tcs)]
    rfl

theorem sorted_calls_streamed (C : Codec) (provider : UsageProvider) (frames : List String) :
    OrderedMap.Sorted (streamed C provider frames).calls := by
  rw [streamed, calls_feedFrames]
  exact sorted_foldl_addEntry _ OrderedMap.sorted_nil

/-! ### Keys and indices -/

theorem callValue_injective : Function.Injective callValue := by
  intro c d h
  have hid := congrArg (·.stringAt? "id") h
  have hname := congrArg (functionString? · "name") h
  have harguments := congrArg (functionString? · "arguments") h
  simp [callValue, Value.object, Value.stringAt?] at hid
  simp [callValue, Value.object, Value.stringAt?, functionString?, Option.filter, Value.isObject] at hname
  simp [callValue, Value.object, Value.stringAt?, functionString?, Option.filter, Value.isObject] at harguments
  cases c
  cases d
  simp_all

section

variable {es : List (ℤ × Value)} {calls : List (ℤ × PartialCall)}

/-- The calls are kept by key, each made of the entries with that key. -/
structure Kept (es : List (ℤ × Value)) (calls : List (ℤ × PartialCall)) : Prop where
  sorted : OrderedMap.Sorted calls
  lookup : ∀ j, calls.lookup j =
    let tcs := (es.filter fun e => toInt32 e.1 = j).map Prod.snd
    if tcs = [] then none else some (callOf tcs)

theorem kept_streamed (C : Codec) (provider : UsageProvider) (frames : List String) :
    Kept (entries C frames) (streamed C provider frames).calls :=
  ⟨sorted_calls_streamed C provider frames, lookup_calls_streamed C provider frames⟩

theorem Kept.mem_keys (h : Kept es calls) {j : ℤ} : j ∈ calls.map Prod.fst ↔ ∃ k ∈ es.map Prod.fst, toInt32 k = j := by
  have hl := h.lookup j
  constructor
  · intro hj
    obtain ⟨⟨j, call⟩, hb, rfl⟩ := List.mem_map.mp hj
    have hnodup : (calls.map Prod.fst).Nodup := List.pairwise_map.mpr (h.sorted.imp ne_of_lt)
    rw [OrderedMap.lookup_of_mem hnodup hb] at hl
    cases htcs : es.filter fun e => toInt32 e.1 = j with
    | nil => simp [htcs] at hl
    | cons e tcs =>
      have he : e ∈ es.filter fun e => toInt32 e.1 = j := by rw [htcs]; exact List.mem_cons_self
      obtain ⟨hmem, hkey⟩ := List.mem_filter.mp he
      exact ⟨e.1, List.mem_map_of_mem hmem, by simpa using hkey⟩
  · rintro ⟨k, hk, rfl⟩
    obtain ⟨e, he, rfl⟩ := List.mem_map.mp hk
    by_contra hno
    rw [OrderedMap.lookup_eq_none_of_notMem hno] at hl
    have hmem : e ∈ es.filter fun e' => toInt32 e'.1 = toInt32 e.1 := List.mem_filter.mpr ⟨he, by simp⟩
    cases htcs : es.filter fun e' => toInt32 e'.1 = toInt32 e.1 with
    | nil => rw [htcs] at hmem; exact absurd hmem List.not_mem_nil
    | cons e tcs => simp [htcs] at hl

/-- **Indices that stay apart**: in the order of their keys, each has the call of its entries. -/
theorem Kept.eq_map (h : Kept es calls) {cut : List ℤ} (hlt : cut.Pairwise fun k l => toInt32 k < toInt32 l)
    (hmem : Occurring es cut) : calls = cut.map fun k => (toInt32 k, callAt es k) := by
  have hsorted : OrderedMap.Sorted (cut.map fun k => (toInt32 k, callAt es k)) := List.pairwise_map.mpr hlt
  have hinj : ∀ k ∈ cut, ∀ l ∈ cut, toInt32 k = toInt32 l → k = l :=
    List.inj_on_of_nodup_map (List.pairwise_map.mpr (hlt.imp ne_of_lt))
  refine h.sorted.ext hsorted fun j => ?_
  have hkeys : ((cut.map fun k => (toInt32 k, callAt es k)).map Prod.fst).Nodup := by
    rw [List.map_map]
    exact List.pairwise_map.mpr (hlt.imp ne_of_lt)
  by_cases hj : j ∈ calls.map Prod.fst
  · obtain ⟨k, hk, rfl⟩ := h.mem_keys.mp hj
    have hcut := (hmem k).mpr hk
    -- only the entries with this index have this key
    have hfilter : (es.filter fun e => toInt32 e.1 = toInt32 k) = es.filter fun e => e.1 = k := by
      refine List.filter_congr fun e he => ?_
      have he' := (hmem e.1).mpr (List.mem_map_of_mem he)
      exact decide_eq_decide.mpr ⟨hinj e.1 he' k hcut, fun heq => by rw [heq]⟩
    have hne : (es.filter fun e => e.1 = k).map Prod.snd ≠ [] := by
      obtain ⟨e, he, rfl⟩ := List.mem_map.mp hk
      intro hnil
      have hmem : e ∈ es.filter fun e' => e'.1 = e.1 := List.mem_filter.mpr ⟨he, by simp⟩
      rw [List.map_eq_nil_iff.mp hnil] at hmem
      exact absurd hmem List.not_mem_nil
    rw [h.lookup, hfilter, OrderedMap.lookup_of_mem hkeys (List.mem_map.mpr ⟨k, hcut, rfl⟩)]
    simp only [if_neg hne]
    rfl
  · have hj' : j ∉ (cut.map fun k => (toInt32 k, callAt es k)).map Prod.fst := by
      intro hm
      obtain ⟨b, hb, rfl⟩ := List.mem_map.mp hm
      obtain ⟨k, hk, rfl⟩ := List.mem_map.mp hb
      exact hj (h.mem_keys.mpr ⟨k, (hmem k).mp hk, rfl⟩)
    rw [OrderedMap.lookup_eq_none_of_notMem hj, OrderedMap.lookup_eq_none_of_notMem hj']

/-- As many calls as indices: no two indices have the same key. -/
theorem Kept.nodup_of_length (h : Kept es calls) {ks : List ℤ} (hmem : Occurring es ks)
    (hlen : calls.length = ks.length) : (ks.map toInt32).Nodup := by
  have hnodup : (calls.map Prod.fst).Nodup := List.pairwise_map.mpr (h.sorted.imp ne_of_lt)
  have hsub : calls.map Prod.fst ⊆ ks.map toInt32 := by
    intro j hj
    obtain ⟨k, hk, rfl⟩ := h.mem_keys.mp hj
    exact List.mem_map_of_mem ((hmem k).mpr hk)
  have hperm := (List.subperm_of_subset hnodup hsub).perm_of_length_le (by simp [hlen])
  exact hperm.nodup_iff.mp hnodup

/-- Indices in the order of their keys. -/
theorem exists_cut {ks : List ℤ} (h : (ks.map toInt32).Nodup) :
    ∃ cut : List ℤ, cut.Perm ks ∧ cut.Pairwise fun k l => toInt32 k < toInt32 l := by
  have hperm := List.perm_insertionSort (fun k l => toInt32 k ≤ toInt32 l) ks
  refine ⟨ks.insertionSort fun k l => toInt32 k ≤ toInt32 l, hperm, ?_⟩
  have hle := List.pairwise_insertionSort (fun k l => toInt32 k ≤ toInt32 l) ks
  have hne : (ks.insertionSort fun k l => toInt32 k ≤ toInt32 l).Pairwise fun k l => toInt32 k ≠ toInt32 l :=
    List.pairwise_map.mp ((hperm.map toInt32).nodup_iff.mpr h)
  exact (hle.and hne).imp fun ⟨h, h'⟩ => lt_of_le_of_ne h h'

end

/-- **When parallel calls do not interfere**: as long as their indices stay
apart, and in their order, in 32 bits. -/
theorem separate_iff_narrowed (C : Codec) (provider : UsageProvider) (frames : List String) :
    Separate (entries C frames) (reportedCalls (streamed C provider frames)) ↔ Narrowed (entries C frames) := by
  have hkept := kept_streamed C provider frames
  rw [reportedCalls_eq]
  generalize entries C frames = es at *
  generalize (streamed C provider frames).calls = calls at *
  constructor
  · rintro ⟨ks, hlt, hmem, heq⟩
    have hlen : calls.length = ks.length := by simpa using congrArg List.length heq
    obtain ⟨cut, hperm, hcut⟩ := exists_cut (hkept.nodup_of_length hmem hlen)
    have hmem' : Occurring es cut := fun k => hperm.mem_iff.trans (hmem k)
    refine ⟨ks, cut, hlt, hmem, hcut, hmem', ?_⟩
    rw [hkept.eq_map hcut hmem', List.map_map] at heq
    refine (List.map_injective_iff.mpr callValue_injective) ?_
    rw [List.map_map, List.map_map]
    exact heq
  · rintro ⟨ks, cut, hlt, hmem, hcut, hmem', heq⟩
    refine ⟨ks, hlt, hmem, ?_⟩
    have hvalues := congrArg (List.map callValue) heq
    rw [List.map_map, List.map_map] at hvalues
    rw [hkept.eq_map hcut hmem', List.map_map]
    exact hvalues

/-- Indices that fit into 32 bits are not changed. -/
theorem narrowed_of_fits {es : List (ℤ × Value)} (h : ∀ e ∈ es, -2 ^ 31 ≤ e.1 ∧ e.1 < 2 ^ 31) : Narrowed es := by
  have hmem : Occurring es ((es.map Prod.fst).toFinset.sort (· ≤ ·)) := by
    intro k
    rw [Finset.mem_sort, List.mem_toFinset]
  have hlt : ((es.map Prod.fst).toFinset.sort (· ≤ ·)).Pairwise (· < ·) :=
    Finset.sortedLT_sort _ |>.pairwise
  have hid : ∀ k ∈ (es.map Prod.fst).toFinset.sort (· ≤ ·), toInt32 k = k := by
    intro k hk
    obtain ⟨e, he, rfl⟩ := List.mem_map.mp ((hmem k).mp hk)
    have := h e he
    rw [toInt32, Int.bmod_eq_of_le] <;> omega
  refine ⟨_, _, hlt, hmem, ?_, hmem, rfl⟩
  exact hlt.imp_of_mem fun hk hl hkl => by rwa [hid _ hk, hid _ hl]

/-- Two calls, the second at an index that is cut to that of the first. -/
def wideFrames : List String := ["first", "second"]

def wideCodec : Codec := .ofTable
  [("first", (Piece.mk "" "" [⟨0, some ("a", "read"), "\x7b\x7d"⟩] none none).value),
    ("second", (Piece.mk "" "" [⟨4294967296, some ("b", "write"), "\x7b\x7d"⟩] none none).value)]

theorem not_separate_wide :
    ¬ Separate (entries wideCodec wideFrames) (reportedCalls (streamed wideCodec .openAi wideFrames)) := by
  rintro ⟨ks, -, hmem, heq⟩
  have hentries : (entries wideCodec wideFrames).map Prod.fst = [0, 4294967296] := by decide +kernel
  have hcalls : (reportedCalls (streamed wideCodec .openAi wideFrames)).length = 1 := by decide +kernel
  rw [heq, List.length_map] at hcalls
  obtain ⟨k, rfl⟩ := List.length_eq_one_iff.mp hcalls
  have h0 := (hmem 0).mpr (by rw [hentries]; decide)
  have h1 := (hmem 4294967296).mpr (by rw [hentries]; decide)
  rw [List.mem_singleton] at h0 h1
  omega

end AgentFlow.Openai
