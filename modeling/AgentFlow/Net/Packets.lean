/-
# The packets of an event stream

`PostSse` stops at the first read after which it has seen [DONE]; what is in
that read after [DONE] it still delivers, and what comes later it does not. So
the payloads depend on the packets exactly when some payload can come in one
read with the end of [DONE]. A read has at most 8192 bytes.

Key definitions: `Reads`, `CompleteResponse`, `NothingAfterDone`.
Key theorems: `postSse_eq_iff_nothingAfterDone`, `not_postSse_eq`.
-/
import AgentFlow.Net.Bodies

namespace AgentFlow
namespace Net

open Incremental

variable {head : ResponseHead} {raw a b : List Char} {rs : List (List Char)}

/-! ### What should hold -/

/-- The bytes come in these reads. -/
def Reads (raw : List Char) (rs : List (List Char)) : Prop := rs.flatten = raw ∧ ∀ r ∈ rs, r ≠ [] ∧ r.length ≤ 8192

/-- A response that is 2xx, with all its chunks if it has chunks. -/
structure CompleteResponse (raw : List Char) (head : ResponseHead) : Prop extends Accepted raw head where
  chunks : head.chunked = true → (ChunkedDecoder.feed {} (raw.drop head.headBytes)).1.complete = true ∧
    ∃ out, (ChunkedDecoder.feed {} (raw.drop head.headBytes)).2 = .ok out

/-- What the client has when the raw body bytes `a` come in one read. -/
def arrived (head : ResponseHead) (a : List Char) : Intake := (consume .payloads head {} a).1

/-- No payload can come in one read with the byte that completes the first
[DONE]. -/
def NothingAfterDone (head : ResponseHead) (body : List Char) : Prop :=
  ∀ k, (∀ j < k, (arrived head (body.take j)).framer.sawDone = false) →
    (arrived head (body.take k)).framer.sawDone = true →
    (arrived head (body.take (k + 8191))).payloads = (arrived head (body.take k)).payloads

/-! ### The stream so far -/

/-- [DONE] is among the bytes. -/
def signedOff (head : ResponseHead) (a : List Char) : Bool := (streamed head a).2.2.1

/-- What is delivered if the stream ends after these bytes. -/
def finished (head : ResponseHead) (a : List Char) : List (List Char) :=
  (streamed head a).1 ++
    if signedOff head a then [] else (SseFramer.flush ⟨(streamed head a).2.2.2, (streamed head a).2.2.1⟩).2

theorem finishBody_payloads {y : Intake} (h : Holds .payloads head a y) :
    (finishBody .payloads y).payloads = finished head a := by
  have hfr := h.framer rfl
  have hdone : y.framer.sawDone = signedOff head a := congrArg Prod.fst hfr
  have hframer : y.framer = ⟨(streamed head a).2.2.2, (streamed head a).2.2.1⟩ := by rw [← hfr]
  unfold finishBody finished
  rw [hdone]
  cases hs : signedOff head a with
  | true => simp [h.payloads rfl]
  | false => simp [h.payloads rfl, hframer]

/-- The payloads depend on the decoded bytes only. -/
theorem streamed_of_decoded (h : (decoded head a).1 = (decoded head b).1) :
    (streamed head a).1 = (streamed head b).1 ∧ (streamed head a).2.2 = (streamed head b).2.2 := by
  have hstr : ∀ a, (streamed head a).1 = (frameScanner.transducer.feed (false, []) (decoded head a).1).1 ∧
      (streamed head a).2.2 = (frameScanner.transducer.feed (false, []) (decoded head a).1).2 := fun _ => ⟨rfl, rfl⟩
  rw [(hstr a).1, (hstr a).2, h]
  exact ⟨rfl, rfl⟩

theorem finished_of_decoded (h : (decoded head a).1 = (decoded head b).1) : finished head a = finished head b := by
  obtain ⟨h₁, h₂⟩ := streamed_of_decoded h
  unfold finished signedOff
  rw [h₁, h₂]

theorem payloads_isPrefix (head : ResponseHead) (h : a <+: b) : (streamed head a).1 <+: (streamed head b).1 :=
  (stream head).isPrefix_feed _ h

theorem signedOff_of_isPrefix (h : a <+: b) (hs : signedOff head a = true) : signedOff head b = true := by
  obtain ⟨m, rfl⟩ := h
  have hkeep : ∀ {s : Bool × List Char} {d : List Char}, s.1 = true → (frameScanner.transducer.feed s d).2.1 = true := by
    intro s d h
    refine Scanner.run_invariant (I := fun b => b = true) ?_ h
    intro s l out s' rest hn hs
    obtain ⟨r, -, heq⟩ := Option.map_eq_some_iff.mp hn
    simp only [Prod.mk.injEq] at heq
    rw [← heq.2.1, hs, Bool.true_or]
  unfold signedOff
  rw [streamed_append]
  exact hkeep hs

theorem signedOff_nil : signedOff head [] = false := by
  have h : Holds .payloads head [] {} := holds_nil
  exact (congrArg Prod.fst (h.framer rfl)).symm

theorem holds_arrived (h : ¬ failed head a) : Holds .payloads head a (arrived head a) := by
  rcases consume_holds (show Sink.payloads ≠ .events by simp) holds_nil a with ⟨hf, -⟩ | ⟨-, -, hy⟩
  · exact absurd hf h
  · exact hy

theorem CompleteResponse.not_failed (h : CompleteResponse raw head) (ha : a <+: raw.drop head.headBytes) :
    ¬ failed head a := by
  intro hf
  cases hc : head.chunked with
  | false => simp [failed, phase_of_not_chunked hc] at hf
  | true =>
    obtain ⟨-, out, hout⟩ := h.chunks hc
    simp [feed_of_failed hc (failed_of_isPrefix ha hf)] at hout

/-- Where a run ends over a complete response. -/
theorem postSse_spec (h : CompleteResponse raw head) (hr : Reads raw rs) :
    ∃ t ≤ rs.length, head.headBytes ≤ (upTo rs t).length ∧
      (∀ t' < t, head.headBytes ≤ (upTo rs t').length → signedOff head (bodyUpTo head rs t') = false) ∧
      (signedOff head (bodyUpTo head rs t) = true ∨
        (decoded head (bodyUpTo head rs t)).1 = (decoded head (raw.drop head.headBytes)).1) ∧
      postSse (rs.map .bytes) = (finished head (bodyUpTo head rs t), none) := by
  obtain ⟨rfl, hne⟩ := hr
  rcases run_spec (show Sink.payloads ≠ .events by simp) fun r hr => (hne r hr).1 with
    ⟨hnot, -⟩ | ⟨head', hacc, t, ht, hle, hbefore, hend⟩
  · exact absurd h.toAccepted (hnot head)
  obtain rfl := h.toAccepted.unique hacc
  have hpre := bodyUpTo_isPrefix head rs ht
  rw [bodyUpTo_length] at hpre
  refine ⟨t, ht, hle, fun t' ht' hle' => ?_, ?_⟩
  · have := (hbefore t' ht' hle').2
    simp only [enough, decide_true, Bool.true_and, Bool.or_eq_false_iff] at this
    exact this.1.1
  rcases hend with ⟨hf, -⟩ | ⟨-, hstop, y, hy, hrun⟩
  · exact absurd hf (h.not_failed hpre)
  refine ⟨?_, ?_⟩
  · rcases hstop with hstop | rfl
    · simp only [enough, decide_true, Bool.true_and, Bool.or_eq_true, reduceCtorEq, decide_false, Bool.false_and,
        Bool.false_eq_true, or_false, Bool.and_eq_true, decide_eq_true_eq] at hstop
      rcases hstop with hs | ⟨hc, hcomplete⟩
      · exact Or.inl hs
      · -- past the last chunk the rest has no effect
        obtain ⟨m, hm⟩ := hpre
        rw [← hm]
        exact Or.inr (decoded_of_complete hc hcomplete m).1.symm
    · exact Or.inr (by rw [bodyUpTo_length])
  · simp [postSse, hrun, finishBody_payloads hy]

/-- A stream that is not signed off comes to the same for all packets. -/
theorem postSse_of_not_signedOff (h : CompleteResponse raw head) (hr : Reads raw rs)
    (hs : signedOff head (raw.drop head.headBytes) = false) :
    postSse (rs.map .bytes) = (finished head (raw.drop head.headBytes), none) := by
  obtain ⟨t, ht, -, -, hstop, heq⟩ := postSse_spec h hr
  have hpre := bodyUpTo_isPrefix head rs ht
  rw [bodyUpTo_length, hr.1] at hpre
  rcases hstop with hsign | hdec
  · rw [signedOff_of_isPrefix hpre hsign] at hs
    cases hs
  · rw [heq, finished_of_decoded hdec]

/-- A stream that is signed off ends in a read that comes after at most 8191
more bytes. -/
theorem postSse_of_signedOff (h : CompleteResponse raw head) (hr : Reads raw rs) {k : ℕ}
    (hbefore : ∀ j < k, signedOff head ((raw.drop head.headBytes).take j) = false)
    (hk : signedOff head ((raw.drop head.headBytes).take k) = true) :
    ∃ t ≤ rs.length, ∃ j, k ≤ j ∧ j ≤ k + 8191 ∧ bodyUpTo head rs t = (raw.drop head.headBytes).take j ∧
      (∀ t' < t, (bodyUpTo head rs t').length < k) ∧
      postSse (rs.map .bytes) = ((streamed head ((raw.drop head.headBytes).take j)).1, none) := by
  set body := raw.drop head.headBytes with hbody
  have hpos : 0 < k := by
    rcases Nat.eq_zero_or_pos k with rfl | h
    · simp [signedOff_nil] at hk
    · exact h
  obtain ⟨t, ht, hle, hpassed, hstop, heq⟩ := postSse_spec h hr
  have hup : ∀ u, u ≤ rs.length → bodyUpTo head rs u <+: body := by
    intro u hu
    have := bodyUpTo_isPrefix head rs hu
    rwa [bodyUpTo_length, hr.1] at this
  have hsign : signedOff head (bodyUpTo head rs t) = true := by
    rcases hstop with hs | hdec
    · exact hs
    · have hall := signedOff_of_isPrefix (List.take_prefix k body) hk
      unfold signedOff at hall ⊢
      rw [(streamed_of_decoded hdec).2]
      exact hall
  -- the reads before end before [DONE] does
  have hearly : ∀ t' < t, (bodyUpTo head rs t').length < k := by
    intro t' ht'
    by_cases hle' : head.headBytes ≤ (upTo rs t').length
    · by_contra hlt
      have hpre : body.take k <+: bodyUpTo head rs t' :=
        List.prefix_of_prefix_length_le (List.take_prefix k body) (hup t' (by omega)) (by
          rw [List.length_take]
          omega)
      have := signedOff_of_isPrefix hpre hk
      rw [hpassed t' ht' hle'] at this
      cases this
    · simp only [bodyUpTo, List.length_drop]
      omega
  have htake := List.prefix_iff_eq_take.mp (hup t ht)
  refine ⟨t, ht, (bodyUpTo head rs t).length, ?_, ?_, htake, hearly, ?_⟩
  · by_contra hlt
    have := hbefore _ (not_le.mp hlt)
    rw [← htake, hsign] at this
    cases this
  · -- the last read has at most 8192 bytes
    cases t with
    | zero =>
      have hne := h.complete
      simp only [upTo, List.take_zero, List.flatten_nil, List.length_nil] at hle
      omega
    | succ t =>
      have hprev := hearly t (by omega)
      have hlast : (upTo rs (t + 1)).length ≤ (upTo rs t).length + 8192 := by
        have hone : upTo (rs.drop t) 1 = rs[t] := by
          unfold upTo
          rw [List.drop_eq_getElem_cons (by omega)]
          exact List.append_nil _
        have hmem := (hr.2 rs[t] (List.getElem_mem _)).2
        rw [upTo_add, List.length_append, hone]
        omega
      simp only [bodyUpTo, List.length_drop] at hprev ⊢
      omega
  · rw [heq, ← htake]
    simp [finished, hsign]

/-! ### Two ways to cut a response -/

/-- Bytes one by one, `w` of them in one read after the first `n`. -/
def cut (raw : List Char) (n w : ℕ) : List (List Char) :=
  (raw.take n).map (fun c => [c]) ++ (raw.drop n).take w :: ((raw.drop n).drop w).map fun c => [c]

theorem flatten_singletons (l : List Char) : (l.map fun c => [c]).flatten = l := by
  induction l with
  | nil => rfl
  | cons c l ih => rw [List.map_cons, List.flatten_cons, ih, List.singleton_append]

theorem reads_cut {n w : ℕ} (hn : n < raw.length) (hw : 0 < w) (hmax : w ≤ 8192) : Reads raw (cut raw n w) := by
  constructor
  · unfold cut
    rw [List.flatten_append, List.flatten_cons, flatten_singletons, flatten_singletons, List.take_append_drop,
      List.take_append_drop]
  · intro r hr
    have hone : ∀ {l : List Char}, r ∈ l.map (fun c => [c]) → r ≠ [] ∧ r.length ≤ 8192 := by
      intro l hl
      obtain ⟨c, -, rfl⟩ := List.mem_map.mp hl
      simp
    rcases List.mem_append.mp hr with hr | hr
    · exact hone hr
    rcases List.mem_cons.mp hr with rfl | hr
    · refine ⟨fun h => ?_, ?_⟩
      · have := congrArg List.length h
        rw [List.length_take, List.length_drop, List.length_nil] at this
        omega
      · rw [List.length_take]
        omega
    · exact hone hr

theorem upTo_cut_of_le {n w t : ℕ} (hn : n ≤ raw.length) (ht : t ≤ n) : upTo (cut raw n w) t = raw.take t := by
  unfold upTo cut
  rw [List.take_append_of_le_length (by rw [List.length_map, List.length_take]; omega), ← List.map_take,
    flatten_singletons, List.take_take, min_eq_left ht]

theorem upTo_cut_succ {n w : ℕ} (hn : n ≤ raw.length) : upTo (cut raw n w) (n + 1) = raw.take (n + w) := by
  have hlen : ((raw.take n).map fun c => [c]).length = n := by
    rw [List.length_map, List.length_take]
    omega
  rw [upTo_add, upTo_cut_of_le hn le_rfl]
  have hdrop : (cut raw n w).drop n = (raw.drop n).take w :: ((raw.drop n).drop w).map fun c => [c] := by
    unfold cut
    rw [List.drop_left' hlen]
  simp [upTo, hdrop, List.take_add]

/-- With a read of `w` bytes from the byte on that completes [DONE]. -/
theorem postSse_cut (h : CompleteResponse raw head) {k w : ℕ} (hw : 0 < w) (hmax : w ≤ 8192)
    (hbefore : ∀ j < k, signedOff head ((raw.drop head.headBytes).take j) = false)
    (hk : signedOff head ((raw.drop head.headBytes).take k) = true) :
    postSse ((cut raw (head.headBytes + k - 1) w).map .bytes) =
      ((streamed head ((raw.drop head.headBytes).take (k - 1 + w))).1, none) := by
  have hpos : 0 < k := by
    rcases Nat.eq_zero_or_pos k with rfl | h
    · simp [signedOff_nil] at hk
    · exact h
  -- all bytes up to the `k`th are there
  have hlen : k ≤ (raw.drop head.headBytes).length := by
    by_contra hlt
    have := hbefore (raw.drop head.headBytes).length (by omega)
    rw [List.take_length] at this
    rw [List.take_of_length_le (by omega), this] at hk
    cases hk
  rw [List.length_drop] at hlen
  set n := head.headBytes + k - 1 with hn
  have hbody : ∀ m, (raw.take (n + m)).drop head.headBytes = (raw.drop head.headBytes).take (k - 1 + m) := by
    intro m
    rw [List.drop_take]
    congr 1
    omega
  have hr : Reads raw (cut raw n w) := reads_cut (by omega) hw hmax
  obtain ⟨t, ht, j, hkj, -, hj, hearly, heq⟩ := postSse_of_signedOff h hr hbefore hk
  have hat : bodyUpTo head (cut raw n w) (n + 1) = (raw.drop head.headBytes).take (k - 1 + w) := by
    rw [bodyUpTo, upTo_cut_succ (by omega), hbody]
  have hjlen : k ≤ (bodyUpTo head (cut raw n w) t).length := by
    rw [hj, List.length_take, List.length_drop]
    omega
  have htn : t = n + 1 := by
    by_contra hne
    rcases Nat.lt_or_gt_of_ne hne with hlt | hgt
    · -- too early: [DONE] is not complete
      have hup : upTo (cut raw n w) t = raw.take t := upTo_cut_of_le (by omega) (by omega)
      rw [bodyUpTo, hup, List.length_drop, List.length_take] at hjlen
      omega
    · have := hearly (n + 1) hgt
      rw [hat, List.length_take, List.length_drop] at this
      omega
  rw [heq, ← hj, htn, hat]

/-! ### All packets -/

/-- **When packets make no difference.** For any complete response: all ways to
cut it into reads lead to the same payloads and the same status, if and only
if no payload can come in one read with the end of [DONE]. -/
theorem postSse_eq_iff_nothingAfterDone (h : CompleteResponse raw head) :
    (∀ rs rs', Reads raw rs → Reads raw rs' → postSse (rs.map .bytes) = postSse (rs'.map .bytes)) ↔
      NothingAfterDone head (raw.drop head.headBytes) := by
  set body := raw.drop head.headBytes with hbody
  have harr : ∀ j, Holds .payloads head (body.take j) (arrived head (body.take j)) :=
    fun j => holds_arrived (h.not_failed (List.take_prefix _ _))
  have hdone : ∀ j, (arrived head (body.take j)).framer.sawDone = signedOff head (body.take j) :=
    fun j => congrArg Prod.fst ((harr j).framer rfl)
  have hpay : ∀ j, (arrived head (body.take j)).payloads = (streamed head (body.take j)).1 :=
    fun j => (harr j).payloads rfl
  unfold NothingAfterDone
  simp only [hdone, hpay]
  constructor
  · intro hall k hbefore hk
    have hpos : 0 < k := by
      rcases Nat.eq_zero_or_pos k with rfl | h
      · simp [signedOff_nil] at hk
      · exact h
    have hlen : k ≤ body.length := by
      by_contra hlt
      have := hbefore body.length (by omega)
      rw [List.take_length] at this
      rw [List.take_of_length_le (by omega), this] at hk
      cases hk
    rw [hbody, List.length_drop] at hlen
    have hcut : ∀ {w}, 0 < w → w ≤ 8192 → Reads raw (cut raw (head.headBytes + k - 1) w) :=
      fun hw hmax => reads_cut (by omega) hw hmax
    have hsame := hall _ _ (hcut (w := 8192) (by omega) (by omega)) (hcut (w := 1) (by omega) (by omega))
    rw [postSse_cut h (by omega) (by omega) hbefore hk, postSse_cut h (by omega) (by omega) hbefore hk] at hsame
    have hsame := congrArg Prod.fst hsame
    rw [show k - 1 + 8192 = k + 8191 by omega, show k - 1 + 1 = k by omega] at hsame
    exact hsame
  · intro hnothing
    cases hs : signedOff head body with
    | false =>
      intro rs rs' hr hr'
      rw [postSse_of_not_signedOff h hr hs, postSse_of_not_signedOff h hr' hs]
    | true =>
      -- the first place where [DONE] is complete
      classical
      have hex : ∃ k, signedOff head (body.take k) = true := ⟨body.length, by rw [List.take_length]; exact hs⟩
      have hk := Nat.find_spec hex
      have hbefore : ∀ j < Nat.find hex, signedOff head (body.take j) = false :=
        fun j hj => by simpa using Nat.find_min hex hj
      have hone : ∀ rs, Reads raw rs → postSse (rs.map .bytes) = ((streamed head (body.take (Nat.find hex))).1, none) := by
        intro rs hr
        obtain ⟨t, -, j, hkj, hj8, -, -, heq⟩ := postSse_of_signedOff h hr hbefore hk
        have h₁ := payloads_isPrefix head (List.take_prefix_take_left (l := body) hkj)
        have h₂ := payloads_isPrefix head (List.take_prefix_take_left (l := body) hj8)
        rw [hnothing _ hbefore hk] at h₂
        rw [heq, h₂.eq_of_length (le_antisymm h₂.length_le h₁.length_le)]
      intro rs rs' hr hr'
      rw [hone rs hr, hone rs' hr']

/-- A response with these bytes as its body. -/
def streamResponse (body : String) : List Char := ("HTTP/1.1 200 OK\r\n\r\n" ++ body).toList

def streamHead : ResponseHead := { statusCode := 200, headBytes := 19 }

theorem completeResponse_stream (body : String) (h : parseResponseHead (streamResponse body) = .ok streamHead) :
    CompleteResponse (streamResponse body) streamHead :=
  ⟨⟨h, by decide, by decide, by decide⟩, by simp [streamHead]⟩

/-- A stream that is not signed off. -/
theorem postSse_eq_iff_nothingAfterDone_open :
    NothingAfterDone streamHead ((streamResponse "data: a\n\ndata: b").drop streamHead.headBytes) ∧
      ∀ rs rs', Reads (streamResponse "data: a\n\ndata: b") rs → Reads (streamResponse "data: a\n\ndata: b") rs' →
        postSse (rs.map .bytes) = postSse (rs'.map .bytes) := by
  have h := completeResponse_stream "data: a\n\ndata: b" (by decide +kernel)
  suffices hnone : NothingAfterDone streamHead ((streamResponse "data: a\n\ndata: b").drop streamHead.headBytes) from
    ⟨hnone, (postSse_eq_iff_nothingAfterDone h).mpr hnone⟩
  intro k _ hk
  -- [DONE] is nowhere
  have hall : ∀ j ≤ 16, (arrived streamHead
      (((streamResponse "data: a\n\ndata: b").drop streamHead.headBytes).take j)).framer.sawDone = false := by
    decide +kernel
  rcases Nat.lt_or_ge 16 k with hlt | hle
  · have hsame : ((streamResponse "data: a\n\ndata: b").drop streamHead.headBytes).take k =
        ((streamResponse "data: a\n\ndata: b").drop streamHead.headBytes).take 16 := by
      have hlen : ((streamResponse "data: a\n\ndata: b").drop streamHead.headBytes).length ≤ 16 := by decide +kernel
      rw [List.take_of_length_le (by omega), List.take_of_length_le hlen]
    rw [hsame, hall 16 le_rfl] at hk
    cases hk
  · rw [hall k hle] at hk
    cases hk

/-- What follows [DONE] in one read is delivered, and in the next one is not. -/
theorem not_postSse_eq :
    Reads (streamResponse "data: [DONE]\n\ndata: a\n\n") [streamResponse "data: [DONE]\n\ndata: a\n\n"] ∧
    Reads (streamResponse "data: [DONE]\n\ndata: a\n\n") [streamResponse "data: [DONE]\n\n", "data: a\n\n".toList] ∧
    postSse ([streamResponse "data: [DONE]\n\ndata: a\n\n"].map .bytes) = (["a".toList], none) ∧
    postSse ([streamResponse "data: [DONE]\n\n", "data: a\n\n".toList].map .bytes) = ([], none) := by
  refine ⟨⟨by decide +kernel, by decide +kernel⟩, ⟨by decide +kernel, by decide +kernel⟩, by decide +kernel,
    by decide +kernel⟩

end Net
end AgentFlow
