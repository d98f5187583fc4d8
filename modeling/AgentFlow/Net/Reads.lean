/-
# Where the client stops reading

What the client has after some reads depends on the bytes read only, not on
how they were cut: `Holds` says so of each decoder by its transducer. Whether
it then reads on is decided once per read. So a run ends at the first place
where a read ends and the body is over, or a chunk size was malformed, or at
the end of the stream (`run_spec`).

Key definitions: `Holds`, `enough`.
Key theorems: `consume_holds`, `readHead_spec`, `run_spec`.
-/
import AgentFlow.Net.Framing
import AgentFlow.Net.HttpsClient

namespace AgentFlow
namespace Net

open Incremental

variable {sink : Sink} {head : ResponseHead} {x y : Intake} {a b : List Char}

/-! ### What the bytes of a body come to -/

/-- From raw body bytes to the body. -/
def decode (head : ResponseHead) : Transducer (Phase × List Char) Char Char :=
  if head.chunked then chunkScanner.transducer else .echo

/-- From raw body bytes to payloads. -/
def stream (head : ResponseHead) : Transducer ((Phase × List Char) × Bool × List Char) Char (List Char) :=
  (decode head).comp frameScanner.transducer

def decoded (head : ResponseHead) (a : List Char) : List Char × Phase × List Char := (decode head).feed (.size, []) a

def streamed (head : ResponseHead) (a : List Char) :
    List (List Char) × (Phase × List Char) × Bool × List Char :=
  (stream head).feed ((.size, []), false, []) a

/-- What the client has once the raw body bytes `a` have come. -/
structure Holds (sink : Sink) (head : ResponseHead) (a : List Char) (x : Intake) : Prop where
  chunked : (x.chunked.phase, x.chunked.buf) = (decoded head a).2
  body : sink = .body → x.body = (decoded head a).1
  framer : sink = .payloads → (x.framer.sawDone, x.framer.buf) = (streamed head a).2.2
  payloads : sink = .payloads → x.payloads = (streamed head a).1

/-- A chunk size in the bytes is malformed. -/
def failed (head : ResponseHead) (a : List Char) : Prop := (decoded head a).2.1 = .failed

instance : Decidable (failed head a) := inferInstanceAs (Decidable (_ = _))

/-- After these bytes no further read is needed. -/
def enough (sink : Sink) (head : ResponseHead) (a : List Char) : Bool :=
  (sink = .payloads && (streamed head a).2.2.1) ||
    (sink = .body && 0 ≤ head.contentLength && head.contentLength ≤ (decoded head a).1.length) ||
    (head.chunked && (decoded head a).2.1 = .complete)

theorem holds_nil : Holds sink head [] {} := by
  have hsize : chunkScanner.run .size [] = ([], .size, []) := Scanner.run_of_none rfl
  have hframe : ∀ b, frameScanner.run b [] = ([], b, []) := fun b => Scanner.run_of_none rfl
  have hdec : decoded head [] = ([], .size, []) := by
    unfold decoded decode
    split_ifs
    · exact hsize
    · rfl
  have hstr : streamed head [] = ([], (.size, []), false, []) := by
    have h : streamed head [] = ((frameScanner.run false ([] ++ (decoded head []).1)).1, (decoded head []).2,
        (frameScanner.run false ([] ++ (decoded head []).1)).2) := rfl
    rw [h, hdec]
    simp only [List.append_nil, hframe]
  exact ⟨by rw [hdec]; rfl, fun _ => by rw [hdec], fun _ => by rw [hstr], fun _ => by rw [hstr]⟩

theorem decoded_append (head : ResponseHead) (a b : List Char) : decoded head (a ++ b) =
    ((decoded head a).1 ++ ((decode head).feed (decoded head a).2 b).1, ((decode head).feed (decoded head a).2 b).2) :=
  (decode head).feed_append _ a b

theorem streamed_append (a b : List Char) : streamed head (a ++ b) =
    ((streamed head a).1 ++ ((stream head).feed (streamed head a).2 b).1, ((stream head).feed (streamed head a).2 b).2) :=
  (stream head).feed_append _ a b

/-- The decoder stays past the last chunk and past a malformed size, and gives
nothing more. -/
theorem decode_of_absorbing {p : Phase} (h : p = .complete ∨ p = .failed) (hc : head.chunked = true) (l b : List Char) :
    (decode head).feed (p, l) b = ([], p, l ++ b) := by
  unfold decode
  rw [if_pos hc]
  exact run_of_absorbing h _

theorem phase_of_not_chunked (hc : head.chunked = false) (a : List Char) : (decoded head a).2.1 = .size := by
  unfold decoded decode
  simp [hc, Transducer.echo]

theorem failed_append (h : failed head a) (b : List Char) : failed head (a ++ b) := by
  cases hc : head.chunked with
  | false => simp [failed, phase_of_not_chunked hc] at h
  | true =>
    have hd : (decoded head a).2 = (.failed, (decoded head a).2.2) := by rw [← h]
    unfold failed
    rw [decoded_append, hd, decode_of_absorbing (Or.inr rfl) hc]

/-- Past the last chunk the bytes have no effect. -/
theorem decoded_of_complete (hc : head.chunked = true) (h : (decoded head a).2.1 = .complete) (b : List Char) :
    (decoded head (a ++ b)).1 = (decoded head a).1 ∧ (decoded head (a ++ b)).2.1 = .complete := by
  have hd : (decoded head a).2 = (.complete, (decoded head a).2.2) := by rw [← h]
  rw [decoded_append, hd, decode_of_absorbing (Or.inl rfl) hc]
  exact ⟨List.append_nil _, rfl⟩

/-- The first stage of `consume`. -/
def dechunk (head : ResponseHead) (x : Intake) (slab : List Char) :
    ChunkedDecoder × Except Status.Error (List Char) :=
  if head.chunked then x.chunked.feed slab else (x.chunked, .ok slab)

theorem agrees_dechunk (h : (x.chunked.phase, x.chunked.buf) = (decoded head a).2) (slab : List Char) :
    Agrees ((decode head).feed (decoded head a).2 slab) [] (dechunk head x slab) := by
  unfold dechunk decode
  split_ifs with hc
  · rw [← h]
    exact x.chunked.feed_eq slab
  · have hp : (decoded head a).2.1 ≠ .failed := by
      rw [phase_of_not_chunked (by simpa using hc)]
      simp
    simp [Agrees, Transducer.echo, hp, h]

theorem consume_of_error {slab : List Char} {e : Status.Error} (h : (dechunk head x slab).2 = .error e) :
    consume sink head x slab = ({ x with chunked := (dechunk head x slab).1 }, some e) := by
  have hdef : (if head.chunked then x.chunked.feed slab else (x.chunked, .ok slab)) = dechunk head x slab := rfl
  unfold consume
  rw [hdef]
  rcases hd : dechunk head x slab with ⟨c, d⟩
  rw [hd] at h
  obtain rfl : d = .error e := h
  rfl

theorem consume_body {slab out : List Char} (h : (dechunk head x slab).2 = .ok out) :
    consume .body head x slab = ({ x with chunked := (dechunk head x slab).1, body := x.body ++ out }, none) := by
  have hdef : (if head.chunked then x.chunked.feed slab else (x.chunked, .ok slab)) = dechunk head x slab := rfl
  unfold consume
  rw [hdef]
  rcases hd : dechunk head x slab with ⟨c, d⟩
  rw [hd] at h
  obtain rfl : d = .ok out := h
  rfl

theorem consume_payloads {slab out : List Char} (h : (dechunk head x slab).2 = .ok out) :
    consume .payloads head x slab =
      ({ x with
          chunked := (dechunk head x slab).1
          framer := (x.framer.feed out).1
          payloads := x.payloads ++ (x.framer.feed out).2 }, none) := by
  have hdef : (if head.chunked then x.chunked.feed slab else (x.chunked, .ok slab)) = dechunk head x slab := rfl
  unfold consume
  rw [hdef]
  rcases hd : dechunk head x slab with ⟨c, d⟩
  rw [hd] at h
  obtain rfl : d = .ok out := h
  rfl

/-- One more slab: the client fails if a chunk size is malformed, and else has
what all bytes together come to. -/
theorem consume_holds (hs : sink ≠ .events) (h : Holds sink head a x) (slab : List Char) :
    (failed head (a ++ slab) ∧ (consume sink head x slab).2 = some malformedChunk) ∨
    (¬ failed head (a ++ slab) ∧ (consume sink head x slab).2 = none ∧
      Holds sink head (a ++ slab) (consume sink head x slab).1) := by
  have hag := agrees_dechunk h.chunked slab
  have hdec := decoded_append head a slab
  unfold Agrees at hag
  unfold failed
  rw [hdec]
  split_ifs at hag with hf
  · exact Or.inl ⟨hf, by rw [consume_of_error hag]⟩
  obtain ⟨hout, hst⟩ := hag
  rw [List.nil_append] at hout
  refine Or.inr ⟨hf, ?_⟩
  cases sink with
  | events => exact absurd rfl hs
  | body =>
    rw [consume_body hout]
    refine ⟨rfl, ?_, fun _ => ?_, nofun, nofun⟩
    · rw [hdec]
      exact hst
    · rw [hdec]
      exact congrArg (· ++ _) (h.body rfl)
  | payloads =>
    have hfr := h.framer rfl
    have hstr : streamed head (a ++ slab) =
        ((streamed head a).1 ++ (frameScanner.transducer.feed (streamed head a).2.2
          ((decode head).feed (decoded head a).2 slab).1).1, ((decode head).feed (decoded head a).2 slab).2,
          (frameScanner.transducer.feed (streamed head a).2.2 ((decode head).feed (decoded head a).2 slab).1).2) :=
      streamed_append a slab
    rw [consume_payloads hout]
    refine ⟨rfl, ?_, nofun, fun _ => ?_, fun _ => ?_⟩
    · rw [hdec]
      exact hst
    · rw [hstr, ← hfr]
      simp only [SseFramer.feed_eq]
    · rw [hstr, ← hfr, ← h.payloads rfl]
      simp only [SseFramer.feed_eq]

theorem bodyOver_eq (h : Holds sink head a x) : bodyOver sink head x = enough sink head a := by
  have hcomplete : x.chunked.complete = decide ((decoded head a).2.1 = .complete) := by
    rw [← h.chunked]
    simp only [ChunkedDecoder.phase]
    split_ifs with h₁ h₂
    · simp [h₁]
    · simpa using h₁
    · simpa using h₁
  unfold bodyOver enough
  rw [hcomplete]
  cases sink with
  | payloads =>
    have hdone : x.framer.sawDone = (streamed head a).2.2.1 := congrArg Prod.fst (h.framer rfl)
    simp [hdone]
  | body => simp [h.body rfl]
  | events => simp

/-- The decoder, fed all bytes at once, fails if a size is malformed. -/
theorem feed_of_failed (hc : head.chunked = true) (h : failed head a) :
    (ChunkedDecoder.feed {} a).2 = .error malformedChunk := by
  have hag := ChunkedDecoder.feed_eq {} a
  have hd : decoded head a = chunkScanner.transducer.feed (.size, []) a := by simp [decoded, decode, hc]
  unfold failed at h
  rw [hd] at h
  simpa [Agrees, ChunkedDecoder.phase, h] using hag

theorem feed_of_not_failed (hc : head.chunked = true) (h : ¬ failed head a) :
    (ChunkedDecoder.feed {} a).2 = .ok (decoded head a).1 ∧
      ((ChunkedDecoder.feed {} a).1.complete = true ↔ (decoded head a).2.1 = .complete) := by
  have hag := ChunkedDecoder.feed_eq {} a
  have hd : decoded head a = chunkScanner.transducer.feed (.size, []) a := by simp [decoded, decode, hc]
  unfold failed at h
  rw [hd] at h ⊢
  simp only [Agrees, ChunkedDecoder.phase, Bool.false_eq_true, if_false] at hag
  rw [if_neg h] at hag
  refine ⟨by simpa using hag.1, ?_⟩
  rw [← hag.2]
  simp only
  split_ifs with h₁ h₂
  · simp [h₁]
  · simp [h₁]
  · simp [h₁]

/-! ### Reading on -/

/-- A read of these bytes, with the token not fired. -/
def Arrival.bytes (b : List Char) : Arrival := ⟨.ok b, false⟩

/-- The bytes of the first `t` reads. -/
def upTo (rs : List (List Char)) (t : ℕ) : List Char := (rs.take t).flatten

theorem upTo_succ (b : List Char) (rs : List (List Char)) (t : ℕ) : upTo (b :: rs) (t + 1) = b ++ upTo rs t := by
  simp [upTo]

theorem upTo_add (rs : List (List Char)) (t u : ℕ) : upTo rs (t + u) = upTo rs t ++ upTo (rs.drop t) u := by
  unfold upTo
  rw [List.take_add, List.flatten_append]

theorem upTo_length (rs : List (List Char)) : upTo rs rs.length = rs.flatten := by rw [upTo, List.take_length]

theorem readBody_cons {b : List Char} (hb : b ≠ []) (x : Intake) (reads : List Arrival) :
    readBody sink head x false (.bytes b :: reads) =
      if bodyOver sink head x then (finishBody sink x, none)
      else if (consume sink head x b).2.isSome then consume sink head x b
      else readBody sink head (consume sink head x b).1 false reads := by
  cases b with
  | nil => exact absurd rfl hb
  | cons c b =>
    rw [readBody]
    simp only [Bool.false_eq_true, if_false, Arrival.bytes]
    split_ifs with hover herr
    · rfl
    · rcases hc : consume sink head x (c :: b) with ⟨y, status⟩
      rw [hc] at herr
      obtain ⟨e, rfl⟩ := Option.isSome_iff_exists.mp herr
      rfl
    · rcases hc : consume sink head x (c :: b) with ⟨y, status⟩
      rw [hc] at herr
      obtain rfl : status = none := by simpa using herr
      rfl

/-- The loop ends at the first read after which the body is over, a chunk size
was malformed, or there is no more. -/
theorem readBody_spec (hs : sink ≠ .events) : ∀ (rs : List (List Char)) (a : List Char) (x : Intake),
    (∀ r ∈ rs, r ≠ []) → Holds sink head a x → ¬ failed head a → ∃ t ≤ rs.length,
      (∀ t' < t, ¬ failed head (a ++ upTo rs t') ∧ enough sink head (a ++ upTo rs t') = false) ∧
      ((failed head (a ++ upTo rs t) ∧ (readBody sink head x false (rs.map .bytes)).2 = some malformedChunk) ∨
        (¬ failed head (a ++ upTo rs t) ∧ (enough sink head (a ++ upTo rs t) = true ∨ t = rs.length) ∧
          ∃ y, Holds sink head (a ++ upTo rs t) y ∧
            readBody sink head x false (rs.map .bytes) = (finishBody sink y, none)))
  | [], a, x, _, hx, hf => by
    refine ⟨0, le_rfl, by simp, Or.inr ⟨by simpa [upTo] using hf, Or.inr rfl, x, by simpa [upTo] using hx, rfl⟩⟩
  | b :: rs, a, x, hrs, hx, hf => by
    have hb : b ≠ [] := hrs b (List.mem_cons_self ..)
    rw [List.map_cons, readBody_cons hb, bodyOver_eq hx]
    cases hover : enough sink head a with
    | true =>
      refine ⟨0, by simp, by simp, Or.inr ⟨by simpa [upTo] using hf, Or.inl ?_, x, by simpa [upTo] using hx, rfl⟩⟩
      simpa [upTo] using hover
    | false =>
      rw [if_neg (by simp)]
      -- the first place is passed, whatever comes next
      have hpass : ∀ {t : ℕ}, (∀ t' < t, ¬ failed head ((a ++ b) ++ upTo rs t') ∧
          enough sink head ((a ++ b) ++ upTo rs t') = false) →
          ∀ t' < t + 1, ¬ failed head (a ++ upTo (b :: rs) t') ∧ enough sink head (a ++ upTo (b :: rs) t') = false := by
        rintro t h (_ | t') ht'
        · exact ⟨by simpa [upTo] using hf, by simpa [upTo] using hover⟩
        · rw [upTo_succ, ← List.append_assoc]
          exact h t' (by omega)
      rcases consume_holds hs hx b with ⟨hfb, hst⟩ | ⟨hfb, hst, hy⟩
      · refine ⟨1, by simp, hpass (t := 0) (by simp), Or.inl ⟨?_, ?_⟩⟩
        · rw [upTo_succ]
          simpa [upTo] using hfb
        · rw [if_pos (by simp [hst]), hst]
      · rw [if_neg (by simp [hst])]
        obtain ⟨t, ht, hbefore, hend⟩ := readBody_spec hs rs (a ++ b) _
          (fun r hr => hrs r (List.mem_cons_of_mem _ hr)) hy hfb
        refine ⟨t + 1, by simpa using ht, hpass hbefore, ?_⟩
        rw [upTo_succ, ← List.append_assoc]
        simpa using hend

/-! ### The head -/

def headEnd : List Char := "\r\n\r\n".toList

theorem parse_of_none {l : List Char} (h : find headEnd l = none) : parseResponseHead l = .ok {} := by
  have h : find "\r\n\r\n".toList l = none := h
  simp only [parseResponseHead, h]

/-- More bytes do not change a complete head. -/
theorem parse_append {l : List Char} {i : ℕ} (h : find headEnd l = some i) (m : List Char) :
    parseResponseHead (l ++ m) = parseResponseHead l := by
  have hle := find_add_le h
  have htake : (l ++ m).take i = l.take i := List.take_append_of_le_length (by omega)
  have h : find "\r\n\r\n".toList l = some i := h
  simp only [parseResponseHead, find_append m h, h, htake]

theorem headBytes_of_parse {l : List Char} {i : ℕ} (h : find headEnd l = some i)
    (hp : parseResponseHead l = .ok head) : head.headBytes = i + 4 := by
  have h : find "\r\n\r\n".toList l = some i := h
  simp only [parseResponseHead, h] at hp
  split_ifs at hp
  split at hp
  · simp at hp
  · split_ifs at hp
    obtain rfl := Except.ok.inj hp
    rfl

theorem length_lt_headBytes {l m : List Char} (h : find headEnd l = none)
    (hp : parseResponseHead (l ++ m) = .ok head) (hne : head.headBytes ≠ 0) : l.length < head.headBytes := by
  cases hf : find headEnd (l ++ m) with
  | none =>
    rw [parse_of_none hf] at hp
    obtain rfl := Except.ok.inj hp
    exact absurd rfl hne
  | some i =>
    rw [headBytes_of_parse hf hp]
    by_contra hle
    have hlen : i + headEnd.length ≤ l.length := by
      simp only [show headEnd.length = 4 from rfl]
      omega
    have hpre := (find_eq_some_iff.mp hf).2.1
    exact find_eq_none_iff.mp h i (by omega) ((prefix_drop_append hlen).mp hpre)

/-- The head is read up to the end of the read that completes it. -/
theorem readHead_spec : ∀ (rs : List (List Char)) (raw : List Char), (∀ r ∈ rs, r ≠ []) →
    (∃ e, parseResponseHead (raw ++ rs.flatten) = .error e ∧ readHead raw false (rs.map .bytes) = .error e) ∨
    (∃ head, parseResponseHead (raw ++ rs.flatten) = .ok head ∧ head.headBytes = 0 ∧
      readHead raw false (rs.map .bytes) = .error headCutShort) ∨
    (∃ head, parseResponseHead (raw ++ rs.flatten) = .ok head ∧ head.headBytes ≠ 0 ∧ ∃ t ≤ rs.length,
      head.headBytes ≤ (raw ++ upTo rs t).length ∧ (∀ t' < t, (raw ++ upTo rs t').length < head.headBytes) ∧
      readHead raw false (rs.map .bytes) = .ok (head, raw ++ upTo rs t, false, (rs.drop t).map .bytes)) := by
  intro rs
  induction rs with
  | nil =>
    intro raw _
    rw [readHead.eq_def]
    simp only [List.flatten_nil, List.append_nil, List.map_nil]
    cases hp : parseResponseHead raw with
    | error e => exact Or.inl ⟨e, rfl, rfl⟩
    | ok head =>
      simp only
      split_ifs with hb
      · refine Or.inr (Or.inr ⟨head, rfl, hb, 0, le_rfl, ?_, by simp, by simp [upTo]⟩)
        cases hf : find headEnd raw with
        | none =>
          rw [parse_of_none hf] at hp
          obtain rfl := Except.ok.inj hp
          exact absurd rfl hb
        | some i =>
          have := find_add_le hf
          rw [headBytes_of_parse hf hp]
          simpa [upTo, headEnd] using this
      · exact Or.inr (Or.inl ⟨head, rfl, by simpa using hb, rfl⟩)
  | cons b rs ih =>
    intro raw hrs
    have hb : b ≠ [] := hrs b (List.mem_cons_self ..)
    rw [readHead.eq_def]
    cases hf : find headEnd raw with
    | some i =>
      have hle := find_add_le hf
      rw [parse_append hf]
      cases hp : parseResponseHead raw with
      | error e => exact Or.inl ⟨e, rfl, rfl⟩
      | ok head =>
        have hbytes := headBytes_of_parse hf hp
        have hne : head.headBytes ≠ 0 := by omega
        refine Or.inr (Or.inr ⟨head, rfl, hne, 0, by simp, ?_, by simp, ?_⟩)
        · rw [hbytes]
          simpa [upTo, headEnd] using hle
        · simp [hne, upTo]
    | none =>
      rw [parse_of_none hf]
      cases b with
      | nil => exact absurd rfl hb
      | cons c b =>
        have hstep := ih (raw ++ (c :: b)) fun r hr => hrs r (List.mem_cons_of_mem _ hr)
        rw [List.flatten_cons, ← List.append_assoc]
        rcases hstep with h | h | ⟨head, hp, hne, t, ht, hle, hbefore, hread⟩
        · exact Or.inl h
        · exact Or.inr (Or.inl h)
        · refine Or.inr (Or.inr ⟨head, hp, hne, t + 1, by simpa using ht, ?_, ?_, ?_⟩)
          · rw [upTo_succ, ← List.append_assoc]
            exact hle
          · rintro (_ | t') ht'
            · have hlt := length_lt_headBytes hf (by rwa [List.append_assoc] at hp) hne
              simpa [upTo] using hlt
            · rw [upTo_succ, ← List.append_assoc]
              exact hbefore t' (by omega)
          · rw [upTo_succ, ← List.append_assoc]
            exact hread

/-! ### The whole response -/

/-- The head of the response is complete, and 2xx. -/
structure Accepted (raw : List Char) (head : ResponseHead) : Prop where
  parse : parseResponseHead raw = .ok head
  complete : head.headBytes ≠ 0
  success : 200 ≤ head.statusCode ∧ head.statusCode < 300

/-- The raw body bytes of the first `t` reads. -/
def bodyUpTo (head : ResponseHead) (rs : List (List Char)) (t : ℕ) : List Char := (upTo rs t).drop head.headBytes

/-- **Where a run ends.** Without a head that is 2xx it fails. Else it ends at
the first read that completes the head and after which a chunk size was
malformed, the body is over, or there is no more. -/
theorem run_spec (hs : sink ≠ .events) {rs : List (List Char)} (hrs : ∀ r ∈ rs, r ≠ []) :
    ((∀ head, ¬ Accepted rs.flatten head) ∧ (run sink false (rs.map .bytes)).2.2 ≠ none) ∨
    (∃ head, Accepted rs.flatten head ∧ ∃ t ≤ rs.length, head.headBytes ≤ (upTo rs t).length ∧
      (∀ t' < t, head.headBytes ≤ (upTo rs t').length →
        ¬ failed head (bodyUpTo head rs t') ∧ enough sink head (bodyUpTo head rs t') = false) ∧
      ((failed head (bodyUpTo head rs t) ∧ (run sink false (rs.map .bytes)).2.2 = some malformedChunk) ∨
        (¬ failed head (bodyUpTo head rs t) ∧ (enough sink head (bodyUpTo head rs t) = true ∨ t = rs.length) ∧
          ∃ y, Holds sink head (bodyUpTo head rs t) y ∧
            run sink false (rs.map .bytes) = (some head, finishBody sink y, none)))) := by
  rcases readHead_spec rs [] hrs with ⟨e, hp, hread⟩ | ⟨head, hp, hzero, hread⟩ |
    ⟨head, hp, hne, t₀, ht₀, hle, hbefore, hread⟩
  · refine Or.inl ⟨fun head h => ?_, by simp [run, hread]⟩
    have := hp.symm.trans h.parse
    simp at this
  · refine Or.inl ⟨fun head' h => ?_, by simp [run, hread]⟩
    obtain rfl := Except.ok.inj (hp.symm.trans h.parse)
    exact h.complete hzero
  simp only [List.nil_append] at hp hle hbefore hread
  have hsink : ¬ (sink = .events ∧ ¬ isEventStream head = true) := fun h => hs h.1
  by_cases hstatus : head.statusCode < 200 ∨ 300 ≤ head.statusCode
  · refine Or.inl ⟨fun head' h => ?_, by simp [run, hread, hstatus]⟩
    obtain rfl := Except.ok.inj (hp.symm.trans h.parse)
    have := h.success
    omega
  refine Or.inr ⟨head, ⟨hp, hne, by omega⟩, ?_⟩
  set slab := (upTo rs t₀).drop head.headBytes with hslab
  have hrun : run sink false (rs.map .bytes) =
      if (consume sink head {} slab).2.isSome then (some head, consume sink head {} slab)
      else (some head, readBody sink head (consume sink head {} slab).1 false ((rs.drop t₀).map .bytes)) := by
    simp only [run, hread, hstatus, if_false, hsink]
    rcases consume sink head {} slab with ⟨y, _ | e⟩
    · simp
    · simp
  have hbody : ∀ t, bodyUpTo head rs (t₀ + t) = slab ++ upTo (rs.drop t₀) t := by
    intro t
    unfold bodyUpTo
    rw [upTo_add, List.drop_append_of_le_length hle]
  have hlate : ∀ t', head.headBytes ≤ (upTo rs t').length → t₀ ≤ t' := by
    intro t' h
    by_contra hlt
    have := hbefore t' (by omega)
    omega
  rcases consume_holds hs holds_nil slab with ⟨hf, hst⟩ | ⟨hf, hst, hy⟩
  · refine ⟨t₀, ht₀, hle, fun t' ht' h => absurd (hlate t' h) (by omega), Or.inl ⟨?_, ?_⟩⟩
    · exact hf
    · rw [hrun, if_pos (by simp [hst])]
      exact hst
  · rw [List.nil_append] at hf hy
    have hrs' : ∀ r ∈ rs.drop t₀, r ≠ [] := fun r hr => hrs r (List.mem_of_mem_drop hr)
    obtain ⟨t, ht, hpassed, hend⟩ := readBody_spec hs (rs.drop t₀) slab _ hrs' hy hf
    rw [List.length_drop] at ht hend
    refine ⟨t₀ + t, by omega, ?_, ?_, ?_⟩
    · rw [upTo_add, List.length_append]
      omega
    · intro t' ht' h
      obtain ⟨u, rfl⟩ := Nat.exists_eq_add_of_le (hlate t' h)
      rw [hbody]
      exact hpassed u (by omega)
    · rw [hbody, hrun, if_neg (by simp [hst])]
      rcases hend with ⟨hf', hst'⟩ | ⟨hf', hstop, y, hy', hrd⟩
      · exact Or.inl ⟨hf', hst'⟩
      · exact Or.inr ⟨hf', hstop.imp_right (by omega), y, hy', by rw [hrd]⟩

end Net
end AgentFlow
