/-
# How a stream is cut makes no difference to its decoders

The framer of server-sent events and the decoder of chunked bodies look at the
front of their buffer and take a frame, a chunk-size line or a byte of a chunk
when it is there. More bytes do not change what they take, so each of them is
a scanner in the sense of `Lib.Incremental`, and the `Feed` of the source is
the transducer of that scanner.

Two blank lines of different length may end a frame. That more bytes do not
turn the end of a frame into another rests on how they can overlap
(`frameEnd?_append`).

Key definitions: `frameScanner`, `chunkScanner`.
Key theorems: `SseFramer.feed_eq`, `ChunkedDecoder.feed_eq`.
-/
import AgentFlow.Lib.Incremental
import AgentFlow.Net.HttpParse

namespace AgentFlow
namespace Net

open Incremental

variable {sep l m : List Char} {i : ℕ}

/-! ### Searching in a growing buffer -/

theorem find_eq_some_iff : find sep l = some i ↔
    i ≤ l.length ∧ sep <+: l.drop i ∧ ∀ j < i, ¬ sep <+: l.drop j := by
  induction l generalizing i with
  | nil =>
    unfold find
    split_ifs with h
    · subst h
      simp only [Option.some.injEq, List.length_nil, nonpos_iff_eq_zero, List.drop_nil, List.prefix_nil]
      constructor
      · rintro rfl
        simp
      · rintro ⟨rfl, -⟩
        rfl
    · simp [h]
  | cons c s ih =>
    unfold find
    split_ifs with h
    · rw [List.isPrefixOf_iff_prefix] at h
      constructor
      · intro hi
        obtain rfl : 0 = i := Option.some.inj hi
        exact ⟨Nat.zero_le _, h, fun j hj => absurd hj (Nat.not_lt_zero j)⟩
      · rintro ⟨-, -, hmin⟩
        cases i with
        | zero => rfl
        | succ i => exact absurd h (hmin 0 (Nat.succ_pos i))
    · rw [List.isPrefixOf_iff_prefix] at h
      cases i with
      | zero => simp [h]
      | succ i =>
        rw [Option.map_eq_some_iff]
        constructor
        · rintro ⟨k, hk, hki⟩
          obtain rfl : k = i := Nat.succ.inj hki
          obtain ⟨hle, hp, hmin⟩ := ih.mp hk
          refine ⟨Nat.succ_le_succ hle, hp, ?_⟩
          rintro (_ | j) hj
          · exact h
          · exact hmin j (Nat.lt_of_succ_lt_succ hj)
        · rintro ⟨hle, hp, hmin⟩
          refine ⟨i, ih.mpr ⟨Nat.le_of_succ_le_succ hle, hp, ?_⟩, rfl⟩
          intro j hj
          exact hmin (j + 1) (Nat.succ_lt_succ hj)

theorem find_eq_none_iff : find sep l = none ↔ ∀ j ≤ l.length, ¬ sep <+: l.drop j := by
  constructor
  · intro h j hj hp
    -- the least place is found
    classical
    have hex : ∃ j, j ≤ l.length ∧ sep <+: l.drop j := ⟨j, hj, hp⟩
    have hfound : find sep l = some (Nat.find hex) := by
      refine find_eq_some_iff.mpr ⟨(Nat.find_spec hex).1, (Nat.find_spec hex).2, fun k hk hpk => ?_⟩
      have hlt := Nat.find_min hex hk
      have hle := (Nat.find_spec hex).1
      exact hlt ⟨by omega, hpk⟩
    simp [h] at hfound
  · intro h
    cases hf : find sep l with
    | none => rfl
    | some i =>
      obtain ⟨hle, hp, -⟩ := find_eq_some_iff.mp hf
      exact absurd hp (h i hle)

theorem find_add_le (h : find sep l = some i) : i + sep.length ≤ l.length := by
  obtain ⟨hle, hp, -⟩ := find_eq_some_iff.mp h
  have := hp.length_le
  rw [List.length_drop] at this
  omega

/-- A text that is long enough starts with `sep` whatever follows. -/
theorem prefix_drop_append {j : ℕ} (hj : j + sep.length ≤ l.length) :
    sep <+: (l ++ m).drop j ↔ sep <+: l.drop j := by
  rw [List.drop_append_of_le_length (by omega)]
  constructor
  · intro h
    refine List.prefix_of_prefix_length_le h (List.prefix_append _ _) ?_
    rw [List.length_drop]
    omega
  · exact fun h => h.trans (List.prefix_append _ _)

/-- What is found stays where it is. -/
theorem find_append (m : List Char) (h : find sep l = some i) : find sep (l ++ m) = some i := by
  have hle := find_add_le h
  obtain ⟨hi, hp, hmin⟩ := find_eq_some_iff.mp h
  refine find_eq_some_iff.mpr ⟨by rw [List.length_append]; omega, (prefix_drop_append hle).mpr hp, fun j hj hpj => ?_⟩
  exact hmin j hj ((prefix_drop_append (by omega)).mp hpj)

/-! ### Frames -/

theorem getElem?_of_prefix_drop {k : ℕ} {c : Char} (h : sep <+: l.drop i) (hc : sep[k]? = some c) :
    l[i + k]? = some c := by
  obtain ⟨r, hr⟩ := h
  have hlt : k < sep.length := (List.getElem?_eq_some_iff.mp hc).1
  rw [← List.getElem?_drop, ← hr, List.getElem?_append_left hlt]
  exact hc

/-- More bytes do not change where the first frame ends. -/
theorem frameEnd?_append {r : ℕ × ℕ} (m : List Char) (h : frameEnd? l = some r) : frameEnd? (l ++ m) = some r := by
  unfold frameEnd? at h ⊢
  cases hlf : find "\n\n".toList l with
  | none =>
    cases hcr : find "\r\n\r\n".toList l with
    | none =>
      rw [hlf, hcr] at h
      simp at h
    | some q =>
      rw [find_append m hcr]
      have hq := find_add_le hcr
      rw [hlf, hcr] at h
      obtain rfl : (q, 4) = r := by simpa using h
      cases hlf' : find "\n\n".toList (l ++ m) with
      | none => rfl
      | some p =>
        -- a shorter blank line before it would have been found
        have hlt : q < p := by
          by_contra hle
          obtain ⟨-, hp, -⟩ := find_eq_some_iff.mp hlf'
          have hlen : p + "\n\n".toList.length ≤ l.length := by
            simp only [show "\r\n\r\n".toList.length = 4 from rfl, show "\n\n".toList.length = 2 from rfl] at hq ⊢
            omega
          exact find_eq_none_iff.mp hlf p (by omega) ((prefix_drop_append hlen).mp hp)
        simp [hlt]
  | some p =>
    rw [find_append m hlf]
    have hp := find_add_le hlf
    cases hcr : find "\r\n\r\n".toList l with
    | some q =>
      rw [find_append m hcr]
      rw [hlf, hcr] at h
      exact h
    | none =>
      rw [hlf, hcr] at h
      obtain rfl : (p, 2) = r := by simpa using h
      cases hcr' : find "\r\n\r\n".toList (l ++ m) with
      | none => rfl
      | some q =>
        -- a longer one that starts before it would have to overlap it
        have hge : ¬ q < p := by
          intro hlt
          obtain ⟨-, hq, -⟩ := find_eq_some_iff.mp hcr'
          have hpre := (find_eq_some_iff.mp hlf).2.1
          simp only [show "\n\n".toList.length = 2 from rfl] at hp
          by_cases hlen : q + 4 ≤ l.length
          · exact find_eq_none_iff.mp hcr q (by omega) ((prefix_drop_append hlen).mp hq)
          · obtain rfl : p = q + 1 := by omega
            have hcr₂ : (l ++ m)[q + 2]? = some '\r' := getElem?_of_prefix_drop hq rfl
            have hlf₂ : l[q + 1 + 1]? = some '\n' := getElem?_of_prefix_drop hpre rfl
            rw [List.getElem?_append_left (by omega), hlf₂] at hcr₂
            simp at hcr₂
        simp [hge]

theorem frameEnd?_add_le {stop sepLen : ℕ} (h : frameEnd? l = some (stop, sepLen)) :
    0 < sepLen ∧ stop + sepLen ≤ l.length := by
  unfold frameEnd? at h
  split at h
  · simp at h
  · rename_i lf hlf _
    obtain ⟨rfl, rfl⟩ : lf = stop ∧ 2 = sepLen := by simpa using h
    exact ⟨by omega, find_add_le hlf⟩
  · rename_i cr _ hcr
    obtain ⟨rfl, rfl⟩ : cr = stop ∧ 4 = sepLen := by simpa using h
    exact ⟨by omega, find_add_le hcr⟩
  · rename_i lf cr hlf hcr
    split_ifs at h
    · obtain ⟨rfl, rfl⟩ : cr = stop ∧ 4 = sepLen := by simpa using h
      exact ⟨by omega, find_add_le hcr⟩
    · obtain ⟨rfl, rfl⟩ : lf = stop ∧ 2 = sepLen := by simpa using h
      exact ⟨by omega, find_add_le hlf⟩

section Frame

variable {β γ : Type*} {a : List Char → β} {b : List Char → γ} {x : β} {s : γ} {rest : List Char}

/-- What is read off the first frame leaves less. -/
theorem shorter_of_frame
    (h : ((frameEnd? l).map fun r => (a (l.take r.1), b (l.take r.1), l.drop (r.1 + r.2))) = some (x, s, rest)) :
    rest.length < l.length := by
  obtain ⟨⟨stop, sepLen⟩, hr, heq⟩ := Option.map_eq_some_iff.mp h
  obtain ⟨hpos, hle⟩ := frameEnd?_add_le hr
  simp only [Prod.mk.injEq] at heq
  rw [← heq.2.2, List.length_drop]
  omega

/-- What is read off the first frame stays with more bytes. -/
theorem stable_of_frame (m : List Char)
    (h : ((frameEnd? l).map fun r => (a (l.take r.1), b (l.take r.1), l.drop (r.1 + r.2))) = some (x, s, rest)) :
    ((frameEnd? (l ++ m)).map fun r => (a ((l ++ m).take r.1), b ((l ++ m).take r.1), (l ++ m).drop (r.1 + r.2))) =
      some (x, s, rest ++ m) := by
  obtain ⟨⟨stop, sepLen⟩, hr, heq⟩ := Option.map_eq_some_iff.mp h
  obtain ⟨hpos, hle⟩ := frameEnd?_add_le hr
  have htake : (l ++ m).take stop = l.take stop := List.take_append_of_le_length (by omega)
  simp only [Prod.mk.injEq] at heq
  rw [frameEnd?_append m hr, Option.map_some]
  simp only [htake, List.drop_append_of_le_length hle, heq]

end Frame

/-- The payload of a frame, if it is delivered. -/
def delivered (payload : List Char) : List (List Char) := if payload = [] ∨ payload = done then [] else [payload]

theorem done_ne_nil : done ≠ [] := by decide

/-- Takes the first frame off the buffer. The state is whether the stream was
signed off. -/
def frameScanner : Scanner Bool Char (List Char) where
  next sawDone buf := (frameEnd? buf).map fun r =>
    (delivered (framePayload (buf.take r.1)), sawDone || framePayload (buf.take r.1) = done, buf.drop (r.1 + r.2))
  shorter {sawDone _ _ _ _} h :=
    shorter_of_frame (a := fun frame => delivered (framePayload frame))
      (b := fun frame => sawDone || framePayload frame = done) h
  stable {sawDone _ _ _ _} m h :=
    stable_of_frame (a := fun frame => delivered (framePayload frame))
      (b := fun frame => sawDone || framePayload frame = done) m h

theorem drain_eq : ∀ (n : ℕ) (f : SseFramer) (out : List (List Char)), f.buf.length ≤ n →
    f.drain n out = (⟨(frameScanner.run f.sawDone f.buf).2.2, (frameScanner.run f.sawDone f.buf).2.1⟩,
      out ++ (frameScanner.run f.sawDone f.buf).1)
  | 0, f, out, h => by
    have hbuf : f.buf = [] := List.length_eq_zero_iff.mp (by omega)
    have hnext : frameScanner.next f.sawDone f.buf = none := by
      rw [hbuf]
      rfl
    rw [Scanner.run_of_none hnext, List.append_nil]
    rfl
  | n + 1, f, out, h => by
    rw [SseFramer.drain]
    cases he : frameEnd? f.buf with
    | none =>
      have hnext : frameScanner.next f.sawDone f.buf = none := by simp [frameScanner, he]
      rw [Scanner.run_of_none hnext, List.append_nil]
    | some r =>
      obtain ⟨stop, sepLen⟩ := r
      obtain ⟨hpos, hle⟩ := frameEnd?_add_le he
      have hnext : frameScanner.next f.sawDone f.buf = some (delivered (framePayload (f.buf.take stop)),
          f.sawDone || framePayload (f.buf.take stop) = done, f.buf.drop (stop + sepLen)) := by
        simp [frameScanner, he]
      have hlen : (f.buf.drop (stop + sepLen)).length ≤ n := by
        rw [List.length_drop]
        omega
      rw [Scanner.run_of_some hnext]
      simp only
      split_ifs with hnil hdone
      · rw [drain_eq n _ out hlen]
        simp [delivered, hnil, done_ne_nil]
      · rw [drain_eq n _ out hlen]
        simp [delivered, hdone]
      · rw [drain_eq n _ _ hlen]
        simp [delivered, hnil, hdone]

/-- `Feed` of the framer is the transducer of its scanner. -/
theorem SseFramer.feed_eq (f : SseFramer) (bytes : List Char) :
    f.feed bytes = (⟨(frameScanner.transducer.feed (f.sawDone, f.buf) bytes).2.2,
        (frameScanner.transducer.feed (f.sawDone, f.buf) bytes).2.1⟩,
      (frameScanner.transducer.feed (f.sawDone, f.buf) bytes).1) := by
  unfold SseFramer.feed
  rw [drain_eq _ _ _ le_rfl, List.nil_append]
  rfl

/-! ### Chunks -/

/-- Where the decoder is: before a chunk-size line, in a chunk with that many
bytes left, past the last chunk, or past a line that is malformed. -/
inductive Phase
  | size
  | data (remaining : ℕ)
  | complete
  | failed
  deriving DecidableEq

/-- What a chunk-size line leads to. -/
def Phase.ofSize : Option ℕ → Phase
  | none => .failed
  | some 0 => .complete
  | some (n + 1) => .data (n + 1)

def nextChunk : Phase → List Char → Option (List Char × Phase × List Char)
  | .size, buf => (find crlf buf).map fun eol => ([], .ofSize (chunkSize? (buf.take eol)), buf.drop (eol + 2))
  | .data (n + 1), c :: rest => some ([c], .data n, rest)
  | .data 0, _ :: _ :: rest => some ([], .size, rest)
  | _, _ => none

/-- Takes a size line, a byte of a chunk, or the two bytes after it. -/
def chunkScanner : Scanner Phase Char Char where
  next := nextChunk
  shorter := by
    intro s l out s' rest h
    unfold nextChunk at h
    split at h
    · obtain ⟨eol, heol, heq⟩ := Option.map_eq_some_iff.mp h
      have hle := find_add_le heol
      simp only [Prod.mk.injEq] at heq
      simp only [crlf, List.length_cons, List.length_nil] at hle
      rw [← heq.2.2, List.length_drop]
      omega
    · obtain ⟨-, -, rfl⟩ : _ ∧ _ ∧ _ = rest := by simpa using h
      simp
    · obtain ⟨-, -, rfl⟩ : _ ∧ _ ∧ _ = rest := by simpa using h
      simp
    · simp at h
  stable := by
    intro s l out s' rest m h
    unfold nextChunk at h
    split at h
    · obtain ⟨eol, heol, heq⟩ := Option.map_eq_some_iff.mp h
      have hle := find_add_le heol
      simp only [crlf, List.length_cons, List.length_nil] at hle
      have htake : (l ++ m).take eol = l.take eol := List.take_append_of_le_length (by omega)
      have hdrop : (l ++ m).drop (eol + 2) = l.drop (eol + 2) ++ m := List.drop_append_of_le_length hle
      simp only [Prod.mk.injEq] at heq
      simp only [nextChunk, find_append m heol, Option.map_some, htake, hdrop, heq]
    · simp only [Option.some.injEq, Prod.mk.injEq] at h
      obtain ⟨rfl, rfl, rfl⟩ := h
      rfl
    · simp only [Option.some.injEq, Prod.mk.injEq] at h
      obtain ⟨rfl, rfl, rfl⟩ := h
      rfl
    · simp at h

def ChunkedDecoder.phase (d : ChunkedDecoder) : Phase :=
  if d.complete then .complete else if d.inChunk then .data d.remaining else .size

theorem run_of_absorbing {p : Phase} (h : p = .complete ∨ p = .failed) (l : List Char) :
    chunkScanner.run p l = ([], p, l) := by
  refine Scanner.run_of_none ?_
  rcases h with rfl | rfl
  · rfl
  · rfl

/-- The bytes of a chunk that are there. -/
theorem run_data : ∀ (n : ℕ) (l : List Char), chunkScanner.run (.data n) l =
    (l.take (min l.length n) ++ (chunkScanner.run (.data (n - min l.length n)) (l.drop (min l.length n))).1,
      (chunkScanner.run (.data (n - min l.length n)) (l.drop (min l.length n))).2)
  | 0, l => by simp
  | n + 1, [] => by simp
  | n + 1, c :: l => by
    have hnext : chunkScanner.next (.data (n + 1)) (c :: l) = some ([c], .data n, l) := rfl
    have hmin : min (c :: l).length (n + 1) = min l.length n + 1 := by
      rw [List.length_cons]
      omega
    rw [Scanner.run_of_some hnext, run_data n l, hmin]
    simp

def malformedChunk : Status.Error := ⟨.invalidArgument, "malformed chunk size"⟩

/-- The decoder fails if the scanner does, and else gives what the scanner
gives and is where the scanner is. -/
def Agrees (r : List Char × Phase × List Char) (out : List Char)
    (res : ChunkedDecoder × Except Status.Error (List Char)) : Prop :=
  if r.2.1 = .failed then res.2 = .error malformedChunk
  else res.2 = .ok (out ++ r.1) ∧ (res.1.phase, res.1.buf) = r.2

theorem Agrees.prepend {r : List Char × Phase × List Char} {out x : List Char}
    {res : ChunkedDecoder × Except Status.Error (List Char)} (h : Agrees r (out ++ x) res) :
    Agrees (x ++ r.1, r.2) out res := by
  unfold Agrees at h ⊢
  split_ifs at h ⊢
  · exact h
  · simpa using h

/-- The decoder waits where the scanner does. -/
theorem Agrees.waits {d : ChunkedDecoder} (hne : d.phase ≠ .failed) (hnext : nextChunk d.phase d.buf = none)
    (out : List Char) : Agrees (chunkScanner.run d.phase d.buf) out (d, .ok out) := by
  rw [Scanner.run_of_none hnext]
  simp [Agrees, hne]

theorem phase_ne_failed (d : ChunkedDecoder) : d.phase ≠ .failed := by
  unfold ChunkedDecoder.phase
  split_ifs <;> simp

/-- The loop of `Feed` runs the scanner. -/
theorem agrees_loop (whole : List Char) : ∀ (n : ℕ) (d : ChunkedDecoder) (out : List Char), d.buf.length < n →
    Agrees (chunkScanner.run d.phase d.buf) out (d.loop whole n out)
  | 0, d, out, h => by omega
  | n + 1, d, out, h => by
    rw [ChunkedDecoder.loop]
    by_cases hc : d.complete = true
    · have hp : d.phase = .complete := by simp [ChunkedDecoder.phase, hc]
      rw [if_pos hc]
      exact Agrees.waits (phase_ne_failed d) (by rw [hp]; rfl) out
    rw [if_neg hc]
    by_cases hin : d.inChunk = true
    · rw [if_pos hin]
      have hp : d.phase = .data d.remaining := by simp [ChunkedDecoder.phase, hc, hin]
      set take := min d.buf.length d.remaining with htake
      set d₁ : ChunkedDecoder := { d with buf := d.buf.drop take, remaining := d.remaining - take } with hd₁
      have hp₁ : d₁.phase = .data (d.remaining - take) := by simp [ChunkedDecoder.phase, hd₁, hc, hin]
      rw [hp, run_data, ← htake, ← hp₁]
      refine Agrees.prepend ?_
      simp only
      split_ifs with hrem hlen
      · -- the chunk is not all there
        have hbuf : d₁.buf = [] := by
          simp only [hd₁, List.drop_eq_nil_iff]
          omega
        refine Agrees.waits (phase_ne_failed d₁) ?_ _
        rw [hbuf, hp₁]
        cases d.remaining - take <;> rfl
      · have hp₂ : d₁.phase = .data 0 := by rw [hp₁, show d.remaining - take = 0 by omega]
        refine Agrees.waits (phase_ne_failed d₁) ?_ _
        rw [hp₂]
        change d₁.buf.length < 2 at hlen
        cases hb : d₁.buf with
        | nil => rfl
        | cons c rest =>
          cases rest with
          | nil => rfl
          | cons c' rest =>
            rw [hb] at hlen
            simp at hlen
      · have hp₂ : d₁.phase = .data 0 := by rw [hp₁, show d.remaining - take = 0 by omega]
        change ¬ d₁.buf.length < 2 at hlen
        cases hb : d₁.buf with
        | nil => simp [hb] at hlen
        | cons c rest =>
          cases rest with
          | nil => simp [hb] at hlen
          | cons c' rest =>
            have hnext : chunkScanner.next (.data 0) (c :: c' :: rest) = some ([], .size, rest) := rfl
            have hdrop : d.buf.drop take = c :: c' :: rest := hb
            have hle := congrArg List.length hdrop
            simp only [List.length_drop, List.length_cons] at hle
            rw [hp₂, hdrop, Scanner.run_of_some hnext]
            refine Agrees.prepend ?_
            set d₂ : ChunkedDecoder := { d with buf := rest, remaining := d.remaining - take, inChunk := false } with hd₂
            have hsize : d₂.phase = .size := by simp [ChunkedDecoder.phase, hd₂, hc]
            have ih := agrees_loop whole n d₂ (out ++ d.buf.take take ++ []) (by simp only [hd₂]; omega)
            rw [hsize] at ih
            simpa [hd₂] using ih
    · rw [if_neg hin]
      have hp : d.phase = .size := by simp [ChunkedDecoder.phase, hc, hin]
      cases heol : find crlf d.buf with
      | none => exact Agrees.waits (phase_ne_failed d) (by rw [hp]; simp [nextChunk, heol]) out
      | some eol =>
        have hle := find_add_le heol
        simp only [crlf, List.length_cons, List.length_nil] at hle
        have hnext : chunkScanner.next .size d.buf =
            some ([], .ofSize (chunkSize? (d.buf.take eol)), d.buf.drop (eol + 2)) := by
          simp [chunkScanner, nextChunk, heol]
        rw [hp, Scanner.run_of_some hnext]
        refine Agrees.prepend ?_
        rw [List.append_nil]
        simp only
        cases hs : chunkSize? (d.buf.take eol) with
        | none =>
          rw [Phase.ofSize, run_of_absorbing (Or.inr rfl)]
          simp [Agrees, malformedChunk]
        | some size =>
          cases size with
          | zero =>
            rw [Phase.ofSize, run_of_absorbing (Or.inl rfl)]
            simp [Agrees, ChunkedDecoder.phase]
          | succ size =>
            have hdata : ChunkedDecoder.phase
                { d with buf := d.buf.drop (eol + 2), remaining := size + 1, inChunk := true } = .data (size + 1) := by
              simp [ChunkedDecoder.phase, hc]
            have ih := agrees_loop whole n
              { d with buf := d.buf.drop (eol + 2), remaining := size + 1, inChunk := true } out
              (by simp only [List.length_drop]; omega)
            rw [hdata] at ih
            simpa [Phase.ofSize] using ih

/-- `Feed` of the decoder is the transducer of its scanner, except that it
fails when the scanner does. -/
theorem ChunkedDecoder.feed_eq (d : ChunkedDecoder) (bytes : List Char) :
    Agrees (chunkScanner.transducer.feed (d.phase, d.buf) bytes) [] (d.feed bytes) :=
  agrees_loop _ _ { d with buf := d.buf ++ bytes } [] (by simp)

end Net
end AgentFlow
