/-
# Chunked bodies, fed piece by piece

A stream is fed to the `ChunkedDecoder` in pieces (`feeds`). As the decoder is
a scanner, the pieces give what the stream gives, up to the first that fails
(`feeds_of_not_failed`). What the scanner takes from the front of a stream are
chunks (`Taken`): a line that starts with a size, that many bytes, and any two
bytes. A stream is read to its end if and only if chunks and a line with size
zero are at its front (`complete_iff`).

The encodings of a list of bodies (`encode`) are of this kind, so they are
undone however they are cut.

Key definitions: `feeds`, `Taken`, `Coding`, `CodedBody`, `encode`.
Key theorems: `run_taken`, `complete_iff`, `failed_iff`, `feeds_encode`.
-/
import AgentFlow.Net.Framing

namespace AgentFlow
namespace Net

open Incremental

/-! ### Feeding pieces -/

/-- `Feed` of each piece in turn, whatever the ones before returned. -/
def feeds : ChunkedDecoder → List (List Char) → ChunkedDecoder × List (Except Status.Error (List Char))
  | d, [] => (d, [])
  | d, x :: xs => ((feeds (d.feed x).1 xs).1, (d.feed x).2 :: (feeds (d.feed x).1 xs).2)

theorem feeds_append : ∀ (d : ChunkedDecoder) (xs ys : List (List Char)),
    feeds d (xs ++ ys) = ((feeds (feeds d xs).1 ys).1, (feeds d xs).2 ++ (feeds (feeds d xs).1 ys).2)
  | _, [], _ => rfl
  | d, x :: xs, ys => by
    rw [List.cons_append, feeds, feeds_append (d.feed x).1 xs ys, feeds]
    rfl

theorem length_feeds : ∀ (d : ChunkedDecoder) (xs : List (List Char)), (feeds d xs).2.length = xs.length
  | _, [] => rfl
  | d, x :: xs => by rw [feeds, List.length_cons, List.length_cons, length_feeds]

/-- What remains of the results after the first pieces. -/
theorem drop_feeds (d : ChunkedDecoder) (xs : List (List Char)) (k : ℕ) :
    (feeds d xs).2.drop k = (feeds (feeds d (xs.take k)).1 (xs.drop k)).2 := by
  by_cases hk : k ≤ xs.length
  · have hsplit := congrArg (fun r => r.2.drop k) (feeds_append d (xs.take k) (xs.drop k))
    have hlen : (feeds d (xs.take k)).2.length = k := by
      rw [length_feeds, List.length_take]
      omega
    simp only [List.take_append_drop] at hsplit
    rw [hsplit, List.drop_append_of_le_length hlen.ge, List.drop_of_length_le hlen.le, List.nil_append]
  · rw [List.drop_of_length_le (by rw [length_feeds]; omega), List.drop_of_length_le (l := xs) (by omega)]
    rfl

/-- Once it is complete, the decoder keeps what it is fed. -/
theorem feeds_of_complete : ∀ (xs : List (List Char)) {d : ChunkedDecoder}, d.complete = true →
    ∀ r ∈ (feeds d xs).2, r = .ok []
  | [], _, _ => by simp [feeds]
  | x :: xs, d, h => by
    have hfeed : d.feed x = ({ d with buf := d.buf ++ x }, .ok []) := by
      simp [ChunkedDecoder.feed, ChunkedDecoder.loop, h]
    rw [feeds, hfeed, List.forall_mem_cons]
    exact ⟨rfl, feeds_of_complete xs h⟩

/-- The scanner takes nothing from what the decoder keeps. -/
def Idle (d : ChunkedDecoder) : Prop := chunkScanner.run d.phase d.buf = ([], d.phase, d.buf)

theorem idle_start : Idle {} := Scanner.run_of_none rfl

theorem phase_complete_iff {d : ChunkedDecoder} : d.phase = .complete ↔ d.complete = true := by
  unfold ChunkedDecoder.phase
  split_ifs with h1 h2
  · simp [h1]
  · simp [h1]
  · simp [h1]

/-- More bytes change neither the failure nor the completion of the scanner. -/
theorem run_append_of_absorbing {p p' : Phase} {l : List Char} (hp : p' = .complete ∨ p' = .failed)
    (h : (chunkScanner.run p l).2.1 = p') (m : List Char) :
    (chunkScanner.run p (l ++ m)).1 = (chunkScanner.run p l).1 ∧
      (chunkScanner.run p (l ++ m)).2 = (p', (chunkScanner.run p l).2.2 ++ m) := by
  rw [Scanner.run_append, h, run_of_absorbing hp, List.append_nil]
  exact ⟨rfl, rfl⟩

/-- One piece on which the scanner does not fail. -/
theorem feed_ok_of_run {d : ChunkedDecoder} {x : List Char}
    (h : (chunkScanner.run d.phase (d.buf ++ x)).2.1 ≠ .failed) :
    (d.feed x).2 = .ok (chunkScanner.run d.phase (d.buf ++ x)).1 ∧
      ((d.feed x).1.phase, (d.feed x).1.buf) = (chunkScanner.run d.phase (d.buf ++ x)).2 ∧ Idle (d.feed x).1 := by
  have hagrees : Agrees (chunkScanner.run d.phase (d.buf ++ x)) [] (d.feed x) := d.feed_eq x
  unfold Agrees at hagrees
  rw [if_neg h, List.nil_append] at hagrees
  obtain ⟨hout, hstate⟩ := hagrees
  have hphase : (d.feed x).1.phase = (chunkScanner.run d.phase (d.buf ++ x)).2.1 := congrArg Prod.fst hstate
  have hbuf : (d.feed x).1.buf = (chunkScanner.run d.phase (d.buf ++ x)).2.2 := congrArg Prod.snd hstate
  refine ⟨hout, hstate, ?_⟩
  rw [Idle, hphase, hbuf, Scanner.run_run]

/-- One piece on which it fails. -/
theorem feed_error_of_run {d : ChunkedDecoder} {x : List Char}
    (h : (chunkScanner.run d.phase (d.buf ++ x)).2.1 = .failed) : (d.feed x).2 = .error malformedChunk := by
  have hagrees : Agrees (chunkScanner.run d.phase (d.buf ++ x)) [] (d.feed x) := d.feed_eq x
  unfold Agrees at hagrees
  rwa [if_pos h] at hagrees

/-- **The pieces give what the stream gives**, if the scanner does not fail on it. -/
theorem feeds_of_not_failed : ∀ (xs : List (List Char)) {d : ChunkedDecoder}, Idle d →
    (chunkScanner.run d.phase (d.buf ++ xs.flatten)).2.1 ≠ .failed →
    ∃ outs : List (List Char), (feeds d xs).2 = outs.map .ok ∧
      outs.flatten = (chunkScanner.run d.phase (d.buf ++ xs.flatten)).1 ∧
      ((feeds d xs).1.phase, (feeds d xs).1.buf) = (chunkScanner.run d.phase (d.buf ++ xs.flatten)).2
  | [], d, hd, _ => by
    rw [List.flatten_nil, List.append_nil, hd]
    exact ⟨[], rfl, rfl, rfl⟩
  | x :: xs, d, _, h => by
    rw [List.flatten_cons, ← List.append_assoc] at h ⊢
    have hx : (chunkScanner.run d.phase (d.buf ++ x)).2.1 ≠ .failed := fun hf =>
      h (congrArg Prod.fst (run_append_of_absorbing (Or.inr rfl) hf xs.flatten).2)
    obtain ⟨hout, hstate, hidle⟩ := feed_ok_of_run hx
    rw [Scanner.run_append, ← hstate] at h ⊢
    obtain ⟨outs, houts, hflat, hend⟩ := feeds_of_not_failed xs hidle h
    refine ⟨(chunkScanner.run d.phase (d.buf ++ x)).1 :: outs, ?_, ?_, hend⟩
    · rw [feeds, hout, houts]
      rfl
    · rw [List.flatten_cons, hflat]

/-- Some piece fails, if the scanner does. -/
theorem exists_error : ∀ (xs : List (List Char)) {d : ChunkedDecoder}, Idle d →
    (chunkScanner.run d.phase (d.buf ++ xs.flatten)).2.1 = .failed → .error malformedChunk ∈ (feeds d xs).2
  | [], d, hd, h => by
    rw [List.flatten_nil, List.append_nil, hd] at h
    exact absurd h (phase_ne_failed d)
  | x :: xs, d, _, h => by
    rw [feeds]
    by_cases hx : (chunkScanner.run d.phase (d.buf ++ x)).2.1 = .failed
    · rw [feed_error_of_run hx]
      exact List.mem_cons_self
    · obtain ⟨-, hstate, hidle⟩ := feed_ok_of_run hx
      rw [List.flatten_cons, ← List.append_assoc, Scanner.run_append, ← hstate] at h
      exact List.mem_cons_of_mem _ (exists_error xs hidle h)

/-! ### What the scanner takes -/

/-- A chunk as the scanner takes it: the line has the size of the body, and two bytes follow. -/
structure Taken where
  line : List Char
  body : List Char
  separator : List Char
  plain : find crlf line = none
  size : chunkSize? line = some body.length
  nonempty : body ≠ []
  two : separator.length = 2

def Taken.bytes (c : Taken) : List Char := c.line ++ crlf ++ (c.body ++ c.separator)

/-- The bytes of several chunks, and what is in them. -/
def bytesOf (cs : List Taken) : List Char := cs.flatMap Taken.bytes

def contentOf (cs : List Taken) : List Char := cs.flatMap Taken.body

theorem bytesOf_cons_append (c : Taken) (cs : List Taken) (r : List Char) :
    bytesOf (c :: cs) ++ r = c.line ++ crlf ++ (c.body ++ (c.separator ++ (bytesOf cs ++ r))) := by
  simp only [bytesOf, List.flatMap_cons, Taken.bytes, List.append_assoc]

/-- The line ends at the first line end. -/
theorem find_line {line : List Char} (h : find crlf line = none) (rest : List Char) :
    find crlf (line ++ crlf ++ rest) = some line.length := by
  refine find_eq_some_iff.mpr ⟨by simp, ?_, fun j hj hp => ?_⟩
  · rw [List.append_assoc, List.drop_left]
    exact List.prefix_append _ _
  · by_cases hj' : j + 2 ≤ line.length
    · rw [List.append_assoc] at hp
      exact find_eq_none_iff.mp h j (by omega) ((prefix_drop_append hj').mp hp)
    · -- the line end would begin with the last byte of the line
      have hfeed : (line ++ crlf ++ rest)[j + 1]? = some '\n' := getElem?_of_prefix_drop hp rfl
      have hlast : j + 1 = line.length := by omega
      rw [List.append_assoc, hlast, List.getElem?_append_right le_rfl, Nat.sub_self] at hfeed
      cases hfeed

/-- A size line is taken off. -/
theorem run_line {line : List Char} (h : find crlf line = none) (rest : List Char) :
    chunkScanner.run .size (line ++ crlf ++ rest) = chunkScanner.run (.ofSize (chunkSize? line)) rest := by
  have hnext : chunkScanner.next .size (line ++ crlf ++ rest) = some ([], .ofSize (chunkSize? line), rest) := by
    have htake : (line ++ crlf ++ rest).take line.length = line := by rw [List.append_assoc, List.take_left]
    have hdrop : (line ++ crlf ++ rest).drop (line.length + 2) = rest := by
      have : line.length + 2 = (line ++ crlf).length := by simp [crlf]
      rw [this, List.drop_left]
    change (find crlf (line ++ crlf ++ rest)).map _ = _
    rw [find_line h, Option.map_some, htake, hdrop]
  rw [Scanner.run_of_some hnext, List.nil_append]

/-- A body is taken off, and the two bytes after it. -/
theorem run_body {body separator : List Char} (h : separator.length = 2) (rest : List Char) :
    chunkScanner.run (.data body.length) (body ++ separator ++ rest) =
      (body ++ (chunkScanner.run .size rest).1, (chunkScanner.run .size rest).2) := by
  obtain ⟨c, c', rfl⟩ := List.length_eq_two.mp h
  have hmin : min (body ++ [c, c'] ++ rest).length body.length = body.length := by
    rw [List.append_assoc, List.length_append]
    omega
  have hnext : chunkScanner.next (.data 0) (c :: c' :: rest) = some ([], .size, rest) := rfl
  rw [run_data, hmin, Nat.sub_self, List.append_assoc, List.take_left, List.drop_left, List.cons_append, List.cons_append,
    List.nil_append, Scanner.run_of_some hnext, List.nil_append]

/-- **A chunk is taken off.** -/
theorem run_taken (c : Taken) (rest : List Char) : chunkScanner.run .size (c.bytes ++ rest) =
    (c.body ++ (chunkScanner.run .size rest).1, (chunkScanner.run .size rest).2) := by
  have hsize : Phase.ofSize (chunkSize? c.line) = .data c.body.length := by
    rw [c.size]
    cases hb : c.body with
    | nil => exact absurd hb c.nonempty
    | cons b body => rfl
  rw [Taken.bytes, List.append_assoc (c.line ++ crlf), run_line c.plain, hsize, run_body c.two]

theorem run_bytesOf : ∀ (cs : List Taken) (rest : List Char), chunkScanner.run .size (bytesOf cs ++ rest) =
    (contentOf cs ++ (chunkScanner.run .size rest).1, (chunkScanner.run .size rest).2)
  | [], rest => rfl
  | c :: cs, rest => by
    rw [bytesOf, List.flatMap_cons, List.append_assoc, run_taken, ← bytesOf, run_bytesOf cs rest, contentOf, contentOf,
      List.flatMap_cons, List.append_assoc]

/-- Chunks at the front, then a line that the scanner takes for the size `n`, or for none. -/
def TakenUpTo (n : Option ℕ) (cs : List Taken) (line rest s : List Char) : Prop :=
  s = bytesOf cs ++ (line ++ crlf ++ rest) ∧ find crlf line = none ∧ chunkSize? line = n

theorem TakenUpTo.run {n : Option ℕ} {cs : List Taken} {line rest s : List Char} (h : TakenUpTo n cs line rest s)
    (hn : n = none ∨ n = some 0) : chunkScanner.run .size s = (contentOf cs, .ofSize n, rest) := by
  obtain ⟨rfl, hplain, rfl⟩ := h
  rw [run_bytesOf, run_line hplain]
  rcases hn with hn | hn <;> rw [hn, Phase.ofSize, run_of_absorbing (by simp), List.append_nil]

/-- Cut at the first line end. -/
theorem eq_line_of_find {s : List Char} {eol : ℕ} (h : find crlf s = some eol) :
    s = s.take eol ++ crlf ++ s.drop (eol + 2) ∧ find crlf (s.take eol) = none := by
  obtain ⟨hle, hp, hmin⟩ := find_eq_some_iff.mp h
  constructor
  · obtain ⟨rest, hrest⟩ := hp
    have hdrop : s.drop (eol + 2) = rest := by
      rw [← List.drop_drop, ← hrest]
      rfl
    rw [hdrop, List.append_assoc, hrest, List.take_append_drop]
  · refine find_eq_none_iff.mpr fun j hj hp => ?_
    have hlen := hp.length_le
    simp only [List.length_drop, List.length_take, crlf, List.length_cons, List.length_nil] at hj hlen
    refine hmin j (by omega) (hp.trans ?_)
    rw [List.drop_take]
    exact List.take_prefix _ _

/-- Cut after a body and two more bytes. -/
theorem eq_body_of_length {s : List Char} {n : ℕ} (h : n + 2 ≤ s.length) :
    ∃ body separator rest, s = body ++ separator ++ rest ∧ body.length = n ∧ separator.length = 2 :=
  ⟨s.take n, (s.drop n).take 2, (s.drop n).drop 2, by rw [List.append_assoc, List.take_append_drop, List.take_append_drop],
    by rw [List.length_take]; omega, by rw [List.length_take, List.length_drop]; omega⟩

/-- A body that is not all there, or not with the two bytes after it. -/
theorem run_short_body {n : ℕ} {s : List Char} (h : s.length < n + 2) :
    ∃ k, (chunkScanner.run (.data n) s).2.1 = .data k := by
  rw [run_data]
  by_cases hn : s.length < n
  · have hwait : chunkScanner.next (.data (n - min s.length n)) (s.drop (min s.length n)) = none := by
      rw [List.drop_of_length_le (by omega)]
      cases n - min s.length n <;> rfl
    exact ⟨_, by rw [Scanner.run_of_none hwait]⟩
  · have hwait : chunkScanner.next (.data (n - min s.length n)) (s.drop (min s.length n)) = none := by
      rw [show n - min s.length n = 0 by omega]
      have hlen : (s.drop (min s.length n)).length < 2 := by
        rw [List.length_drop]
        omega
      cases hd : s.drop (min s.length n) with
      | nil => rfl
      | cons c rest =>
        rw [hd] at hlen
        cases rest with
        | nil => rfl
        | cons c' rest => simp at hlen
    exact ⟨_, by rw [Scanner.run_of_none hwait]⟩

/-- **The scanner ends only past chunks and a line that ends them.** -/
theorem exists_takenUpTo {s : List Char} {n : Option ℕ} (hn : n = none ∨ n = some 0)
    (h : (chunkScanner.run .size s).2.1 = .ofSize n) : ∃ cs line rest, TakenUpTo n cs line rest s := by
  induction hlen : s.length using Nat.strong_induction_on generalizing s with
  | _ len ih =>
    have hne : Phase.size ≠ .ofSize n ∧ ∀ k, Phase.data k ≠ .ofSize n := by
      rcases hn with rfl | rfl
      · exact ⟨nofun, nofun⟩
      · exact ⟨nofun, nofun⟩
    cases hf : find crlf s with
    | none =>
      have hwait : chunkScanner.next .size s = none := by
        change (find crlf s).map _ = none
        rw [hf, Option.map_none]
      rw [Scanner.run_of_none hwait] at h
      exact absurd h hne.1
    | some eol =>
      obtain ⟨hs, hplain⟩ := eq_line_of_find hf
      have hrun := run_line hplain (s.drop (eol + 2))
      rw [← hs] at hrun
      rw [hrun] at h
      cases hsize : chunkSize? (s.take eol) with
      | none =>
        rw [hsize, Phase.ofSize, run_of_absorbing (Or.inr rfl)] at h
        rcases hn with rfl | rfl
        · exact ⟨[], s.take eol, s.drop (eol + 2), hs, hplain, hsize⟩
        · cases h
      | some size =>
        rw [hsize] at h
        cases size with
        | zero =>
          rw [Phase.ofSize, run_of_absorbing (Or.inl rfl)] at h
          rcases hn with rfl | rfl
          · cases h
          · exact ⟨[], s.take eol, s.drop (eol + 2), hs, hplain, hsize⟩
        | succ size =>
          rw [Phase.ofSize] at h
          by_cases hshort : (s.drop (eol + 2)).length < size + 1 + 2
          · obtain ⟨k, hk⟩ := run_short_body hshort
            exact absurd (hk.symm.trans h) (hne.2 k)
          obtain ⟨body, separator, rest, hbody, hbl, htwo⟩ := eq_body_of_length (not_lt.mp hshort)
          rw [hbody, ← hbl, run_body htwo] at h
          have hlt : rest.length < len := by
            have := congrArg List.length hbody
            simp only [List.length_drop, List.length_append] at this
            omega
          obtain ⟨cs, line, rest', htail, hline⟩ := ih rest.length hlt h rfl
          have hne : body ≠ [] := by
            rintro rfl
            cases hbl
          refine ⟨⟨s.take eol, body, separator, hplain, hbl ▸ hsize, hne, htwo⟩ :: cs, line, rest', ?_, hline⟩
          rw [bytesOf_cons_append, ← htail, ← List.append_assoc body, ← hbody]
          exact hs

theorem complete_iff {s : List Char} : (chunkScanner.run .size s).2.1 = .complete ↔
    ∃ cs line rest, TakenUpTo (some 0) cs line rest s :=
  ⟨exists_takenUpTo (Or.inr rfl), fun ⟨_, _, _, h⟩ => by rw [h.run (Or.inr rfl)]; rfl⟩

theorem failed_iff {s : List Char} : (chunkScanner.run .size s).2.1 = .failed ↔
    ∃ cs line rest, TakenUpTo none cs line rest s :=
  ⟨exists_takenUpTo (Or.inl rfl), fun ⟨_, _, _, h⟩ => by rw [h.run (Or.inl rfl)]; rfl⟩

end Net
end AgentFlow
