/-
# A malformed size, and the chunks before it

When a size line is malformed `Feed` drops what it has decoded in this call and
keeps all its bytes, but not where it was in them. So what is delivered before
the error depends on how the stream is cut, unless the malformed line is the
first (`MalformedFirst`): then the decoder has delivered nothing, and never
gets past the line.

Key definitions: `beforeError`, `SplitIndependent`, `MalformedFirst`.
Key theorems: `stuck_feeds`, `splitIndependent_iff_malformedFirst`.
-/
import AgentFlow.Net.Chunks

namespace AgentFlow
namespace Net

open Incremental

/-- What is delivered before the first error. -/
def beforeError : List (Except Status.Error (List Char)) → List Char
  | .ok out :: rs => out ++ beforeError rs
  | _ => []

theorem beforeError_ok : ∀ outs : List (List Char), beforeError (outs.map .ok) = outs.flatten
  | [] => rfl
  | out :: outs => by rw [List.map_cons, beforeError, beforeError_ok outs, List.flatten_cons]

def Fails (xs : List (List Char)) : Prop := ∃ e, .error e ∈ (feeds {} xs).2

/-- However the stream is cut: the same bytes are delivered before an error, the same is reported,
all that comes before a malformed line is delivered, and nothing after the error. -/
structure SplitIndependent (s : List Char) : Prop where
  same : ∀ xs ys : List (List Char), xs.flatten = s → ys.flatten = s →
    beforeError (feeds {} xs).2 = beforeError (feeds {} ys).2 ∧ (Fails xs ↔ Fails ys) ∧
      (feeds {} xs).1.complete = (feeds {} ys).1.complete
  once : ∀ xs : List (List Char), xs.flatten = s → ∀ cs line rest, TakenUpTo none cs line rest s →
    beforeError (feeds {} xs).2 = contentOf cs
  quiet : ∀ xs : List (List Char), xs.flatten = s → ∀ k, (∃ e, .error e ∈ (feeds {} xs).2.take k) →
    ∀ out, .ok out ∈ (feeds {} xs).2.drop k → out = []

/-- No chunk comes before a malformed line. -/
def MalformedFirst (s : List Char) : Prop := ∀ cs line rest, TakenUpTo none cs line rest s → cs = []

/-! ### A malformed line comes first -/

section Stuck

variable {d : ChunkedDecoder} {x : List Char}

theorem feed_waits (hc : d.complete = false) (hi : d.inChunk = false) (h : find crlf (d.buf ++ x) = none) :
    d.feed x = ({ d with buf := d.buf ++ x }, .ok []) := by
  simp [ChunkedDecoder.feed, ChunkedDecoder.loop, hc, hi, h]

theorem feed_stuck (hc : d.complete = false) (hi : d.inChunk = false) {eol : ℕ} (h : find crlf (d.buf ++ x) = some eol)
    (hs : chunkSize? ((d.buf ++ x).take eol) = none) :
    d.feed x = ({ d with buf := d.buf ++ x }, .error malformedChunk) := by
  simp [ChunkedDecoder.feed, ChunkedDecoder.loop, hc, hi, h, hs, malformedChunk]

/-- The decoder stays before the malformed line, whatever it is fed. -/
theorem stuck_feeds {line rest : List Char} (hp : find crlf line = none) (hm : chunkSize? line = none) :
    ∀ (xs : List (List Char)) {d : ChunkedDecoder}, d.complete = false → d.inChunk = false →
      d.buf ++ xs.flatten = line ++ crlf ++ rest →
      (∀ r ∈ (feeds d xs).2, r = .ok [] ∨ r = .error malformedChunk) ∧ (feeds d xs).1.complete = false
  | [], _, hc, _, _ => ⟨by simp [feeds], hc⟩
  | x :: xs, d, hc, hi, hs => by
    have hfeed : ∃ r, d.feed x = ({ d with buf := d.buf ++ x }, r) ∧ (r = .ok [] ∨ r = .error malformedChunk) := by
      cases hf : find crlf (d.buf ++ x) with
      | none => exact ⟨_, feed_waits hc hi hf, Or.inl rfl⟩
      | some eol =>
        have hwhole : d.buf ++ x ++ xs.flatten = line ++ crlf ++ rest := by
          rw [← hs, List.flatten_cons, List.append_assoc]
        -- the line end that is found is that of the malformed line
        have heol := find_append xs.flatten hf
        rw [hwhole, find_line hp] at heol
        obtain rfl := Option.some.inj heol
        have htake : (d.buf ++ x).take line.length = line := by
          have := congrArg (List.take line.length) hwhole
          rwa [List.take_append_of_le_length (by have := find_add_le hf; omega), List.append_assoc, List.take_left] at this
        exact ⟨_, feed_stuck hc hi hf (htake.symm ▸ hm), Or.inr rfl⟩
    obtain ⟨r, hr, hcases⟩ := hfeed
    have ih := stuck_feeds hp hm xs (d := { d with buf := d.buf ++ x }) hc hi (by
      rw [← hs, List.flatten_cons, List.append_assoc])
    rw [feeds, hr, List.forall_mem_cons]
    exact ⟨⟨hcases, ih.1⟩, ih.2⟩

end Stuck

theorem beforeError_of_empty : ∀ {rs : List (Except Status.Error (List Char))},
    (∀ r ∈ rs, r = .ok [] ∨ r = .error malformedChunk) → beforeError rs = []
  | [], _ => rfl
  | r :: rs, h => by
    rcases h r List.mem_cons_self with rfl | rfl
    · rw [beforeError, List.nil_append, beforeError_of_empty fun r hr => h r (List.mem_cons_of_mem _ hr)]
    · rfl

/-! ### The two kinds of streams -/

theorem splitIndependent_of_not_failed {s : List Char} (h : (chunkScanner.run .size s).2.1 ≠ .failed) :
    SplitIndependent s := by
  have hfeeds : ∀ xs : List (List Char), xs.flatten = s → ∃ outs : List (List Char),
      (feeds {} xs).2 = outs.map .ok ∧ outs.flatten = (chunkScanner.run .size s).1 ∧
        (feeds {} xs).1.phase = (chunkScanner.run .size s).2.1 := by
    rintro xs rfl
    obtain ⟨outs, houts, hflat, hstate⟩ := feeds_of_not_failed xs idle_start h
    exact ⟨outs, houts, hflat, congrArg Prod.fst hstate⟩
  have hno : ∀ xs : List (List Char), xs.flatten = s → ∀ e, .error e ∉ (feeds {} xs).2 := by
    intro xs hxs e he
    obtain ⟨outs, houts, -⟩ := hfeeds xs hxs
    rw [houts] at he
    obtain ⟨out, -, heq⟩ := List.mem_map.mp he
    cases heq
  refine ⟨fun xs ys hxs hys => ?_, fun xs hxs cs line rest ht => ?_, fun xs hxs k hk => ?_⟩
  · obtain ⟨outs, houts, hflat, hphase⟩ := hfeeds xs hxs
    obtain ⟨outs', houts', hflat', hphase'⟩ := hfeeds ys hys
    refine ⟨?_, iff_of_false (fun ⟨e, he⟩ => hno xs hxs e he) (fun ⟨e, he⟩ => hno ys hys e he), ?_⟩
    · rw [houts, houts', beforeError_ok, beforeError_ok, hflat, hflat']
    · rw [Bool.eq_iff_iff, ← phase_complete_iff, ← phase_complete_iff, hphase, hphase']
  · exact absurd (failed_iff.mpr ⟨cs, line, rest, ht⟩) h
  · obtain ⟨e, he⟩ := hk
    exact absurd (List.mem_of_mem_take he) (hno xs hxs e)

theorem splitIndependent_of_first {s line rest : List Char} (h : TakenUpTo none [] line rest s) :
    SplitIndependent s := by
  have hfailed : (chunkScanner.run .size s).2.1 = .failed := failed_iff.mpr ⟨[], line, rest, h⟩
  obtain ⟨hs, hp, hm⟩ := h
  have hfeeds : ∀ xs : List (List Char), xs.flatten = s →
      (∀ r ∈ (feeds {} xs).2, r = .ok [] ∨ r = .error malformedChunk) ∧ (feeds {} xs).1.complete = false :=
    fun xs hxs => stuck_feeds hp hm xs rfl rfl (hxs.trans hs)
  have hfails : ∀ xs : List (List Char), xs.flatten = s → Fails xs := by
    rintro xs rfl
    exact ⟨malformedChunk, exists_error xs idle_start hfailed⟩
  refine ⟨fun xs ys hxs hys => ?_, fun xs hxs cs line' rest' ht => ?_, fun xs hxs k _ out hout => ?_⟩
  · refine ⟨?_, iff_of_true (hfails xs hxs) (hfails ys hys), (hfeeds xs hxs).2.trans (hfeeds ys hys).2.symm⟩
    rw [beforeError_of_empty (hfeeds xs hxs).1, beforeError_of_empty (hfeeds ys hys).1]
  · rw [beforeError_of_empty (hfeeds xs hxs).1]
    have hrun : chunkScanner.run .size s = (contentOf [], .ofSize none, rest) :=
      TakenUpTo.run ⟨hs, hp, hm⟩ (Or.inl rfl)
    exact congrArg Prod.fst (hrun.symm.trans (ht.run (Or.inl rfl)))
  · rcases (hfeeds xs hxs).1 _ (List.mem_of_mem_drop hout) with heq | heq
    · exact Except.ok.inj heq
    · cases heq

/-- **When errors do not depend on the split.** -/
theorem splitIndependent_iff_malformedFirst (s : List Char) : SplitIndependent s ↔ MalformedFirst s := by
  constructor
  · intro h cs line rest ht
    have hfailed : (chunkScanner.run .size s).2.1 = .failed := failed_iff.mpr ⟨cs, line, rest, ht⟩
    -- in one piece the chunks are lost
    have hone : (feeds {} [s]).2 = [.error malformedChunk] := by
      rw [feeds, feed_error_of_run (d := {}) hfailed]
      rfl
    have hcontent := h.once [s] List.flatten_singleton cs line rest ht
    have hnothing : beforeError [.error malformedChunk] = [] := rfl
    rw [hone, hnothing] at hcontent
    cases cs with
    | nil => rfl
    | cons c cs =>
      rw [contentOf, List.flatMap_cons] at hcontent
      exact absurd (List.append_eq_nil_iff.mp hcontent.symm).1 c.nonempty
  · intro h
    by_cases hfailed : (chunkScanner.run .size s).2.1 = .failed
    · obtain ⟨cs, line, rest, ht⟩ := failed_iff.mp hfailed
      obtain rfl := h cs line rest ht
      exact splitIndependent_of_first ht
    · exact splitIndependent_of_not_failed hfailed

/-- A chunk, and a line without a size. -/
def chunkThenMalformed : List Char := "3\r\nabc\r\nsize\r\n".toList

/-- The chunk is delivered if it comes alone, and lost if it comes with the line. -/
theorem not_splitIndependent_chunk : ¬ SplitIndependent chunkThenMalformed := by
  intro h
  have hsame := (h.same [chunkThenMalformed] ["3\r\nabc\r\n".toList, "size\r\n".toList] (by decide) (by decide)).1
  exact absurd hsame (by decide +kernel)

end Net
end AgentFlow
