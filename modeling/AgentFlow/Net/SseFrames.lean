/-
# The frames of an event stream

However the bytes of a stream are cut into pieces, the framer delivers the same
payloads and sees the same `[DONE]`: its `Feed` is a transducer
(`SseFramer.feed_eq`), and `Flush` only looks at what is left.

What both framers do is said by the field blocks of the stream, the bytes
before each blank line, and by what comes after the last one.

Key definitions: `SseFramer.read`, `blocks`, `rest`.
Key theorems: `read_eq_of_flatten_eq`, `SseFramer.feed_payloads`.
-/
import AgentFlow.Net.Framing

namespace AgentFlow
namespace Net

open Incremental

variable {l m : List Char}

namespace SseFramer

/-- `Feed` for each piece of a stream. -/
def feeds (f : SseFramer) : List (List Char) → SseFramer × List (List Char)
  | [] => (f, [])
  | bytes :: pieces =>
    let r := f.feed bytes
    let rs := r.1.feeds pieces
    (rs.1, r.2 ++ rs.2)

/-- A stream that is read to its end: all the payloads, and `saw_done`. -/
def read (pieces : List (List Char)) : List (List Char) × Bool :=
  let r := feeds {} pieces
  let last := r.1.flush
  (r.2 ++ last.2, last.1.sawDone)

theorem feeds_eq (f : SseFramer) (pieces : List (List Char)) :
    f.feeds pieces = (⟨(frameScanner.transducer.feeds (f.sawDone, f.buf) pieces).2.2,
        (frameScanner.transducer.feeds (f.sawDone, f.buf) pieces).2.1⟩,
      (frameScanner.transducer.feeds (f.sawDone, f.buf) pieces).1) := by
  induction pieces generalizing f with
  | nil => rfl
  | cons bytes pieces ih =>
    rw [feeds, feed_eq]
    simp only
    rw [ih]
    rfl

theorem feeds_start (pieces : List (List Char)) : feeds {} pieces = feed {} pieces.flatten := by
  have hstart : frameScanner.transducer.feed (false, []) [] = ([], (false, [])) := Scanner.run_of_none rfl
  rw [feeds_eq, feed_eq, Transducer.feeds_eq _ hstart]

end SseFramer

/-- **How a stream is cut makes no difference to what is read of it.** -/
theorem read_eq_of_flatten_eq {pieces pieces' : List (List Char)} (h : pieces.flatten = pieces'.flatten) :
    SseFramer.read pieces = SseFramer.read pieces' := by
  unfold SseFramer.read
  rw [SseFramer.feeds_start, SseFramer.feeds_start, h]

theorem read_eq_of_flatten_eq_crlf :
    SseFramer.read ["data: a\r\n\r".toList, "\n".toList, "data: [DONE]\n\n".toList] =
      SseFramer.read ["data: a\r\n\r\ndata: [DONE]\n\n".toList] :=
  read_eq_of_flatten_eq (by decide)

/-! ### Field blocks -/

/-- Takes the first field block off the buffer, and the blank line after it. -/
def blockScanner : Scanner Unit Char (List Char) where
  next _ buf := (frameEnd? buf).map fun r => ([buf.take r.1], (), buf.drop (r.1 + r.2))
  shorter h := shorter_of_frame (a := fun block => [block]) (b := fun _ => ()) h
  stable m h := stable_of_frame (a := fun block => [block]) (b := fun _ => ()) m h

/-- The field blocks of the frames that are complete. -/
def blocks (l : List Char) : List (List Char) := (blockScanner.run () l).1

/-- What comes after the last blank line. -/
def rest (l : List Char) : List Char := (blockScanner.run () l).2.2

theorem run_of_frameEnd?_eq_none (h : frameEnd? l = none) : blocks l = [] ∧ rest l = l := by
  have hnext : blockScanner.next () l = none := by simp [blockScanner, h]
  unfold blocks rest
  rw [Scanner.run_of_none hnext]
  exact ⟨rfl, rfl⟩

theorem run_of_frameEnd?_eq_some {stop sepLen : ℕ} (h : frameEnd? l = some (stop, sepLen)) :
    blocks l = l.take stop :: blocks (l.drop (stop + sepLen)) ∧ rest l = rest (l.drop (stop + sepLen)) := by
  have hnext : blockScanner.next () l = some ([l.take stop], (), l.drop (stop + sepLen)) := by
    simp [blockScanner, h]
  unfold blocks rest
  rw [Scanner.run_of_some hnext]
  exact ⟨rfl, rfl⟩

theorem blocks_append (l m : List Char) : blocks (l ++ m) = blocks l ++ blocks (rest l ++ m) :=
  congrArg Prod.fst (Scanner.run_append () l m)

theorem rest_append (l m : List Char) : rest (l ++ m) = rest (rest l ++ m) := by
  have h : blockScanner.run () (l ++ m) = _ := Scanner.run_append () l m
  exact congrArg (fun r => r.2.2) h

/-- No blank line is left. -/
theorem frameEnd?_rest (l : List Char) : frameEnd? (rest l) = none := by
  cases h : frameEnd? l with
  | none => rw [(run_of_frameEnd?_eq_none h).2, h]
  | some r =>
    obtain ⟨stop, sepLen⟩ := r
    obtain ⟨hpos, hle⟩ := frameEnd?_add_le h
    rw [(run_of_frameEnd?_eq_some h).2]
    exact frameEnd?_rest _
termination_by l.length
decreasing_by rw [List.length_drop]; omega

/-- The framer by field blocks. -/
theorem frameScanner_run (sawDone : Bool) (l : List Char) :
    frameScanner.run sawDone l = ((blocks l).flatMap fun b => delivered (framePayload b),
      sawDone || (blocks l).any fun b => framePayload b = done, rest l) := by
  cases h : frameEnd? l with
  | none =>
    have hnext : frameScanner.next sawDone l = none := by simp [frameScanner, h]
    rw [Scanner.run_of_none hnext, (run_of_frameEnd?_eq_none h).1, (run_of_frameEnd?_eq_none h).2]
    simp
  | some r =>
    obtain ⟨stop, sepLen⟩ := r
    obtain ⟨hpos, hle⟩ := frameEnd?_add_le h
    have hnext : frameScanner.next sawDone l = some (delivered (framePayload (l.take stop)),
        sawDone || framePayload (l.take stop) = done, l.drop (stop + sepLen)) := by
      simp [frameScanner, h]
    rw [Scanner.run_of_some hnext, frameScanner_run, (run_of_frameEnd?_eq_some h).1, (run_of_frameEnd?_eq_some h).2]
    simp [Bool.or_assoc]
termination_by l.length
decreasing_by rw [List.length_drop]; omega

/-- A stream is read by its field blocks. -/
theorem SseFramer.feed_payloads (bytes : List Char) :
    (SseFramer.feed {} bytes).2 = (blocks bytes).flatMap fun b => delivered (framePayload b) := by
  rw [feed_eq]
  exact congrArg Prod.fst (frameScanner_run false _)

theorem SseFramer.feeds_payloads (pieces : List (List Char)) :
    (SseFramer.feeds {} pieces).2 = (blocks pieces.flatten).flatMap fun b => delivered (framePayload b) := by
  rw [feeds_start, feed_payloads]

end Net
end AgentFlow
