/-
# Reading a stream piece by piece

A transducer is fed the pieces of a stream as they come and gives what becomes
available; that it makes no difference how the stream is cut is its law
(`feed_append`), so it carries it. Two of them in a row are one (`comp`).

Most are made from a scanner, which looks at the front of what is there: it
waits for more, or takes something off. What it takes it must go on taking
when more comes (`stable`). Fed a piece, it takes what it can and keeps the
rest (`Scanner.transducer`).

Key definitions: `Transducer`, `Scanner`, `Scanner.run`.
Key theorems: `Transducer.feeds_eq`, `Scanner.run_append`.
-/
import Mathlib.Data.List.Basic
import Mathlib.Tactic

namespace Incremental

variable {σ τ β γ ω : Type*}

/-! ### Transducers -/

structure Transducer (σ β ω : Type*) where
  feed : σ → List β → List ω × σ
  feed_append : ∀ s a b, feed s (a ++ b) = ((feed s a).1 ++ (feed (feed s a).2 b).1, (feed (feed s a).2 b).2)

namespace Transducer

/-- Gives what it is fed. -/
def echo : Transducer σ β β where
  feed s a := (a, s)
  feed_append _ _ _ := rfl

/-- What the second makes of what the first gives. -/
def comp (T : Transducer σ β γ) (U : Transducer τ γ ω) : Transducer (σ × τ) β ω where
  feed s a := ((U.feed s.2 (T.feed s.1 a).1).1, (T.feed s.1 a).2, (U.feed s.2 (T.feed s.1 a).1).2)
  feed_append s a b := by
    simp only [T.feed_append, U.feed_append]

/-- What comes later adds to the output. -/
theorem isPrefix_feed (T : Transducer σ β ω) (s : σ) {a b : List β} (h : a <+: b) :
    (T.feed s a).1 <+: (T.feed s b).1 := by
  obtain ⟨m, rfl⟩ := h
  rw [T.feed_append]
  exact List.prefix_append _ _

/-- Fed the pieces of a stream one after the other. -/
def feeds (T : Transducer σ β ω) (s : σ) : List (List β) → List ω × σ
  | [] => ([], s)
  | a :: as => ((T.feed s a).1 ++ (T.feeds (T.feed s a).2 as).1, (T.feeds (T.feed s a).2 as).2)

/-- Only what the pieces are together counts. -/
theorem feeds_cons (T : Transducer σ β ω) (s : σ) (a : List β) (as : List (List β)) :
    T.feeds s (a :: as) = T.feed s (a :: as).flatten := by
  induction as generalizing s a with
  | nil => simp [feeds]
  | cons b as ih =>
    have hflat : (a :: b :: as).flatten = a ++ (b :: as).flatten := rfl
    rw [feeds, ih, hflat, T.feed_append]

theorem feeds_eq (T : Transducer σ β ω) {s : σ} (h : T.feed s [] = ([], s)) (as : List (List β)) :
    T.feeds s as = T.feed s as.flatten := by
  cases as with
  | nil => exact h.symm
  | cons a as => exact T.feeds_cons s a as

end Transducer

/-! ### Scanners -/

structure Scanner (σ β ω : Type*) where
  next : σ → List β → Option (List ω × σ × List β)
  shorter : ∀ {s l out s' rest}, next s l = some (out, s', rest) → rest.length < l.length
  stable : ∀ {s l out s' rest} m, next s l = some (out, s', rest) → next s (l ++ m) = some (out, s', rest ++ m)

namespace Scanner

variable (sc : Scanner σ β ω)

/-- Takes what can be taken: the output, the state and what is left. -/
def run (s : σ) (l : List β) : List ω × σ × List β :=
  match h : sc.next s l with
  | none => ([], s, l)
  | some (out, s', rest) =>
    have := sc.shorter h
    (out ++ (run s' rest).1, (run s' rest).2)
termination_by l.length

variable {sc} {s s' : σ} {l rest : List β} {out : List ω}

theorem run_of_none (h : sc.next s l = none) : sc.run s l = ([], s, l) := by
  rw [run]
  split
  · rfl
  · rename_i h'
    simp [h] at h'

theorem run_of_some (h : sc.next s l = some (out, s', rest)) :
    sc.run s l = (out ++ (sc.run s' rest).1, (sc.run s' rest).2) := by
  rw [run]
  split
  · rename_i h'
    simp [h] at h'
  · rename_i h'
    obtain ⟨rfl, rfl, rfl⟩ : _ ∧ _ ∧ _ := by simpa using h.symm.trans h'
    rfl

/-- Stopping on the way changes nothing. -/
theorem run_append (s : σ) (l m : List β) : sc.run s (l ++ m) =
    ((sc.run s l).1 ++ (sc.run (sc.run s l).2.1 ((sc.run s l).2.2 ++ m)).1,
      (sc.run (sc.run s l).2.1 ((sc.run s l).2.2 ++ m)).2) := by
  cases h : sc.next s l with
  | none => rw [run_of_none h, List.nil_append]
  | some r =>
    obtain ⟨out, s', rest⟩ := r
    have := sc.shorter h
    rw [run_of_some (sc.stable m h), run_of_some h, run_append s' rest m, List.append_assoc]
termination_by l.length

/-- What is left is left. -/
theorem run_run (s : σ) (l : List β) :
    sc.run (sc.run s l).2.1 (sc.run s l).2.2 = ([], (sc.run s l).2.1, (sc.run s l).2.2) := by
  have h : sc.run s (l ++ []) = ((sc.run s l).1 ++ (sc.run (sc.run s l).2.1 ((sc.run s l).2.2 ++ [])).1,
      (sc.run (sc.run s l).2.1 ((sc.run s l).2.2 ++ [])).2) := run_append s l []
  rw [List.append_nil, List.append_nil] at h
  have hout : (sc.run (sc.run s l).2.1 (sc.run s l).2.2).1 = [] := List.self_eq_append_right.mp (congrArg Prod.fst h)
  have hend := congrArg Prod.snd h
  exact Prod.ext hout hend.symm

/-- What every step keeps. -/
theorem run_invariant {I : σ → Prop} (hI : ∀ {s l out s' rest}, sc.next s l = some (out, s', rest) → I s → I s')
    {s : σ} {l : List β} (h : I s) : I (sc.run s l).2.1 := by
  cases hn : sc.next s l with
  | none =>
    rw [run_of_none hn]
    exact h
  | some r =>
    obtain ⟨out, s', rest⟩ := r
    have := sc.shorter hn
    rw [run_of_some hn]
    exact run_invariant hI (hI hn h)
termination_by l.length

/-- Fed a piece, the scanner takes what it can and keeps the rest. -/
def transducer (sc : Scanner σ β ω) : Transducer (σ × List β) β ω where
  feed s a := sc.run s.1 (s.2 ++ a)
  feed_append s a b := by
    rw [← List.append_assoc, run_append]

end Scanner

end Incremental
