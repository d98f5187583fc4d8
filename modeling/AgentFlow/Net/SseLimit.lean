/-
# The limit of the event framer

A frame is too long if its field block has more than 65536 bytes. The framer
looks at the field block if the blank line after it is there, and else at all
it has; the bytes of a blank line that has only begun are among them. So it
makes a difference where the reads end: what is read of a stream depends on
the stream alone as long as no read ends within a blank line that takes the
frame over the limit (`read_iff_clear`), and not in general (`not_read_of_cut`).

Key definitions: `SseEventFramer.read`, `begun`, `TooLong`, `Clear`.
Key theorems: `read_iff_clear`.
-/
import Mathlib.Data.List.TakeWhile
import AgentFlow.Net.SseFrames

namespace AgentFlow
namespace Net

variable {l m : List Char}

/-- The event of a field block, if it is delivered. -/
def eventOf (block : List Char) : List SseEvent :=
  let (ev, hasData) := (frameLines block.length block).foldl addField ({}, false)
  if hasData || ev.id.isSome || ev.retryMs.isSome then [ev] else []

/-- A field block within the limit. -/
def short (block : List Char) : Bool := block.length ≤ 65536

/-! ### A blank line that has begun -/

/-- What a blank line may begin with, the longest first. -/
def openings : List (List Char) := ["\r\n\r".toList, "\r\n".toList, "\r".toList, "\n".toList]

/-- How many bytes at the end of the buffer may be the beginning of a blank
line. -/
def begun (buf : List Char) : ℕ := (openings.find? fun o => o.isSuffixOf buf).elim 0 List.length

theorem begun_eq (buf : List Char) : begun buf = 0 ∨ ∃ o ∈ openings, o <:+ buf ∧ o.length = begun buf := by
  unfold begun
  cases h : openings.find? fun o => o.isSuffixOf buf with
  | none => exact Or.inl rfl
  | some o =>
    have hs : o.isSuffixOf buf = true := by simpa using List.find?_some h
    exact Or.inr ⟨o, List.mem_of_find?_eq_some h, List.isSuffixOf_iff_suffix.mp hs, rfl⟩

theorem le_begun {o buf : List Char} (ho : o ∈ openings) (hs : o <:+ buf) : o.length ≤ begun buf := by
  have hlongest : openings.Pairwise fun a b => b.length ≤ a.length := by decide
  unfold begun
  cases h : openings.find? fun o => o.isSuffixOf buf with
  | none =>
    have := List.find?_eq_none.mp h o ho
    simp [hs] at this
  | some o' =>
    obtain ⟨-, before, after, heq, hno⟩ := List.find?_eq_some_iff_append.mp h
    rw [heq, List.mem_append, List.mem_cons] at ho
    rw [heq, List.pairwise_append, List.pairwise_cons] at hlongest
    rcases ho with ho | rfl | ho
    · have := hno o ho
      rw [List.isSuffixOf_iff_suffix.mpr hs] at this
      cases this
    · exact le_rfl
    · exact hlongest.2.1.1 o ho

/-- The front of an opening is one. -/
theorem prefix_of_opening {o p : List Char} (ho : o ∈ openings) (hp : p <+: o) : p = [] ∨ p ∈ openings := by
  have hall : ∀ o ∈ openings, ∀ p ∈ o.inits, p = [] ∨ p ∈ openings := by decide
  exact hall o ho p ((List.mem_inits p o).mpr hp)

/-- What has begun of a blank line at the end of more bytes began before, or is
among these. -/
theorem begun_append (l m : List Char) : begun (l ++ m) ≤ m.length + begun l := by
  rcases begun_eq (l ++ m) with h | ⟨o, ho, ⟨t, ht⟩, hlen⟩
  · omega
  · by_cases hm : o.length ≤ m.length
    · omega
    · -- the opening starts in `l`
      have hcount := congrArg List.length ht
      simp only [List.length_append] at hcount
      have hl : t ++ o.take (o.length - m.length) = l := by
        have htake := congrArg (List.take l.length) ht
        rw [List.take_left, List.take_append, List.take_of_length_le (by omega)] at htake
        rw [← htake]
        congr 2
        omega
      rcases prefix_of_opening ho (List.take_prefix (o.length - m.length) o) with hnil | hmem
      · rw [List.take_eq_nil_iff] at hnil
        rcases hnil with hz | rfl
        · omega
        · simp at hm
      · have hle : (o.take (o.length - m.length)).length ≤ begun l := le_begun hmem ⟨t, hl⟩
        rw [List.length_take] at hle
        omega

/-- The two blank lines. -/
def blanks : List (List Char) := ["\n\n".toList, "\r\n\r\n".toList]

theorem blank_of_frameEnd? {stop sepLen : ℕ} (h : frameEnd? l = some (stop, sepLen)) :
    ∃ blank ∈ blanks, blank.length = sepLen ∧ blank <+: l.drop stop := by
  have hlf : find "\n\n".toList l = some stop → "\n\n".toList <+: l.drop stop := fun h => (find_eq_some_iff.mp h).2.1
  have hcr : find "\r\n\r\n".toList l = some stop → "\r\n\r\n".toList <+: l.drop stop := fun h =>
    (find_eq_some_iff.mp h).2.1
  unfold frameEnd? at h
  split at h
  · cases h
  · next hfind _ =>
    cases h
    exact ⟨_, by simp [blanks], rfl, hlf hfind⟩
  · next hfind =>
    cases h
    exact ⟨_, by simp [blanks], rfl, hcr hfind⟩
  · next hfind hfind' =>
    split_ifs at h
    · cases h
      exact ⟨_, by simp [blanks], rfl, hcr hfind'⟩
    · cases h
      exact ⟨_, by simp [blanks], rfl, hlf hfind⟩

theorem not_blank_of_frameEnd? (h : frameEnd? l = none) {blank : List Char} (hb : blank ∈ blanks) {j : ℕ}
    (hj : j ≤ l.length) : ¬ blank <+: l.drop j := by
  unfold frameEnd? at h
  split at h
  · next hlf hcr =>
    simp only [blanks, List.mem_cons, List.not_mem_nil, or_false] at hb
    rcases hb with rfl | rfl
    · exact find_eq_none_iff.mp hlf j hj
    · exact find_eq_none_iff.mp hcr j hj
  · cases h
  · cases h
  · split_ifs at h

/-- A blank line that ends the frame, and was not there before, had begun or
comes after. -/
theorem length_le_stop_add {stop sepLen : ℕ} (hl : frameEnd? l = none) (h : frameEnd? (l ++ m) = some (stop, sepLen)) :
    l.length ≤ stop + begun l := by
  have hfront : ∀ blank ∈ blanks, ∀ p ∈ blank.inits, p = [] ∨ p = blank ∨ p ∈ openings := by decide
  obtain ⟨blank, hb, -, hp⟩ := blank_of_frameEnd? h
  by_cases hstop : l.length ≤ stop
  · omega
  · rw [List.drop_append_of_le_length (by omega)] at hp
    rcases List.prefix_or_prefix_of_prefix hp (List.prefix_append _ m) with hin | hpart
    · exact absurd hin (not_blank_of_frameEnd? hl hb (by omega))
    · rcases hfront blank hb _ ((List.mem_inits _ _).mpr hpart) with hnil | heq | hmem
      · rw [List.drop_eq_nil_iff] at hnil
        omega
      · refine absurd ?_ (not_blank_of_frameEnd? hl hb (j := stop) (by omega))
        rw [heq]
      · have hle := le_begun hmem (List.drop_suffix stop l)
        rw [List.length_drop] at hle
        omega

/-! ### What is read of a stream -/

/-- A field block of the stream is longer than the limit, or what is there of
the last one is. -/
def TooLong (l : List Char) : Prop := (∃ b ∈ blocks l, short b = false) ∨ 65536 + begun (rest l) < (rest l).length

instance (l : List Char) : Decidable (TooLong l) :=
  inferInstanceAs (Decidable ((∃ b ∈ blocks l, short b = false) ∨ _))

/-- The events of the frames before the first that is too long, and whether there is one. -/
def expected (l : List Char) : List SseEvent × Bool := (((blocks l).takeWhile short).flatMap eventOf, TooLong l)

/-- If no frame is too long, a blank line that has begun does not take the last one over the limit. -/
def Clear (l : List Char) : Prop :=
  (∀ b ∈ blocks l, short b = true) → 65536 < (rest l).length → 65536 + begun (rest l) < (rest l).length

theorem takeWhile_append_of_exists {α : Type} {p : α → Bool} {as : List α} (h : ∃ a ∈ as, p a = false) (bs : List α) :
    (as ++ bs).takeWhile p = as.takeWhile p := by
  induction as with
  | nil =>
    obtain ⟨a, ha, -⟩ := h
    cases ha
  | cons a as ih =>
    rw [List.cons_append, List.takeWhile_cons, List.takeWhile_cons]
    cases hp : p a with
    | false => rfl
    | true =>
      obtain ⟨b, hb, hpb⟩ := h
      rcases List.mem_cons.mp hb with rfl | hb
      · rw [hp] at hpb
        cases hpb
      · simp [ih ⟨b, hb, hpb⟩]

/-- A frame that is too long stays so, and nothing after it is read. -/
theorem expected_append (h : TooLong l) : TooLong (l ++ m) ∧ expected (l ++ m) = expected l := by
  have hlong : TooLong (l ++ m) ∧ ((blocks (l ++ m)).takeWhile short) = (blocks l).takeWhile short := by
    unfold TooLong
    rw [blocks_append, rest_append]
    rcases h with ⟨b, hb, hlong⟩ | hlong
    · exact ⟨Or.inl ⟨b, List.mem_append_left _ hb, hlong⟩, takeWhile_append_of_exists ⟨b, hb, hlong⟩ _⟩
    · cases he : frameEnd? (rest l ++ m) with
      | none =>
        have hb := begun_append (rest l) m
        obtain ⟨hnil, hrest⟩ := run_of_frameEnd?_eq_none he
        rw [hnil, hrest, List.append_nil, List.length_append]
        exact ⟨Or.inr (by omega), rfl⟩
      | some r =>
        obtain ⟨stop, sepLen⟩ := r
        have hstop := length_le_stop_add (frameEnd?_rest l) he
        obtain ⟨-, hle⟩ := frameEnd?_add_le he
        have hb : short ((rest l ++ m).take stop) = false := by
          rw [short, List.length_take, decide_eq_false_iff_not]
          omega
        rw [(run_of_frameEnd?_eq_some he).1]
        refine ⟨Or.inl ⟨_, List.mem_append_right _ List.mem_cons_self, hb⟩, ?_⟩
        rw [List.takeWhile_append]
        split_ifs with hall
        · rw [List.takeWhile_cons, hb, (List.takeWhile_prefix short).eq_of_length hall]
          exact List.append_nil _
        · rfl
  refine ⟨hlong.1, ?_⟩
  unfold expected
  rw [hlong.2]
  simp [h, hlong.1]

namespace SseEventFramer

/-- The loop of `Feed` by field blocks: it stops at the first that is too long,
and gives up on what is left if that is too much. -/
theorem drain_eq (n : ℕ) (f : SseEventFramer) (out : List SseEvent) (hn : f.buf.length < n)
    (hf : f.exceededLimit = false) : f.drain n out =
      (if (∀ b ∈ blocks f.buf, short b = true) ∧ (rest f.buf).length ≤ 65536 then { buf := rest f.buf }
        else { buf := [], exceededLimit := true }, out ++ ((blocks f.buf).takeWhile short).flatMap eventOf) := by
  induction n generalizing f out with
  | zero => omega
  | succ n ih =>
    rw [drain]
    cases he : frameEnd? f.buf with
    | none =>
      obtain ⟨hnil, hrest⟩ := run_of_frameEnd?_eq_none he
      rw [hnil, hrest]
      obtain ⟨buf, exceeded⟩ := f
      obtain rfl : exceeded = false := hf
      by_cases hlen : buf.length ≤ 65536
      · simp [hlen]
      · simp [hlen]
    | some r =>
      obtain ⟨stop, sepLen⟩ := r
      obtain ⟨hpos, hle⟩ := frameEnd?_add_le he
      obtain ⟨hblocks, hrest⟩ := run_of_frameEnd?_eq_some he
      have hlen : (f.buf.take stop).length = stop := List.length_take_of_le (by omega)
      rw [hblocks, hrest]
      by_cases hs : stop ≤ 65536
      · have hshort : short (f.buf.take stop) = true := by simp [short, hlen, hs]
        rw [if_neg (by simpa using hs)]
        simp only
        rw [ih ⟨f.buf.drop (stop + sepLen), f.exceededLimit⟩ _ (by simp only [List.length_drop]; omega) hf]
        simp only [List.forall_mem_cons, hshort, true_and, List.takeWhile_cons, if_true, List.flatMap_cons, eventOf, hlen]
        split_ifs <;> simp
      · have hshort : short (f.buf.take stop) = false := by simp [short, hlen, hs]
        rw [if_pos (by simpa using hs)]
        simp [hshort]

/-- `Feed` for each piece of a stream. -/
def feeds (f : SseEventFramer) : List (List Char) → SseEventFramer × List SseEvent
  | [] => (f, [])
  | bytes :: pieces =>
    let r := f.feed bytes
    let rs := r.1.feeds pieces
    (rs.1, r.2 ++ rs.2)

/-- What is read of a stream: all the events, and `exceeded_limit`. -/
def read (pieces : List (List Char)) : List SseEvent × Bool :=
  let r := feeds {} pieces
  (r.2, r.1.exceededLimit)

theorem feeds_concat (f : SseEventFramer) (pieces : List (List Char)) (bytes : List Char) :
    f.feeds (pieces ++ [bytes]) =
      (((f.feeds pieces).1.feed bytes).1, (f.feeds pieces).2 ++ ((f.feeds pieces).1.feed bytes).2) := by
  induction pieces generalizing f with
  | nil => simp [feeds]
  | cons piece pieces ih =>
    rw [List.cons_append, feeds, ih]
    simp [feeds]

theorem feed_eq {f : SseEventFramer} (hf : f.exceededLimit = false) (bytes : List Char) : f.feed bytes =
    (if (∀ b ∈ blocks (f.buf ++ bytes), short b = true) ∧ (rest (f.buf ++ bytes)).length ≤ 65536 then
      { buf := rest (f.buf ++ bytes) } else { buf := [], exceededLimit := true },
      ((blocks (f.buf ++ bytes)).takeWhile short).flatMap eventOf) := by
  unfold feed
  rw [hf, if_neg (by simp)]
  simp only
  rw [drain_eq _ _ _ (by simp) rfl, List.nil_append]

/-- A framer that goes on has all that is left, and nothing was too much for it. -/
theorem within_of_feeds {pieces : List (List Char)} (h : (feeds {} pieces).1.exceededLimit = false) :
    (feeds {} pieces).1.buf = rest pieces.flatten ∧ (∀ b ∈ blocks pieces.flatten, short b = true) ∧
      (rest pieces.flatten).length ≤ 65536 := by
  induction pieces using List.reverseRecOn with
  | nil =>
    obtain ⟨hblocks, hrest⟩ := run_of_frameEnd?_eq_none (l := []) rfl
    simp [feeds, hblocks, hrest]
  | append_singleton pieces bytes ih =>
    rw [feeds_concat] at h ⊢
    cases hx : (feeds {} pieces).1.exceededLimit with
    | true =>
      rw [feed, if_pos hx, hx] at h
      cases h
    | false =>
      obtain ⟨hbuf, hshort, -⟩ := ih hx
      rw [List.flatten_append, List.flatten_singleton, blocks_append, rest_append, ← hbuf]
      rw [feed_eq hx] at h ⊢
      simp only at h ⊢
      split_ifs at h ⊢ with hall
      refine ⟨rfl, fun b hb => ?_, hall.2⟩
      rcases List.mem_append.mp hb with hb | hb
      · exact hshort b hb
      · exact hall.1 b hb

end SseEventFramer

/-- Where the framer is that has read a stream up to here. -/
def settled (l : List Char) : SseEventFramer :=
  if TooLong l then { buf := [], exceededLimit := true } else { buf := rest l }

theorem feed_settled (h : Clear (l ++ m)) :
    ((settled l).feed m).1 = settled (l ++ m) ∧ (expected l).1 ++ ((settled l).feed m).2 = (expected (l ++ m)).1 := by
  unfold settled
  by_cases hl : TooLong l
  · obtain ⟨hlm, heq⟩ := expected_append (m := m) hl
    rw [if_pos hl, if_pos hlm, heq, SseEventFramer.feed, if_pos rfl]
    exact ⟨rfl, List.append_nil _⟩
  · have hblocks : ∀ b ∈ blocks l, short b = true := by
      intro b hb
      by_contra hno
      exact hl (Or.inl ⟨b, hb, by simpa using hno⟩)
    have hgoes : ((∀ b ∈ blocks (rest l ++ m), short b = true) ∧ (rest (rest l ++ m)).length ≤ 65536) ↔
        ¬ TooLong (l ++ m) := by
      unfold Clear at h
      unfold TooLong
      rw [blocks_append l m, rest_append l m] at h ⊢
      simp only [List.forall_mem_append, not_or, not_exists, not_and, Bool.not_eq_false, not_lt] at h ⊢
      constructor
      · rintro ⟨hall, hle⟩
        exact ⟨⟨hblocks, hall⟩, by omega⟩
      · rintro ⟨hall, hle⟩
        refine ⟨hall.2, ?_⟩
        by_contra hlt
        have := h hall (by omega)
        omega
    rw [if_neg hl, SseEventFramer.feed_eq rfl]
    simp only [expected, blocks_append l m, List.takeWhile_append_of_pos hblocks, List.flatMap_append,
      List.takeWhile_eq_self_iff.mpr hblocks, and_true]
    by_cases hlm : TooLong (l ++ m)
    · rw [if_pos hlm, if_neg (by rw [hgoes]; exact not_not.mpr hlm)]
    · rw [if_neg hlm, if_pos (hgoes.mpr hlm), rest_append l m]

/-- A stream cut clear of its blank lines. -/
theorem feeds_of_clear {pieces : List (List Char)} (h : ∀ k, Clear (pieces.take k).flatten) :
    (SseEventFramer.feeds {} pieces).1 = settled pieces.flatten ∧
      (SseEventFramer.feeds {} pieces).2 = (expected pieces.flatten).1 := by
  induction pieces using List.reverseRecOn with
  | nil =>
    obtain ⟨hblocks, hrest⟩ := run_of_frameEnd?_eq_none (l := []) rfl
    have hshort : ¬ TooLong [] := by simp [TooLong, hblocks, hrest]
    simp [SseEventFramer.feeds, settled, expected, hblocks, hrest, hshort]
  | append_singleton pieces bytes ih =>
    have hbefore : ∀ k, Clear (pieces.take k).flatten := by
      intro k
      by_cases hk : k ≤ pieces.length
      · have hclear := h k
        rwa [List.take_append_of_le_length hk] at hclear
      · have hclear := h pieces.length
        rw [List.take_append_of_le_length le_rfl, List.take_length] at hclear
        rwa [List.take_of_length_le (by omega)]
    obtain ⟨hstate, hevents⟩ := ih hbefore
    have hclear := h (pieces.length + 1)
    rw [List.take_of_length_le (by simp), List.flatten_append, List.flatten_singleton] at hclear
    rw [SseEventFramer.feeds_concat, hstate, hevents, List.flatten_append, List.flatten_singleton]
    exact feed_settled hclear

/-- **When what is read of a stream does not depend on the reads**: at every
moment it is what the bytes so far make it, if and only if no read ends in a
blank line that takes a frame over the limit. -/
theorem read_iff_clear (pieces : List (List Char)) :
    ((∀ k, SseEventFramer.read (pieces.take k) = expected (pieces.take k).flatten) ↔
      ∀ k, Clear (pieces.take k).flatten) ∧
    ∀ pieces', pieces'.flatten = pieces.flatten → (∀ k, Clear (pieces.take k).flatten) →
      (∀ k, Clear (pieces'.take k).flatten) → SseEventFramer.read pieces' = SseEventFramer.read pieces := by
  have hread : ∀ pieces : List (List Char), (∀ k, Clear (pieces.take k).flatten) →
      SseEventFramer.read pieces = expected pieces.flatten := by
    intro pieces h
    obtain ⟨hstate, hevents⟩ := feeds_of_clear h
    refine Prod.ext hevents ?_
    simp only [SseEventFramer.read]
    rw [hstate]
    unfold settled
    by_cases hl : TooLong pieces.flatten
    · simp [expected, hl]
    · simp [expected, hl]
  refine ⟨⟨fun h k hshort hlen => ?_, fun h k => hread _ fun j => ?_⟩, fun pieces' heq h h' => ?_⟩
  · by_contra hno
    have hx : (SseEventFramer.feeds {} (pieces.take k)).1.exceededLimit = false := by
      have := congrArg Prod.snd (h k)
      simp only [SseEventFramer.read, expected] at this
      rw [this, decide_eq_false_iff_not]
      rintro (⟨b, hb, hlong⟩ | hlong)
      · rw [hshort b hb] at hlong
        cases hlong
      · exact hno hlong
    have := (SseEventFramer.within_of_feeds hx).2.2
    omega
  · rw [List.take_take]
    exact h _
  · rw [hread pieces h, hread pieces' h', heq]

/-! ### A blank line that is cut -/

theorem find_append_of_not_mem {c : Char} {sep x : List Char} (hsep : sep.head? = some c) (h : c ∉ x) (l : List Char) :
    find sep (x ++ l) = (find sep l).map (· + x.length) := by
  obtain ⟨sep, rfl⟩ := List.head?_eq_some_iff.mp hsep
  induction x with
  | nil => simp
  | cons d x ih =>
    rw [List.mem_cons, not_or] at h
    rw [List.cons_append, find, ih h.2, List.isPrefixOf, beq_false_of_ne h.1]
    simp [Function.comp_def, Nat.add_assoc]

/-- The first blank line comes after what has none of its characters. -/
theorem frameEnd?_append_of_not_mem {x : List Char} (hlf : '\n' ∉ x) (hcr : '\r' ∉ x)
    (hl : find "\r\n\r\n".toList l = none) :
    frameEnd? (x ++ l) = (find "\n\n".toList l).map fun i => (i + x.length, 2) := by
  unfold frameEnd?
  rw [find_append_of_not_mem (by decide) hlf, find_append_of_not_mem (by decide) hcr, hl]
  cases find "\n\n".toList l <;> rfl

/-- A line of data that fills the field block. -/
def fullLine : List Char := ['d', 'a', 't', 'a', ':'] ++ List.replicate 65531 'a'

theorem length_fullLine : fullLine.length = 65536 := by
  have h : fullLine.length = [_, _, _, _, _].length + (List.replicate 65531 'a').length := List.length_append
  have h5 : ['d', 'a', 't', 'a', ':'].length = 5 := rfl
  rw [h, h5, List.length_replicate]

theorem not_mem_fullLine {c : Char} (hdata : c ∉ ['d', 'a', 't', 'a', ':']) (hc : c ≠ 'a') : c ∉ fullLine := by
  intro hmem
  rcases List.mem_append.mp hmem with h | h
  · exact hdata h
  · exact hc (List.eq_of_mem_replicate h)

/-- A full field block, with the blank line after it in one read or in two. -/
theorem read_full {x : List Char} (hlf : '\n' ∉ x) (hcr : '\r' ∉ x) (hlen : x.length = 65536) :
    SseEventFramer.read [x ++ ['\n', '\n']] = (eventOf x, false) ∧
      SseEventFramer.read [x ++ ['\n'], ['\n']] = ([], true) := by
  have hwhole := frameEnd?_append_of_not_mem hlf hcr (l := ['\n', '\n']) (by decide)
  have hcut := frameEnd?_append_of_not_mem hlf hcr (l := ['\n']) (by decide)
  obtain ⟨hblocks, hrest⟩ := run_of_frameEnd?_eq_some (hwhole.trans (by rw [show find _ _ = some 0 by decide]; rfl))
  obtain ⟨hblocks', hrest'⟩ := run_of_frameEnd?_eq_none (hcut.trans (by rw [show find _ _ = none by decide]; rfl))
  obtain ⟨hblocks₀, hrest₀⟩ := run_of_frameEnd?_eq_none (l := []) rfl
  have hdrop : (x ++ ['\n', '\n']).drop (0 + x.length + 2) = [] := by simp
  have htake : (x ++ ['\n', '\n']).take (0 + x.length) = x := by simp
  have hshort : short x = true := by simp [short, hlen]
  rw [hdrop, hblocks₀, htake] at hblocks
  rw [hdrop, hrest₀] at hrest
  constructor
  · rw [SseEventFramer.read, SseEventFramer.feeds, SseEventFramer.feeds, SseEventFramer.feed_eq rfl]
    simp [hblocks, hrest, hshort]
  · have hover : ¬ x.length < 65536 := by omega
    rw [SseEventFramer.read, SseEventFramer.feeds, SseEventFramer.feed_eq rfl, List.nil_append, hblocks', hrest']
    simp [hover, SseEventFramer.feeds, SseEventFramer.feed]

/-- **A read that ends in the blank line after a full field block loses the
event.** -/
theorem not_read_of_cut :
    SseEventFramer.read [fullLine ++ ['\n', '\n']] = (eventOf fullLine, false) ∧
      SseEventFramer.read [fullLine ++ ['\n'], ['\n']] = ([], true) :=
  read_full (not_mem_fullLine (by decide) (by decide)) (not_mem_fullLine (by decide) (by decide)) length_fullLine

end Net
end AgentFlow
