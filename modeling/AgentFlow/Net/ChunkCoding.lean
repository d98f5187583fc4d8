/-
# The chunked coding

A chunked body as the standard has it (`encode`): each part with its size in
hexadecimal, perhaps with an extension, and each line and part ended by CR LF.
However the bytes are cut, the decoder gives back the parts, and is complete
with the last byte of the line of size zero (`feeds_encode`).

The decoder takes more than that: a size line may go on after its digits, and
any two bytes may follow a part. What it completes has been written in the
coding exactly when its lines and separators are `Tight`.

Key definitions: `Coding`, `CodedBody`, `encode`, `Taken.Tight`, `Tight`.
Key theorems: `feeds_encode`, `grammatical_iff_tight`.
-/
import AgentFlow.Net.Chunks
import Mathlib.Data.List.TakeWhile

namespace AgentFlow
namespace Net

open Incremental

/-! ### Sizes -/

def hexValue (digits : List Char) : ℕ := (digits.filterMap digitValue?).foldl (fun n d => n * 16 + d) 0

theorem digitValue?_lt {c : Char} {d : ℕ} (h : digitValue? c = some d) : d < 16 := by
  unfold digitValue? at h
  split_ifs at h with h1 h2 h3
  · obtain rfl := Option.some.inj h
    have : c.toNat ≤ '9'.toNat := h1.2
    simp only [show '9'.toNat = 57 from rfl] at this
    omega
  · obtain rfl := Option.some.inj h
    have : c.toNat ≤ 'f'.toNat := h2.2
    simp only [show 'f'.toNat = 102 from rfl] at this
    omega
  · obtain rfl := Option.some.inj h
    have : c.toNat ≤ 'F'.toNat := h3.2
    simp only [show 'F'.toNat = 70 from rfl] at this
    omega

theorem leadingDigits_of_hex {s : List Char} (h : ∀ c ∈ s, (digitValue? c).isSome = true) :
    leadingDigits 16 s = s.filterMap digitValue? := by
  have hall : (s.map digitValue?).takeWhile (fun d => d.any (· < 16)) = s.map digitValue? := by
    rw [List.takeWhile_eq_self_iff]
    intro d hd
    obtain ⟨c, hc, rfl⟩ := List.mem_map.mp hd
    obtain ⟨v, hv⟩ := Option.isSome_iff_exists.mp (h c hc)
    simp [hv, digitValue?_lt hv]
  rw [leadingDigits, hall, List.filterMap_map]
  rfl

theorem fromChars_of_hex {s : List Char} (h : ∀ c ∈ s, (digitValue? c).isSome = true) {bound n : ℕ} :
    fromChars 16 bound s = some n ↔ s ≠ [] ∧ hexValue s = n ∧ n < bound := by
  have hnil : s.filterMap digitValue? = [] ↔ s = [] := by
    refine ⟨fun hs => ?_, fun hs => by rw [hs]; rfl⟩
    cases s with
    | nil => rfl
    | cons c s =>
      have := h c List.mem_cons_self
      rw [List.filterMap_eq_nil_iff.mp hs c List.mem_cons_self] at this
      cases this
  rw [fromChars, leadingDigits_of_hex h]
  simp only [hnil, ← hexValue.eq_1]
  split_ifs with hs hb
  · simp [hs]
  · rw [Option.some.injEq]
    exact ⟨fun heq => ⟨hs, heq, heq ▸ hb⟩, fun heq => heq.2.1⟩
  · refine iff_of_false nofun fun heq => hb ?_
    rw [heq.2.1]
    exact heq.2.2

/-- The size `n` as it may be written: in digits of either case, perhaps with an extension. -/
structure Coding (n : ℕ) where
  digits : List Char
  extension : Option (List Char)
  hex : ∀ c ∈ digits, (digitValue? c).isSome = true
  some_digit : digits ≠ []
  value : hexValue digits = n
  plain : ∀ e ∈ extension, find crlf e = none

namespace Coding

variable {n : ℕ}

def text (c : Coding n) : List Char := c.digits ++ (c.extension.map fun e => ';' :: e).getD []

theorem not_mem_digits (c : Coding n) {x : Char} (hx : digitValue? x = none) : x ∉ c.digits := fun hm => by
  have := c.hex x hm
  rw [hx] at this
  cases this

/-- The extension is split off. -/
theorem splitOnce_text (c : Coding n) : (splitOnce c.text [';']).1 = c.digits := by
  have hno : ∀ j < c.digits.length, ¬ [';'] <+: c.text.drop j := by
    intro j hj hp
    have hget : c.text[j + 0]? = some ';' := getElem?_of_prefix_drop hp rfl
    rw [text, Nat.add_zero, List.getElem?_append_left hj] at hget
    exact c.not_mem_digits rfl (List.mem_of_getElem? hget)
  cases he : c.extension with
  | none =>
    have htext : c.text = c.digits := by rw [text, he, Option.map_none, Option.getD_none, List.append_nil]
    have hfind : find [';'] c.text = none := by
      refine find_eq_none_iff.mpr fun j hj hp => ?_
      rcases (htext ▸ hj).lt_or_eq with hlt | rfl
      · exact hno j hlt hp
      · rw [htext, List.drop_length, List.prefix_nil] at hp
        cases hp
    rw [splitOnce, hfind, htext]
  | some e =>
    have htext : c.text = c.digits ++ ';' :: e := by rw [text, he, Option.map_some, Option.getD_some]
    have hfind : find [';'] c.text = some c.digits.length := by
      refine find_eq_some_iff.mpr ⟨by rw [htext, List.length_append]; omega, ?_, hno⟩
      rw [htext, List.drop_left]
      exact ⟨e, rfl⟩
    rw [splitOnce, hfind]
    simp only
    rw [htext, List.take_left]

theorem find_text (c : Coding n) : find crlf c.text = none := by
  refine find_eq_none_iff.mpr fun j hj hp => ?_
  have hget : c.text[j + 0]? = some '\r' := getElem?_of_prefix_drop hp rfl
  rw [text, Nat.add_zero] at hget
  by_cases hlt : j < c.digits.length
  · rw [List.getElem?_append_left hlt] at hget
    exact c.not_mem_digits rfl (List.mem_of_getElem? hget)
  obtain ⟨i, rfl⟩ := Nat.exists_eq_add_of_le (not_lt.mp hlt)
  rw [List.getElem?_append_right (by omega), Nat.add_sub_cancel_left] at hget
  rw [text, List.drop_append, List.drop_of_length_le (by omega), List.nil_append, Nat.add_sub_cancel_left] at hp
  cases he : c.extension with
  | none =>
    rw [he] at hget
    cases hget
  | some e =>
    rw [he, Option.map_some, Option.getD_some] at hget hp
    cases i with
    | zero => cases hget
    | succ i =>
      rw [List.drop_succ_cons] at hp
      refine find_eq_none_iff.mp (c.plain e he) i ?_ hp
      by_contra hlong
      rw [List.drop_of_length_le (by omega), List.prefix_nil] at hp
      cases hp

theorem chunkSize?_text (c : Coding n) (hn : n < 2 ^ 64) : chunkSize? c.text = some n := by
  rw [chunkSize?, c.splitOnce_text]
  exact (fromChars_of_hex c.hex).mpr ⟨c.some_digit, c.value, hn⟩

end Coding

/-! ### Bodies -/

/-- A part of a body, and how its size is written. A part is held in memory, so its size fits. -/
structure CodedBody where
  body : List Char
  coding : Coding body.length
  nonempty : body ≠ []
  fits : body.length < 2 ^ 64

def CodedBody.bytes (b : CodedBody) : List Char := b.coding.text ++ crlf ++ (b.body ++ crlf)

/-- The parts, and the line of size zero. -/
def encode (bodies : List CodedBody) (last : Coding 0) : List Char :=
  bodies.flatMap CodedBody.bytes ++ (last.text ++ crlf)

def CodedBody.taken (b : CodedBody) : Taken where
  line := b.coding.text
  body := b.body
  separator := crlf
  plain := b.coding.find_text
  size := b.coding.chunkSize?_text b.fits
  nonempty := b.nonempty
  two := rfl

theorem takenUpTo_encode (bodies : List CodedBody) (last : Coding 0) (trailing : List Char) :
    TakenUpTo (some 0) (bodies.map CodedBody.taken) last.text trailing (encode bodies last ++ trailing) := by
  refine ⟨?_, last.find_text, last.chunkSize?_text (by norm_num)⟩
  rw [bytesOf, List.flatMap_map, encode, List.append_assoc]
  rfl

theorem contentOf_taken (bodies : List CodedBody) :
    contentOf (bodies.map CodedBody.taken) = bodies.flatMap CodedBody.body := by
  rw [contentOf, List.flatMap_map]
  rfl

/-- The end is the end of the line of size zero. -/
theorem complete_encode_iff {bodies : List CodedBody} {last : Coding 0} {trailing p : List Char}
    (hp : p <+: encode bodies last ++ trailing) :
    (chunkScanner.run .size p).2.1 = .complete ↔ (encode bodies last).length ≤ p.length := by
  constructor
  · intro hc
    by_contra hlt
    have hpe : p <+: encode bodies last := List.prefix_of_prefix_length_le hp (List.prefix_append _ _) (by omega)
    obtain ⟨q, hq⟩ := hpe
    -- what comes after the end would be left over
    have hrest := (run_append_of_absorbing (Or.inl rfl) hc q).2
    have hwhole := takenUpTo_encode bodies last []
    rw [List.append_nil] at hwhole
    rw [hq, hwhole.run (Or.inr rfl)] at hrest
    have hnil := congrArg Prod.snd hrest
    simp only at hnil
    obtain rfl := (List.append_eq_nil_iff.mp hnil.symm).2
    rw [← hq, List.append_nil] at hlt
    exact hlt le_rfl
  · intro hle
    obtain ⟨t, rfl⟩ := List.prefix_of_prefix_length_le (List.prefix_append _ _) hp hle
    rw [(takenUpTo_encode bodies last t).run (Or.inr rfl)]
    rfl

/-- **The decoder undoes the coding**, however it is cut: the pieces give the
parts, the decoder is complete with the end of the last line, and gives nothing
after that. -/
theorem feeds_encode (bodies : List CodedBody) (last : Coding 0) (trailing : List Char) {xs : List (List Char)}
    (hxs : xs.flatten = encode bodies last ++ trailing) :
    (∃ outs : List (List Char), (feeds {} xs).2 = outs.map .ok ∧ outs.flatten = bodies.flatMap CodedBody.body) ∧
      (∀ k, (feeds {} (xs.take k)).1.complete = true ↔ (encode bodies last).length ≤ (xs.take k).flatten.length) ∧
      ∀ k, (feeds {} (xs.take k)).1.complete = true → ∀ r ∈ (feeds {} xs).2.drop k, r = .ok [] := by
  have hrun := (takenUpTo_encode bodies last trailing).run (Or.inr rfl)
  rw [← hxs] at hrun
  have hok : (chunkScanner.run .size xs.flatten).2.1 ≠ .failed := by
    rw [hrun]
    exact nofun
  refine ⟨?_, fun k => ?_, fun k hk => ?_⟩
  · obtain ⟨outs, houts, hflat, -⟩ := feeds_of_not_failed xs idle_start hok
    refine ⟨outs, houts, hflat.trans ?_⟩
    exact (congrArg Prod.fst hrun).trans (contentOf_taken bodies)
  · have hp : (xs.take k).flatten <+: xs.flatten :=
      ⟨(xs.drop k).flatten, by rw [← List.flatten_append, List.take_append_drop]⟩
    have hokp : (chunkScanner.run .size (xs.take k).flatten).2.1 ≠ .failed := by
      obtain ⟨m, hm⟩ := hp
      intro hf
      exact hok (hm ▸ congrArg Prod.fst (run_append_of_absorbing (Or.inr rfl) hf m).2)
    obtain ⟨-, -, -, hstate⟩ := feeds_of_not_failed (xs.take k) idle_start hokp
    have hphase : (feeds {} (xs.take k)).1.phase = (chunkScanner.run .size (xs.take k).flatten).2.1 :=
      congrArg Prod.fst hstate
    rw [← phase_complete_iff, hphase]
    exact complete_encode_iff (hxs ▸ hp)
  · rw [drop_feeds]
    exact feeds_of_complete _ hk

/-- One part, in two cuts. -/
def wikiBody : CodedBody where
  body := "wiki".toList
  coding := ⟨"04".toList, some "x=y".toList, List.all_eq_true.mp (by decide), by decide, by decide, by decide⟩
  nonempty := by decide
  fits := by decide

def lastLine : Coding 0 := ⟨"0".toList, none, List.all_eq_true.mp (by decide), by decide, by decide, by decide⟩

theorem feeds_encode_wiki :
    (∃ outs : List (List Char), (feeds {} ["04;x=y\r".toList, "\nwiki\r\n0\r\n\r\n".toList]).2 = outs.map .ok ∧
        outs.flatten = [wikiBody].flatMap CodedBody.body) ∧
      (∀ k, (feeds {} (["04;x=y\r".toList, "\nwiki\r\n0\r\n\r\n".toList].take k)).1.complete = true ↔
        (encode [wikiBody] lastLine).length ≤ (["04;x=y\r".toList, "\nwiki\r\n0\r\n\r\n".toList].take k).flatten.length) ∧
      ∀ k, (feeds {} (["04;x=y\r".toList, "\nwiki\r\n0\r\n\r\n".toList].take k)).1.complete = true →
        ∀ r ∈ (feeds {} ["04;x=y\r".toList, "\nwiki\r\n0\r\n\r\n".toList]).2.drop k, r = .ok [] :=
  feeds_encode [wikiBody] lastLine "\r\n".toList (by decide)

/-! ### What is completed -/

/-- Before the extension the line has digits only. -/
def TightLine (line : List Char) : Prop := ∀ c ∈ (splitOnce line [';']).1, (digitValue? c).isSome = true

def Taken.Tight (c : Taken) : Prop := TightLine c.line ∧ c.separator = crlf

/-- If the stream is read to its end, all lines and separators on the way are tight. -/
def Tight (s : List Char) : Prop :=
  ∀ cs line rest, TakenUpTo (some 0) cs line rest s → (∀ c ∈ cs, c.Tight) ∧ TightLine line

theorem Coding.tightLine_text {n : ℕ} (c : Coding n) : TightLine c.text := by
  rw [TightLine, c.splitOnce_text]
  exact c.hex

theorem splitOnce_eq {s : List Char} {sep : Char} : (find [sep] s = none ∧ (splitOnce s [sep]).1 = s) ∨
    ∃ e, s = (splitOnce s [sep]).1 ++ sep :: e := by
  rw [splitOnce]
  cases h : find [sep] s with
  | none => exact Or.inl ⟨rfl, rfl⟩
  | some pos =>
    obtain ⟨-, ⟨e, he⟩, -⟩ := find_eq_some_iff.mp h
    refine Or.inr ⟨e, ?_⟩
    conv_lhs => rw [← List.take_append_drop pos s, ← he]
    rfl

theorem find_eq_none_of_append {sep l m : List Char} (h : find sep (l ++ m) = none) : find sep m = none := by
  refine find_eq_none_iff.mpr fun j hj hp => ?_
  refine find_eq_none_iff.mp h (l.length + j) (by rw [List.length_append]; omega) ?_
  rwa [List.drop_append, List.drop_of_length_le (by omega), List.nil_append, Nat.add_sub_cancel_left]

/-- A tight line is the coding of the size it is taken for. -/
theorem exists_coding {line : List Char} {n : ℕ} (hplain : find crlf line = none) (hsize : chunkSize? line = some n)
    (ht : TightLine line) : n < 2 ^ 64 ∧ ∃ c : Coding n, c.text = line := by
  obtain ⟨hne, hvalue, hlt⟩ := (fromChars_of_hex ht).mp hsize
  refine ⟨hlt, ?_⟩
  rcases @splitOnce_eq line ';' with ⟨-, heq⟩ | ⟨e, heq⟩
  · refine ⟨⟨_, none, ht, hne, hvalue, nofun⟩, ?_⟩
    rw [Coding.text, Option.map_none, Option.getD_none, List.append_nil]
    exact heq
  · refine ⟨⟨_, some e, ht, hne, hvalue, fun e' he' => ?_⟩, ?_⟩
    · obtain rfl := Option.some.inj he'
      rw [heq, List.append_cons] at hplain
      exact find_eq_none_of_append hplain
    · rw [Coding.text, Option.map_some, Option.getD_some]
      exact heq.symm

theorem exists_codedBody {c : Taken} (h : c.Tight) : ∃ b : CodedBody, b.bytes = c.bytes := by
  obtain ⟨hlt, coding, htext⟩ := exists_coding c.plain c.size h.1
  refine ⟨⟨c.body, coding, c.nonempty, hlt⟩, ?_⟩
  rw [CodedBody.bytes, Taken.bytes, htext, h.2]

theorem exists_codedBodies : ∀ {cs : List Taken}, (∀ c ∈ cs, c.Tight) →
    ∃ bodies : List CodedBody, bodies.flatMap CodedBody.bytes = bytesOf cs
  | [], _ => ⟨[], rfl⟩
  | c :: cs, h => by
    obtain ⟨b, hb⟩ := exists_codedBody (h c List.mem_cons_self)
    obtain ⟨bodies, hbodies⟩ := exists_codedBodies fun c' hc' => h c' (List.mem_cons_of_mem c hc')
    exact ⟨b :: bodies, by rw [List.flatMap_cons, hb, hbodies, bytesOf, bytesOf, List.flatMap_cons]⟩

/-- A stream is cut into lines in one way. -/
theorem line_unique {l l' r r' : List Char} (hl : find crlf l = none) (hl' : find crlf l' = none)
    (h : l ++ crlf ++ r = l' ++ crlf ++ r') : l = l' ∧ r = r' := by
  have hfind := find_line hl r
  rw [h, find_line hl'] at hfind
  have hlen : l.length = l'.length := (Option.some.inj hfind).symm
  rw [List.append_assoc, List.append_assoc] at h
  obtain ⟨rfl, hr⟩ := List.append_inj h hlen
  exact ⟨rfl, List.append_cancel_left hr⟩

/-- It is read to its end in one way. -/
theorem takenUpTo_unique : ∀ {cs cs' : List Taken} {line line' rest rest' s : List Char},
    TakenUpTo (some 0) cs line rest s → TakenUpTo (some 0) cs' line' rest' s → cs = cs' ∧ line = line'
  | [], [], _, _, _, _, _, ⟨hs, hp, _⟩, ⟨hs', hp', _⟩ => ⟨rfl, (line_unique hp hp' (hs.symm.trans hs')).1⟩
  | [], c :: cs', _, _, _, _, _, ⟨hs, hp, hn⟩, ⟨hs', _, _⟩ => by
    obtain ⟨rfl, -⟩ := line_unique hp c.plain (hs.symm.trans (hs'.trans (bytesOf_cons_append ..)))
    have hlen := Option.some.inj (hn.symm.trans c.size)
    exact absurd (List.length_eq_zero_iff.mp hlen.symm) c.nonempty
  | c :: cs, [], _, _, _, _, _, ⟨hs, _, _⟩, ⟨hs', hp', hn'⟩ => by
    obtain ⟨rfl, -⟩ := line_unique hp' c.plain (hs'.symm.trans (hs.trans (bytesOf_cons_append ..)))
    have hlen := Option.some.inj (hn'.symm.trans c.size)
    exact absurd (List.length_eq_zero_iff.mp hlen.symm) c.nonempty
  | c :: cs, c' :: cs', line, line', rest, rest', s, ⟨hs, hp, hn⟩, ⟨hs', hp', hn'⟩ => by
    have heq := hs.symm.trans hs'
    rw [bytesOf_cons_append, bytesOf_cons_append] at heq
    obtain ⟨hline, hrest⟩ := line_unique c.plain c'.plain heq
    have hlen : c.body.length = c'.body.length := by
      have := c.size
      rw [hline] at this
      exact Option.some.inj (this.symm.trans c'.size)
    obtain ⟨hbody, hrest⟩ := List.append_inj hrest hlen
    obtain ⟨hsep, hrest⟩ := List.append_inj hrest (c.two.trans c'.two.symm)
    obtain ⟨hcs, hend⟩ := @takenUpTo_unique cs cs' _ _ _ _ _ ⟨rfl, hp, hn⟩ ⟨hrest, hp', hn'⟩
    refine ⟨?_, hend⟩
    obtain ⟨l, b, t, _, _, _, _⟩ := c
    obtain ⟨l', b', t', _, _, _, _⟩ := c'
    simp only at hline hbody hsep
    subst hline hbody hsep
    rw [hcs]

/-- However the stream is cut: what is completed without an error has the coding at its front. -/
def Grammatical (s : List Char) : Prop :=
  ∀ xs : List (List Char), xs.flatten = s → (∀ r ∈ (feeds {} xs).2, ∃ out, r = .ok out) →
    (feeds {} xs).1.complete = true → ∃ bodies last rest, s = encode bodies last ++ rest

/-- **What is completed is in the coding exactly when it is tight.** -/
theorem grammatical_iff_tight (s : List Char) : Grammatical s ↔ Tight s := by
  constructor
  · intro h cs line rest htaken
    have hrun := htaken.run (Or.inr rfl)
    have hok : (chunkScanner.run .size [s].flatten).2.1 ≠ .failed := by
      rw [List.flatten_singleton, hrun]
      exact nofun
    obtain ⟨outs, houts, -, hstate⟩ := feeds_of_not_failed [s] idle_start hok
    have hphase : (feeds {} [s]).1.phase = (chunkScanner.run .size [s].flatten).2.1 := congrArg Prod.fst hstate
    rw [List.flatten_singleton, hrun] at hphase
    obtain ⟨bodies, last, rest', hs⟩ := h [s] (List.flatten_singleton) (fun r hr => by
      rw [houts] at hr
      obtain ⟨out, -, rfl⟩ := List.mem_map.mp hr
      exact ⟨out, rfl⟩) (phase_complete_iff.mp hphase)
    obtain ⟨rfl, rfl⟩ := takenUpTo_unique htaken (hs ▸ takenUpTo_encode bodies last rest')
    refine ⟨fun c hc => ?_, last.tightLine_text⟩
    obtain ⟨b, -, rfl⟩ := List.mem_map.mp hc
    exact ⟨b.coding.tightLine_text, rfl⟩
  · rintro h xs rfl hall hc
    have hok : (chunkScanner.run .size xs.flatten).2.1 ≠ .failed := fun hf => by
      obtain ⟨out, hout⟩ := hall _ (exists_error xs idle_start hf)
      cases hout
    obtain ⟨-, -, -, hstate⟩ := feeds_of_not_failed xs idle_start hok
    have hphase : (feeds {} xs).1.phase = (chunkScanner.run .size xs.flatten).2.1 := congrArg Prod.fst hstate
    rw [phase_complete_iff.mpr hc] at hphase
    obtain ⟨cs, line, rest, htaken⟩ := complete_iff.mp hphase.symm
    obtain ⟨hcs, hline⟩ := h cs line rest htaken
    obtain ⟨bodies, hbodies⟩ := exists_codedBodies hcs
    obtain ⟨hs, hplain, hsize⟩ := htaken
    obtain ⟨-, last, hlast⟩ := exists_coding hplain hsize hline
    exact ⟨bodies, last, rest, by simp only [hs, encode, hbodies, hlast, List.append_assoc]⟩

/-- A size of five bytes, as a number of another kind would be written. -/
def prefixedSize : List Char := "0x5\r\nhello\r\n0\r\n\r\n".toList

/-- Its first digit is taken for the last size. -/
theorem not_grammatical_prefixed : ¬ Grammatical prefixedSize := by
  intro h
  have hall : ∀ r ∈ (feeds {} [prefixedSize]).2, r = .ok [] := by decide +kernel
  obtain ⟨bodies, last, rest, hs⟩ := h [prefixedSize] (by decide) (fun r hr => ⟨[], hall r hr⟩) (by decide +kernel)
  have htaken : TakenUpTo (some 0) [] "0x5".toList "hello\r\n0\r\n\r\n".toList prefixedSize :=
    ⟨by decide, by decide, by decide⟩
  obtain ⟨-, hline⟩ := takenUpTo_unique htaken (hs ▸ takenUpTo_encode bodies last rest)
  have htight : TightLine "0x5".toList := hline ▸ last.tightLine_text
  exact absurd (htight 'x' (by decide)) (by decide)

end Net
end AgentFlow
