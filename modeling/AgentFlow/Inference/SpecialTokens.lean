/-
# Stripping special tokens from a printed message

`DecodeSpecialTokens` erases the escaped form of each special token from the
JSON of a message. A text changes exactly if the needle occurs in it
(`eraseAll_eq_self_iff`). A token in angle brackets cannot begin inside an
escape or in what surrounds the text of a printed text message, so stripping
it from the JSON is stripping it from the text (`decodeSpecialTokens_textJson`).

Key definitions: `dumpEscape`, `textJson`, `Angled`, `ModelSpecialTokens.stripText`.
Key theorems: `eraseAll_eq_self_iff`, `eraseAll_flatMap`,
`decodeSpecialTokens_textJson`.
-/
import AgentFlow.Inference.CanonicalMessage
import AgentFlow.Lib.PrefixCode
import Mathlib.Data.List.Infix

namespace AgentFlow

open Json

/-! ### Erasing -/

theorem eraseFrom_drop (needle : List Char) : ∀ (skip : ℕ) (text : List Char),
    eraseFrom needle skip text = eraseAll (text.drop skip) needle
  | 0, _ => rfl
  | _ + 1, [] => by simp [eraseFrom, eraseAll]
  | skip + 1, _ :: rest => by
    rw [eraseFrom, List.drop_succ_cons]
    exact eraseFrom_drop needle skip rest

theorem eraseAll_nil (needle : List Char) : eraseAll [] needle = [] := rfl

/-- An occurrence at the front is dropped. -/
theorem eraseAll_append {needle : List Char} (hne : needle ≠ []) (rest : List Char) :
    eraseAll (needle ++ rest) needle = eraseAll rest needle := by
  obtain ⟨c, cs, rfl⟩ := List.exists_cons_of_ne_nil hne
  have hpre : (c :: cs).isPrefixOf (c :: (cs ++ rest)) = true := by
    rw [List.isPrefixOf_iff_prefix]
    exact List.prefix_append (c :: cs) rest
  rw [List.cons_append, eraseAll, eraseFrom, if_pos hpre, eraseFrom_drop]
  simp

/-- Where the needle does not begin, the first character stays. -/
theorem eraseAll_cons {needle : List Char} {c : Char} {rest : List Char} (h : ¬ needle <+: c :: rest) :
    eraseAll (c :: rest) needle = c :: eraseAll rest needle := by
  have hpre : ¬ needle.isPrefixOf (c :: rest) = true := by rwa [List.isPrefixOf_iff_prefix]
  rw [eraseAll, eraseFrom, if_neg hpre]
  rfl

/-- The two ways on from a text. -/
theorem eraseAll_cases {needle : List Char} (hne : needle ≠ []) (c : Char) (rest : List Char) :
    (∃ after, c :: rest = needle ++ after ∧ eraseAll (c :: rest) needle = eraseAll after needle) ∨
    (¬ needle <+: c :: rest ∧ eraseAll (c :: rest) needle = c :: eraseAll rest needle) := by
  by_cases h : needle <+: c :: rest
  · obtain ⟨after, hafter⟩ := h
    exact Or.inl ⟨after, hafter.symm, hafter ▸ eraseAll_append hne after⟩
  · exact Or.inr ⟨h, eraseAll_cons h⟩

/-- What a pass of erasing does, as an induction: an occurrence is dropped, or
a character is passed over at which none begins. -/
@[elab_as_elim]
theorem erase_induction {needle : List Char} (hne : needle ≠ []) {motive : List Char → Prop} (nil : motive [])
    (drop : ∀ after, motive after → motive (needle ++ after))
    (keep : ∀ c rest, ¬ needle <+: c :: rest → motive rest → motive (c :: rest)) (text : List Char) : motive text := by
  induction hn : text.length using Nat.strong_induction_on generalizing text with
  | _ n ih =>
    cases text with
    | nil => exact nil
    | cons c rest =>
      have hpos := List.length_pos_iff.mpr hne
      rcases eraseAll_cases hne c rest with ⟨after, hsplit, -⟩ | ⟨hpre, -⟩
      · have hlen := congrArg List.length hsplit
        rw [List.length_append] at hlen
        rw [hsplit]
        exact drop after (ih after.length (by omega) after rfl)
      · exact keep c rest hpre (ih rest.length (by simp only [List.length_cons] at hn; omega) rest rfl)

theorem length_eraseAll_le {needle : List Char} (hne : needle ≠ []) (text : List Char) :
    (eraseAll text needle).length ≤ text.length := by
  induction text using erase_induction hne with
  | nil => exact le_rfl
  | drop after ih =>
    rw [eraseAll_append hne, List.length_append]
    omega
  | keep c rest hpre ih =>
    rw [eraseAll_cons hpre, List.length_cons, List.length_cons]
    omega

/-- Where the needle occurs, something is erased. -/
theorem length_eraseAll_lt {needle : List Char} (hne : needle ≠ []) {text : List Char} (h : needle <:+: text) :
    (eraseAll text needle).length < text.length := by
  induction text using erase_induction hne with
  | nil => exact absurd (List.infix_nil.mp h) hne
  | drop after _ =>
    have hpos := List.length_pos_iff.mpr hne
    have hle := length_eraseAll_le hne after
    rw [eraseAll_append hne, List.length_append]
    omega
  | keep c rest hpre ih =>
    have hlt := ih ((List.infix_cons_iff.mp h).resolve_left hpre)
    rw [eraseAll_cons hpre, List.length_cons, List.length_cons]
    omega

/-- Erasing changes a text in which the needle occurs, and no other. -/
theorem eraseAll_eq_self_iff {needle : List Char} (hne : needle ≠ []) (text : List Char) :
    eraseAll text needle = text ↔ ¬ needle <:+: text := by
  refine ⟨fun heq h => ?_, fun hno => ?_⟩
  · have hlt := length_eraseAll_lt hne h
    rw [heq] at hlt
    exact lt_irrefl _ hlt
  · induction text with
    | nil => rfl
    | cons c rest ih =>
      rw [List.infix_cons_iff, not_or] at hno
      rw [eraseAll_cons hno.1, ih hno.2]

/-- Nothing was erased if the length is the same. -/
theorem eraseAll_eq_of_length {needle : List Char} (hne : needle ≠ []) (text : List Char)
    (h : (eraseAll text needle).length = text.length) : eraseAll text needle = text := by
  refine (eraseAll_eq_self_iff hne text).mpr fun hin => ?_
  have hlt := length_eraseAll_lt hne hin
  omega

/-- What no deletion of an occurrence destroys, erasing does not destroy. -/
theorem eraseAll_preserves {needle : List Char} (hne : needle ≠ []) {P : List Char → Prop}
    (hstep : ∀ p s, P (p ++ needle ++ s) → P (p ++ s)) {text : List Char} (h : P text) : P (eraseAll text needle) := by
  have hall : ∀ kept : List Char, P (kept ++ text) → P (kept ++ eraseAll text needle) := by
    clear h
    induction text using erase_induction hne with
    | nil => exact fun _ h => h
    | drop after ih =>
      intro kept h
      rw [eraseAll_append hne]
      exact ih kept (hstep kept after (by rwa [List.append_assoc]))
    | keep c rest hpre ih =>
      intro kept h
      rw [eraseAll_cons hpre]
      simpa using ih (kept ++ [c]) (by simpa using h)
  exact hall [] h

theorem length_foldl_eraseAll_le {needles : List (List Char)} (hne : ∀ n ∈ needles, n ≠ []) (text : List Char) :
    (needles.foldl eraseAll text).length ≤ text.length := by
  induction needles generalizing text with
  | nil => exact le_rfl
  | cons n ns ih =>
    rw [List.forall_mem_cons] at hne
    exact (ih hne.2 _).trans (length_eraseAll_le hne.1 text)

/-- Several needles, one after the other, leave a text as it is only if each
does. -/
theorem foldl_eraseAll_eq_self_iff (needles : List (List Char)) (hne : ∀ n ∈ needles, n ≠ []) (text : List Char) :
    needles.foldl eraseAll text = text ↔ ∀ n ∈ needles, eraseAll text n = text := by
  induction needles generalizing text with
  | nil => simp
  | cons n ns ih =>
    rw [List.forall_mem_cons] at hne
    rw [List.foldl_cons, List.forall_mem_cons]
    refine ⟨fun h => ?_, fun h => by rw [h.1]; exact (ih hne.2 text).mpr h.2⟩
    -- the first needle cannot have taken anything away
    have hfirst : eraseAll text n = text := by
      refine eraseAll_eq_of_length hne.1 text (le_antisymm (length_eraseAll_le hne.1 text) ?_)
      have hle := length_foldl_eraseAll_le hne.2 (eraseAll text n)
      rwa [h] at hle
    rw [hfirst] at h
    exact ⟨hfirst, (ih hne.2 text).mp h⟩

theorem ModelSpecialTokens.needles_ne_nil (tokens : ModelSpecialTokens) : ∀ n ∈ tokens.needles, n ≠ [] := by
  intro n hn
  simpa using (List.mem_filter.mp hn).2

/-! ### Erasing in a coded text -/

section Code

variable {esc : Char → List Char} {mark : Char}

/-- A text is passed over in which the needle cannot begin. -/
theorem eraseAll_append_of_notMem {needle : List Char} (hmark : needle.head? = some mark) :
    ∀ before after : List Char, mark ∉ before → eraseAll (before ++ after) needle = before ++ eraseAll after needle
  | [], _, _ => rfl
  | c :: before, after, h => by
    rw [List.mem_cons, not_or] at h
    have hpre : ¬ needle <+: c :: (before ++ after) := by
      rintro ⟨rest, hrest⟩
      obtain ⟨d, ds, rfl⟩ := List.exists_cons_of_ne_nil (l := needle) (by rintro rfl; cases hmark)
      have hd : d = mark := by simpa using hmark
      exact h.1 (hd ▸ (List.cons.inj hrest).1)
    rw [List.cons_append, eraseAll_cons hpre, eraseAll_append_of_notMem hmark before after h.2, List.cons_append]

/-- What comes after the text stays if the needle cannot reach into it. -/
theorem eraseAll_append_right {needle : List Char} {last : Char} (hmark : needle.head? = some mark)
    (hlast : needle.getLast? = some last) {after : List Char} (ha : mark ∉ after) (hl : last ∉ after)
    (text : List Char) : eraseAll (text ++ after) needle = eraseAll text needle ++ after := by
  have hne : needle ≠ [] := by rintro rfl; cases hmark
  have hafter : eraseAll after needle = after := by
    have := eraseAll_append_of_notMem hmark after [] ha
    simpa [eraseAll_nil] using this
  induction text using erase_induction hne with
  | nil => simp [eraseAll_nil, hafter]
  | drop rest ih => rw [List.append_assoc, eraseAll_append hne, eraseAll_append hne, ih]
  | keep c rest hpre ih =>
    have hpre' : ¬ needle <+: c :: (rest ++ after) := by
      rintro ⟨rest', hrest'⟩
      -- the needle ends before `after` does, or its last character is in it
      rcases List.append_eq_append_iff.mp (hrest'.trans (List.cons_append ..).symm) with ⟨as, h1, h2⟩ | ⟨as, h1, h2⟩
      · exact hpre ⟨as, h1.symm⟩
      · rcases List.eq_nil_or_concat as with rfl | ⟨as', a, rfl⟩
        · exact hpre ⟨[], by simpa using h1⟩
        · rw [h1, List.concat_eq_append, ← List.append_assoc, List.getLast?_append] at hlast
          have ha' : a = last := by simpa using hlast
          refine hl ?_
          rw [h2, ← ha']
          simp
    rw [eraseAll_cons hpre, List.cons_append, eraseAll_cons hpre', ih, List.cons_append]

/-- A coded token at the front of a coded text is the token at the front of
the text. -/
theorem isPrefix_of_flatMap (hcode : PrefixCode.SelfDelimiting esc) (hne : ∀ c, esc c ≠ []) :
    ∀ token text : List Char, token.flatMap esc <+: text.flatMap esc → token <+: text
  | [], _, _ => List.nil_prefix
  | d :: ds, [], h => by
    obtain ⟨rest, hrest⟩ := h
    simp [hne d] at hrest
  | d :: ds, e :: es, h => by
    obtain ⟨rest, hrest⟩ := h
    rw [List.flatMap_cons, List.flatMap_cons, List.append_assoc] at hrest
    obtain ⟨rfl, hr⟩ := hcode hrest
    exact List.cons_prefix_cons.mpr ⟨rfl, isPrefix_of_flatMap hcode hne ds es ⟨rest, hr⟩⟩

/-- Erasing a coded token from a coded text is erasing it from the text, if
the token begins with a mark that occurs in no other code. -/
theorem eraseAll_flatMap (hcode : PrefixCode.SelfDelimiting esc) (hne : ∀ c, esc c ≠ []) (hmark : esc mark = [mark])
    (honly : ∀ c, mark ∈ esc c → c = mark) {token : List Char} (htoken : token.head? = some mark) (text : List Char) :
    eraseAll (text.flatMap esc) (token.flatMap esc) = (eraseAll text token).flatMap esc := by
  have htne : token ≠ [] := by rintro rfl; cases htoken
  obtain ⟨hcne, hchead⟩ : token.flatMap esc ≠ [] ∧ (token.flatMap esc).head? = some mark := by
    obtain ⟨t, ts, rfl⟩ := List.exists_cons_of_ne_nil htne
    obtain rfl : t = mark := by simpa using htoken
    simp [hmark]
  induction text using erase_induction htne with
  | nil => rfl
  | drop after ih => rw [List.flatMap_append, eraseAll_append hcne, eraseAll_append htne, ih]
  | keep c rest hpre ih =>
    obtain ⟨d, ds, hd⟩ := List.exists_cons_of_ne_nil (hne c)
    -- the needle begins neither with the code of `c` nor inside it
    have hfirst : ¬ token.flatMap esc <+: d :: (ds ++ rest.flatMap esc) := by
      intro h
      refine hpre (isPrefix_of_flatMap hcode hne token (c :: rest) ?_)
      rwa [List.flatMap_cons, hd, List.cons_append]
    have hinside : mark ∉ ds := by
      intro hm
      obtain rfl := honly c (by rw [hd]; exact List.mem_cons_of_mem d hm)
      rw [hmark] at hd
      rw [← (List.cons.inj hd).2] at hm
      cases hm
    rw [eraseAll_cons hpre, List.flatMap_cons, List.flatMap_cons, hd, List.cons_append, eraseAll_cons hfirst,
      eraseAll_append_of_notMem hchead ds _ hinside, ih, List.cons_append]

end Code

/-! ### Tokens in angle brackets -/

def hexDigit (n : ℕ) : Char := if n < 10 then Char.ofNat (48 + n) else Char.ofNat (87 + n)

/-- How a character of a string is printed. -/
def dumpEscape (c : Char) : List Char :=
  if c = '"' then ['\\', '"']
  else if c = '\\' then ['\\', '\\']
  else if c = '\x08' then ['\\', 'b']
  else if c = '\t' then ['\\', 't']
  else if c = '\n' then ['\\', 'n']
  else if c = '\x0c' then ['\\', 'f']
  else if c = '\r' then ['\\', 'r']
  else if c.toNat < 32 then ['\\', 'u', '0', '0', hexDigit (c.toNat / 16), hexDigit (c.toNat % 16)]
  else [c]

def hexValue (c : Char) : ℕ := if c.toNat < 58 then c.toNat - 48 else c.toNat - 87

/-- Reads an escaped character back. -/
def readEscaped : List Char → Option (Char × List Char)
  | '\\' :: 'u' :: '0' :: '0' :: h :: l :: rest => some (Char.ofNat (16 * hexValue h + hexValue l), rest)
  | '\\' :: c :: rest =>
    some (if c = 'b' then '\x08' else if c = 't' then '\t' else if c = 'n' then '\n' else if c = 'f' then '\x0c'
      else if c = 'r' then '\r' else c, rest)
  | c :: rest => some (c, rest)
  | [] => none

theorem hexValue_hexDigit {n : ℕ} (h : n < 16) : hexValue (hexDigit n) = n := by
  interval_cases n <;> decide

theorem readEscaped_dumpEscape (c : Char) (rest : List Char) : readEscaped (dumpEscape c ++ rest) = some (c, rest) := by
  unfold dumpEscape
  split_ifs with h1 h2 h3 h4 h5 h6 h7 h8
  · simp [readEscaped, h1]
  · simp [readEscaped, h2]
  · simp [readEscaped, h3]
  · simp [readEscaped, h4]
  · simp [readEscaped, h5]
  · simp [readEscaped, h6]
  · simp [readEscaped, h7]
  · have hval : 16 * hexValue (hexDigit (c.toNat / 16)) + hexValue (hexDigit (c.toNat % 16)) = c.toNat := by
      rw [hexValue_hexDigit (by omega), hexValue_hexDigit (by omega)]
      omega
    simp [readEscaped, hval]
  · simp [readEscaped, h2]

theorem selfDelimiting_dumpEscape : PrefixCode.SelfDelimiting dumpEscape := by
  intro a b r r' heq
  have h := (readEscaped_dumpEscape a r).symm.trans ((congrArg readEscaped heq).trans (readEscaped_dumpEscape b r'))
  simpa using h

theorem dumpEscape_ne_nil (c : Char) : dumpEscape c ≠ [] := by
  unfold dumpEscape
  split_ifs <;> simp

theorem hexDigit_ne {n : ℕ} (h : n < 16) : hexDigit n ≠ '<' := by
  interval_cases n <;> decide

/-- An angle bracket stands for itself, and is in no escape. -/
theorem eq_of_bracket_mem {c : Char} (h : '<' ∈ dumpEscape c) : c = '<' := by
  unfold dumpEscape at h
  split_ifs at h with h1 h2 h3 h4 h5 h6 h7 h8
  all_goals try simp at h
  · rcases h with h | h
    · exact absurd h.symm (hexDigit_ne (by omega))
    · exact absurd h.symm (hexDigit_ne (by omega))
  · exact h.symm

/-- Without control characters the two ways to escape agree. -/
theorem jsonEscape_eq_flatMap {token : List Char} (h : ∀ c ∈ token, 32 ≤ c.toNat) :
    jsonEscape token = token.flatMap dumpEscape := by
  unfold jsonEscape
  refine List.flatMap_congr fun c hc => ?_
  have hc32 := h c hc
  unfold dumpEscape
  by_cases h1 : c = '"'
  · simp [h1]
  by_cases h2 : c = '\\'
  · simp [h2]
  have hcontrol : ∀ d : Char, d.toNat < 32 → c ≠ d := by
    rintro d hd rfl
    omega
  simp [h1, h2, hcontrol '\x08' (by decide), hcontrol '\t' (by decide), hcontrol '\n' (by decide),
    hcontrol '\x0c' (by decide), hcontrol '\r' (by decide), not_lt.mpr hc32]

/-- A text message as it is printed. -/
def textJson (text : List Char) : List Char :=
  "\x7b\"content\":[\x7b\"text\":\"".toList ++ text.flatMap dumpEscape ++
    "\",\"type\":\"text\"\x7d],\"role\":\"assistant\"\x7d".toList

/-- A token in angle brackets, without control characters. -/
def Angled (token : List Char) : Prop :=
  token.head? = some '<' ∧ token.getLast? = some '>' ∧ ∀ c ∈ token, 32 ≤ c.toNat

/-- The tokens erased from a text. -/
def ModelSpecialTokens.stripText (tokens : ModelSpecialTokens) (text : List Char) : List Char :=
  (tokens.strip.map String.toList).foldl eraseAll text

/-- The escaped token, as it is searched for. -/
theorem Angled.needle {token : List Char} (h : Angled token) :
    (jsonEscape token).head? = some '<' ∧ (jsonEscape token).getLast? = some '>' := by
  obtain ⟨hhead, hlast, hctl⟩ := h
  rw [jsonEscape_eq_flatMap hctl]
  constructor
  · obtain ⟨t, ts, rfl⟩ := List.exists_cons_of_ne_nil (l := token) (by rintro rfl; cases hhead)
    obtain rfl : t = '<' := by simpa using hhead
    simp [dumpEscape]
  · obtain ⟨init, l, rfl⟩ := List.eq_nil_or_concat token |>.resolve_left (by rintro rfl; cases hhead)
    obtain rfl : l = '>' := by simpa using hlast
    simp [dumpEscape]

/-- Stripping a token from a printed text message strips it from the text. -/
theorem eraseAll_textJson {token : List Char} (h : Angled token) (text : List Char) :
    eraseAll (textJson text) (jsonEscape token) = textJson (eraseAll text token) := by
  obtain ⟨hhead, hlast⟩ := h.needle
  unfold textJson
  rw [eraseAll_append_right hhead hlast (by decide) (by decide), eraseAll_append_of_notMem hhead _ _ (by decide),
    jsonEscape_eq_flatMap h.2.2, eraseAll_flatMap selfDelimiting_dumpEscape dumpEscape_ne_nil (by decide)
      (fun c hc => eq_of_bracket_mem hc) h.1]

theorem decodeSpecialTokens_textJson {tokens : ModelSpecialTokens} (h : ∀ t ∈ tokens.strip, Angled t.toList)
    (text : List Char) :
    decodeSpecialTokens (String.ofList (textJson text)) tokens =
      String.ofList (textJson (tokens.stripText text)) := by
  have hneedles : tokens.needles = tokens.strip.map fun t => jsonEscape t.toList := by
    unfold ModelSpecialTokens.needles
    refine List.filter_eq_self.mpr fun needle hn => ?_
    obtain ⟨t, ht, rfl⟩ := List.mem_map.mp hn
    have hne : jsonEscape t.toList ≠ [] := fun he => by
      have hhead := (h t ht).needle.1
      rw [he] at hhead
      cases hhead
    simpa using hne
  unfold decodeSpecialTokens ModelSpecialTokens.stripText
  rw [hneedles, String.toList_ofList]
  congr 1
  generalize tokens.strip = strip at h
  induction strip generalizing text with
  | nil => rfl
  | cons t ts ih =>
    simp only [List.map_cons, List.foldl_cons]
    rw [eraseAll_textJson (h t List.mem_cons_self)]
    exact ih _ fun t' ht' => h t' (List.mem_cons_of_mem t ht')

end AgentFlow
