/-
# Valid UTF-8

`agentflow/skills/skill_utf8.{h,cc}`: `IsValidUtf8` decodes a text sequence by
sequence, from a lead byte and the bytes that it asks for. A read past the end
of the text stops the scan (`Stop.outOfRange`); none is ever made.

The texts it accepts are the concatenated encodings of scalar values, and
counting the bytes that are no continuation bytes counts these
(`isValidUtf8_exact`).

Key definitions: `nextIndex`, `validFrom`, `isValidUtf8`, `utf8CharacterCount`.
Key theorems: `nextIndex_encode`, `exists_encode`, `isValidUtf8_exact`.
-/
import AgentFlow.Lib.Fallible
import AgentFlow.Lib.Status
import AgentFlow.Lib.Utf8

namespace AgentFlow.Skills

open Utf8

/-- Why the scan stops before the end. -/
inductive Stop
  | invalid
  | outOfRange
  deriving DecidableEq, Repr

/-- `text[i]`. -/
def byteAt (text : List UInt8) (i : ℕ) : Except Stop ℕ :=
  match text[i]? with
  | some byte => .ok byte.toNat
  | none => .error .outOfRange

/-- What a lead byte asks for. -/
structure Lead where
  trailing : ℕ
  point : ℕ
  minimum : ℕ
  deriving DecidableEq, Repr

def leadOf (lead : ℕ) : Option Lead :=
  if 0xC2 ≤ lead ∧ lead ≤ 0xDF then some ⟨1, lead &&& 0x1F, 0x80⟩
  else if 0xE0 ≤ lead ∧ lead ≤ 0xEF then some ⟨2, lead &&& 0x0F, 0x800⟩
  else if 0xF0 ≤ lead ∧ lead ≤ 0xF4 then some ⟨3, lead &&& 0x07, 0x10000⟩
  else none

/-- The point with the bytes that are left, from `text[i + k]`. -/
def continued (text : List UInt8) (i : ℕ) : ℕ → ℕ → ℕ → Except Stop ℕ
  | 0, _, point => .ok point
  | left + 1, k, point => do
    let byte ← byteAt text (i + k)
    if byte &&& 0xC0 ≠ 0x80 then .error .invalid
    else continued text i left (k + 1) ((point <<< 6) ||| (byte &&& 0x3F))

/-- One pass of the loop: the index after the sequence at `i`. -/
def nextIndex (text : List UInt8) (i : ℕ) : Except Stop ℕ := do
  let lead ← byteAt text i
  if lead < 0x80 then .ok (i + 1)
  else
    match leadOf lead with
    | none => .error .invalid
    | some l =>
      if text.length - i - 1 < l.trailing then .error .invalid
      else do
        let point ← continued text i l.trailing 1 l.point
        if point < l.minimum ∨ 0x10FFFF < point ∨ (0xD800 ≤ point ∧ point ≤ 0xDFFF) then .error .invalid
        else .ok (i + (l.trailing + 1))

theorem lt_of_nextIndex {text : List UInt8} {i j : ℕ} (h : nextIndex text i = .ok j) : i < j := by
  unfold nextIndex at h
  obtain ⟨lead, -, h⟩ := Fallible.bind_eq_ok.mp h
  split at h
  · obtain rfl := Except.ok.inj h
    omega
  · split at h
    · cases h
    · split at h
      · cases h
      · obtain ⟨point, -, h⟩ := Fallible.bind_eq_ok.mp h
        split at h
        · cases h
        · obtain rfl := Except.ok.inj h
          omega

/-- `IsValidUtf8`'s loop from index `i`. -/
def validFrom (text : List UInt8) (i : ℕ) : Except Stop Unit :=
  if i < text.length then
    match _ : nextIndex text i with
    | .error stop => .error stop
    | .ok j => validFrom text j
  else .ok ()
  termination_by text.length - i
  decreasing_by
    have hlt := lt_of_nextIndex ‹nextIndex text i = .ok _›
    omega

def isValidUtf8 (text : List UInt8) : Bool :=
  decide (validFrom text 0 = .ok ())

/-- `Utf8CharacterCount` (skill.cc). -/
def utf8CharacterCount (value : List UInt8) (valueName : String) : Except Status.Error ℕ :=
  if isValidUtf8 value = false then
    .error ⟨.invalidArgument, valueName ++ " must contain valid UTF-8"⟩
  else .ok (value.countP fun byte => byte.toNat &&& 0xC0 ≠ 0x80)

/-! ### One sequence -/

/-- The bytes that follow a lead byte. -/
def trailingBytes (rest : List UInt8) (n : ℕ) : List ℕ :=
  (rest.take n).map UInt8.toNat

/-- What the loop and the tests after it let through. -/
def Lead.Accepts (l : Lead) (bs : List ℕ) (point : ℕ) : Prop :=
  (∀ byte ∈ bs, byte &&& 0xC0 = 0x80) ∧
    point = bs.foldl (fun point byte => (point <<< 6) ||| (byte &&& 0x3F)) l.point ∧
    l.minimum ≤ point ∧ point ≤ 0x10FFFF ∧ ¬ (0xD800 ≤ point ∧ point ≤ 0xDFFF)

variable {text rest : List UInt8} {lead : UInt8} {i j : ℕ}

theorem byteAt_of_drop (h : text.drop i = lead :: rest) : byteAt text i = .ok lead.toNat := by
  have hget : text[i]? = some lead := by
    rw [← List.head?_drop, h]
    rfl
  rw [byteAt, hget]

/-- The loop over the trailing bytes, on a text that is long enough. -/
theorem continued_eq_ok {left k point p : ℕ} (h : left ≤ (text.drop (i + k)).length) :
    continued text i left k point = .ok p ↔
      (∀ byte ∈ trailingBytes (text.drop (i + k)) left, byte &&& 0xC0 = 0x80) ∧
        p = (trailingBytes (text.drop (i + k)) left).foldl
          (fun point byte => (point <<< 6) ||| (byte &&& 0x3F)) point := by
  induction left generalizing k point with
  | zero => simp [continued, trailingBytes, eq_comm]
  | succ left ih =>
    obtain ⟨byte, rest, hdrop⟩ := List.exists_cons_of_length_pos (Nat.zero_lt_of_lt h)
    have hnext : text.drop (i + (k + 1)) = rest := by
      rw [← Nat.add_assoc, ← List.drop_drop, hdrop, List.drop_one, List.tail_cons]
    rw [hdrop, List.length_cons] at h
    have hlen : left ≤ (text.drop (i + (k + 1))).length := by
      rw [hnext]
      omega
    rw [continued, byteAt_of_drop hdrop, Fallible.bind_eq_ok, hdrop]
    simp only [Except.ok.injEq, exists_eq_left', trailingBytes, List.take_succ_cons, List.map_cons,
      List.forall_mem_cons, List.foldl_cons]
    by_cases hbyte : byte.toNat &&& 0xC0 = 0x80
    · rw [if_neg (not_not.mpr hbyte), ih hlen, hnext]
      simp only [hbyte, true_and, trailingBytes]
    · rw [if_pos hbyte]
      simp [hbyte]

/-- No read of the loop is past the end. -/
theorem continued_ne_outOfRange {left k point : ℕ} (h : left ≤ (text.drop (i + k)).length) :
    continued text i left k point ≠ .error .outOfRange := by
  induction left generalizing k point with
  | zero => simp [continued]
  | succ left ih =>
    obtain ⟨byte, rest, hdrop⟩ := List.exists_cons_of_length_pos (Nat.zero_lt_of_lt h)
    have hlen : left ≤ (text.drop (i + (k + 1))).length := by
      rw [List.length_drop] at h ⊢
      omega
    rw [continued, byteAt_of_drop hdrop]
    change (if byte.toNat &&& 0xC0 ≠ 0x80 then Except.error Stop.invalid else _) ≠ _
    split
    · simp
    · exact ih hlen

theorem length_drop_succ (h : text.drop i = lead :: rest) : text.length - i - 1 = rest.length := by
  have hlen := congrArg List.length h
  rw [List.length_drop, List.length_cons] at hlen
  omega

theorem drop_succ (h : text.drop i = lead :: rest) : text.drop (i + 1) = rest := by
  rw [← List.drop_drop, h, List.drop_one, List.tail_cons]

/-- When a pass moves on, and how far. -/
theorem nextIndex_eq_ok (h : text.drop i = lead :: rest) :
    nextIndex text i = .ok j ↔
      lead.toNat < 0x80 ∧ j = i + 1 ∨
        0x80 ≤ lead.toNat ∧ ∃ l, leadOf lead.toNat = some l ∧ l.trailing ≤ rest.length ∧
          (∃ point, l.Accepts (trailingBytes rest l.trailing) point) ∧ j = i + (l.trailing + 1) := by
  rw [nextIndex, byteAt_of_drop h, Fallible.bind_eq_ok]
  simp only [Except.ok.injEq, exists_eq_left']
  by_cases hlead : lead.toNat < 0x80
  · rw [if_pos hlead, Except.ok.injEq]
    simp only [hlead, true_and, Nat.not_le.mpr hlead, false_and, or_false, eq_comm]
  · rw [if_neg hlead]
    simp only [hlead, false_and, false_or, Nat.not_lt.mp hlead, true_and]
    cases hl : leadOf lead.toNat with
    | none => simp
    | some l =>
      simp only [Option.some.injEq, exists_eq_left']
      rw [length_drop_succ h]
      by_cases hlen : l.trailing ≤ rest.length
      · have hlen' : l.trailing ≤ (text.drop (i + 1)).length := by rwa [drop_succ h]
        rw [if_neg (Nat.not_lt.mpr hlen), Fallible.bind_eq_ok]
        simp only [continued_eq_ok hlen', drop_succ h, hlen, true_and]
        constructor
        · rintro ⟨point, ⟨hcont, rfl⟩, hpoint⟩
          split at hpoint
          · cases hpoint
          · obtain rfl := Except.ok.inj hpoint
            rename_i hrange
            simp only [not_or, Nat.not_lt] at hrange
            exact ⟨⟨_, hcont, rfl, hrange.1, hrange.2.1, hrange.2.2⟩, rfl⟩
        · rintro ⟨⟨point, hcont, rfl, hmin, hmax, hsurrogate⟩, rfl⟩
          refine ⟨_, ⟨hcont, rfl⟩, if_neg ?_⟩
          simp only [not_or, Nat.not_lt]
          exact ⟨hmin, hmax, hsurrogate⟩
      · rw [if_pos (Nat.lt_of_not_le hlen)]
        simp [hlen]

theorem nextIndex_ne_outOfRange (h : text.drop i = lead :: rest) : nextIndex text i ≠ .error .outOfRange := by
  rw [nextIndex, byteAt_of_drop h]
  change (if lead.toNat < 0x80 then Except.ok (i + 1) else _) ≠ _
  split
  · simp
  · cases leadOf lead.toNat with
    | none => simp
    | some l =>
      dsimp only
      split
      · simp
      · rename_i hlen
        rw [length_drop_succ h, Nat.not_lt, ← drop_succ h] at hlen
        intro hout
        cases hpoint : continued text i l.trailing 1 l.point with
        | error stop =>
          rw [hpoint] at hout
          cases hout
          exact continued_ne_outOfRange hlen hpoint
        | ok point =>
          rw [hpoint] at hout
          change (if _ then _ else Except.ok (i + (l.trailing + 1))) = _ at hout
          split at hout <;> cases hout

/-! ### Sequences and scalar values -/

theorem shift_eq (point byte : ℕ) : (point <<< 6) ||| (byte &&& 0x3F) = 64 * point + byte % 64 := by
  rw [and_3f_eq, shiftLeft_or_eq (Nat.mod_lt _ (by omega))]

/-- What follows a lead byte is let through when it completes an encoding. -/
theorem accepts_iff {b v : ℕ} {l : Lead} {bs : List ℕ} (hl : leadOf b = some l) (hlen : bs.length = l.trailing)
    (hbs : ∀ byte ∈ bs, byte < 256) :
    l.Accepts bs v ↔ v.isValidChar ∧ 0x80 ≤ v ∧ b :: bs = bytesOf v := by
  unfold leadOf at hl
  unfold Lead.Accepts Nat.isValidChar bytesOf
  split_ifs at hl with h1 h2 h3
  all_goals
    cases hl
    simp only at hlen ⊢
  · obtain ⟨x, rfl⟩ := List.length_eq_one_iff.mp hlen
    simp only [List.forall_mem_singleton] at hbs
    simp only [List.forall_mem_singleton, List.foldl_cons, List.foldl_nil, shift_eq, and_c0_eq hbs, and_1f_eq]
    constructor
    · rintro ⟨hx, rfl, hmin, hmax, hsurrogate⟩
      refine ⟨by omega, hmin, ?_⟩
      rw [if_neg (by omega), if_pos (by omega)]
      simp only [List.cons.injEq, and_true]
      omega
    · rintro ⟨hv, hmin, h⟩
      split_ifs at h
      all_goals
        simp only [List.cons.injEq, and_true, reduceCtorEq, and_false] at h
      omega
  · obtain ⟨x, y, rfl⟩ := List.length_eq_two.mp hlen
    simp only [List.forall_mem_cons, List.not_mem_nil, false_implies, implies_true, and_true] at hbs
    simp only [List.forall_mem_cons, List.not_mem_nil, false_implies, implies_true, and_true, List.foldl_cons,
      List.foldl_nil, shift_eq, and_c0_eq hbs.1, and_c0_eq hbs.2, and_0f_eq]
    constructor
    · rintro ⟨hx, rfl, hmin, hmax, hsurrogate⟩
      refine ⟨by omega, by omega, ?_⟩
      rw [if_neg (by omega), if_neg (by omega), if_pos (by omega)]
      simp only [List.cons.injEq, and_true]
      omega
    · rintro ⟨hv, hmin, h⟩
      split_ifs at h
      all_goals
        simp only [List.cons.injEq, and_true, reduceCtorEq, and_false] at h
      omega
  · obtain ⟨x, y, z, rfl⟩ := List.length_eq_three.mp hlen
    simp only [List.forall_mem_cons, List.not_mem_nil, false_implies, implies_true, and_true] at hbs
    simp only [List.forall_mem_cons, List.not_mem_nil, false_implies, implies_true, and_true, List.foldl_cons,
      List.foldl_nil, shift_eq, and_c0_eq hbs.1, and_c0_eq hbs.2.1, and_c0_eq hbs.2.2, and_07_eq]
    constructor
    · rintro ⟨hx, rfl, hmin, hmax, hsurrogate⟩
      refine ⟨by omega, by omega, ?_⟩
      rw [if_neg (by omega), if_neg (by omega), if_neg (by omega)]
      simp only [List.cons.injEq, and_true]
      omega
    · rintro ⟨hv, hmin, h⟩
      split_ifs at h
      all_goals
        simp only [List.cons.injEq, and_true, reduceCtorEq, and_false] at h
      omega

/-- The first byte of a long encoding asks for the others. -/
theorem leadOf_bytesOf {v b : ℕ} {bs : List ℕ} (hmin : 0x80 ≤ v) (hmax : v ≤ 0x10FFFF) (h : bytesOf v = b :: bs) :
    0x80 ≤ b ∧ ∃ l, leadOf b = some l ∧ l.trailing = bs.length := by
  unfold bytesOf at h
  rw [if_neg (by omega)] at h
  split_ifs at h with h2 h3
  all_goals
    obtain ⟨rfl, rfl⟩ := List.cons.inj h
    refine ⟨by omega, ?_⟩
    unfold leadOf
  · rw [if_pos (by omega)]
    exact ⟨_, rfl, rfl⟩
  · rw [if_neg (by omega), if_pos (by omega)]
    exact ⟨_, rfl, rfl⟩
  · rw [if_neg (by omega), if_neg (by omega), if_pos (by omega)]
    exact ⟨_, rfl, rfl⟩

theorem isValidChar_toNat (c : Char) : c.toNat.isValidChar := c.valid

theorem length_trailingBytes {n : ℕ} (h : n ≤ rest.length) : (trailingBytes rest n).length = n := by
  rw [trailingBytes, List.length_map, List.length_take, Nat.min_eq_left h]

theorem lt_of_mem_trailingBytes {n byte : ℕ} (h : byte ∈ trailingBytes rest n) : byte < 256 := by
  obtain ⟨b, -, rfl⟩ := List.mem_map.mp h
  exact b.toNat_lt

/-- An accepted sequence is an encoding. -/
theorem exists_encode (h : text.drop i = lead :: rest) (hj : nextIndex text i = .ok j) :
    ∃ c, String.utf8EncodeChar c <+: text.drop i ∧ j = i + (String.utf8EncodeChar c).length := by
  rw [h]
  rcases (nextIndex_eq_ok h).mp hj with ⟨hlead, rfl⟩ | ⟨-, l, hl, hlen, ⟨point, haccepts⟩, rfl⟩
  · have hbytes : [lead].map UInt8.toNat = bytesOf lead.toNat := by
      rw [bytesOf, if_pos (by omega)]
      rfl
    refine ⟨Char.ofNat lead.toNat, ?_⟩
    rw [← eq_encodeChar (Or.inl (by omega)) hbytes]
    exact ⟨⟨rest, rfl⟩, rfl⟩
  · obtain ⟨hvalid, -, hbytes⟩ :=
      (accepts_iff hl (length_trailingBytes hlen) fun _ => lt_of_mem_trailingBytes).mp haccepts
    have hencode : lead :: rest.take l.trailing = String.utf8EncodeChar (Char.ofNat point) :=
      eq_encodeChar hvalid hbytes
    refine ⟨Char.ofNat point, ?_⟩
    rw [← hencode]
    refine ⟨(List.prefix_cons_inj lead).mpr (List.take_prefix _ _), ?_⟩
    rw [List.length_cons, List.length_take, Nat.min_eq_left hlen]

/-- An encoding is accepted, whatever follows it. -/
theorem nextIndex_encode {c : Char} (h : String.utf8EncodeChar c <+: text.drop i) :
    nextIndex text i = .ok (i + (String.utf8EncodeChar c).length) := by
  obtain ⟨after, hafter⟩ := h
  have hbytes := map_encodeChar c
  cases hencode : String.utf8EncodeChar c with
  | nil =>
    rw [hencode] at hbytes
    have hlen := congrArg List.length hbytes
    unfold bytesOf at hlen
    split_ifs at hlen <;> simp at hlen
  | cons lead others =>
    rw [hencode, List.cons_append] at hafter
    rw [hencode, List.map_cons] at hbytes
    rw [nextIndex_eq_ok hafter.symm]
    by_cases hmin : 0x80 ≤ c.toNat
    · obtain ⟨hlead, l, hl, htrailing⟩ := leadOf_bytesOf hmin (toNat_le c) hbytes.symm
      rw [List.length_map] at htrailing
      have htake : trailingBytes (others ++ after) l.trailing = others.map UInt8.toNat := by
        rw [trailingBytes, htrailing, List.take_left]
      have hlen : l.trailing ≤ (others ++ after).length := by
        rw [htrailing, List.length_append]
        omega
      refine Or.inr ⟨hlead, l, hl, hlen, ⟨c.toNat, ?_⟩, ?_⟩
      · rw [accepts_iff hl (length_trailingBytes hlen) fun _ => lt_of_mem_trailingBytes, htake]
        exact ⟨isValidChar_toNat c, hmin, hbytes⟩
      · rw [htrailing, List.length_cons]
    · rw [bytesOf, if_pos (by omega), List.cons.injEq] at hbytes
      have hothers : others = [] := List.map_eq_nil_iff.mp hbytes.2
      rw [hothers]
      exact Or.inl ⟨by omega, rfl⟩

/-! ### The whole text -/

theorem drop_of_lt (h : i < text.length) : ∃ lead rest, text.drop i = lead :: rest := by
  refine List.exists_cons_of_length_pos ?_
  rw [List.length_drop]
  omega

/-- The scan goes through when what is left is encodings. -/
theorem validFrom_eq_ok (text : List UInt8) (i : ℕ) :
    validFrom text i = .ok () ↔ ∃ cs : List Char, text.drop i = cs.flatMap String.utf8EncodeChar := by
  fun_induction validFrom text i with
  | case1 i hlt stop hstop =>
    refine iff_of_false (fun h => by cases h) ?_
    rintro ⟨cs, hcs⟩
    cases cs with
    | nil =>
      rw [List.flatMap_nil, List.drop_eq_nil_iff] at hcs
      omega
    | cons c cs =>
      have hprefix : String.utf8EncodeChar c <+: text.drop i := ⟨cs.flatMap String.utf8EncodeChar, hcs.symm⟩
      have hnext := nextIndex_encode hprefix
      rw [hstop] at hnext
      cases hnext
  | case2 i hlt j hj ih =>
    obtain ⟨lead, rest, hdrop⟩ := drop_of_lt hlt
    rw [ih]
    constructor
    · rintro ⟨cs, hcs⟩
      obtain ⟨c, ⟨after, hafter⟩, rfl⟩ := exists_encode hdrop hj
      refine ⟨c :: cs, ?_⟩
      rw [← List.drop_drop, ← hafter, List.drop_left] at hcs
      rw [← hafter, hcs, List.flatMap_cons]
    · rintro ⟨cs, hcs⟩
      cases cs with
      | nil =>
        rw [List.flatMap_nil, List.drop_eq_nil_iff] at hcs
        omega
      | cons c cs =>
        rw [List.flatMap_cons] at hcs
        have hprefix : String.utf8EncodeChar c <+: text.drop i := ⟨cs.flatMap String.utf8EncodeChar, hcs.symm⟩
        have hnext := nextIndex_encode hprefix
        rw [hj] at hnext
        obtain rfl := Except.ok.inj hnext
        exact ⟨cs, by rw [← List.drop_drop, hcs, List.drop_left]⟩
  | case3 i hle =>
    refine iff_of_true rfl ⟨[], ?_⟩
    rw [List.flatMap_nil, List.drop_eq_nil_iff]
    omega

/-- Every index the scan reads is in range. -/
theorem validFrom_ne_outOfRange (text : List UInt8) (i : ℕ) : validFrom text i ≠ .error .outOfRange := by
  fun_induction validFrom text i with
  | case1 i hlt stop hstop =>
    obtain ⟨lead, rest, hdrop⟩ := drop_of_lt hlt
    rintro hout
    cases hout
    exact nextIndex_ne_outOfRange hdrop hstop
  | case2 i hlt j hj ih => exact ih
  | case3 i hle => simp

theorem isValidUtf8_iff : isValidUtf8 text = true ↔ ∃ cs : List Char, text = cs.flatMap String.utf8EncodeChar := by
  rw [isValidUtf8, decide_eq_true_eq, validFrom_eq_ok, List.drop_zero]

theorem countP_encodeChar (c : Char) :
    (String.utf8EncodeChar c).countP (fun byte => byte.toNat &&& 0xC0 ≠ 0x80) = 1 := by
  rw [← countP_bytesOf (toNat_le c), ← map_encodeChar, List.countP_map]
  rfl

theorem countP_flatMap_encodeChar (cs : List Char) :
    (cs.flatMap String.utf8EncodeChar).countP (fun byte => byte.toNat &&& 0xC0 ≠ 0x80) = cs.length := by
  induction cs with
  | nil => rfl
  | cons c cs ih => rw [List.flatMap_cons, List.countP_append, countP_encodeChar, ih, List.length_cons, Nat.add_comm]

theorem utf8CharacterCount_encode (cs : List Char) (valueName : String) :
    utf8CharacterCount (cs.flatMap String.utf8EncodeChar) valueName = .ok cs.length := by
  have hvalid : isValidUtf8 (cs.flatMap String.utf8EncodeChar) = true := isValidUtf8_iff.mpr ⟨cs, rfl⟩
  rw [utf8CharacterCount, hvalid, if_neg (by simp), countP_flatMap_encodeChar]

/-- `IsValidUtf8` reads in range and accepts the concatenated encodings of scalar
values, and `Utf8CharacterCount` counts these. -/
theorem isValidUtf8_exact (text : List UInt8) :
    validFrom text 0 ≠ .error .outOfRange ∧
      (isValidUtf8 text = true ↔ ∃ cs : List Char, text = cs.flatMap String.utf8EncodeChar) ∧
      ∀ (cs : List Char) (valueName : String),
        utf8CharacterCount (cs.flatMap String.utf8EncodeChar) valueName = .ok cs.length :=
  ⟨validFrom_ne_outOfRange text 0, isValidUtf8_iff, utf8CharacterCount_encode⟩

end AgentFlow.Skills
