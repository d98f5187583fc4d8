/-
# What stripping special tokens leaves behind

One pass for each token is not always enough. Erasing one occurrence can join
what stood on its two sides, and a token that is so assembled during its own
pass, or after it, stays (`Regrows`). Where the text holds nothing of that kind
the tokens are gone and stripping again changes nothing
(`gone_of_not_regrows`). For tokens of which none contains or overlaps another
one the condition is exact: a token that can only be assembled with the help of
its own or of a later pass is never erased.

Key definitions: `ModelSpecialTokens.Gone`, `ModelSpecialTokens.Regrows`.
Key theorems: `exists_shrinks_of_infix`, `shrinks_eraseAll`, `gone_iff_not_regrows`.
-/
import AgentFlow.Inference.SpecialTokenProbe

namespace AgentFlow

open Deletion

/-- No token is left, and stripping once more changes nothing. -/
def ModelSpecialTokens.Gone (tokens : ModelSpecialTokens) (responseJson : String) : Prop :=
  (∀ t ∈ tokens.strip, t ≠ "" →
    ¬ jsonEscape t.toList <:+: (decodeSpecialTokens responseJson tokens).toList) ∧
  decodeSpecialTokens (decodeSpecialTokens responseJson tokens) tokens = decodeSpecialTokens responseJson tokens

/-- Somewhere in the text a token stands with tokens inserted into it, one of
which is erased no earlier than the token itself. -/
def ModelSpecialTokens.Regrows (tokens : ModelSpecialTokens) (text : List Char) : Prop :=
  ∃ (before after ds : List (List Char)) (n w : List Char), tokens.needles = before ++ n :: after ∧ w <:+: text ∧
    Shrinks ds w n ∧ (∀ d ∈ ds, d ∈ tokens.needles) ∧ ∃ d ∈ ds, d ∈ n :: after

theorem jsonEscape_eq_nil_iff (raw : List Char) : jsonEscape raw = [] ↔ raw = [] := by
  cases raw with
  | nil => simp [jsonEscape]
  | cons c cs =>
    rw [jsonEscape, List.flatMap_cons, List.append_eq_nil_iff]
    split_ifs <;> simp

theorem ModelSpecialTokens.mem_needles (tokens : ModelSpecialTokens) (n : List Char) :
    n ∈ tokens.needles ↔ ∃ t ∈ tokens.strip, t ≠ "" ∧ jsonEscape t.toList = n := by
  simp only [ModelSpecialTokens.needles, List.mem_filter, List.mem_map, decide_eq_true_eq]
  constructor
  · rintro ⟨⟨t, ht, rfl⟩, hne⟩
    exact ⟨t, ht, fun he => hne (by simp [he, jsonEscape]), rfl⟩
  · rintro ⟨t, ht, hne, rfl⟩
    refine ⟨⟨t, ht, rfl⟩, fun he => hne ?_⟩
    exact String.toList_eq_nil_iff.mp ((jsonEscape_eq_nil_iff _).mp he)

theorem ModelSpecialTokens.gone_iff (tokens : ModelSpecialTokens) (responseJson : String) :
    tokens.Gone responseJson ↔ ∀ n ∈ tokens.needles, ¬ n <:+: tokens.needles.foldl eraseAll responseJson.toList := by
  unfold ModelSpecialTokens.Gone decodeSpecialTokens
  simp only [String.toList_ofList, String.ofList_inj]
  rw [foldl_eraseAll_eq_self_iff _ tokens.needles_ne_nil]
  constructor
  · rintro ⟨-, h⟩ n hn
    exact (eraseAll_eq_self_iff (tokens.needles_ne_nil n hn) _).mp (h n hn)
  · intro h
    refine ⟨fun t ht hne => ?_, fun n hn => (eraseAll_eq_self_iff (tokens.needles_ne_nil n hn) _).mpr (h n hn)⟩
    exact h _ ((tokens.mem_needles _).mpr ⟨t, ht, hne, rfl⟩)

/-! ### Where a leftover comes from -/

/-- What begins the erased text began the text with needles inserted. -/
theorem exists_shrinks_of_prefix {needle : List Char} (hne : needle ≠ []) {kept : List Char} (hkept : kept ≠ [])
    {v text : List Char} (h : v <+: eraseAll text needle) :
    ∃ u ds, u <+: text ∧ Shrinks ds (kept ++ u) (kept ++ v) ∧ (∀ d ∈ ds, d = needle) ∧ (ds = [] → u = v) := by
  induction text using erase_induction hne generalizing v kept with
  | nil => exact ⟨[], [], List.nil_prefix, by rw [List.prefix_nil.mp h]; exact Shrinks.refl _, by simp,
      fun _ => (List.prefix_nil.mp h).symm⟩
  | drop after ih =>
    by_cases hv : v = []
    · exact ⟨[], [], List.nil_prefix, by rw [hv]; exact Shrinks.refl _, by simp, fun _ => hv.symm⟩
    rw [eraseAll_append hne] at h
    obtain ⟨u, ds, hu, hshrinks, hds, -⟩ := ih hkept h
    have hune : u ≠ [] := by
      have hle := hshrinks.length_le
      have hpos := List.length_pos_iff.mpr hv
      rw [List.length_append, List.length_append] at hle
      exact List.length_pos_iff.mp (by omega)
    refine ⟨needle ++ u, needle :: ds, (List.prefix_append_right_inj needle).mpr hu, ?_, ?_, by simp⟩
    · rw [← List.append_assoc]
      exact Shrinks.delete needle hkept hune hshrinks
    · exact List.forall_mem_cons.mpr ⟨rfl, hds⟩
  | keep c rest hpre ih =>
    rw [eraseAll_cons hpre] at h
    rcases List.prefix_cons_iff.mp h with rfl | ⟨v', rfl, htail⟩
    · exact ⟨[], [], List.nil_prefix, Shrinks.refl _, by simp, fun _ => rfl⟩
    · have hkept' : kept ++ [c] ≠ [] := by simp
      obtain ⟨u, ds, hu, hshrinks, hds, hnil⟩ := ih hkept' htail
      refine ⟨c :: u, ds, List.cons_prefix_cons.mpr ⟨rfl, hu⟩, by simpa using hshrinks, hds, fun hd => ?_⟩
      rw [hnil hd]

/-- What occurs in the erased text occurred in the text with needles inserted;
for the needle itself there was one. -/
theorem exists_shrinks_of_infix {needle : List Char} (hne : needle ≠ []) {v : List Char} (hv : v ≠ [])
    {text : List Char} (h : v <:+: eraseAll text needle) :
    ∃ w ds, w <:+: text ∧ Shrinks ds w v ∧ (∀ d ∈ ds, d = needle) ∧ (v = needle → ds ≠ []) := by
  induction text using erase_induction hne with
  | nil => exact absurd (List.infix_nil.mp h) hv
  | drop after ih =>
    rw [eraseAll_append hne] at h
    obtain ⟨w, ds, hw, hrest⟩ := ih h
    exact ⟨w, ds, hw.trans (List.suffix_append needle after).isInfix, hrest⟩
  | keep c rest hpre ih =>
    rw [eraseAll_cons hpre, List.infix_cons_iff] at h
    rcases h with h | h
    · obtain ⟨e, v', rfl⟩ := List.exists_cons_of_ne_nil hv
      rw [List.cons_prefix_cons] at h
      obtain ⟨rfl, h⟩ := h
      obtain ⟨u, ds, hu, hshrinks, hds, hnil⟩ := exists_shrinks_of_prefix hne (List.cons_ne_nil e []) h
      refine ⟨e :: u, ds, (List.cons_prefix_cons.mpr ⟨rfl, hu⟩).isInfix, hshrinks, hds, fun hneedle hd => ?_⟩
      -- the needle would have been erased here
      rw [hnil hd] at hu
      exact hpre (hneedle ▸ List.cons_prefix_cons.mpr ⟨rfl, hu⟩)
    · obtain ⟨w, ds, hw, hrest⟩ := ih h
      exact ⟨w, ds, hw.trans (List.suffix_cons c rest).isInfix, hrest⟩

/-- The same of several passes. -/
theorem exists_shrinks_of_infix_foldl {needles : List (List Char)} (hne : ∀ n ∈ needles, n ≠ []) {v : List Char}
    (hv : v ≠ []) {text : List Char} (h : v <:+: needles.foldl eraseAll text) :
    ∃ w ds, w <:+: text ∧ Shrinks ds w v ∧ ∀ d ∈ ds, d ∈ needles := by
  induction needles generalizing text with
  | nil => exact ⟨v, [], h, Shrinks.refl v, by simp⟩
  | cons n ns ih =>
    rw [List.forall_mem_cons] at hne
    obtain ⟨w, ds, hw, hshrinks, hds⟩ := ih hne.2 h
    obtain ⟨w', ds', hw', hshrinks', hds', -⟩ := exists_shrinks_of_infix hne.1 (hshrinks.ne_nil hv) hw
    refine ⟨w', ds' ++ ds, hw', hshrinks'.trans hshrinks, fun d hd => ?_⟩
    rcases List.mem_append.mp hd with hd | hd
    · exact hds' d hd ▸ List.mem_cons_self
    · exact List.mem_cons_of_mem n (hds d hd)

/-- A token that is left was assembled during its own pass or after it. -/
theorem gone_of_not_regrows {tokens : ModelSpecialTokens} {responseJson : String}
    (h : ¬ tokens.Regrows responseJson.toList) : tokens.Gone responseJson := by
  rw [tokens.gone_iff]
  intro n hn hleft
  obtain ⟨before, after, hsplit⟩ := List.append_of_mem hn
  have hne := tokens.needles_ne_nil
  rw [hsplit, List.foldl_append, List.foldl_cons] at hleft
  rw [hsplit, List.forall_mem_append, List.forall_mem_cons] at hne
  obtain ⟨hbefore, hnne, hafter⟩ := hne
  -- back through the later passes, through its own one, and through the earlier ones
  obtain ⟨w₃, ds₃, hw₃, hs₃, hd₃⟩ := exists_shrinks_of_infix_foldl hafter hnne hleft
  have hw₃ne : w₃ ≠ [] := hs₃.ne_nil hnne
  obtain ⟨w₂, ds₂, hw₂, hs₂, hd₂, hown⟩ := exists_shrinks_of_infix hnne hw₃ne hw₃
  obtain ⟨w₁, ds₁, hw₁, hs₁, hd₁⟩ := exists_shrinks_of_infix_foldl hbefore (hs₂.ne_nil hw₃ne) hw₂
  refine h ⟨before, after, ds₁ ++ (ds₂ ++ ds₃), n, w₁, hsplit, hw₁, hs₁.trans (hs₂.trans hs₃), ?_, ?_⟩
  · rw [hsplit]
    intro d hd
    rcases List.mem_append.mp hd with hd | hd
    · exact List.mem_append_left _ (hd₁ d hd)
    rcases List.mem_append.mp hd with hd | hd
    · exact List.mem_append_right _ (hd₂ d hd ▸ List.mem_cons_self)
    · exact List.mem_append_right _ (List.mem_cons_of_mem n (hd₃ d hd))
  · cases ds₃ with
    | cons d ds => exact ⟨d, by simp, List.mem_cons_of_mem n (hd₃ d List.mem_cons_self)⟩
    | nil =>
      have hw₃n : w₃ = n := by cases hs₃; rfl
      obtain ⟨d, ds, rfl⟩ := List.exists_cons_of_ne_nil (hown hw₃n)
      exact ⟨d, by simp, hd₂ d List.mem_cons_self ▸ List.mem_cons_self⟩

/-! ### Why it stays -/

/-- Texts are erased apart if no occurrence reaches from one into the other. -/
theorem eraseAll_append_of_apart {needle : List Char} (hne : needle ≠ []) (x r : List Char)
    (h : ∀ p s, x ++ r = p ++ needle ++ s → (∃ q, x = p ++ needle ++ q) ∨ ∃ q, r = q ++ needle ++ s) :
    eraseAll (x ++ r) needle = eraseAll x needle ++ eraseAll r needle := by
  induction x using erase_induction hne with
  | nil => rfl
  | drop after ih =>
    rw [List.append_assoc, eraseAll_append hne, eraseAll_append hne]
    refine ih fun p s heq => ?_
    have hshift : needle ++ after ++ r = (needle ++ p) ++ needle ++ s := by
      rw [List.append_assoc, heq]
      simp
    rcases h (needle ++ p) s hshift with ⟨q, hq⟩ | hr
    · have hcut : needle ++ after = needle ++ (p ++ needle ++ q) := by
        rw [hq]
        simp
      exact Or.inl ⟨q, List.append_cancel_left hcut⟩
    · exact Or.inr hr
  | keep c rest hpre ih =>
    have hpre' : ¬ needle <+: c :: (rest ++ r) := by
      rintro ⟨s, hs⟩
      rcases h [] s (by simpa using hs.symm) with ⟨q, hq⟩ | ⟨q, hq⟩
      · exact hpre ⟨q, by simpa using hq.symm⟩
      · have hlen := congrArg List.length hs
        have hlen' := congrArg List.length hq
        simp only [List.length_append, List.length_cons] at hlen hlen'
        omega
    rw [List.cons_append, eraseAll_cons hpre, eraseAll_cons hpre', List.cons_append, ih fun p s heq => ?_]
    rcases h (c :: p) s (by simpa using heq) with ⟨q, hq⟩ | hr
    · exact Or.inl ⟨q, by simpa using hq⟩
    · exact Or.inr hr

section LapFree

variable {ns : List (List Char)}

/-- A pass does not undo the insertions around a token, unless nothing is
inserted and the pass is the token's own. -/
theorem shrinks_eraseAll (hfree : LapFree ns) (hnil : ∀ n ∈ ns, n ≠ []) {needle n w : List Char}
    {ds : List (List Char)} (h : Shrinks ds w n) (hds : ∀ d ∈ ds, d ∈ ns) (hn : n ∈ ns) (hneedle : needle ∈ ns)
    (hother : needle ≠ n ∨ ds ≠ []) :
    ∃ es, Shrinks es (eraseAll w needle) n ∧ (∀ d ∈ es, d ∈ ds) ∧ ∀ d ∈ ds, d ≠ needle → d ∈ es := by
  have hne := hnil needle hneedle
  obtain ⟨c, rest, rfl⟩ := List.exists_cons_of_ne_nil (h.ne_nil (hnil n hn))
  rcases eraseAll_cases hne c rest with ⟨after, hsplit, -⟩ | ⟨-, he⟩
  · -- an occurrence that begins where the text does is all of it
    exfalso
    rcases h.place hfree hds hn hneedle (y := []) (z := []) (p := []) (s := after) (by simpa using hsplit)
      with ⟨q, hq⟩ | ⟨q, hq⟩ | ⟨q, r, hw, hq, -, hiff⟩
    · simp [hne] at hq
    · simp [hne] at hq
    · have hq' : q = [] := by simpa using hq.symm
      rw [hq', hiff.mp hq', List.nil_append, List.append_nil] at hw
      obtain ⟨rfl, hwn⟩ := h.nil_of_mem hfree hds (hw ▸ hneedle)
      exact hother.elim (fun hno => hno (hw.symm.trans hwn)) fun hno => hno rfl
  · rw [he]
    refine eraseAll_preserves hne
      (P := fun x => ∃ es, Shrinks es (c :: x) n ∧ (∀ d ∈ es, d ∈ ds) ∧ ∀ d ∈ ds, d ≠ needle → d ∈ es)
      ?_ ⟨ds, h, fun _ hd => hd, fun _ hd _ => hd⟩
    rintro p s ⟨es, hes, hsub, hkeep⟩
    have hin : ∀ d ∈ es, d ∈ ns := fun d hd => hds d (hsub d hd)
    have hs : s ≠ [] := by
      rcases hes.place hfree hin hn hneedle (y := []) (z := []) (p := c :: p) (s := s) (by simp)
        with ⟨q, hq⟩ | ⟨q, hq⟩ | ⟨q, r, -, hq, hr, hiff⟩
      · cases hq
      · simp [hne] at hq
      · have hr' : s = r := by simpa using hr
        have hq' : c :: p = q := by simpa using hq
        rw [hr']
        exact fun hnil' => List.cons_ne_nil c p (hq'.trans (hiff.mpr hnil'))
    obtain ⟨es', hes', hsub', hkeep'⟩ :=
      hes.delete_inside hfree hin hn hneedle (p := c :: p) (s := s) (List.cons_ne_nil c p) hs (by simp)
    exact ⟨es', hes', fun d hd => hsub d (hsub' d hd), fun d hd hdn => hkeep' d (hkeep d hd hdn) hdn⟩

/-- The text in which a token stands with others inserted is erased apart from
what surrounds it. -/
theorem infix_eraseAll (hfree : LapFree ns) (hnil : ∀ n ∈ ns, n ≠ []) {needle n w text : List Char}
    {ds : List (List Char)} (h : Shrinks ds w n) (hds : ∀ d ∈ ds, d ∈ ns) (hn : n ∈ ns) (hneedle : needle ∈ ns)
    (hw : w <:+: text) : eraseAll w needle <:+: eraseAll text needle := by
  have hne := hnil needle hneedle
  obtain ⟨y, z, rfl⟩ := hw
  have hright : eraseAll (w ++ z) needle = eraseAll w needle ++ eraseAll z needle := by
    refine eraseAll_append_of_apart hne w z fun p s heq => ?_
    rcases h.place hfree hds hn hneedle (y := []) (z := z) (p := p) (s := s) (by simpa using heq)
      with ⟨q, hq⟩ | hz | ⟨q, r, hw, hp, -, -⟩
    · simp [hne] at hq
    · exact Or.inr hz
    · exact Or.inl ⟨r, by rw [hw, hp, List.nil_append]⟩
  have hleft : eraseAll (y ++ (w ++ z)) needle = eraseAll y needle ++ eraseAll (w ++ z) needle := by
    refine eraseAll_append_of_apart hne y (w ++ z) fun p s heq => ?_
    rcases h.place hfree hds hn hneedle (y := y) (z := z) (p := p) (s := s) (by simpa using heq)
      with hy | ⟨q, hq⟩ | ⟨q, r, hw, -, hs, -⟩
    · exact Or.inl hy
    · exact Or.inr ⟨w ++ q, by rw [hq]; simp⟩
    · exact Or.inr ⟨q, by rw [hw, hs]; simp⟩
  rw [List.append_assoc, hleft, hright, ← List.append_assoc]
  exact List.infix_append _ _ _

/-- A run of passes: what is inserted stays inserted if its own pass is not
among them. -/
theorem exists_shrinks_foldl (hfree : LapFree ns) (hnil : ∀ n ∈ ns, n ≠ []) {n : List Char} (hn : n ∈ ns)
    {passes : List (List Char)} (hpasses : ∀ c ∈ passes, c ∈ ns ∧ c ≠ n) {ds : List (List Char)} {w text : List Char}
    (hw : w <:+: text) (h : Shrinks ds w n) (hds : ∀ d ∈ ds, d ∈ ns) :
    ∃ es u, u <:+: passes.foldl eraseAll text ∧ Shrinks es u n ∧ (∀ d ∈ es, d ∈ ns) ∧
      ∀ d ∈ ds, d ∉ passes → d ∈ es := by
  induction passes generalizing ds w text with
  | nil => exact ⟨ds, w, hw, h, hds, fun _ hd _ => hd⟩
  | cons c cs ih =>
    rw [List.forall_mem_cons] at hpasses
    obtain ⟨⟨hc, hcn⟩, hcs⟩ := hpasses
    obtain ⟨es, hes, hsub, hkeep⟩ := shrinks_eraseAll hfree hnil h hds hn hc (Or.inl hcn)
    obtain ⟨fs, u, hu, hfs, hin, hkeep'⟩ := ih hcs (infix_eraseAll hfree hnil h hds hn hc hw) hes
      fun d hd => hds d (hsub d hd)
    refine ⟨fs, u, hu, hfs, hin, fun d hd hnot => ?_⟩
    rw [List.mem_cons, not_or] at hnot
    exact hkeep' d (hkeep d hd hnot.1) hnot.2

end LapFree

/-- Tokens of which none contains or overlaps another one stay exactly where
one is assembled too late. -/
theorem not_regrows_of_gone {tokens : ModelSpecialTokens} (hfree : LapFree tokens.needles)
    (hnodup : tokens.needles.Nodup) {responseJson : String} (h : tokens.Gone responseJson) :
    ¬ tokens.Regrows responseJson.toList := by
  rintro ⟨before, after, ds, n, w, hsplit, hw, hshrinks, hds, d, hd, hlate⟩
  have hnil := tokens.needles_ne_nil
  have hmem : ∀ c ∈ before ++ n :: after, c ∈ tokens.needles := fun c hc => hsplit ▸ hc
  have hn : n ∈ tokens.needles := hmem n (by simp)
  rw [hsplit] at hnodup
  obtain ⟨-, htail, hapart⟩ := List.nodup_append.mp hnodup
  -- through the earlier passes, which leave the late insertion
  have hearlier : ∀ c ∈ before, c ∈ tokens.needles ∧ c ≠ n :=
    fun c hc => ⟨hmem c (by simp [hc]), hapart c hc n List.mem_cons_self⟩
  obtain ⟨es, u, hu, hes, hin, hkeep⟩ := exists_shrinks_foldl hfree hnil hn hearlier hw hshrinks hds
  have hd' : d ∈ es := hkeep d hd fun hb => hapart d hb d hlate rfl
  -- through its own pass, which meets it with something inserted
  obtain ⟨fs, hfs, hsub, -⟩ := shrinks_eraseAll hfree hnil hes hin hn hn (Or.inr (List.ne_nil_of_mem hd'))
  have hown := infix_eraseAll hfree hnil hes hin hn hn hu
  -- through the later ones
  have hlater : ∀ c ∈ after, c ∈ tokens.needles ∧ c ≠ n :=
    fun c hc => ⟨hmem c (by simp [hc]), fun he => (List.nodup_cons.mp htail).1 (he ▸ hc)⟩
  obtain ⟨gs, v, hv, hgs, hgin, -⟩ :=
    exists_shrinks_foldl hfree hnil hn hlater hown hfs fun d hd => hin d (hsub d hd)
  obtain ⟨c, hc, hcv⟩ := hgs.infix_mem
  have hcin : c ∈ tokens.needles := by
    rcases List.mem_cons.mp hc with rfl | hc
    · exact hn
    · exact hgin c hc
  refine (tokens.gone_iff responseJson).mp h c hcin (hcv.trans ?_)
  rw [hsplit, List.foldl_append, List.foldl_cons]
  exact hv

/-- The tokens are gone unless one of them is assembled during its own pass or
after it, and for tokens that do not overlap exactly then. -/
theorem gone_iff_not_regrows (tokens : ModelSpecialTokens) (responseJson : String) :
    (¬ tokens.Regrows responseJson.toList → tokens.Gone responseJson) ∧
    (LapFree tokens.needles → tokens.needles.Nodup →
      (tokens.Gone responseJson ↔ ¬ tokens.Regrows responseJson.toList)) :=
  ⟨gone_of_not_regrows, fun hfree hnodup => ⟨not_regrows_of_gone hfree hnodup, gone_of_not_regrows⟩⟩

/-- For the tokens of a model family the condition is exact. -/
theorem gone_family_iff (family : ModelFamily) (responseJson : String) :
    (familySpecialTokens family).Gone responseJson ↔ ¬ (familySpecialTokens family).Regrows responseJson.toList :=
  ⟨not_regrows_of_gone (lapFree_family family) (nodup_family family), gone_of_not_regrows⟩

/-- A token within itself: erasing the inner one leaves the outer one. -/
theorem not_gone_nested : ¬ ∀ (responseJson : String) (tokens : ModelSpecialTokens), tokens.Gone responseJson := by
  intro h
  have hleft := (ModelSpecialTokens.gone_iff ⟨["<|im_end|>"]⟩ "<|im_<|im_end|>end|>").mp (h _ _)
  exact hleft "<|im_end|>".toList (by decide) ⟨[], [], by decide⟩

end AgentFlow
