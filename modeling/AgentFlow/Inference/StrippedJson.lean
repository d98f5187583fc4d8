/-
# Stripping special tokens keeps a JSON text valid

An angle bracket occurs in a JSON text only inside a string literal, as a
character of its own. So an occurrence of an escaped token that stands in angle
brackets begins and ends between units of one string literal, and holds whole
units only: erasing it takes these out of the literal and leaves every other
lexeme as it is (`render_delete`). Every erasure of every pass is of this kind.

Key definitions: `unitOf`.
Key theorems: `locate_bracket`, `render_delete`, `decodeSpecialTokens_render`.
-/
import AgentFlow.Inference.SpecialTokenProbe
import AgentFlow.Lib.JsonText

namespace AgentFlow

open JsonText

/-! ### Angle brackets in a JSON text -/

theorem bracket_notMem_number {text : List Char} (h : IsNumber text) : '<' ∉ text := by
  obtain ⟨sign, int, frac, exp, rfl, hsign, ⟨hint, -⟩, hfrac, hexp⟩ := h
  have hdigits : ∀ ds : List Char, IsDigits ds → '<' ∉ ds := fun ds hds hmem => by
    have := hds.2 _ hmem
    revert this
    decide
  simp only [List.mem_append, not_or]
  refine ⟨⟨⟨?_, hdigits int hint⟩, ?_⟩, ?_⟩
  · rcases hsign with rfl | rfl <;> decide
  · rcases hfrac with rfl | ⟨ds, hds, rfl⟩
    · simp
    · simpa using hdigits ds hds
  · rcases hexp with rfl | ⟨e, s, ds, he, hs, hds, rfl⟩
    · simp
    · simp only [List.cons_append, List.mem_cons, List.mem_append, not_or]
      refine ⟨?_, ?_, hdigits ds hds⟩
      · rintro rfl
        revert he
        decide
      · intro hmem
        revert hmem
        fin_cases hs <;> decide

/-- Only string literals hold angle brackets. -/
theorem exists_string_of_bracket {l : Lexeme} (h : '<' ∈ l.text) : ∃ us, l = .string us := by
  cases l with
  | space c hc =>
    obtain rfl : '<' = c := by simpa [Lexeme.text] using h
    exact absurd hc (by decide)
  | mark c hc =>
    obtain rfl : '<' = c := by simpa [Lexeme.text] using h
    exact absurd hc (by decide)
  | atom text htext =>
    exfalso
    replace h : '<' ∈ text := h
    rcases htext with htext | htext
    · simp only [IsLiteral, List.mem_cons, List.not_mem_nil, or_false] at htext
      rcases htext with rfl | rfl | rfl <;> exact absurd h (by decide)
    · exact bracket_notMem_number htext h
  | string us => exact ⟨us, rfl⟩

/-- In a string literal an angle bracket is a unit of its own. -/
theorem text_of_bracket {u : StringUnit} (h : '<' ∈ u.text) : u.text = ['<'] := by
  obtain ⟨text, hu⟩ := u
  cases hu with
  | plain _ _ _ => simpa [eq_comm] using h
  | escape hc =>
    exfalso
    simp only [List.mem_cons, List.not_mem_nil, or_false] at h
    rcases h with h | rfl
    · exact absurd h (by decide)
    · exact absurd hc (by decide)
  | unicode ha hb hc hd =>
    exfalso
    have hhex : ¬ IsHex '<' := by
      unfold IsHex
      decide
    simp only [List.mem_cons, List.not_mem_nil, or_false] at h
    rcases h with h | h | rfl | rfl | rfl | rfl
    · exact absurd h (by decide)
    · exact absurd h (by decide)
    · exact hhex ha
    · exact hhex hb
    · exact hhex hc
    · exact hhex hd

/-- Where an angle bracket stands in a JSON text. -/
theorem locate_bracket {ls : List Lexeme} {p r : List Char} (h : render ls = p ++ '<' :: r) :
    ∃ before after us vs, ls = before ++ .string (us ++ vs) :: after ∧ p = render before ++ '"' :: renderUnits us ∧
      '<' :: r = renderUnits vs ++ '"' :: render after := by
  obtain ⟨before, l, after, q, t, rfl, hl, rfl, rfl⟩ := exists_of_flatMap_eq h
  obtain ⟨units, rfl⟩ := exists_string_of_bracket (l := l) (by rw [hl]; simp)
  -- not at the opening quote, and not at the closing one
  have hinside : ∃ q' t', q = '"' :: q' ∧ renderUnits units = q' ++ '<' :: t' ∧ t = t' ++ ['"'] := by
    cases q with
    | nil => exact absurd (List.cons.inj hl).1 (by decide)
    | cons d q' =>
      obtain ⟨rfl, hrest⟩ := List.cons.inj hl
      rcases List.append_eq_append_iff.mp hrest with ⟨x, rfl, hx⟩ | ⟨x, hx, ht⟩
      · have hmem : '<' ∈ ['"'] := by
          rw [hx]
          simp
        exact absurd hmem (by decide)
      · cases x with
        | nil => exact absurd (List.cons.inj ht).1 (by decide)
        | cons e x =>
          obtain ⟨rfl, rfl⟩ := List.cons.inj ht
          exact ⟨q', x, rfl, hx, rfl⟩
  obtain ⟨q', t', rfl, hunits, rfl⟩ := hinside
  obtain ⟨us, u, vs, q, t, rfl, hu, rfl, rfl⟩ := exists_of_flatMap_eq hunits
  have hbracket := text_of_bracket (u := u) (by rw [hu]; simp)
  rw [hbracket] at hu
  obtain ⟨rfl, rfl⟩ : q = [] ∧ t = [] := by
    have hlen := congrArg List.length hu
    simp only [List.length_append, List.length_cons, List.length_nil] at hlen
    exact ⟨List.length_eq_zero_iff.mp (by omega), List.length_eq_zero_iff.mp (by omega)⟩
  refine ⟨before, after, us, u :: vs, rfl, by simp [render, renderUnits], ?_⟩
  rw [renderUnits_cons, hbracket]
  simp [render, renderUnits]

/-! ### Erasing a token -/

/-- Whole units between angle brackets can be deleted from a JSON text: they
are deleted from one string literal. -/
theorem render_delete {mid : List StringUnit} {first last : StringUnit} (hfirst : mid.head? = some first)
    (hlast : mid.getLast? = some last) (hopen : first.text = ['<']) (hclose : last.text = ['>'])
    {ls : List Lexeme} {p s : List Char} (h : render ls = p ++ renderUnits mid ++ s) :
    ∃ ms, render ms = p ++ s ∧ List.Forall₂ Thinned ls ms := by
  obtain ⟨rest, hrest⟩ : ∃ rest, renderUnits mid = '<' :: rest := by
    obtain ⟨u, us, rfl⟩ := List.exists_cons_of_ne_nil (l := mid) (by rintro rfl; cases hfirst)
    obtain rfl : u = first := by simpa using hfirst
    exact ⟨renderUnits us, by rw [renderUnits_cons, hopen]; rfl⟩
  obtain ⟨before, after, us, vs, rfl, rfl, hvs⟩ := locate_bracket (p := p) (r := rest ++ s) (by rw [h, hrest]; simp)
  have hunits : renderUnits vs ++ '"' :: render after = renderUnits mid ++ s := by
    rw [← hvs, hrest]
    rfl
  obtain ⟨vs', rfl, rfl⟩ := units_of_prefix hunits
  have hpaired : Paired false (us ++ (mid ++ vs')) → Paired false (us ++ vs') := by
    rw [← List.append_assoc]
    refine Paired.delete hfirst hlast ?_ ?_ us vs' false
    · simp [StringUnit.isLow, hopen]
    · simp [StringUnit.isHigh, hclose]
  have hsub : (us ++ vs').Sublist (us ++ (mid ++ vs')) :=
    (List.Sublist.refl us).append (List.sublist_append_right mid vs')
  refine ⟨before ++ .string (us ++ vs') :: after, by simp [Lexeme.text], ?_⟩
  exact List.rel_append (forall₂_thinned_refl before) (.cons (.string hsub hpaired) (forall₂_thinned_refl after))

/-- A character of a token as it is searched for. -/
def unitOf (c : Char) (h : 32 ≤ c.toNat) : StringUnit :=
  if hquoted : c = '"' ∨ c = '\\' then ⟨['\\', c], .escape (by rcases hquoted with rfl | rfl <;> decide)⟩
  else ⟨[c], .plain h (fun hq => hquoted (Or.inl hq)) fun hb => hquoted (Or.inr hb)⟩

/-- An escaped token is a sequence of whole units between angle brackets. -/
theorem Angled.units {token : List Char} (h : Angled token) :
    ∃ (mid : List StringUnit) (first last : StringUnit), jsonEscape token = renderUnits mid ∧
      mid.head? = some first ∧ mid.getLast? = some last ∧ first.text = ['<'] ∧ last.text = ['>'] := by
  obtain ⟨hhead, hlast, hcontrol⟩ := h
  have htext : ∀ c (hc : 32 ≤ c.toNat), (unitOf c hc).text = if c = '"' ∨ c = '\\' then ['\\', c] else [c] := by
    intro c hc
    unfold unitOf
    split_ifs <;> rfl
  have hrender : jsonEscape token = renderUnits (token.pmap unitOf hcontrol) := by
    clear hhead hlast
    induction token with
    | nil => rfl
    | cons c cs ih =>
      rw [List.pmap_cons, renderUnits_cons, htext, ← ih fun d hd => hcontrol d (List.mem_cons_of_mem c hd)]
      rfl
  refine ⟨token.pmap unitOf hcontrol, unitOf '<' (by decide), unitOf '>' (by decide), hrender, ?_, ?_, rfl, rfl⟩
  · obtain ⟨c, cs, rfl⟩ := List.exists_cons_of_ne_nil (l := token) (by rintro rfl; cases hhead)
    obtain rfl : c = '<' := by simpa using hhead
    rfl
  · obtain ⟨init, l, rfl⟩ := List.eq_nil_or_concat token |>.resolve_left (by rintro rfl; cases hhead)
    obtain rfl : l = '>' := by simpa using hlast
    simp [List.concat_eq_append, List.pmap_append]

/-- Every pass keeps the lexemes, up to units of string literals. -/
theorem foldl_eraseAll_render {needles : List (List Char)}
    (hneedles : ∀ n ∈ needles, ∃ token, Angled token ∧ n = jsonEscape token) (ls : List Lexeme) :
    ∃ ms, needles.foldl eraseAll (render ls) = render ms ∧ List.Forall₂ Thinned ls ms := by
  induction needles generalizing ls with
  | nil => exact ⟨ls, rfl, forall₂_thinned_refl ls⟩
  | cons n ns ih =>
    rw [List.forall_mem_cons] at hneedles
    obtain ⟨⟨token, hangled, rfl⟩, hns⟩ := hneedles
    obtain ⟨mid, first, last, hmid, hfirst, hlast, hopen, hclose⟩ := hangled.units
    have hne : jsonEscape token ≠ [] := by
      intro hnil
      have hhead := hangled.needle.1
      rw [hnil] at hhead
      cases hhead
    obtain ⟨ms, hms, hthin⟩ : ∃ ms, eraseAll (render ls) (jsonEscape token) = render ms ∧
        List.Forall₂ Thinned ls ms := by
      refine eraseAll_preserves hne (P := fun x => ∃ ms, x = render ms ∧ List.Forall₂ Thinned ls ms) ?_
        ⟨ls, rfl, forall₂_thinned_refl ls⟩
      rintro p s ⟨ms, hms, hthin⟩
      have hrender : render ms = p ++ renderUnits mid ++ s := by rw [← hms, hmid]
      obtain ⟨ms', hms', hthin'⟩ := render_delete hfirst hlast hopen hclose hrender
      exact ⟨ms', hms'.symm, forall₂_thinned_trans hthin hthin'⟩
    obtain ⟨ms', hms', hthin'⟩ := ih hns ms
    refine ⟨ms', ?_, forall₂_thinned_trans hthin hthin'⟩
    rw [List.foldl_cons, hms, hms']

/-- The tokens of every family stand in angle brackets, and stripping such
tokens from a JSON text leaves a JSON text with the same lexemes, except that
string literals have lost units. -/
theorem stripped_isText : (∀ family, ∀ t ∈ (familySpecialTokens family).strip, Angled t.toList) ∧
    ∀ (tokens : ModelSpecialTokens), (∀ t ∈ tokens.strip, Angled t.toList) → ∀ ls : List Lexeme, IsText ls →
      ∃ ms, decodeSpecialTokens (String.ofList (render ls)) tokens = String.ofList (render ms) ∧ IsText ms ∧
        List.Forall₂ Thinned ls ms := by
  refine ⟨angled_of_family, fun tokens htokens ls htext => ?_⟩
  have hneedles : ∀ n ∈ tokens.needles, ∃ token, Angled token ∧ n = jsonEscape token := by
    intro n hn
    obtain ⟨hmem, -⟩ := List.mem_filter.mp hn
    obtain ⟨t, ht, rfl⟩ := List.mem_map.mp hmem
    exact ⟨t.toList, htokens t ht, rfl⟩
  obtain ⟨ms, hms, hthin⟩ := foldl_eraseAll_render hneedles ls
  refine ⟨ms, ?_, htext.of_thinned hthin, hthin⟩
  rw [decodeSpecialTokens, String.toList_ofList, hms]

/-- An object with one member, whose text begins with a quote fence. -/
def fenced : List Lexeme :=
  [.mark '\x7b' (by decide), .string [unitOf 'a' (by decide)], .mark ':' (by decide),
    .string [unitOf '<' (by decide), unitOf '|' (by decide), unitOf '"' (by decide), unitOf '|' (by decide),
      unitOf '>' (by decide), unitOf 'x' (by decide)],
    .mark '\x7d' (by decide)]

theorem stripped_isText_fenced : ∃ ms, decodeSpecialTokens (String.ofList (render fenced))
    (familySpecialTokens .gemma) = String.ofList (render ms) ∧ IsText ms ∧ List.Forall₂ Thinned fenced ms :=
  stripped_isText.2 _ (stripped_isText.1 .gemma) fenced
    (IsValue.object [[.string]] fun _ hv => List.mem_singleton.mp hv ▸ IsValue.string)

end AgentFlow
