/-
# JSON texts

The syntax of JSON texts in two levels. A text is a sequence of lexemes: white
space, structural marks, literals and numbers (`IsNumber`), and string literals,
which are made of units: plain characters and escapes (`IsUnit`). What the
lexemes other than white space may follow one another is the grammar of values
(`IsValue`), and only the kinds of the lexemes count for it. So a text stays
valid when string literals lose units (`IsText.of_thinned`).

Key definitions: `StringUnit`, `Lexeme`, `render`, `IsText`, `Thinned`.
Key theorems: `selfDelimiting_text`, `units_of_prefix`, `Paired.delete`,
`IsText.of_thinned`.
-/
import AgentFlow.Lib.PrefixCode
import Mathlib.Data.List.Forall2
import Mathlib.Data.List.Infix

namespace JsonText

/-- A symbol of a coded sequence stands in the code of one of its members. -/
theorem exists_of_flatMap_eq {α γ : Type*} {f : α → List γ} {xs : List α} {p r : List γ} {c : γ}
    (h : xs.flatMap f = p ++ c :: r) :
    ∃ before x after q t, xs = before ++ x :: after ∧ f x = q ++ c :: t ∧ p = before.flatMap f ++ q ∧
      r = t ++ after.flatMap f := by
  induction xs generalizing p with
  | nil => simp at h
  | cons x xs ih =>
    rw [List.flatMap_cons] at h
    rcases List.append_eq_append_iff.mp h with ⟨q, rfl, hq⟩ | ⟨t, ht, hrest⟩
    · obtain ⟨before, y, after, q', t, rfl, hy, rfl, rfl⟩ := ih hq
      exact ⟨x :: before, y, after, q', t, rfl, hy, by simp, rfl⟩
    · cases t with
      | nil =>
        obtain ⟨before, y, after, q', t', rfl, hy, hp, rfl⟩ := ih (p := []) (by simpa using hrest.symm)
        refine ⟨x :: before, y, after, q', t', rfl, hy, ?_, rfl⟩
        rw [List.flatMap_cons, List.append_assoc, ← hp, ht]
        simp
      | cons d t =>
        obtain ⟨rfl, rfl⟩ := List.cons.inj hrest
        exact ⟨[], x, xs, p, t, rfl, ht, by simp, rfl⟩

/-! ### String literals -/

def IsHex (c : Char) : Prop := ('0' ≤ c ∧ c ≤ '9') ∨ ('a' ≤ c ∧ c ≤ 'f') ∨ ('A' ≤ c ∧ c ≤ 'F')

/-- What the inside of a string literal is made of. -/
inductive IsUnit : List Char → Prop
  | plain {c : Char} (hcontrol : 32 ≤ c.toNat) (hquote : c ≠ '"') (hback : c ≠ '\\') : IsUnit [c]
  | escape {c : Char} (h : c ∈ ['"', '\\', '/', 'b', 'f', 'n', 'r', 't']) : IsUnit ['\\', c]
  | unicode {a b c d : Char} (ha : IsHex a) (hb : IsHex b) (hc : IsHex c) (hd : IsHex d) :
      IsUnit ['\\', 'u', a, b, c, d]

/-- One character or escape of a string literal. -/
@[ext]
structure StringUnit where
  text : List Char
  isUnit : IsUnit text

namespace StringUnit

/-- The first half of a surrogate pair. -/
def isHigh (u : StringUnit) : Bool :=
  match u.text with
  | [_, _, a, b, _, _] => (a = 'd' ∨ a = 'D') ∧ b ∈ ['8', '9', 'a', 'b', 'A', 'B']
  | _ => false

/-- The second half of a surrogate pair. -/
def isLow (u : StringUnit) : Bool :=
  match u.text with
  | [_, _, a, b, _, _] => (a = 'd' ∨ a = 'D') ∧ b ∈ ['c', 'd', 'e', 'f', 'C', 'D', 'E', 'F']
  | _ => false

/-- No unit begins with a quote. -/
theorem text_append_ne_quote (u : StringUnit) (r r' : List Char) : u.text ++ r ≠ '"' :: r' := by
  obtain ⟨text, h⟩ := u
  intro heq
  cases h with
  | plain _ hquote _ => exact hquote (List.cons.inj heq).1
  | escape _ => exact absurd (List.cons.inj heq).1 (by decide)
  | unicode _ _ _ _ => exact absurd (List.cons.inj heq).1 (by decide)

end StringUnit

/-- The units of a text can be read off its front. -/
theorem selfDelimiting_text : PrefixCode.SelfDelimiting StringUnit.text := by
  rintro ⟨a, ha⟩ ⟨b, hb⟩ r r' heq
  simp only at heq
  suffices h : a = b ∧ r = r' by exact ⟨StringUnit.ext h.1, h.2⟩
  cases ha with
  | plain hcontrol hquote hback =>
    cases hb with
    | plain _ _ _ => simpa using heq
    | escape _ => exact absurd (List.cons.inj heq).1 hback
    | unicode _ _ _ _ => exact absurd (List.cons.inj heq).1 hback
  | escape h =>
    cases hb with
    | plain _ _ hback => exact absurd (List.cons.inj heq).1.symm hback
    | escape _ => simpa using heq
    | unicode _ _ _ _ =>
      obtain ⟨hu, -⟩ := List.cons.inj (List.cons.inj heq).2
      subst hu
      simp at h
  | unicode _ _ _ _ =>
    cases hb with
    | plain _ _ hback => exact absurd (List.cons.inj heq).1.symm hback
    | escape h =>
      obtain ⟨hu, -⟩ := List.cons.inj (List.cons.inj heq).2
      subst hu
      simp at h
    | unicode _ _ _ _ =>
      simp only [List.cons_append, List.nil_append, List.cons.injEq, true_and] at heq
      obtain ⟨rfl, rfl, rfl, rfl, hr⟩ := heq
      exact ⟨rfl, hr⟩

def renderUnits (units : List StringUnit) : List Char := units.flatMap StringUnit.text

@[simp] theorem renderUnits_nil : renderUnits [] = [] := rfl

@[simp] theorem renderUnits_cons (u : StringUnit) (us : List StringUnit) :
    renderUnits (u :: us) = u.text ++ renderUnits us := rfl

@[simp] theorem renderUnits_append (us vs : List StringUnit) :
    renderUnits (us ++ vs) = renderUnits us ++ renderUnits vs := List.flatMap_append

/-- Units at the front of the inside of a string literal are its first units. -/
theorem units_of_prefix {mid us : List StringUnit} {s rest : List Char}
    (h : renderUnits us ++ '"' :: rest = renderUnits mid ++ s) :
    ∃ us', us = mid ++ us' ∧ s = renderUnits us' ++ '"' :: rest := by
  induction mid generalizing us with
  | nil => exact ⟨us, rfl, by simpa using h.symm⟩
  | cons m mid ih =>
    cases us with
    | nil =>
      rw [renderUnits_cons, List.append_assoc] at h
      exact absurd h.symm (m.text_append_ne_quote _ _)
    | cons u us =>
      rw [renderUnits_cons, renderUnits_cons, List.append_assoc, List.append_assoc] at h
      obtain ⟨rfl, h'⟩ := selfDelimiting_text h
      obtain ⟨us', rfl, hs⟩ := ih h'
      exact ⟨us', rfl, hs⟩

/-- Surrogates come in pairs; `isOpen` says that the first half of one has just
been read. -/
def Paired : Bool → List StringUnit → Prop
  | isOpen, [] => isOpen = false
  | isOpen, u :: us => u.isLow = isOpen ∧ Paired u.isHigh us

/-- What lies between units that are no halves of a pair can be taken out. -/
theorem Paired.delete {mid : List StringUnit} {first last : StringUnit} (hfirst : mid.head? = some first)
    (hlast : mid.getLast? = some last) (hlow : first.isLow = false) (hhigh : last.isHigh = false)
    (before after : List StringUnit) (isOpen : Bool) (h : Paired isOpen (before ++ mid ++ after)) :
    Paired isOpen (before ++ after) := by
  induction before generalizing isOpen with
  | cons u us ih => exact ⟨h.1, ih _ h.2⟩
  | nil =>
    have hafter : ∀ (m : List StringUnit) (o : Bool), m.getLast? = some last → Paired o (m ++ after) →
        Paired false after := by
      intro m
      induction m with
      | nil =>
        intro o hm
        cases hm
      | cons u us ihm =>
        intro o hm hp
        cases us with
        | nil =>
          obtain rfl : u = last := by simpa using hm
          exact hhigh ▸ hp.2
        | cons u' us' => exact ihm _ (by simpa using hm) hp.2
    obtain ⟨u, us, rfl⟩ := List.exists_cons_of_ne_nil (l := mid) (by rintro rfl; cases hfirst)
    obtain rfl : u = first := by simpa using hfirst
    have hopen : isOpen = false := h.1.symm.trans hlow
    exact hopen ▸ hafter _ _ hlast h

/-! ### Lexemes -/

def IsDigits (ds : List Char) : Prop := ds ≠ [] ∧ ∀ d ∈ ds, d.isDigit = true

def IsNumber (text : List Char) : Prop :=
  ∃ sign int frac exp : List Char, text = sign ++ int ++ frac ++ exp ∧ (sign = [] ∨ sign = ['-']) ∧
    (IsDigits int ∧ (int.head? = some '0' → int = ['0'])) ∧
    (frac = [] ∨ ∃ ds, IsDigits ds ∧ frac = '.' :: ds) ∧
    (exp = [] ∨ ∃ e s ds, e ∈ ['e', 'E'] ∧ s ∈ [[], ['+'], ['-']] ∧ IsDigits ds ∧ exp = e :: s ++ ds)

def IsLiteral (text : List Char) : Prop :=
  text ∈ [['t', 'r', 'u', 'e'], ['f', 'a', 'l', 's', 'e'], ['n', 'u', 'l', 'l']]

inductive Lexeme
  | space (c : Char) (h : c ∈ [' ', '\t', '\n', '\r'])
  | mark (c : Char) (h : c ∈ ['[', ']', '\x7b', '\x7d', ':', ','])
  | atom (text : List Char) (h : IsLiteral text ∨ IsNumber text)
  | string (units : List StringUnit)

def Lexeme.text : Lexeme → List Char
  | .space c _ => [c]
  | .mark c _ => [c]
  | .atom text _ => text
  | .string units => '"' :: (renderUnits units ++ ['"'])

def render (lexemes : List Lexeme) : List Char := lexemes.flatMap Lexeme.text

@[simp] theorem render_nil : render [] = [] := rfl

@[simp] theorem render_cons (l : Lexeme) (ls : List Lexeme) : render (l :: ls) = l.text ++ render ls := rfl

@[simp] theorem render_append (ls ms : List Lexeme) : render (ls ++ ms) = render ls ++ render ms :=
  List.flatMap_append

/-! ### The grammar -/

/-- What counts of a lexeme for the grammar. -/
inductive Kind
  | mark (c : Char)
  | atom
  | string
  deriving DecidableEq, Repr

def Lexeme.kind : Lexeme → Option Kind
  | .space _ _ => none
  | .mark c _ => some (.mark c)
  | .atom _ _ => some .atom
  | .string _ => some .string

/-- The values. -/
inductive IsValue : List Kind → Prop
  | atom : IsValue [.atom]
  | string : IsValue [.string]
  | array (items : List (List Kind)) (h : ∀ i ∈ items, IsValue i) :
      IsValue ([.mark '['] ++ [Kind.mark ','].intercalate items ++ [.mark ']'])
  | object (values : List (List Kind)) (h : ∀ v ∈ values, IsValue v) :
      IsValue ([.mark '\x7b'] ++ [Kind.mark ','].intercalate (values.map fun v => .string :: .mark ':' :: v) ++
        [.mark '\x7d'])

/-- The lexemes of a JSON text: one value, with white space anywhere. -/
def IsText (lexemes : List Lexeme) : Prop := IsValue (lexemes.filterMap Lexeme.kind)

/-- The same lexeme, or a string literal that has lost units. -/
inductive Thinned : Lexeme → Lexeme → Prop
  | same (l : Lexeme) : Thinned l l
  | string {us vs : List StringUnit} (h : vs.Sublist us) (hpaired : Paired false us → Paired false vs) :
      Thinned (.string us) (.string vs)

theorem Thinned.trans {l m n : Lexeme} (h : Thinned l m) (h' : Thinned m n) : Thinned l n := by
  cases h with
  | same _ => exact h'
  | string hs hp =>
    cases h' with
    | same _ => exact Thinned.string hs hp
    | string hs' hp' => exact Thinned.string (hs'.trans hs) fun hpair => hp' (hp hpair)

theorem Thinned.kind_eq {l m : Lexeme} (h : Thinned l m) : l.kind = m.kind := by
  cases h <;> rfl

/-- Losing units of string literals does not touch the grammar. -/
theorem IsText.of_thinned {ls ms : List Lexeme} (h : List.Forall₂ Thinned ls ms) (htext : IsText ls) : IsText ms := by
  have hkinds : ls.filterMap Lexeme.kind = ms.filterMap Lexeme.kind := by
    clear htext
    induction h with
    | nil => rfl
    | cons hl _ ih => rw [List.filterMap_cons, List.filterMap_cons, hl.kind_eq, ih]
  unfold IsText
  rwa [← hkinds]

theorem forall₂_thinned_refl (ls : List Lexeme) : List.Forall₂ Thinned ls ls :=
  List.forall₂_same.mpr fun l _ => Thinned.same l

theorem forall₂_thinned_trans {ls ms ns : List Lexeme} (h : List.Forall₂ Thinned ls ms)
    (h' : List.Forall₂ Thinned ms ns) : List.Forall₂ Thinned ls ns := by
  induction h generalizing ns with
  | nil => exact h'
  | cons hl _ ih =>
    cases h' with
    | cons hm hms => exact .cons (hl.trans hm) (ih hms)

end JsonText
