/-
# The language of JSON paths

What `JsonPath::Parse` accepts, and what it makes of it. A path is `$` and
then parts, names `.name` and indices `[digits]`, and a text has at most one
reading as parts (`flatMap_text_inj`). The parser accepts the texts that have
one, with the digits of an index left out too, and its indices are cut to 32
bits. So it follows the language at an expression if and only if the indices
in it have digits and are below `2 ^ 31` (`followsLanguage_iff`).

Key definitions: `Part`, `Reads`, `IsPath`, `follow`, `FollowsLanguage`.
Key theorems: `parse_eq_ok`, `follows_iff`, `followsLanguage_iff`.
-/
import AgentFlow.Lib.Fallible
import AgentFlow.Workflow.JsonPath

namespace AgentFlow.Workflow

open Json Fallible

namespace JsonPath

/-- A part of a path as it is written. -/
inductive Part
  | name (s : List Char)
  | index (digits : List Char)
  deriving DecidableEq, Repr

/-- The value of decimal digits. -/
def decimal (digits : List Char) : ℕ := Nat.ofDigits 10 (digits.map fun c => c.toNat - 48).reverse

/-- A step from a value into it. -/
inductive Step
  | member (name : String)
  | element (n : ℕ)
  deriving DecidableEq, Repr

namespace Part

def text : Part → List Char
  | name s => '.' :: s
  | index digits => '[' :: digits ++ [']']

/-- Names are not empty, and only digits stand in an index. -/
def Ok : Part → Prop
  | name s => s ≠ [] ∧ ∀ c ∈ s, c ≠ '.' ∧ c ≠ '['
  | index digits => ∀ c ∈ digits, c.isDigit

def step : Part → Step
  | name s => .member (String.ofList s)
  | index digits => .element (decimal digits)

/-- What the parser makes of the part. -/
def segment : Part → PathSegment
  | name s => .field (String.ofList s)
  | index digits => .index (atoi digits)

end Part

/-- The expression reads as the parts, of which an index may have no digits. -/
structure Reads (expr : String) (parts : List Part) : Prop where
  ok : ∀ p ∈ parts, p.Ok
  text : expr.toList = '$' :: parts.flatMap Part.text

/-- The expression is a path with the given steps. -/
def IsPath (expr : String) (steps : List Step) : Prop :=
  ∃ parts, Reads expr parts ∧ Part.index [] ∉ parts ∧ steps = parts.map Part.step

/-- The value that the steps lead to. -/
def follow : List Step → Value → Option Value
  | [], v => some v
  | .member name :: steps, v => (v.find? name).bind (follow steps)
  | .element n :: steps, v => (v.arr?.bind fun items => items[n]?).bind (follow steps)

/-- The parser accepts the expression if and only if it is a path, and then
what it makes of it leads where the path leads. -/
structure FollowsLanguage (expr : String) : Prop where
  accepts : (∃ path, parse expr = .ok path) ↔ ∃ steps, IsPath expr steps
  denotes : ∀ path steps, parse expr = .ok path → IsPath expr steps → ∀ root, resolve path root = follow steps root

/-! ### One reading -/

/-- A run of characters, and a rest that does not go on with it. -/
theorem run_of_append {P : Char → Prop} {s t r r' : List Char} (hs : ∀ c ∈ s, P c) (ht : ∀ c ∈ t, P c)
    (hr : ∀ c ∈ r.head?, ¬ P c) (hr' : ∀ c ∈ r'.head?, ¬ P c) (h : s ++ r = t ++ r') : s = t ∧ r = r' := by
  induction s generalizing t with
  | nil =>
    cases t with
    | nil => exact ⟨rfl, h⟩
    | cons d t =>
      rw [List.nil_append] at h
      rw [h] at hr
      exact absurd (ht d List.mem_cons_self) (hr d rfl)
  | cons c s ih =>
    cases t with
    | nil =>
      rw [List.nil_append] at h
      rw [← h] at hr'
      exact absurd (hs c List.mem_cons_self) (hr' c rfl)
    | cons d t =>
      rw [List.cons_append, List.cons_append, List.cons.injEq] at h
      obtain ⟨rfl, h⟩ := h
      rw [List.forall_mem_cons] at hs ht
      obtain ⟨rfl, hrest⟩ := ih hs.2 ht.2 h
      exact ⟨rfl, hrest⟩

/-- After a name comes the end, a dot or a bracket. -/
theorem opens_flatMap (parts : List Part) : ∀ c ∈ (parts.flatMap Part.text).head?, ¬ (c ≠ '.' ∧ c ≠ '[') := by
  cases parts with
  | nil => simp
  | cons p parts => cases p <;> simp [Part.text]

/-- **A text has one reading.** -/
theorem flatMap_text_inj {ps qs : List Part} (hp : ∀ p ∈ ps, p.Ok) (hq : ∀ q ∈ qs, q.Ok)
    (h : ps.flatMap Part.text = qs.flatMap Part.text) : ps = qs := by
  induction ps generalizing qs with
  | nil =>
    cases qs with
    | nil => rfl
    | cons q qs => cases q <;> simp [Part.text] at h
  | cons p ps ih =>
    cases qs with
    | nil => cases p <;> simp [Part.text] at h
    | cons q qs =>
      rw [List.forall_mem_cons] at hp hq
      rw [List.flatMap_cons, List.flatMap_cons] at h
      cases p with
      | name s =>
        cases q with
        | name t =>
          obtain ⟨rfl, hrest⟩ := run_of_append hp.1.2 hq.1.2 (opens_flatMap ps) (opens_flatMap qs)
            (List.cons.inj h).2
          rw [ih hp.2 hq.2 hrest]
        | index digits => simp [Part.text] at h
      | index digits =>
        cases q with
        | name t => simp [Part.text] at h
        | index digits' =>
          have hcloses : ∀ rest : List Char, ∀ c ∈ (']' :: rest).head?, ¬ c.isDigit := by simp
          have h' : digits ++ ']' :: ps.flatMap Part.text = digits' ++ ']' :: qs.flatMap Part.text := by
            simpa [Part.text] using h
          obtain ⟨rfl, hrest⟩ := run_of_append hp.1 hq.1 (hcloses _) (hcloses _) h'
          rw [ih hp.2 hq.2 (List.cons.inj hrest).2]

theorem Reads.unique {expr : String} {ps qs : List Part} (hp : Reads expr ps) (hq : Reads expr qs) : ps = qs :=
  flatMap_text_inj hp.ok hq.ok (List.cons.inj (hp.text.symm.trans hq.text)).2

/-! ### What the parser accepts -/

theorem nameSegment_eq_ok {acc : List Char} {seg : PathSegment} :
    nameSegment acc = .ok seg ↔ acc ≠ [] ∧ seg = (Part.name acc).segment := by
  rw [nameSegment]
  split_ifs with h
  · exact iff_of_false (by simp) fun hs => hs.1 h
  · exact ⟨fun hs => ⟨h, (Except.ok.inj hs).symm⟩, fun hs => congrArg Except.ok hs.2.symm⟩

theorem indexSegment_eq_ok {acc : List Char} {seg : PathSegment} :
    indexSegment acc = .ok seg ↔ (Part.index acc).Ok ∧ seg = (Part.index acc).segment := by
  rw [indexSegment]
  split_ifs with h
  · exact ⟨fun hs => ⟨List.all_eq_true.mp h, (Except.ok.inj hs).symm⟩, fun hs => congrArg Except.ok hs.2.symm⟩
  · exact iff_of_false (by simp) fun hs => h (List.all_eq_true.mpr hs.1)

/-- What the rest reads as, between two parts. -/
def Between (rest : List Char) (path : JsonPath) : Prop :=
  ∃ parts : List Part, (∀ p ∈ parts, p.Ok) ∧ rest = parts.flatMap Part.text ∧ path = parts.map Part.segment

/-- What the rest reads as in a mode, where a part may have been begun. -/
def Left : Mode → List Char → JsonPath → Prop
  | .between, rest, path => Between rest path
  | .name acc, rest, path => ∃ s r path', (Part.name (acc ++ s)).Ok ∧ rest = s ++ r ∧ Between r path' ∧
      path = (Part.name (acc ++ s)).segment :: path'
  | .index acc, rest, path => ∃ digits r path', (Part.index (acc ++ digits)).Ok ∧ rest = digits ++ ']' :: r ∧
      Between r path' ∧ path = (Part.index (acc ++ digits)).segment :: path'

/-- A name that has been begun can go on. -/
def Begun : Mode → Prop
  | .name acc => ∀ c ∈ acc, c ≠ '.' ∧ c ≠ '['
  | _ => True

theorem begun_between : Begun .between := trivial

theorem begun_name : Begun (.name []) := fun _ hc => absurd hc List.not_mem_nil

theorem begun_index (acc : List Char) : Begun (.index acc) := trivial

theorem between_nil {path : JsonPath} : Between [] path ↔ path = [] := by
  constructor
  · rintro ⟨parts, -, hrest, rfl⟩
    cases parts with
    | nil => rfl
    | cons p parts => cases p <;> simp [Part.text] at hrest
  · rintro rfl
    exact ⟨[], by simp, rfl, rfl⟩

theorem between_cons {c : Char} {rest : List Char} {path : JsonPath} : Between (c :: rest) path ↔
    (c = '.' ∧ Left (.name []) rest path) ∨ (c = '[' ∧ Left (.index []) rest path) := by
  constructor
  · rintro ⟨parts, hok, hrest, rfl⟩
    cases parts with
    | nil => cases hrest
    | cons p parts =>
      rw [List.forall_mem_cons] at hok
      cases p with
      | name s =>
        obtain ⟨rfl, rfl⟩ := List.cons.inj hrest
        exact Or.inl ⟨rfl, s, _, _, hok.1, rfl, ⟨parts, hok.2, rfl, rfl⟩, rfl⟩
      | index digits =>
        simp only [List.flatMap_cons, Part.text, List.cons_append, List.cons.injEq] at hrest
        obtain ⟨rfl, rfl⟩ := hrest
        exact Or.inr ⟨rfl, digits, parts.flatMap Part.text, _, hok.1, by simp, ⟨parts, hok.2, rfl, rfl⟩, rfl⟩
  · rintro (⟨rfl, s, r, path', hs, rfl, ⟨parts, hok, rfl, rfl⟩, rfl⟩ |
      ⟨rfl, digits, r, path', hs, rfl, ⟨parts, hok, rfl, rfl⟩, rfl⟩)
    · exact ⟨.name s :: parts, by simpa using ⟨hs, hok⟩, by simp [Part.text], rfl⟩
    · exact ⟨.index digits :: parts, by simpa using ⟨hs, hok⟩, by simp [Part.text], rfl⟩

/-- A name ends at the end, a dot or a bracket. -/
theorem left_name {acc rest : List Char} {path : JsonPath} (hacc : ∀ c ∈ acc, c ≠ '.' ∧ c ≠ '[')
    (hrest : ∀ c ∈ rest.head?, ¬ (c ≠ '.' ∧ c ≠ '[')) :
    Left (.name acc) rest path ↔ acc ≠ [] ∧ ∃ path', Between rest path' ∧ path = (Part.name acc).segment :: path' := by
  constructor
  · rintro ⟨s, r, path', hs, rfl, hr, rfl⟩
    cases s with
    | nil =>
      rw [List.append_nil] at hs ⊢
      exact ⟨hs.1, path', hr, rfl⟩
    | cons d s => exact absurd (hs.2 d (by simp)) (hrest d rfl)
  · rintro ⟨hne, path', hr, rfl⟩
    exact ⟨[], rest, path', by rw [List.append_nil]; exact ⟨hne, hacc⟩, rfl, hr, by rw [List.append_nil]⟩

theorem left_name_cons {acc rest : List Char} {c : Char} {path : JsonPath} (hc : c ≠ '.' ∧ c ≠ '[') :
    Left (.name acc) (c :: rest) path ↔ Left (.name (acc ++ [c])) rest path := by
  constructor
  · rintro ⟨s, r, path', hs, hrest, hr, rfl⟩
    cases s with
    | nil =>
      exfalso
      rw [List.nil_append] at hrest
      rw [← hrest] at hr
      rcases between_cons.mp hr with ⟨h, -⟩ | ⟨h, -⟩
      · exact hc.1 h
      · exact hc.2 h
    | cons d s =>
      obtain ⟨rfl, rfl⟩ := List.cons.inj hrest
      exact ⟨s, r, path', by simpa using hs, rfl, hr, by simp⟩
  · rintro ⟨s, r, path', hs, rfl, hr, rfl⟩
    exact ⟨c :: s, r, path', by simpa using hs, rfl, hr, by simp⟩

theorem left_index_close {acc rest : List Char} {path : JsonPath} : Left (.index acc) (']' :: rest) path ↔
    (Part.index acc).Ok ∧ ∃ path', Between rest path' ∧ path = (Part.index acc).segment :: path' := by
  constructor
  · rintro ⟨digits, r, path', hs, hrest, hr, rfl⟩
    cases digits with
    | nil =>
      obtain rfl := (List.cons.inj hrest).2
      rw [List.append_nil] at hs ⊢
      exact ⟨hs, path', hr, rfl⟩
    | cons d digits =>
      obtain ⟨rfl, -⟩ := List.cons.inj hrest
      exact absurd (hs ']' (by simp)) (by decide)
  · rintro ⟨hs, path', hr, rfl⟩
    exact ⟨[], rest, path', by rwa [List.append_nil], rfl, hr, by rw [List.append_nil]⟩

theorem left_index_cons {acc rest : List Char} {c : Char} {path : JsonPath} (hc : c ≠ ']') :
    Left (.index acc) (c :: rest) path ↔ Left (.index (acc ++ [c])) rest path := by
  constructor
  · rintro ⟨digits, r, path', hs, hrest, hr, rfl⟩
    cases digits with
    | nil => exact absurd (List.cons.inj hrest).1 hc
    | cons d digits =>
      obtain ⟨rfl, rfl⟩ := List.cons.inj hrest
      exact ⟨digits, r, path', by simpa using hs, rfl, hr, by simp⟩
  · rintro ⟨digits, r, path', hs, rfl, hr, rfl⟩
    exact ⟨c :: digits, r, path', by simpa using hs, rfl, hr, by simp⟩

/-- A part, and what is read after it. -/
theorem cons_eq_ok {x : Except String PathSegment} {y : Except String JsonPath} {path : JsonPath} :
    (do let seg ← x; return seg :: (← y)) = .ok path ↔
      ∃ seg, x = .ok seg ∧ ∃ path', y = .ok path' ∧ path = seg :: path' := by
  simp only [bind_eq_ok]
  refine exists_congr fun seg => and_congr_right fun _ => exists_congr fun path' => and_congr_right fun _ => ?_
  exact ⟨fun h => (Except.ok.inj h).symm, fun h => congrArg Except.ok h.symm⟩

/-- **The parser in a mode**, by induction on the rest. -/
theorem parseFrom_eq_ok {rest : List Char} {i : ℕ} {mode : Mode} {path : JsonPath} (hbegun : Begun mode) :
    parseFrom i mode rest = .ok path ↔ Left mode rest path := by
  induction rest generalizing i mode path with
  | nil =>
    cases mode with
    | between =>
      rw [parseFrom, Left, between_nil]
      exact ⟨fun h => (Except.ok.inj h).symm, fun h => congrArg Except.ok h.symm⟩
    | name acc =>
      rw [parseFrom, left_name hbegun (by simp), bind_eq_ok]
      simp only [nameSegment_eq_ok, between_nil]
      constructor
      · rintro ⟨seg, ⟨hne, rfl⟩, h⟩
        exact ⟨hne, [], rfl, (Except.ok.inj h).symm⟩
      · rintro ⟨hne, _, rfl, rfl⟩
        exact ⟨_, ⟨hne, rfl⟩, rfl⟩
    | index acc =>
      rw [parseFrom]
      refine iff_of_false (by simp) ?_
      rintro ⟨digits, r, path', -, hrest, -⟩
      simp at hrest
  | cons c rest ih =>
    cases mode with
    | between =>
      rw [parseFrom, Left, between_cons]
      split_ifs with hdot hbracket
      · rw [ih begun_name]
        simp [hdot]
      · rw [ih (begun_index [])]
        simp [hbracket]
      · exact iff_of_false (by simp) (by simp [hdot, hbracket])
    | name acc =>
      rw [parseFrom]
      split_ifs with hdot hbracket
      · rw [left_name hbegun (by simp [hdot]), cons_eq_ok]
        simp only [nameSegment_eq_ok, ih begun_name, between_cons, hdot]
        simp
      · rw [left_name hbegun (by simp [hbracket]), cons_eq_ok]
        simp only [nameSegment_eq_ok, ih (begun_index []), between_cons, hbracket]
        simp
      · rw [left_name_cons ⟨hdot, hbracket⟩]
        refine ih fun d hd => ?_
        rcases List.mem_append.mp hd with hd | hd
        · exact hbegun d hd
        · exact List.mem_singleton.mp hd ▸ ⟨hdot, hbracket⟩
    | index acc =>
      rw [parseFrom]
      split_ifs with hclose
      · rw [hclose, left_index_close, cons_eq_ok]
        simp only [indexSegment_eq_ok, ih begun_between, Left]
        simp
      · rw [left_index_cons hclose]
        exact ih (begun_index _)

/-- **What the parser accepts**: what reads as parts. -/
theorem parse_eq_ok {expr : String} {path : JsonPath} :
    parse expr = .ok path ↔ ∃ parts, Reads expr parts ∧ path = parts.map Part.segment := by
  have hiff : (∃ parts, Reads expr parts ∧ path = parts.map Part.segment) ↔
      ∃ rest, expr.toList = '$' :: rest ∧ Between rest path := by
    constructor
    · rintro ⟨parts, hr, rfl⟩
      exact ⟨_, hr.text, parts, hr.ok, rfl, rfl⟩
    · rintro ⟨rest, htext, parts, hok, rfl, rfl⟩
      exact ⟨parts, ⟨hok, htext⟩, rfl⟩
  rw [hiff, parse]
  split
  · next rest htext =>
    rw [parseFrom_eq_ok begun_between, htext]
    simp [Left]
  · next hno =>
    refine iff_of_false (by simp) ?_
    rintro ⟨rest, htext, -⟩
    exact hno rest htext

/-! ### Where a path leads -/

/-- The decimal value, digit by digit from the left. -/
theorem decimal_eq_foldl (digits : List Char) :
    decimal digits = digits.foldl (fun n c => 10 * n + (c.toNat - 48)) 0 := by
  induction digits using List.reverseRecOn with
  | nil => rfl
  | append_singleton digits c ih =>
    rw [List.foldl_append, ← ih, decimal, decimal, List.map_append, List.reverse_append]
    simp [Nat.ofDigits_cons, add_comm]

theorem atoi_eq (digits : List Char) :
    atoi digits = ((min (decimal digits) (2 ^ 63 - 1) : ℕ) : ℤ).bmod (2 ^ 32) := by
  rw [decimal_eq_foldl]
  rfl

/-- An index that fits is read as its value. -/
theorem atoi_of_lt {digits : List Char} (h : decimal digits < 2 ^ 31) : atoi digits = decimal digits := by
  have hmin : min (decimal digits) (2 ^ 63 - 1) = decimal digits := min_eq_left (by omega)
  rw [atoi_eq, hmin]
  exact Int.bmod_eq_of_le (by omega) (by omega)

theorem atoi_lt (digits : List Char) : atoi digits < 2 ^ 31 := by
  rw [atoi_eq]
  have h := Int.bmod_lt (x := ((min (decimal digits) (2 ^ 63 - 1) : ℕ) : ℤ)) (m := 2 ^ 32) (by decide)
  omega

/-- The index is below `2 ^ 31`. -/
def Part.Small : Part → Prop
  | name _ => True
  | index digits => decimal digits < 2 ^ 31

theorem resolve_eq_follow {parts : List Part} (h : ∀ p ∈ parts, p.Small) (root : Value) :
    resolve (parts.map Part.segment) root = follow (parts.map Part.step) root := by
  induction parts generalizing root with
  | nil => rfl
  | cons p parts ih =>
    rw [List.forall_mem_cons] at h
    cases p with
    | name s =>
      rw [List.map_cons, List.map_cons, Part.segment, Part.step, resolve, follow]
      cases root.find? (String.ofList s) with
      | none => rfl
      | some v => exact ih h.2 v
    | index digits =>
      rw [List.map_cons, List.map_cons, Part.segment, Part.step, resolve, follow]
      cases root.arr? with
      | none => rfl
      | some items =>
        rw [atoi_of_lt h.1]
        simp only [Int.toNat_natCast, Option.bind_some, if_neg (Int.not_lt.mpr (Int.natCast_nonneg _))]
        cases items[decimal digits]? with
        | none => rfl
        | some v => exact ih h.2 v

/-- Any steps lead somewhere in some value. -/
theorem exists_follow (steps : List Step) : ∃ root, follow steps root = some (.bool true) := by
  induction steps with
  | nil => exact ⟨.bool true, rfl⟩
  | cons step steps ih =>
    obtain ⟨v, hv⟩ := ih
    cases step with
    | member name => exact ⟨.obj [(name, v)], by simp [follow, Value.find?, hv]⟩
    | element n => exact ⟨.arr (List.replicate n .null ++ [v]), by simp [follow, Value.arr?, hv]⟩

theorem resolve_null (parts : List Part) : resolve (parts.map Part.segment) .null ≠ some (.bool true) := by
  cases parts with
  | nil => simp [resolve]
  | cons p parts => cases p <;> simp [Part.segment, resolve, Value.find?, Value.arr?]

/-- An index that does not fit leads nowhere, or to an element before. -/
theorem resolve_ne_follow {digits : List Char} {parts : List Part} (h : 2 ^ 31 ≤ decimal digits) :
    ∃ root, resolve ((Part.index digits :: parts).map Part.segment) root ≠
      follow ((Part.index digits :: parts).map Part.step) root := by
  obtain ⟨v, hv⟩ := exists_follow (parts.map Part.step)
  let items := List.replicate (decimal digits) Value.null ++ [v]
  have hfollow : follow ((Part.index digits :: parts).map Part.step) (.arr items) = some (.bool true) := by
    simp [Part.step, follow, Value.arr?, items, hv]
  have hresolve : resolve ((Part.index digits :: parts).map Part.segment) (.arr items) ≠ some (.bool true) := by
    rw [List.map_cons, Part.segment, resolve]
    simp only [Value.arr?]
    split_ifs with hneg
    · simp
    · have hlt := atoi_lt digits
      have hbefore : (atoi digits).toNat < decimal digits := by omega
      have hnull : items[(atoi digits).toNat]? = some .null := by
        rw [List.getElem?_append_left (by rwa [List.length_replicate]), List.getElem?_replicate_of_lt hbefore]
      rw [hnull]
      exact resolve_null parts
  exact ⟨.arr items, fun heq => hresolve (heq.trans hfollow)⟩

/-- **When the parser's path leads where the steps do**: when its indices fit. -/
theorem follows_iff {parts : List Part} :
    (∀ root, resolve (parts.map Part.segment) root = follow (parts.map Part.step) root) ↔ ∀ p ∈ parts, p.Small := by
  refine ⟨fun h => ?_, resolve_eq_follow⟩
  induction parts with
  | nil => simp
  | cons p parts ih =>
    cases p with
    | name s =>
      refine List.forall_mem_cons.mpr ⟨trivial, ih fun root => ?_⟩
      have hroot := h (.obj [(String.ofList s, root)])
      simpa [Part.segment, Part.step, resolve, follow, Value.find?] using hroot
    | index digits =>
      have hsmall : decimal digits < 2 ^ 31 := by
        by_contra hlarge
        obtain ⟨root, hroot⟩ : ∃ root, resolve ((Part.index digits :: parts).map Part.segment) root ≠
            follow ((Part.index digits :: parts).map Part.step) root := resolve_ne_follow (Nat.le_of_not_lt hlarge)
        exact hroot (h root)
      refine List.forall_mem_cons.mpr ⟨hsmall, ih fun root => ?_⟩
      have hroot := h (.arr (List.replicate (decimal digits) .null ++ [root]))
      have hneg : ¬ (decimal digits : ℤ) < 0 := by omega
      simpa [Part.segment, Part.step, resolve, follow, Value.arr?, atoi_of_lt hsmall, hneg] using hroot

/-- **When the parser follows the language** at an expression: when each index
in it has digits, and is below `2 ^ 31`. -/
theorem followsLanguage_iff (expr : String) : FollowsLanguage expr ↔
    ∀ parts, Reads expr parts → ∀ digits, Part.index digits ∈ parts → digits ≠ [] ∧ decimal digits < 2 ^ 31 := by
  constructor
  · rintro ⟨haccepts, hdenotes⟩ parts hreads digits hmem
    have hparse : parse expr = .ok (parts.map Part.segment) := parse_eq_ok.mpr ⟨parts, hreads, rfl⟩
    obtain ⟨steps, hpath⟩ := haccepts.mp ⟨_, hparse⟩
    have hdenotes := hdenotes _ steps hparse hpath
    obtain ⟨parts', hreads', hdigits, rfl⟩ := hpath
    obtain rfl := hreads.unique hreads'
    refine ⟨?_, ?_⟩
    · rintro rfl
      exact hdigits hmem
    · exact follows_iff.mp hdenotes _ hmem
  · intro h
    refine ⟨⟨?_, ?_⟩, ?_⟩
    · rintro ⟨path, hparse⟩
      obtain ⟨parts, hreads, -⟩ := parse_eq_ok.mp hparse
      exact ⟨_, parts, hreads, fun hmem => (h parts hreads [] hmem).1 rfl, rfl⟩
    · rintro ⟨steps, parts, hreads, -, -⟩
      exact ⟨_, parse_eq_ok.mpr ⟨parts, hreads, rfl⟩⟩
    · rintro path steps hparse ⟨parts, hreads, -, rfl⟩ root
      obtain ⟨parts', hreads', rfl⟩ := parse_eq_ok.mp hparse
      obtain rfl := hreads.unique hreads'
      refine resolve_eq_follow (fun p hp => ?_) root
      cases p with
      | name s => trivial
      | index digits => exact (h parts hreads digits hp).2

/-- An index above 32 bits leads to the first element. -/
theorem not_followsLanguage_wrapped : ¬ FollowsLanguage "$[4294967296]" := by
  intro h
  have hreads : Reads "$[4294967296]" [.index "4294967296".toList] := by
    refine ⟨?_, by decide⟩
    have hdigits : "4294967296".toList.all Char.isDigit = true := by decide
    exact List.forall_mem_singleton.mpr (List.all_eq_true.mp hdigits)
  have hpath : IsPath "$[4294967296]" [.element 4294967296] :=
    ⟨_, hreads, by decide, by decide⟩
  have hparse : parse "$[4294967296]" = .ok [.index 0] := parse_eq_ok.mpr ⟨_, hreads, by decide⟩
  have hroot := h.denotes _ _ hparse hpath (.arr [.bool true])
  cases hroot

end JsonPath

end AgentFlow.Workflow
