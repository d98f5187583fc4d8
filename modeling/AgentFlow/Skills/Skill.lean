/-
# SKILL.md

`agentflow/skills/skill.{h,cc}`: `ParseSkillMd` takes a byte order mark off the
text, writes its line ends as newlines, splits the frontmatter from the body and
reads the fields of the skill from it. A string is the list of its bytes. YAML is a
parameter: what `YAML::Load` makes of a text and what `as<std::string>()` makes
of a node that is no scalar, or the `what()` of the exception that they throw.

`SplitFrontmatter` moves by indices, and an index past the end of the text
stops it (`Failure.outOfRange`); none is ever used.

Key definitions: `scan`, `splitFrontmatter`, `normalized`, `parseSkillMd`.
Key theorems: `scan_front`, `exists_scan_eq_ok`, `splitFrontmatter_exact`.
-/
import AgentFlow.Lib.FileSystem
import AgentFlow.Skills.SkillUtf8

namespace AgentFlow.Skills

abbrev Bytes := List UInt8

/-- The bytes of a text. -/
def bytes (s : String) : Bytes := s.toList.flatMap String.utf8EncodeChar

/-- A message that contains bytes: each is the character with its code. -/
def shown (text : Bytes) : String := String.ofList (text.map fun b => Char.ofNat b.toNat)

def newline : UInt8 := 0x0A

def carriageReturn : UInt8 := 0x0D

def dash : UInt8 := 0x2D

/-- Why a function ends without a result: a read out of range, the status it returns or
a `YAML::Exception`. -/
inductive Failure
  | outOfRange
  | status (error : Status.Error)
  | yaml (what : String)
  deriving DecidableEq, Repr

def invalid {α : Type} (message : String) : Except Failure α := .error (.status ⟨.invalidArgument, message⟩)

def kMaxNameLen : ℕ := 64

def kMaxDescriptionLen : ℕ := 1024

def kMaxCompatibilityLen : ℕ := 500

/-! ### The frontmatter and the body -/

/-- `text.find(c, pos)`. -/
def find (text : Bytes) (c : UInt8) (pos : ℕ) : Option ℕ :=
  ((text.drop pos).findIdx? (· == c)).map (pos + ·)

/-- `text.substr(pos, n)`. -/
def substr (text : Bytes) (pos n : ℕ) : Except Failure Bytes :=
  if text.length < pos then .error .outOfRange else .ok ((text.drop pos).take n)

/-- `text[i]`. -/
def charAt (text : Bytes) (i : ℕ) : Except Failure UInt8 :=
  match text[i]? with
  | some c => .ok c
  | none => .error .outOfRange

/-- The index of the first byte that is no newline. -/
def skipNewlines (text : Bytes) (bodyStart : ℕ) : Except Failure ℕ :=
  if bodyStart < text.length then do
    let c ← charAt text bodyStart
    if c = newline then skipNewlines text (bodyStart + 1) else .ok bodyStart
  else .ok bodyStart
  termination_by text.length - bodyStart

theorem lt_of_find {text : Bytes} {c : UInt8} {pos eol : ℕ} (h : find text c pos = some eol) :
    pos ≤ eol ∧ eol < text.length := by
  obtain ⟨k, hk, rfl⟩ := Option.map_eq_some_iff.mp h
  have hlt := (List.findIdx?_eq_some_iff_getElem.mp hk).1
  rw [List.length_drop] at hlt
  omega

def fence : Bytes := [dash, dash, dash]

/-- The loop of `SplitFrontmatter`: `pos` is the index of the next line. -/
def scan (text : Bytes) (pos : ℕ) : Except Failure (Bytes × Bytes) :=
  if pos ≤ text.length then do
    let line ← substr text pos ((find text newline pos).getD text.length - pos)
    if line = fence then do
      let front ← substr text 4 (pos - 4)
      let bodyStart ← skipNewlines text (((find text newline pos).map (· + 1)).getD text.length)
      let body ← substr text bodyStart text.length
      .ok (front, body)
    else
      match h : find text newline pos with
      | none => invalid "SKILL.md frontmatter is not closed by a '---' line"
      | some eol => scan text (eol + 1)
  else invalid "SKILL.md frontmatter is not closed by a '---' line"
  termination_by text.length + 1 - pos
  decreasing_by
    have hlt := lt_of_find h
    omega

/-- The front and the body. -/
def splitFrontmatter (text : Bytes) : Except Failure (Bytes × Bytes) :=
  if fence ++ [newline] <+: text then scan text 4
  else invalid "SKILL.md must start with a '---' YAML frontmatter line"

/-! ### The fields -/

structure Skill where
  name : Bytes := []
  description : Bytes := []
  license : Bytes := []
  compatibility : Bytes := []
  metadata : List (Bytes × Bytes) := []
  allowedTools : List Bytes := []
  /-- The path of its directory, which the library fills in. -/
  dir : List (Files.Elem Bytes) := []
  body : Bytes := []
  deriving DecidableEq, Repr

/-- A `YAML::Node`. -/
inductive YamlNode
  | null
  | scalar (value : Bytes)
  | sequence (items : List YamlNode)
  | map (entries : List (YamlNode × YamlNode))

/-- What the YAML library does, or the `what()` of its exception. -/
structure Yaml where
  load : Bytes → Except String YamlNode
  /-- `as<std::string>()` of a node that is no scalar. -/
  convert : YamlNode → Except String Bytes

/-- `node.as<std::string>()`. -/
def asString (yaml : Yaml) : YamlNode → Except Failure Bytes
  | .scalar value => .ok value
  | node => (yaml.convert node).mapError .yaml

/-- `Scalar(node, key)`. -/
def scalar (key : Bytes) : YamlNode → Except Failure Bytes
  | .scalar value => .ok value
  | _ => invalid ("frontmatter '" ++ shown key ++ "' must be a string")

/-- `map[key] = value`, in a map whose order is not read. -/
def assign (map : List (Bytes × Bytes)) (key value : Bytes) : List (Bytes × Bytes) :=
  map.filter (fun entry => entry.1 ≠ key) ++ [(key, value)]

def applyMetadata (yaml : Yaml) : List (YamlNode × YamlNode) → Skill → Except Failure Skill
  | [], skill => .ok skill
  | (key, value) :: entries, skill => do
    let metadataKey ← asString yaml key
    let parsed ← scalar (bytes "metadata." ++ metadataKey) value
    applyMetadata yaml entries { skill with metadata := assign skill.metadata metadataKey parsed }

def applyTools : List YamlNode → Skill → Except Failure Skill
  | [], skill => .ok skill
  | item :: items, skill => do
    let parsed ← scalar (bytes "allowed-tools[]") item
    applyTools items { skill with allowedTools := skill.allowedTools ++ [parsed] }

/-- `absl::StrSplit` by any of the characters, without the empty pieces. -/
def strSplit (separators value : Bytes) : List Bytes :=
  (value.splitOnP fun c => separators.contains c).filter fun piece => !piece.isEmpty

/-- The skill with the field, and the unknown fields, where the caller asks for them. -/
def applyField (yaml : Yaml) (key : Bytes) (value : YamlNode) (skill : Skill) (unknown : Option (List Bytes)) :
    Except Failure (Skill × Option (List Bytes)) :=
  if key = bytes "name" ∨ key = bytes "description" ∨ key = bytes "license" ∨ key = bytes "compatibility" then do
    let parsed ← scalar key value
    let skill := if key = bytes "name" then { skill with name := parsed } else skill
    let skill := if key = bytes "description" then { skill with description := parsed } else skill
    let skill := if key = bytes "license" then { skill with license := parsed } else skill
    let skill := if key = bytes "compatibility" then { skill with compatibility := parsed } else skill
    .ok (skill, unknown)
  else if key = bytes "metadata" then
    match value with
    | .map entries => do
      let skill ← applyMetadata yaml entries skill
      .ok (skill, unknown)
    | _ => invalid "frontmatter 'metadata' must be a mapping"
  else if key = bytes "allowed-tools" then
    match value with
    | .scalar value =>
      .ok ({ skill with allowedTools := skill.allowedTools ++ strSplit (bytes " \t\n") value }, unknown)
    | .sequence items => do
      let skill ← applyTools items skill
      .ok (skill, unknown)
    | _ => invalid "frontmatter 'allowed-tools' must be a string or a list"
  else .ok (skill, unknown.map (· ++ [key]))

/-- The loop over the fields, with the unknown fields found before it ends. -/
def applyFields (yaml : Yaml) :
    List (YamlNode × YamlNode) → Skill → Option (List Bytes) → Option (List Bytes) × Except Failure Skill
  | [], skill, unknown => (unknown, .ok skill)
  | (field, value) :: fields, skill, unknown =>
    match asString yaml field with
    | .error failure => (unknown, .error failure)
    | .ok key =>
      match applyField yaml key value skill unknown with
      | .error failure => (unknown, .error failure)
      | .ok (skill, unknown) => applyFields yaml fields skill unknown

def isValidSkillName (name : Bytes) : Bool :=
  if name = [] ∨ kMaxNameLen < name.length ∨ name.head? = some dash ∨ name.getLast? = some dash ∨
      [dash, dash] <:+: name then false
  else name.all fun c => (0x61 ≤ c && c ≤ 0x7A) || (0x30 ≤ c && c ≤ 0x39) || c == dash

/-- `absl::ascii_isspace`. -/
def isAsciiSpace (c : UInt8) : Bool := (0x09 ≤ c && c ≤ 0x0D) || c == 0x20

def stripAsciiWhitespace (text : Bytes) : Bytes :=
  ((text.dropWhile isAsciiSpace).reverse.dropWhile isAsciiSpace).reverse

/-- What is checked of the fields. -/
def checked (skill : Skill) (dirName : Bytes) : Except Failure Skill :=
  if skill.name = [] then invalid "frontmatter is missing required 'name'"
  else if isValidSkillName skill.name = false then
    invalid ("skill name '" ++ shown skill.name ++ "' must use 1-64 lowercase letters, digits, or single hyphens")
  else if skill.name ≠ dirName then
    invalid ("skill name '" ++ shown skill.name ++ "' must equal its directory name '" ++ shown dirName ++ "'")
  else if stripAsciiWhitespace skill.description = [] then
    invalid "frontmatter is missing required non-empty 'description'"
  else do
    let descriptionLength ← (utf8CharacterCount skill.description "frontmatter 'description'").mapError .status
    if kMaxDescriptionLen < descriptionLength then invalid "frontmatter 'description' exceeds 1024 characters"
    else do
      let compatibilityLength ← (utf8CharacterCount skill.compatibility "frontmatter 'compatibility'").mapError .status
      if kMaxCompatibilityLen < compatibilityLength then invalid "frontmatter 'compatibility' exceeds 500 characters"
      else .ok skill

/-! ### The whole text -/

/-- The UTF-8 byte order mark. -/
def bom : Bytes := [0xEF, 0xBB, 0xBF]

/-- `absl::StrReplaceAll` of CR LF by LF. -/
def replaceCrLf : Bytes → Bytes
  | [] => []
  | [c] => [c]
  | c :: d :: rest =>
    if c = carriageReturn ∧ d = newline then newline :: replaceCrLf rest else c :: replaceCrLf (d :: rest)

def normalized (raw : Bytes) : Bytes := replaceCrLf (if bom <+: raw then raw.drop 3 else raw)

/-- The exceptions of the YAML library are caught. -/
def caught : Failure → Failure
  | .yaml what => .status ⟨.invalidArgument, "invalid YAML frontmatter: " ++ what⟩
  | failure => failure

/-- The fields of the frontmatter. -/
def readFields (yaml : Yaml) (front : Bytes) (skill : Skill) (unknown : Option (List Bytes)) :
    Option (List Bytes) × Except Failure Skill :=
  match yaml.load front with
  | .error what => (unknown, .error (.yaml what))
  | .ok (.map fields) => applyFields yaml fields skill unknown
  | .ok _ => (unknown, invalid "SKILL.md frontmatter must be a YAML mapping")

/-- The unknown fields so far and the skill, or why there is none. -/
def parseSkillMd (yaml : Yaml) (raw dirName : Bytes) (unknown : Option (List Bytes)) :
    Option (List Bytes) × Except Failure Skill :=
  match splitFrontmatter (normalized raw) with
  | .error failure => (unknown, .error failure)
  | .ok (front, body) =>
    match utf8CharacterCount body "SKILL.md body" with
    | .error error => (unknown, .error (.status error))
    | .ok _ =>
      let fields := readFields yaml front { body := body } unknown
      (fields.1, do
        let skill ← fields.2.mapError caught
        checked skill dirName)

/-! ### The scan -/

variable {text line rest : Bytes} {pos : ℕ}

theorem findIdx?_of_not_mem (h : newline ∉ line) : line.findIdx? (· == newline) = none := by
  refine List.findIdx?_eq_none_iff.mpr fun c hc => beq_false_of_ne ?_
  rintro rfl
  exact h hc

/-- A line that ends. -/
theorem find_of_line (h : text.drop pos = line ++ newline :: rest) (hline : newline ∉ line) :
    find text newline pos = some (pos + line.length) := by
  have hidx : (line ++ newline :: rest).findIdx? (· == newline) = some line.length := by
    rw [List.findIdx?_append, findIdx?_of_not_mem hline]
    simp [List.findIdx?_cons]
  rw [find, h, hidx, Option.map_some]

/-- A line that ends with the text. -/
theorem find_of_last (h : newline ∉ text.drop pos) : find text newline pos = none := by
  rw [find, findIdx?_of_not_mem h, Option.map_none]

theorem substr_of_le {n : ℕ} (h : pos ≤ text.length) : substr text pos n = .ok ((text.drop pos).take n) := by
  rw [substr, if_neg (Nat.not_lt.mpr h)]

theorem le_of_drop (h : text.drop pos = line ++ newline :: rest) : pos + line.length + 1 ≤ text.length := by
  have hlen := congrArg List.length h
  rw [List.length_drop, List.length_append, List.length_cons] at hlen
  omega

theorem drop_of_line (h : text.drop pos = line ++ newline :: rest) : text.drop (pos + line.length + 1) = rest := by
  rw [Nat.add_assoc, ← List.drop_drop, h, List.drop_length_add_append, List.drop_one, List.tail_cons]

/-- The newlines are skipped, and the index stays in the text. -/
theorem skipNewlines_eq {body : Bytes} (hpos : pos ≤ text.length) (h : text.drop pos = body) :
    ∃ bodyStart, skipNewlines text pos = .ok bodyStart ∧ bodyStart ≤ text.length ∧
      text.drop bodyStart = body.dropWhile (· == newline) := by
  induction body generalizing pos with
  | nil =>
    have hle := List.drop_eq_nil_iff.mp h
    exact ⟨pos, by rw [skipNewlines, if_neg (Nat.not_lt.mpr hle)], hpos, h⟩
  | cons c body ih =>
    have hget : text[pos]? = some c := by
      rw [← List.head?_drop, h]
      rfl
    have hlt : pos < text.length := (List.getElem?_eq_some_iff.mp hget).1
    have hchar : charAt text pos = .ok c := by rw [charAt, hget]
    rw [skipNewlines, if_pos hlt, hchar]
    change ∃ bodyStart, (if c = newline then skipNewlines text (pos + 1) else .ok pos) = .ok bodyStart ∧ _
    by_cases hc : c = newline
    · have hdrop : text.drop (pos + 1) = body := by
        rw [← List.drop_drop, h, List.drop_one, List.tail_cons]
      rw [if_pos hc, List.dropWhile_cons_of_pos (by simpa using hc)]
      exact ih hlt hdrop
    · rw [if_neg hc, List.dropWhile_cons_of_neg (by simpa using hc)]
      exact ⟨pos, rfl, hpos, h⟩

/-- The end of the loop: the line at `pos` is the fence, and the body is what follows it. -/
theorem body_eq {front after : Bytes} {start : ℕ} (hstart : start ≤ text.length) (h : text.drop start = after) :
    (do
      let bodyStart ← skipNewlines text start
      let body ← substr text bodyStart text.length
      Except.ok (front, body)) = (.ok (front, after.dropWhile (· == newline)) : Except Failure (Bytes × Bytes)) := by
  obtain ⟨bodyStart, hskip, hle, hdrop⟩ := skipNewlines_eq hstart h
  have htake : (text.drop bodyStart).take text.length = text.drop bodyStart := by
    refine List.take_of_length_le ?_
    rw [List.length_drop]
    omega
  rw [hskip]
  change (do
    let body ← substr text bodyStart text.length
    Except.ok (front, body)) = _
  rw [substr_of_le hle, htake, hdrop]
  rfl

/-- A pass of the loop over a line that ends. -/
theorem scan_line (hpos : 4 ≤ pos) (h : text.drop pos = line ++ newline :: rest) (hline : newline ∉ line) :
    scan text pos =
      if line = fence then .ok ((text.drop 4).take (pos - 4), rest.dropWhile (· == newline))
      else scan text (pos + line.length + 1) := by
  have hle := le_of_drop h
  have hfind := find_of_line h hline
  have htake : (text.drop pos).take (pos + line.length - pos) = line := by
    rw [Nat.add_sub_cancel_left, h, List.take_left]
  rw [scan, if_pos (by omega), hfind, Option.getD_some, substr_of_le (by omega), htake]
  change (if line = fence then _ else _) = _
  split
  · rw [substr_of_le (by omega)]
    exact body_eq hle (drop_of_line h)
  · rfl

/-- A pass of the loop over the line that ends with the text. -/
theorem scan_last (hpos : 4 ≤ pos) (hle : pos ≤ text.length) (h : newline ∉ text.drop pos) :
    scan text pos =
      if text.drop pos = fence then .ok ((text.drop 4).take (pos - 4), [])
      else invalid "SKILL.md frontmatter is not closed by a '---' line" := by
  have hfind := find_of_last h
  have htake : (text.drop pos).take (text.length - pos) = text.drop pos := by
    rw [← List.length_drop, List.take_length]
  rw [scan, if_pos hle, hfind, Option.getD_none, substr_of_le hle, htake]
  change (if text.drop pos = fence then _ else _) = _
  split
  · rw [substr_of_le (by omega)]
    exact body_eq le_rfl (List.drop_length)
  · rfl

/-- The lines of a text. -/
def lines (text : Bytes) : List Bytes := text.splitOn newline

/-- The text is empty or its last line ends. -/
def Closed (text : Bytes) : Prop := text = [] ∨ text.getLast? = some newline

/-- The scan goes over lines that are no fence, to the fence after them. -/
theorem scan_front {front body : Bytes} (hpos : 4 ≤ pos) (hclosed : Closed front) (hfence : fence ∉ lines front)
    (h : text.drop pos = front ++ fence ++ newline :: body) :
    scan text pos = .ok ((text.drop 4).take (pos - 4 + front.length), body.dropWhile (· == newline)) := by
  induction hlen : front.length using Nat.strong_induction_on generalizing front pos with
  | _ len ih =>
    rcases hclosed with rfl | hlast
    · have hline : text.drop pos = fence ++ newline :: body := h
      rw [scan_line hpos hline (by decide), if_pos rfl]
      obtain rfl : 0 = len := hlen
      rfl
    · obtain ⟨line, front', rfl, hline⟩ := List.eq_append_cons_of_mem (List.mem_of_getLast? hlast)
      rw [lines, List.splitOn_append_cons_self_of_not_mem hline, List.mem_cons, not_or] at hfence
      rw [List.append_assoc, List.append_assoc, List.cons_append] at h
      have hclosed' : Closed front' := by
        cases hfront' : front' with
        | nil => exact Or.inl rfl
        | cons c front'' =>
          rw [hfront', List.getLast?_append_cons, List.getLast?_cons_cons] at hlast
          exact Or.inr hlast
      have hnext := drop_of_line h
      rw [← List.append_assoc] at hnext
      rw [List.length_append, List.length_cons] at hlen
      rw [scan_line hpos h hline, if_neg (Ne.symm hfence.1),
        ih front'.length (by omega) (by omega) hclosed' hfence.2 hnext rfl]
      congr 3
      omega

/-- The scan ends well when one of the lines is the fence, and never out of range. -/
theorem scan_eq {t : Bytes} (hpos : 4 ≤ pos) (hle : pos ≤ text.length) (h : text.drop pos = t) :
    if fence ∈ lines t then ∃ split, scan text pos = .ok split
    else scan text pos = invalid "SKILL.md frontmatter is not closed by a '---' line" := by
  induction hlen : t.length using Nat.strong_induction_on generalizing t pos with
  | _ len ih =>
    by_cases hmem : newline ∈ t
    · obtain ⟨line, rest, rfl, hline⟩ := List.eq_append_cons_of_mem hmem
      have hlines : lines (line ++ newline :: rest) = line :: lines rest :=
        List.splitOn_append_cons_self_of_not_mem hline _
      rw [scan_line hpos h hline, hlines]
      by_cases hfence : line = fence
      · rw [if_pos (by simp [hfence]), if_pos hfence]
        exact ⟨_, rfl⟩
      · rw [List.length_append, List.length_cons] at hlen
        have hrest := ih rest.length (by omega) (by omega) (le_of_drop h) (drop_of_line h) rfl
        rw [if_neg hfence]
        simpa only [List.mem_cons, Ne.symm hfence, false_or] using hrest
    · have hlines : lines t = [t] := List.splitOn_eq_singleton hmem
      subst h
      rw [scan_last hpos hle hmem, hlines]
      by_cases hfence : text.drop pos = fence
      · rw [if_pos (by simp [hfence]), if_pos hfence]
        exact ⟨_, rfl⟩
      · rw [if_neg (by simpa [eq_comm] using hfence), if_neg hfence]

/-- A text that begins with the fence. -/
theorem splitFrontmatter_fence (t : Bytes) :
    splitFrontmatter (fence ++ newline :: t) = scan (fence ++ newline :: t) 4 := by
  rw [splitFrontmatter, if_pos ⟨t, by simp⟩]

theorem drop_fence (t : Bytes) : (fence ++ newline :: t).drop 4 = t := rfl

/-- The front and the body, between fences. -/
theorem splitFrontmatter_of_closed {front body : Bytes} (hclosed : Closed front) (hfence : fence ∉ lines front) :
    splitFrontmatter (fence ++ newline :: (front ++ fence ++ newline :: body)) =
      .ok (front, body.dropWhile (· == newline)) := by
  rw [splitFrontmatter_fence, scan_front le_rfl hclosed hfence (drop_fence _), drop_fence, Nat.sub_self, Nat.zero_add,
    List.append_assoc, List.take_left]

theorem splitFrontmatter_eq (t : Bytes) :
    if fence ∈ lines t then ∃ split, splitFrontmatter (fence ++ newline :: t) = .ok split
    else splitFrontmatter (fence ++ newline :: t) = invalid "SKILL.md frontmatter is not closed by a '---' line" := by
  have hle : 4 ≤ (fence ++ newline :: t).length := by simp [fence]
  rw [splitFrontmatter_fence]
  exact scan_eq le_rfl hle (drop_fence t)

theorem exists_splitFrontmatter_iff (t : Bytes) :
    (∃ split, splitFrontmatter (fence ++ newline :: t) = .ok split) ↔ fence ∈ lines t := by
  have hsplit := splitFrontmatter_eq t
  split_ifs at hsplit with h
  · exact iff_of_true hsplit h
  · refine iff_of_false ?_ h
    rintro ⟨split, heq⟩
    rw [hsplit] at heq
    cases heq

/-- No index is past the end of the text. -/
theorem splitFrontmatter_ne_outOfRange (text : Bytes) : splitFrontmatter text ≠ .error .outOfRange := by
  by_cases h : fence ++ [newline] <+: text
  · obtain ⟨t, rfl⟩ := h
    have hsplit := splitFrontmatter_eq t
    rw [List.append_assoc, List.singleton_append]
    split_ifs at hsplit
    · obtain ⟨split, heq⟩ := hsplit
      rw [heq]
      simp
    · rw [hsplit]
      simp [invalid]
  · rw [splitFrontmatter, if_neg h]
    simp [invalid]

/-! ### Line ends -/

/-- The text with CR LF at the ends of its lines. -/
def toCrLf (text : Bytes) : Bytes := text.flatMap fun c => if c = newline then [carriageReturn, newline] else [c]

theorem replaceCrLf_cons {c : UInt8} (h : c ≠ carriageReturn) (text : Bytes) :
    replaceCrLf (c :: text) = c :: replaceCrLf text := by
  cases text with
  | nil => rfl
  | cons d rest => rw [replaceCrLf, if_neg fun hboth => h hboth.1]

theorem replaceCrLf_of_not_mem (h : carriageReturn ∉ text) : replaceCrLf text = text := by
  induction text with
  | nil => rfl
  | cons c text ih =>
    rw [List.mem_cons, not_or] at h
    rw [replaceCrLf_cons (Ne.symm h.1), ih h.2]

theorem replaceCrLf_toCrLf (h : carriageReturn ∉ text) : replaceCrLf (toCrLf text) = text := by
  induction text with
  | nil => rfl
  | cons c text ih =>
    rw [List.mem_cons, not_or] at h
    have hcons : toCrLf (c :: text) = (if c = newline then [carriageReturn, newline] else [c]) ++ toCrLf text :=
      List.flatMap_cons
    by_cases hc : c = newline
    · rw [hcons, if_pos hc, hc]
      change replaceCrLf (carriageReturn :: newline :: toCrLf text) = _
      rw [replaceCrLf, if_pos ⟨rfl, rfl⟩, ih h.2]
    · rw [hcons, if_neg hc, List.singleton_append, replaceCrLf_cons (Ne.symm h.1), ih h.2]

/-- What has no line ends stands before the text with CR LF only if it stands before the text. -/
theorem prefix_of_prefix_toCrLf {p : Bytes} (hnewline : newline ∉ p) (hcr : carriageReturn ∉ p)
    (h : p <+: toCrLf text) : p <+: text := by
  induction p generalizing text with
  | nil => exact List.nil_prefix
  | cons c p ih =>
    rw [List.mem_cons, not_or] at hnewline hcr
    cases text with
    | nil => simp [toCrLf] at h
    | cons d text =>
      have hcons : toCrLf (d :: text) = (if d = newline then [carriageReturn, newline] else [d]) ++ toCrLf text :=
        List.flatMap_cons
      rw [hcons] at h
      by_cases hd : d = newline
      · rw [if_pos hd] at h
        exact absurd ((List.cons_prefix_cons.mp h).1) (Ne.symm hcr.1)
      · rw [if_neg hd, List.singleton_append, List.cons_prefix_cons] at h
        rw [List.cons_prefix_cons]
        exact ⟨h.1, ih hnewline.2 hcr.2 h.2⟩

theorem normalized_of_not_mem (hcr : carriageReturn ∉ text) (hbom : ¬ bom <+: text) : normalized text = text := by
  rw [normalized, if_neg hbom, replaceCrLf_of_not_mem hcr]

theorem normalized_bom (hcr : carriageReturn ∉ text) : normalized (bom ++ text) = text := by
  rw [normalized, if_pos (List.prefix_append _ _)]
  exact replaceCrLf_of_not_mem hcr

theorem normalized_toCrLf (hcr : carriageReturn ∉ text) (hbom : ¬ bom <+: text) : normalized (toCrLf text) = text := by
  have hbom' : ¬ bom <+: toCrLf text := fun h => hbom (prefix_of_prefix_toCrLf (by decide) (by decide) h)
  rw [normalized, if_neg hbom', replaceCrLf_toCrLf hcr]

theorem parseSkillMd_congr (yaml : Yaml) {raw raw' : Bytes} (h : normalized raw = normalized raw') (dirName : Bytes)
    (unknown : Option (List Bytes)) :
    parseSkillMd yaml raw dirName unknown = parseSkillMd yaml raw' dirName unknown := by
  rw [parseSkillMd, parseSkillMd, h]

/-- `SplitFrontmatter` finds the front and the body between the fences, fails on a text
that begins with the fence exactly if no later line is the fence, and reads in range; and
`ParseSkillMd` does the same on a text, with a byte order mark and with CR LF. -/
theorem splitFrontmatter_exact (yaml : Yaml) :
    (∀ front body, Closed front → fence ∉ lines front →
      splitFrontmatter (fence ++ newline :: (front ++ fence ++ newline :: body)) =
        .ok (front, body.dropWhile (· == newline))) ∧
    (∀ t, (∃ split, splitFrontmatter (fence ++ newline :: t) = .ok split) ↔ fence ∈ lines t) ∧
    (∀ text, splitFrontmatter text ≠ .error .outOfRange) ∧
    (∀ text dirName unknown, carriageReturn ∉ text → ¬ bom <+: text →
      parseSkillMd yaml (bom ++ text) dirName unknown = parseSkillMd yaml text dirName unknown ∧
      parseSkillMd yaml (toCrLf text) dirName unknown = parseSkillMd yaml text dirName unknown) := by
  refine ⟨fun _ _ => splitFrontmatter_of_closed, exists_splitFrontmatter_iff, splitFrontmatter_ne_outOfRange, ?_⟩
  intro text dirName unknown hcr hbom
  have htext := normalized_of_not_mem hcr hbom
  constructor
  · exact parseSkillMd_congr yaml ((normalized_bom hcr).trans htext.symm) dirName unknown
  · exact parseSkillMd_congr yaml ((normalized_toCrLf hcr hbom).trans htext.symm) dirName unknown

/-- An empty mapping, whatever the text is. -/
def Yaml.empty : Yaml := ⟨fun _ => .ok (.map []), fun _ => .ok []⟩

theorem splitFrontmatter_exact_name :
    splitFrontmatter (bytes "---\nname: pdf\n---\n\nUse it.") = .ok (bytes "name: pdf\n", bytes "Use it.") ∧
      parseSkillMd Yaml.empty (toCrLf (bytes "---\n---\n")) (bytes "pdf") none =
        parseSkillMd Yaml.empty (bytes "---\n---\n") (bytes "pdf") none := by
  have h := splitFrontmatter_exact Yaml.empty
  exact ⟨h.1 (bytes "name: pdf\n") (bytes "\nUse it.") (Or.inr (by decide)) (by decide),
    (h.2.2.2 (bytes "---\n---\n") (bytes "pdf") none (by decide) (by decide)).2⟩

end AgentFlow.Skills
