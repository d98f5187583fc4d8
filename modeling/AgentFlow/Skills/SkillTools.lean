/-
# The tools of a skill

`agentflow/skills/skill_tools.cc` and what it uses of `skill_library.cc`:
`load_skill` answers with the body of a skill, and `read_skill_file` with a
file under its directory. The path comes from the model: it is refused by its
elements, then made canonical, then compared with the directory element by
element (`isContained`).

A path is the list of its elements, as POSIX has them. The file system is a
parameter that does not change, and so are `std::filesystem::weakly_canonical`, the
parser of the arguments, and which of the calls of the operating system fail.

Key definitions: `SkillLibrary`, `pathOf`, `isContained`, `readSkillFile`.
Key theorems: `isContained_iff`, `select_valid`, `readSkillFile_confined`.
-/
import AgentFlow.Lib.Json
import AgentFlow.Lib.FileSystem
import AgentFlow.Skills.Skill

namespace AgentFlow.Skills

open Files Json

abbrev Path := List (Elem Bytes)

abbrev Host := FileSystem Bytes Bytes

/-! ### The library -/

/-- The skills by their names. `ParseSkillMd` checked each, and its directory is what
`fs::canonical` gave. -/
structure SkillLibrary where
  skills : List (Bytes × Skill)
  named : ∀ entry ∈ skills, entry.2.name = entry.1 ∧ isValidSkillName entry.1 = true
  canonical : ∀ entry ∈ skills, ∃ names : List Bytes, entry.2.dir = .root :: names.map .name

namespace SkillLibrary

def find (library : SkillLibrary) (name : Bytes) : Option Skill := library.skills.lookup name

/-- `Select`, from the names that were seen. -/
def selectFrom (library : SkillLibrary) : List Bytes → List Bytes → Except Status.Error (List Skill)
  | _, [] => .ok []
  | seen, name :: names =>
    if name ∈ seen then .error ⟨.invalidArgument, "skill '" ++ shown name ++ "' is listed twice"⟩
    else
      match library.find name with
      | none => .error ⟨.notFound, "unknown skill '" ++ shown name ++ "'"⟩
      | some skill => do
        let selected ← library.selectFrom (name :: seen) names
        .ok (skill :: selected)

def select (library : SkillLibrary) (names : List Bytes) : Except Status.Error (List Skill) :=
  library.selectFrom [] names

end SkillLibrary

/-! ### Paths -/

def slash : UInt8 := 0x2F

def elementOf (piece : Bytes) : Elem Bytes :=
  if piece = bytes "." then .dot else if piece = bytes ".." then .dotdot else .name piece

/-- `fs::path(text)`. -/
def pathOf (text : Bytes) : Path :=
  let names := ((text.splitOn slash).filter fun piece => !piece.isEmpty).map elementOf
  (if text.head? = some slash then [.root] else []) ++ names ++
    (if text.getLast? = some slash ∧ names ≠ [] then [.trailing] else [])

def isAbsolute (path : Path) : Bool := path.head? = some .root

/-- A path of POSIX has no root name. -/
def hasRootName (_ : Path) : Bool := false

/-- `base / path`, of a path that is not empty. -/
def append (base path : Path) : Path :=
  if isAbsolute path then path
  else (if base.getLast? = some .trailing then base.dropLast else base) ++ path

def isContained : Path → Path → Bool
  | [], target => !target.isEmpty
  | _ :: _, [] => false
  | b :: base, t :: target => if b ≠ t then false else isContained base target

/-! ### The answers -/

/-- What a tool returns: a text, or the error object with a code and a message. An object with
a message that is no UTF-8 cannot be written, and an exception is thrown. -/
inductive Answer
  | text (content : Bytes)
  | error (code : String) (message : Bytes)
  | typeError
  deriving DecidableEq, Repr

/-- `Error(code, message)`. -/
def errorObject (code : String) (message : Bytes) : Answer :=
  if isValidUtf8 message then .error code message else .typeError

/-- `absl::StrJoin(names, ", ")`. -/
def joined (names : List Bytes) : Bytes := (bytes ", ").intercalate names

/-- `VisibleSkill`; arguments that do not parse are `none`. -/
def visibleSkill (args : Option Value) (key : String) (library : SkillLibrary) (visible : List Bytes) :
    Except Answer Skill :=
  match args.bind (·.stringAt? key) with
  | none => .error (errorObject "bad_args" (bytes ("'" ++ key ++ "' must be a string")))
  | some text =>
    let name := bytes text
    match if name ∈ visible then library.find name else none with
    | none =>
      .error (errorObject "unknown_skill"
        (bytes "unknown skill '" ++ name ++ bytes "'; available: " ++ joined visible))
    | some skill => .ok skill

def loadSkill (parse : Bytes → Option Value) (library : SkillLibrary) (visible : List Bytes) (argsJson : Bytes) :
    Answer :=
  match visibleSkill (parse argsJson) "name" library visible with
  | .error answer => answer
  | .ok skill =>
    .text (bytes "Skill directory: " ++ skill.name ++
      bytes "/ — use read_skill_file(skill, path) for files referenced below.\n\n" ++ skill.body)

/-! ### The file system -/

def kMaxSkillFileBytes : ℕ := 262144

/-- The calls of the operating system that fail, whatever the reason. -/
structure Faults where
  status : Bool := false
  fileSize : Bool := false
  openFile : Bool := false
  read : Bool := false

inductive FileType
  | none
  | notFound
  | regular
  | directory
  | other
  deriving DecidableEq, Repr

inductive Errc
  | noSuchFileOrDirectory
  | other
  deriving DecidableEq, Repr

def fileTypeOf : Node Bytes Bytes → FileType
  | .regular _ => .regular
  | .directory => .directory
  | _ => .other

/-- `fs::status(path, ec)`, which follows links. -/
def status (host : Host) (faults : Faults) (path : Path) : FileType × Option Errc :=
  if faults.status then (.none, some .other)
  else
    match host.resolve path with
    | .error .notFound => (.notFound, some .noSuchFileOrDirectory)
    | .error .tooManyLinks => (.none, some .other)
    | .ok names =>
      match host.node names with
      | some node => (fileTypeOf node, none)
      | none => (.notFound, some .noSuchFileOrDirectory)

/-- The content of the file that the path leads to. -/
def contentAt (host : Host) (path : Path) : Option Bytes :=
  match host.resolve path with
  | .error _ => none
  | .ok names =>
    match host.node names with
    | some (.regular content) => some content
    | _ => none

def fileSize (host : Host) (faults : Faults) (path : Path) : Option ℕ :=
  if faults.fileSize then none else (contentAt host path).map List.length

/-- The first bytes of the file through a stream, or `none` if it cannot be opened or read. -/
def readBytes (host : Host) (faults : Faults) (path : Path) (n : ℕ) : Option Bytes :=
  if faults.openFile ∨ faults.read then none else (contentAt host path).map (List.take n)

/-- `ReadSkillFile`, from the target on. -/
def readTarget (host : Host) (faults : Faults) (relStr : Bytes) (target : Path) : Answer :=
  let fileStatus := status host faults target
  if fileStatus.2 = some .noSuchFileOrDirectory ∨ fileStatus.1 = .notFound then
    errorObject "not_found" (bytes "no such file '" ++ relStr ++ bytes "'")
  else if fileStatus.2.isSome ∨ fileStatus.1 ≠ .regular then
    errorObject "not_a_file" (bytes "'" ++ relStr ++ bytes "' is not a regular file")
  else
    match fileSize host faults target with
    | none => errorObject "not_found" (bytes "cannot read '" ++ relStr ++ bytes "'")
    | some size =>
      if kMaxSkillFileBytes < size then
        errorObject "too_large"
          (bytes "'" ++ relStr ++ bytes "' exceeds " ++ bytes (toString kMaxSkillFileBytes) ++ bytes " bytes")
      else
        match readBytes host faults target (kMaxSkillFileBytes + 1) with
        | none => errorObject "not_found" (bytes "cannot read '" ++ relStr ++ bytes "'")
        | some content =>
          if kMaxSkillFileBytes < content.length then
            errorObject "too_large"
              (bytes "'" ++ relStr ++ bytes "' exceeds " ++ bytes (toString kMaxSkillFileBytes) ++ bytes " bytes")
          else if isValidUtf8 content = false then
            errorObject "not_utf8" (bytes "'" ++ relStr ++ bytes "' is not UTF-8 text")
          else .text content

def readSkillFile (host : Host) (weaklyCanonical : Path → Option Path) (faults : Faults)
    (parse : Bytes → Option Value) (library : SkillLibrary) (visible : List Bytes) (argsJson : Bytes) : Answer :=
  match visibleSkill (parse argsJson) "skill" library visible with
  | .error answer => answer
  | .ok skill =>
    match (parse argsJson).bind (·.stringAt? "path") with
    | none => errorObject "bad_args" (bytes "'path' must be a string")
    | some text =>
      let relStr := bytes text
      let rel := pathOf relStr
      if relStr = [] ∨ 0 ∈ relStr ∨ isAbsolute rel ∨ hasRootName rel ∨ .dotdot ∈ rel then
        errorObject "path_not_allowed" (bytes "path must stay within the skill directory")
      else
        match weaklyCanonical (append skill.dir rel) with
        | none => errorObject "not_found" (bytes "cannot resolve '" ++ relStr ++ bytes "'")
        | some target =>
          if isContained skill.dir target = false then
            errorObject "path_not_allowed" (bytes "path escapes the skill directory")
          else readTarget host faults relStr target

/-! ### Messages -/

theorem isValidUtf8_bytes (s : String) : isValidUtf8 (bytes s) = true := isValidUtf8_iff.mpr ⟨s.toList, rfl⟩

theorem isValidUtf8_append {a b : Bytes} (ha : isValidUtf8 a = true) (hb : isValidUtf8 b = true) :
    isValidUtf8 (a ++ b) = true := by
  obtain ⟨as, rfl⟩ := isValidUtf8_iff.mp ha
  obtain ⟨bs, rfl⟩ := isValidUtf8_iff.mp hb
  exact isValidUtf8_iff.mpr ⟨as ++ bs, List.flatMap_append.symm⟩

theorem isValidUtf8_joined {names : List Bytes} (h : ∀ name ∈ names, isValidUtf8 name = true) :
    isValidUtf8 (joined names) = true := by
  induction names with
  | nil => exact isValidUtf8_bytes ""
  | cons name names ih =>
    rw [List.forall_mem_cons] at h
    cases names with
    | nil =>
      rw [joined, List.intercalate_singleton]
      exact h.1
    | cons other names =>
      rw [joined, List.intercalate_cons_cons]
      exact isValidUtf8_append (isValidUtf8_append h.1 (isValidUtf8_bytes ", ")) (ih h.2)

/-- A text with a valid text in the middle. -/
theorem isValidUtf8_quoted {a : Bytes} (before after : String) (ha : isValidUtf8 a = true) :
    isValidUtf8 (bytes before ++ a ++ bytes after) = true :=
  isValidUtf8_append (isValidUtf8_append (isValidUtf8_bytes before) ha) (isValidUtf8_bytes after)

theorem errorObject_of_valid {message : Bytes} (code : String) (h : isValidUtf8 message = true) :
    errorObject code message = .error code message := by
  rw [errorObject, if_pos h]

/-- The error object of a message about a valid text. -/
theorem exists_error_quoted {a : Bytes} (code before after : String) (ha : isValidUtf8 a = true) :
    ∃ code' message, errorObject code (bytes before ++ a ++ bytes after) = .error code' message :=
  ⟨code, _, errorObject_of_valid code (isValidUtf8_quoted before after ha)⟩

theorem exists_error_bytes (code message : String) :
    ∃ code' message', errorObject code (bytes message) = .error code' message' :=
  ⟨code, _, errorObject_of_valid code (isValidUtf8_bytes message)⟩

/-! ### The library -/

/-- The characters of a name are ASCII. -/
theorem isValidUtf8_of_ascii {text : Bytes} (h : ∀ c ∈ text, c.toNat < 0x80) : isValidUtf8 text = true := by
  refine isValidUtf8_iff.mpr ⟨text.map fun c => Char.ofNat c.toNat, ?_⟩
  rw [List.flatMap_map]
  induction text with
  | nil => rfl
  | cons c text ih =>
    rw [List.forall_mem_cons] at h
    have hencode : [c] = String.utf8EncodeChar (Char.ofNat c.toNat) := by
      refine Utf8.eq_encodeChar (Or.inl (by omega)) ?_
      rw [Utf8.bytesOf, if_pos (by omega)]
      rfl
    rw [List.flatMap_cons, ← hencode, ← ih h.2, List.singleton_append]

theorem isValidUtf8_of_isValidSkillName {name : Bytes} (h : isValidSkillName name = true) :
    isValidUtf8 name = true := by
  rw [isValidSkillName] at h
  split_ifs at h
  refine isValidUtf8_of_ascii fun c hc => ?_
  have hchar := List.all_eq_true.mp h c hc
  simp only [Bool.or_eq_true, Bool.and_eq_true, decide_eq_true_eq, beq_iff_eq, UInt8.le_iff_toNat_le] at hchar
  rcases hchar with (⟨-, hle⟩ | ⟨-, hle⟩) | rfl
  · exact lt_of_le_of_lt hle (by decide)
  · exact lt_of_le_of_lt hle (by decide)
  · decide

theorem SkillLibrary.mem_of_find {library : SkillLibrary} {name : Bytes} {skill : Skill}
    (h : library.find name = some skill) : (name, skill) ∈ library.skills := by
  obtain ⟨before, after, heq, -⟩ := List.lookup_eq_some_iff.mp h
  rw [heq]
  exact List.mem_append_right _ List.mem_cons_self

theorem SkillLibrary.name_of_find {library : SkillLibrary} {name : Bytes} {skill : Skill}
    (h : library.find name = some skill) : skill.name = name :=
  (library.named _ (SkillLibrary.mem_of_find h)).1

theorem find_of_selectFrom {library : SkillLibrary} {seen names : List Bytes} {selected : List Skill}
    (h : library.selectFrom seen names = .ok selected) : ∀ name ∈ names, (library.find name).isSome = true := by
  induction names generalizing seen selected with
  | nil => simp
  | cons name names ih =>
    rw [SkillLibrary.selectFrom] at h
    split_ifs at h
    split at h
    · cases h
    · rename_i skill hfind
      obtain ⟨rest, hrest, -⟩ := Fallible.bind_eq_ok.mp h
      exact List.forall_mem_cons.mpr ⟨by rw [hfind]; rfl, ih hrest⟩

/-- The names that `MakeSkillTools` lets through, which are those of skills, are valid texts. -/
theorem select_valid {library : SkillLibrary} {names : List Bytes} {selected : List Skill}
    (h : library.select names = .ok selected) : ∀ name ∈ names, isValidUtf8 name = true := by
  intro name hname
  obtain ⟨skill, hskill⟩ := Option.isSome_iff_exists.mp (find_of_selectFrom h name hname)
  exact isValidUtf8_of_isValidSkillName (library.named _ (SkillLibrary.mem_of_find hskill)).2

/-- A visible skill is in the list and in the library; else there is an error object. -/
theorem visibleSkill_cases (args : Option Value) (key : String) (library : SkillLibrary) {visible : List Bytes}
    (hvisible : ∀ name ∈ visible, isValidUtf8 name = true) :
    (∃ code message, visibleSkill args key library visible = .error (.error code message)) ∨
      ∃ skill, visibleSkill args key library visible = .ok skill ∧ skill.name ∈ visible ∧
        library.find skill.name = some skill := by
  rw [visibleSkill]
  cases hname : args.bind (·.stringAt? key) with
  | none =>
    obtain ⟨code, message, herror⟩ := exists_error_bytes "bad_args" ("'" ++ key ++ "' must be a string")
    exact Or.inl ⟨code, message, congrArg Except.error herror⟩
  | some text =>
    dsimp only
    split
    · refine Or.inl ⟨"unknown_skill", _, congrArg Except.error (errorObject_of_valid _ ?_)⟩
      exact isValidUtf8_append (isValidUtf8_quoted _ _ (isValidUtf8_bytes text)) (isValidUtf8_joined hvisible)
    · rename_i skill hskill
      split_ifs at hskill with hmem
      have hown := SkillLibrary.name_of_find hskill
      exact Or.inr ⟨skill, rfl, by rwa [hown], by rwa [hown]⟩

/-! ### Confinement -/

/-- The target is strictly under the base. -/
theorem isContained_iff {base target : Path} :
    isContained base target = true ↔ ∃ more, more ≠ [] ∧ target = base ++ more := by
  induction base generalizing target with
  | nil =>
    rw [isContained, Bool.not_eq_true', List.isEmpty_eq_false_iff]
    constructor
    · exact fun h => ⟨target, h, rfl⟩
    · rintro ⟨more, hmore, rfl⟩
      exact hmore
  | cons b base ih =>
    cases target with
    | nil => simp [isContained]
    | cons t target =>
      rw [isContained]
      split_ifs with hb
      · refine iff_of_false (by simp) ?_
        rintro ⟨more, -, heq⟩
        exact hb (List.cons.inj heq).1.symm
      · rw [ih]
        simp only [List.cons_append, List.cons.injEq, (not_not.mp hb).symm, true_and]

theorem contentAt_eq_some {host : Host} {path : Path} {content : Bytes} (h : contentAt host path = some content) :
    ∃ names, host.resolve path = .ok names ∧ host.node names = some (.regular content) := by
  rw [contentAt] at h
  split at h
  · cases h
  · rename_i names hresolve
    split at h
    · rename_i content' hnode
      obtain rfl := Option.some.inj h
      exact ⟨names, hresolve, hnode⟩
    · cases h

theorem fileSize_eq_some {host : Host} {faults : Faults} {path : Path} {size : ℕ}
    (h : fileSize host faults path = some size) :
    ∃ content, contentAt host path = some content ∧ content.length = size := by
  rw [fileSize] at h
  split_ifs at h
  exact Option.map_eq_some_iff.mp h

theorem readBytes_eq_some {host : Host} {faults : Faults} {path : Path} {n : ℕ} {content : Bytes}
    (h : readBytes host faults path n = some content) :
    ∃ whole, contentAt host path = some whole ∧ whole.take n = content := by
  rw [readBytes] at h
  split_ifs at h
  exact Option.map_eq_some_iff.mp h

/-- What is read is the whole content of a regular file that is small and valid UTF-8. -/
theorem readTarget_cases (host : Host) (faults : Faults) {relStr : Bytes} (hrel : isValidUtf8 relStr = true)
    (target : Path) :
    (∃ code message, readTarget host faults relStr target = .error code message) ∨
      ∃ content names, readTarget host faults relStr target = .text content ∧ host.resolve target = .ok names ∧
        host.node names = some (.regular content) ∧ content.length ≤ kMaxSkillFileBytes ∧
        isValidUtf8 content = true := by
  have htooLarge : isValidUtf8 (bytes "'" ++ relStr ++ bytes "' exceeds " ++ bytes (toString kMaxSkillFileBytes) ++
      bytes " bytes") = true :=
    isValidUtf8_append (isValidUtf8_append (isValidUtf8_quoted _ _ hrel) (isValidUtf8_bytes _)) (isValidUtf8_bytes _)
  rw [readTarget]
  split
  · exact Or.inl (exists_error_quoted _ _ _ hrel)
  split
  · exact Or.inl (exists_error_quoted _ _ _ hrel)
  split
  · exact Or.inl (exists_error_quoted _ _ _ hrel)
  · rename_i size hsize
    split
    · exact Or.inl ⟨_, _, errorObject_of_valid _ htooLarge⟩
    rename_i hsmall
    split
    · exact Or.inl (exists_error_quoted _ _ _ hrel)
    · rename_i content hread
      split
      · exact Or.inl ⟨_, _, errorObject_of_valid _ htooLarge⟩
      split
      · exact Or.inl (exists_error_quoted _ _ _ hrel)
      rename_i hvalid
      obtain ⟨whole, hwhole, hlength⟩ := fileSize_eq_some hsize
      obtain ⟨whole', hwhole', htake⟩ := readBytes_eq_some hread
      obtain rfl : whole = whole' := Option.some.inj (hwhole.symm.trans hwhole')
      obtain ⟨names, hresolve, hnode⟩ := contentAt_eq_some hwhole
      rw [List.take_of_length_le (by omega)] at htake
      subst htake
      exact Or.inr ⟨whole, names, rfl, hresolve, hnode, by omega, by simpa using hvalid⟩

/-- The path that is made canonical has no `..`, for a path that the filter lets through. -/
theorem dotdot_not_mem_append {dir : List Bytes} {base rel : Path} (hbase : base = .root :: dir.map .name)
    (habsolute : isAbsolute rel = false) (hrel : .dotdot ∉ rel) : .dotdot ∉ append base rel := by
  have hlast : base.getLast? ≠ some .trailing := by
    intro hlast
    have hmem := List.mem_of_getLast? hlast
    simp [hbase] at hmem
  rw [append, if_neg (by simp [habsolute]), if_neg hlast, hbase]
  simp [hrel]

/-- A target that exists under a canonical directory is that directory and more names. -/
theorem names_of_contained {host : Host} {dir names : List Bytes} {target : Path}
    (hcontained : isContained (.root :: dir.map .name) target = true) (hcanonical : host.Canonical target)
    (hresolve : host.resolve target = .ok names) :
    ∃ more, more ≠ [] ∧ names = dir ++ more ∧ target = .root :: names.map .name := by
  obtain ⟨rest, hrest, htarget⟩ := isContained_iff.mp hcontained
  have hnames := FileSystem.resolve_of_canonical hcanonical hresolve
  rw [hnames, List.cons_append, List.cons.injEq] at htarget
  obtain ⟨own, more, hsplit, hown, hmore⟩ := List.map_eq_append_iff.mp htarget.2
  have hinj : Function.Injective (Elem.name : Bytes → Elem Bytes) := fun _ _ h => Elem.name.inj h
  obtain rfl : own = dir := List.map_injective_iff.mpr hinj hown
  refine ⟨more, ?_, hsplit, hnames⟩
  rintro rfl
  exact hrest hmore.symm

/-- `read_skill_file` answers with the content of a regular file strictly under the canonical directory of a
skill that is in the visible list and in the library, when that content is small and valid UTF-8;
every other answer is an error object. -/
theorem readSkillFile_confined (host : Host) (weaklyCanonical : Path → Option Path)
    (hcanonical : host.ResolvesExisting weaklyCanonical) (faults : Faults) (parse : Bytes → Option Value)
    (library : SkillLibrary) (visible : List Bytes) (hvisible : ∀ name ∈ visible, isValidUtf8 name = true)
    (argsJson : Bytes) :
    (∃ code message,
      readSkillFile host weaklyCanonical faults parse library visible argsJson = .error code message) ∨
    ∃ skill content, ∃ dir more : List Bytes,
      readSkillFile host weaklyCanonical faults parse library visible argsJson = .text content ∧
      skill.name ∈ visible ∧ library.find skill.name = some skill ∧
      skill.dir = .root :: dir.map .name ∧ more ≠ [] ∧
      host.Canonical (.root :: (dir ++ more).map .name) ∧ host.node (dir ++ more) = some (.regular content) ∧
      content.length ≤ kMaxSkillFileBytes ∧ isValidUtf8 content = true := by
  rw [readSkillFile]
  rcases visibleSkill_cases (parse argsJson) "skill" library hvisible with
    ⟨code, message, herror⟩ | ⟨skill, hskill, hmem, hfind⟩
  · rw [herror]
    exact Or.inl ⟨code, message, rfl⟩
  rw [hskill]
  dsimp only
  split
  · exact Or.inl (exists_error_bytes _ _)
  rename_i text htext
  split
  · exact Or.inl (exists_error_bytes _ _)
  rename_i hfilter
  split
  · exact Or.inl (exists_error_quoted _ _ _ (isValidUtf8_bytes text))
  rename_i target htarget
  split
  · exact Or.inl (exists_error_bytes _ _)
  rename_i hcontained
  rcases readTarget_cases host faults (isValidUtf8_bytes text) target with
    herror | ⟨content, names, htext', hresolve, hnode, hsmall, hvalid⟩
  · exact Or.inl herror
  obtain ⟨dir, hdir⟩ := library.canonical _ (SkillLibrary.mem_of_find hfind)
  rw [hdir] at hcontained
  simp only [not_or, Bool.not_eq_true] at hfilter
  have hdotdot := dotdot_not_mem_append hdir hfilter.2.2.1 hfilter.2.2.2.2
  have hne : target ≠ [] := by
    rintro rfl
    exact hcontained rfl
  have htargetCanonical := hcanonical _ target hdotdot htarget target List.prefix_rfl hne ⟨names, hresolve⟩
  obtain ⟨more, hmore, rfl, heq⟩ := names_of_contained (by simpa using hcontained) htargetCanonical hresolve
  rw [heq] at htargetCanonical
  exact Or.inr ⟨skill, content, dir, more, htext', hmem, hfind, hdir, hmore, htargetCanonical, hnode, hsmall, hvalid⟩

/-- A skill with a file and a link to it. -/
def sampleNode (names : List Bytes) : Option (Node Bytes Bytes) :=
  if names = [] ∨ names = [bytes "skills"] ∨ names = [bytes "skills", bytes "pdf"] then some .directory
  else if names = [bytes "skills", bytes "pdf", bytes "forms.md"] then some (.regular (bytes "Forms"))
  else if names = [bytes "skills", bytes "pdf", bytes "link"] then some (.symlink [.name (bytes "forms.md")])
  else none

def sampleHost : Host := ⟨sampleNode, [], 40⟩

def sampleFile : Path := [.root, .name (bytes "skills"), .name (bytes "pdf"), .name (bytes "forms.md")]

def sampleCanonical (path : Path) : Option Path :=
  if path = [.root, .name (bytes "skills"), .name (bytes "pdf"), .name (bytes "link")] then some sampleFile else none

def sampleSkill : Skill := { name := bytes "pdf", dir := [.root, .name (bytes "skills"), .name (bytes "pdf")] }

def sampleLibrary : SkillLibrary where
  skills := [(bytes "pdf", sampleSkill)]
  named := by decide
  canonical := by
    intro entry hentry
    obtain rfl := List.mem_singleton.mp hentry
    exact ⟨[bytes "skills", bytes "pdf"], rfl⟩

def sampleArgs (_ : Bytes) : Option Value := some (.obj [("path", .str "link"), ("skill", .str "pdf")])

theorem readSkillFile_sample :
    readSkillFile sampleHost sampleCanonical {} sampleArgs sampleLibrary [bytes "pdf"] [] = .text (bytes "Forms") := by
  decide +kernel

theorem sampleFile_canonical : sampleHost.Canonical sampleFile := by
  refine ⟨[bytes "skills", bytes "pdf", bytes "forms.md"], rfl, fun before hbefore target htarget => ?_⟩
  change sampleNode before = _ at htarget
  rw [sampleNode] at htarget
  split_ifs at htarget with hdirectory hfile hlink
  · cases htarget
  · cases htarget
  · rw [hlink] at hbefore
    revert hbefore
    decide

theorem sampleCanonical_resolves : sampleHost.ResolvesExisting sampleCanonical := by
  intro path result _ hresult before hbefore hne _
  rw [sampleCanonical] at hresult
  split_ifs at hresult
  obtain rfl := Option.some.inj hresult
  exact sampleFile_canonical.of_prefix hbefore hne

/-- A link to a file of the skill is followed. -/
theorem readSkillFile_confined_link :
    ∃ skill : Skill, ∃ content, ∃ dir more : List Bytes,
      readSkillFile sampleHost sampleCanonical {} sampleArgs sampleLibrary [bytes "pdf"] [] = .text content ∧
      skill.name ∈ [bytes "pdf"] ∧ skill.dir = .root :: dir.map .name ∧ more ≠ [] ∧
      sampleHost.node (dir ++ more) = some (.regular content) := by
  have hvisible : ∀ name ∈ [bytes "pdf"], isValidUtf8 name = true :=
    List.forall_mem_singleton.mpr (isValidUtf8_bytes "pdf")
  rcases readSkillFile_confined sampleHost sampleCanonical sampleCanonical_resolves {} sampleArgs sampleLibrary
    [bytes "pdf"] hvisible [] with ⟨code, message, herror⟩ | ⟨skill, content, dir, more, h⟩
  · rw [readSkillFile_sample] at herror
    cases herror
  · exact ⟨skill, content, dir, more, h.1, h.2.1, h.2.2.2.1, h.2.2.2.2.1, h.2.2.2.2.2.2.1⟩

end AgentFlow.Skills
