/-
# The string fields of a State

`agentflow/core/state.{h,cc}`: `ReadStringField` and `WriteStringField` read
and write a text of a state by name. For a message the name is a field of
string type; for a JSON document it is a path of members, separated by dots,
and writing makes the objects that are missing on the way.

On documents reading and writing are a lens (`readStringField_lens`).

Key definitions: `splitPath`, `readJsonField`, `writeJsonField`, `FieldAccess`,
`State.readStringField`, `State.writeStringField`.
Key theorems: `writeJsonField_eq_place`, `readStringField_lens`.
-/
import AgentFlow.Core.State
import AgentFlow.Lib.JsonPlace

namespace AgentFlow

open Json

/-! ### Paths -/

def splitFrom (current : List Char) : List Char → List String
  | [] => [String.ofList current]
  | c :: rest => if c = '.' then String.ofList current :: splitFrom [] rest else splitFrom (current ++ [c]) rest

/-- `SplitPath`. -/
def splitPath (path : String) : List String := splitFrom [] path.toList

theorem splitFrom_ne_nil (current rest : List Char) : splitFrom current rest ≠ [] := by
  induction rest generalizing current with
  | nil => simp [splitFrom]
  | cons c rest ih =>
    rw [splitFrom]
    split_ifs
    · simp
    · exact ih _

/-- A path has a part, even if it is empty. -/
theorem exists_splitPath (path : String) : ∃ k ks, splitPath path = k :: ks :=
  List.exists_cons_of_ne_nil (splitFrom_ne_nil [] path.toList)

/-! ### Documents -/

/-- A string as it is, anything else as it is printed. -/
def fieldText (C : Codec) : Value → String
  | .str s => s
  | v => C.dump v

/-- `ReadJsonField`. -/
def readJsonField (C : Codec) (root : Value) (path : String) : String :=
  match Value.memberAt? (splitPath path) root with
  | some v => fieldText C v
  | none => ""

/-- The value if it is an object, else an empty one. -/
def asObject (v : Value) : Value := if v.isObject then v else .obj []

/-- The object `cur` points to, with the value below it. -/
def writeParts (value : Value) : List String → Value → Value
  | [], cur => cur
  | [k], cur => .obj (assign k value (asObject cur).members)
  | k :: k' :: ks, cur =>
    .obj (assign k (writeParts value (k' :: ks) (asObject (((asObject cur).find? k).getD .null)))
      (asObject cur).members)

/-- `WriteJsonField`. -/
def writeJsonField (root : Value) (path value : String) : Value := writeParts (.str value) (splitPath path) root

theorem members_asObject (v : Value) : (asObject v).members = v.members := by
  cases v <;> rfl

theorem find?_asObject (v : Value) (k : String) : (asObject v).find? k = v.find? k := by
  rw [← Value.lookup_members, members_asObject, Value.lookup_members]

theorem writeParts_eq_place (value root : Value) (k : String) (ks : List String) :
    writeParts value (k :: ks) root = value.place (k :: ks) root := by
  induction ks generalizing k root with
  | nil => rw [writeParts, Value.place, Value.place, members_asObject]
  | cons k' ks ih =>
    rw [writeParts, ih, Value.place_congr (members_asObject _), members_asObject, find?_asObject]
    rfl

/-- Writing a field places the text at the path. -/
theorem writeJsonField_eq_place (root : Value) (path value : String) :
    writeJsonField root path value = (Value.str value).place (splitPath path) root := by
  obtain ⟨k, ks, hpath⟩ := exists_splitPath path
  rw [writeJsonField, hpath, writeParts_eq_place]

/-! ### States -/

/-- What reading and writing a field use of the libraries: the fields of string
type of a message, and JSON documents as values. -/
structure FieldAccess (L : Libs) where
  /-- `FindFieldByName` finds a field, and its type is `TYPE_STRING`. -/
  isStringField : L.Descriptor → String → Bool
  getString : L.Fields → String → String
  setString : String → String → L.Fields → L.Fields
  /-- A field has a name. -/
  isStringField_empty : ∀ d, isStringField d "" = false
  getString_setString : ∀ d f v m, isStringField d f → getString (setString f v m) f = v
  documents : L.Json ≃ Value
  codec : Codec

variable {L : Libs}

/-- `ReadProtoField`. -/
def FieldAccess.readProtoField (A : FieldAccess L) (m : Message L) (path : String) : String :=
  if A.isStringField m.descriptor path then A.getString m.fields path else ""

/-- `WriteProtoField`. -/
def FieldAccess.writeProtoField (A : FieldAccess L) (m : Message L) (path value : String) : Message L :=
  if A.isStringField m.descriptor path then { m with fields := A.setString path value m.fields } else m

namespace State

/-- `ReadStringField`. -/
def readStringField (A : FieldAccess L) (s : State L) (path : String) : String :=
  match s.backing with
  | .proto none => ""
  | .proto (some m) => A.readProtoField m path
  | .json none => ""
  | .json (some j) => readJsonField A.codec (A.documents j) path

/-- `WriteStringField`: a null document is made an empty object first. -/
def writeStringField (A : FieldAccess L) (s : State L) (path value : String) : State L :=
  match s.backing with
  | .proto none => s
  | .proto (some m) => { s with backing := .proto (some (A.writeProtoField m path value)) }
  | .json none => { s with backing := .json (some (A.documents.symm (writeJsonField (.obj []) path value))) }
  | .json (some j) => { s with backing := .json (some (A.documents.symm (writeJsonField (A.documents j) path value))) }

/-- The document of a state; a null one has no members either. -/
def root (A : FieldAccess L) (s : State L) : Value :=
  match s.backing with
  | .json (some j) => A.documents j
  | _ => .null

variable {A : FieldAccess L} {s : State L} {path value : String}

theorem readStringField_of_json (h : s.kind = .json) :
    s.readStringField A path = readJsonField A.codec (s.root A) path := by
  obtain ⟨pool, backing⟩ := s
  cases backing with
  | proto p => cases pool <;> simp [kind] at h
  | json j =>
    cases j with
    | some j => rfl
    | none =>
      obtain ⟨k, ks, hpath⟩ := exists_splitPath path
      rw [readJsonField, hpath]
      rfl

theorem writeStringField_of_json (h : s.kind = .json) : s.writeStringField A path value =
    { s with backing := .json (some (A.documents.symm (writeJsonField (s.root A) path value))) } := by
  obtain ⟨pool, backing⟩ := s
  cases backing with
  | proto p => cases pool <;> simp [kind] at h
  | json j =>
    cases j with
    | some j => rfl
    | none =>
      obtain ⟨k, ks, hpath⟩ := exists_splitPath path
      have hnull : (Value.obj []).members = Value.null.members := rfl
      simp only [writeStringField, root, writeJsonField_eq_place, hpath, Value.place_congr hnull]

theorem root_writeStringField (h : s.kind = .json) :
    (s.writeStringField A path value).root A = writeJsonField (s.root A) path value := by
  rw [writeStringField_of_json h]
  exact A.documents.apply_symm_apply _

theorem kind_writeStringField (h : s.kind = .json) : (s.writeStringField A path value).kind = .json := by
  rw [writeStringField_of_json h]
  rfl

/-- **A field of a document is a lens**: what was written is read, the last of
two writes counts, and a path that parts from the one written reads as before. -/
theorem readStringField_lens (A : FieldAccess L) (s : State L) (h : s.kind = .json) (p q v w : String) :
    (s.writeStringField A p v).readStringField A p = v ∧
    (s.writeStringField A p v).writeStringField A p w = s.writeStringField A p w ∧
    (¬ splitPath p <+: splitPath q → ¬ splitPath q <+: splitPath p →
      (s.writeStringField A p v).readStringField A q = s.readStringField A q) := by
  have hkind : (s.writeStringField A p v).kind = .json := kind_writeStringField h
  refine ⟨?_, ?_, fun hpq hqp => ?_⟩
  · rw [readStringField_of_json hkind, root_writeStringField h, writeJsonField_eq_place, readJsonField,
      Value.memberAt?_place]
    rfl
  · rw [writeStringField_of_json hkind, root_writeStringField h, writeStringField_of_json h,
      writeStringField_of_json h, writeJsonField_eq_place, writeJsonField_eq_place, writeJsonField_eq_place,
      Value.place_place]
  · rw [readStringField_of_json hkind, readStringField_of_json h, root_writeStringField h, writeJsonField_eq_place,
      readJsonField, readJsonField, Value.memberAt?_place_of_parted _ _ hpq hqp]

end State

/-- A concrete instance: a message has named texts, a document is a value. -/
abbrev Libs.named : Libs where
  Descriptor := List String
  Fields := List (String × String)
  Json := Value
  Exception := String
  fullName _ := "test.Named"
  fullName_ne _ := by decide
  serializeToString _ _ := []
  parseFromArray _ _ := none
  dump _ := []
  parse _ := none

def FieldAccess.named : FieldAccess Libs.named where
  isStringField d f := f ≠ "" ∧ f ∈ d
  getString m f := (m.lookup f).getD ""
  setString f v m := OrderedMap.insert f v m
  isStringField_empty _ := by simp
  getString_setString _ _ _ _ _ := by simp
  documents := .refl Value
  codec := .ofTable []

namespace State

/-- A document that is an array becomes an object. -/
theorem readStringField_lens_array :
    ((fromJson (.arr [.bool true]) : State Libs.named).writeStringField .named "a.b" "x").readStringField
      .named "a.b" = "x" ∧
    ((fromJson (.arr [.bool true]) : State Libs.named).writeStringField .named "a.b" "x").readStringField
      .named "a.c" = "" :=
  have h := readStringField_lens .named (fromJson (.arr [.bool true])) rfl "a.b" "a.c" "x" "y"
  ⟨h.1, (h.2.2 (by decide +kernel) (by decide +kernel)).trans (by decide +kernel)⟩

end State

end AgentFlow
