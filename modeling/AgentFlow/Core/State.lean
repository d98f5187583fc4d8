/-
# State, the type-erased holder of graph state

`agentflow/core/state.{h,cc}`: a `State` is a protobuf message (compiled, or
built from a descriptor pool the `State` keeps alive) or a JSON document. The
protobuf and JSON libraries are not part of the repository; what the code
calls in them is gathered in `Libs`, and what it relies on is stated where it
is used (`Libs.ProtoRoundTrip`).

Key definitions: `Libs`, `State`, `State.serializeAsString`,
`State.parseFromString`, `State.clone`.
-/
import Mathlib.Data.List.Basic
import Mathlib.Tactic

namespace AgentFlow

/-- A `std::string` that holds serialized data. -/
abbrev Bytes := List UInt8

/-- What is linked in: the protobuf descriptors and field contents, the JSON
documents and their codecs, and the exceptions a node may throw. -/
structure Libs where
  Descriptor : Type
  Fields : Type
  Json : Type
  Exception : Type
  /-- `Message::GetTypeName`. -/
  fullName : Descriptor → String
  /-- A message type has a name. -/
  fullName_ne : ∀ d, fullName d ≠ ""
  serializeToString : Descriptor → Fields → Bytes
  /-- `Message::ParseFromArray`: clears the message, then parses. -/
  parseFromArray : Descriptor → Bytes → Option Fields
  dump : Json → Bytes
  parse : Bytes → Option Json

/-- Parsing undoes serializing, for every message type. -/
def Libs.ProtoRoundTrip (L : Libs) : Prop :=
  ∀ d f, L.parseFromArray d (L.serializeToString d f) = some f

/-- The same of the JSON documents. -/
def Libs.JsonRoundTrip (L : Libs) : Prop := ∀ j, L.parse (L.dump j) = some j

/-- A protobuf message. -/
structure Message (L : Libs) where
  descriptor : L.Descriptor
  fields : L.Fields

def Message.getTypeName {L : Libs} (m : Message L) : String := L.fullName m.descriptor

/-- The two arms of `backing_`; `none` is a null pointer. -/
inductive Backing (L : Libs)
  | proto (msg : Option (Message L))
  | json (doc : Option L.Json)

/-- `pool` is whether the keepalive `pool_` is set, which only
`FromDynamicProto` does. -/
structure State (L : Libs) where
  pool : Bool
  backing : Backing L

/-- The active arm, as `State::kind` reports it. -/
inductive Kind
  | proto
  | json
  | protoDynamic
  deriving DecidableEq, Repr

namespace State

variable {L : Libs}

/-- A default-constructed `State`. -/
def null : State L := ⟨false, .proto none⟩

/-- `State::From`, `State::FromMessage`. -/
def fromMessage (m : Message L) : State L := ⟨false, .proto (some m)⟩

/-- `State::FromDynamicProto` of a descriptor the pool has. -/
def fromDynamicProto (m : Message L) : State L := ⟨true, .proto (some m)⟩

/-- A JSON-backed state. -/
def fromJson (doc : L.Json) : State L := ⟨false, .json (some doc)⟩

def kind (s : State L) : Kind :=
  match s.backing with
  | .json _ => .json
  | .proto _ => if s.pool then .protoDynamic else .proto

def isEmpty (s : State L) : Bool :=
  match s.backing with
  | .proto p => p.isNone
  | .json j => j.isNone

def unsafeMessage (s : State L) : Option (Message L) :=
  match s.backing with
  | .proto p => p
  | .json _ => none

def serializeAsString (s : State L) : Bytes :=
  match s.backing with
  | .proto none => []
  | .proto (some m) => L.serializeToString m.descriptor m.fields
  | .json none => []
  | .json (some j) => L.dump j

/-- The state after the call, or `none` where it returns false. -/
def parseFromString (s : State L) (data : Bytes) : Option (State L) :=
  match s.backing with
  | .proto none => none
  | .proto (some m) =>
    (L.parseFromArray m.descriptor data).map fun f => { s with backing := .proto (some { m with fields := f }) }
  | .json none => none
  | .json (some _) => (L.parse data).map fun j => { s with backing := .json (some j) }

/-- A null JSON arm is not copied: the clone is a default-constructed state. -/
def clone (s : State L) : State L :=
  match s.backing with
  | .proto p => ⟨s.pool, .proto p⟩
  | .json (some j) => ⟨false, .json (some j)⟩
  | .json none => null

/-- What `std::move` leaves: null pointers in the same arm. -/
def moved (s : State L) : State L :=
  match s.backing with
  | .proto _ => ⟨false, .proto none⟩
  | .json _ => ⟨false, .json none⟩

/-! ### What copying and parsing give -/

/-- A state that holds a message is its own copy. -/
theorem clone_of_message {s : State L} {m : Message L} (h : s.unsafeMessage = some m) : s.clone = s := by
  rcases s with ⟨p, b⟩
  cases b with
  | proto q => rfl
  | json q => simp [unsafeMessage] at h

/-- Two protobuf-backed states of one kind and one message type differ in
their fields only. -/
theorem eq_of_kind {s t : State L} {m m' : Message L} (hs : s.unsafeMessage = some m)
    (ht : t.unsafeMessage = some m') (hk : s.kind = t.kind) :
    s = ⟨t.pool, .proto (some m)⟩ := by
  rcases s with ⟨p, b⟩
  rcases t with ⟨q, c⟩
  rcases b with b | b <;> rcases c with c | c <;> simp only [unsafeMessage, reduceCtorEq] at hs ht
  subst hs ht
  revert hk
  cases p <;> cases q <;> simp [kind]

/-- Two protobuf-backed states of one kind and one message type. -/
structure SameType (s t : State L) : Prop where
  kind : s.kind = t.kind
  descriptor : ∃ m m', s.unsafeMessage = some m ∧ t.unsafeMessage = some m' ∧ m.descriptor = m'.descriptor

/-- Parsing a protobuf state's bytes into a state of the same message type
gives the message back. -/
theorem parse_serialize_message (hL : L.ProtoRoundTrip) {s t : State L} {m m' : Message L}
    (hs : s.unsafeMessage = some m) (ht : t.unsafeMessage = some m') (hd : m.descriptor = m'.descriptor) :
    t.parseFromString s.serializeAsString = some ⟨t.pool, .proto (some m)⟩ := by
  rcases s with ⟨p, b⟩
  rcases t with ⟨q, c⟩
  rcases b with b | b <;> rcases c with c | c <;> simp only [unsafeMessage, reduceCtorEq] at hs ht
  subst hs ht
  simp only [parseFromString, serializeAsString]
  rw [← hd, hL m.descriptor m.fields]
  cases m
  cases m'
  simp only at hd
  subst hd
  rfl

end State

/-- A concrete instance, for runs on concrete inputs: messages and documents
are kept as their serialized text. -/
abbrev Libs.text : Libs where
  Descriptor := String
  Fields := Bytes
  Json := Bytes
  Exception := String
  fullName d := "test." ++ d
  fullName_ne d := by
    intro h
    have := congrArg String.length h
    simp [String.length_append] at this
  serializeToString _ f := f
  parseFromArray _ b := some b
  dump j := 123 :: j
  parse
    | 123 :: j => some j
    | _ => none

theorem Libs.text_roundTrip : Libs.text.ProtoRoundTrip := fun _ _ => rfl

/-- What tells two states of the concrete instance apart. -/
def Libs.text.key (s : State Libs.text) : Bool × Bool × Option (String × Bytes) :=
  match s.backing with
  | .proto m => (s.pool, false, m.map fun m => (m.descriptor, m.fields))
  | .json j => (s.pool, true, j.map fun j => ("", j))

theorem Libs.text.key_injective : Function.Injective Libs.text.key := by
  rintro ⟨p, b⟩ ⟨q, c⟩ h
  rcases b with (_ | ⟨d, f⟩) | (_ | j) <;> rcases c with (_ | ⟨d', f'⟩) | (_ | j') <;>
    simp_all [Libs.text.key]

instance : DecidableEq (State Libs.text) := fun s t =>
  decidable_of_iff (Libs.text.key s = Libs.text.key t) Libs.text.key_injective.eq_iff

/-- A state of the concrete instance. -/
def Libs.text.state (b : Bytes) : State Libs.text := .fromMessage ⟨"T", b⟩

theorem Libs.text.state_sameType (b b' : Bytes) : State.SameType (Libs.text.state b) (Libs.text.state b') :=
  ⟨rfl, _, _, rfl, rfl, rfl⟩

end AgentFlow
