/-
# JSON values and what a program may do with them

A JSON value as a dynamically typed program holds it: integers apart from
floating-point numbers (which are their 64 bits), objects as maps ordered by
key. A read of a member proves nothing about its type, so the accesses that
check (`find?`, `stringAt?`) answer with an `Option`, and those that do not
(`value`, `put`) throw the type error they throw.

Parsing and printing are a `Codec`; what a program may rely on is that
parsing undoes printing (`Codec.RoundTrips`) on the values that occur, which
are those with sorted keys and numbers that fit (`Value.WF`).

Key definitions: `Value`, `Value.find?`, `Value.value`, `Value.put`,
`Value.WF`, `Codec`.
-/
import AgentFlow.Lib.OrderedMap
import Mathlib.Data.String.Basic

namespace Json

inductive Value
  | null
  | bool (b : Bool)
  | int (i : ℤ)
  | float (bits : BitVec 64)
  | str (s : String)
  | arr (items : List Value)
  | obj (members : List (String × Value))
  deriving Repr

/-- A type error that an access throws, by its number. -/
inductive Error
  | typeError (id : ℕ)
  deriving DecidableEq, Repr

mutual

def Value.decEq : (a b : Value) → Decidable (a = b)
  | .null, .null => isTrue rfl
  | .bool a, .bool b => decidable_of_iff (a = b) (by simp)
  | .int a, .int b => decidable_of_iff (a = b) (by simp)
  | .float a, .float b => decidable_of_iff (a = b) (by simp)
  | .str a, .str b => decidable_of_iff (a = b) (by simp)
  | .arr a, .arr b => @decidable_of_iff _ (a = b) (by simp) (decEqItems a b)
  | .obj a, .obj b => @decidable_of_iff _ (a = b) (by simp) (decEqMembers a b)
  | .null, .bool _ | .null, .int _ | .null, .float _ | .null, .str _ | .null, .arr _ | .null, .obj _
  | .bool _, .null | .bool _, .int _ | .bool _, .float _ | .bool _, .str _ | .bool _, .arr _ | .bool _, .obj _
  | .int _, .null | .int _, .bool _ | .int _, .float _ | .int _, .str _ | .int _, .arr _ | .int _, .obj _
  | .float _, .null | .float _, .bool _ | .float _, .int _ | .float _, .str _ | .float _, .arr _
  | .float _, .obj _ | .str _, .null | .str _, .bool _ | .str _, .int _ | .str _, .float _ | .str _, .arr _
  | .str _, .obj _ | .arr _, .null | .arr _, .bool _ | .arr _, .int _ | .arr _, .float _ | .arr _, .str _
  | .arr _, .obj _ | .obj _, .null | .obj _, .bool _ | .obj _, .int _ | .obj _, .float _ | .obj _, .str _
  | .obj _, .arr _ => isFalse (by simp)

def decEqItems : (a b : List Value) → Decidable (a = b)
  | [], [] => isTrue rfl
  | [], _ :: _ | _ :: _, [] => isFalse (by simp)
  | a :: as, b :: bs =>
    @decidable_of_iff _ (a = b ∧ as = bs) (by simp) (@instDecidableAnd _ _ (a.decEq b) (decEqItems as bs))

def decEqMembers : (a b : List (String × Value)) → Decidable (a = b)
  | [], [] => isTrue rfl
  | [], _ :: _ | _ :: _, [] => isFalse (by simp)
  | (k, a) :: as, (l, b) :: bs =>
    @decidable_of_iff _ (k = l ∧ a = b ∧ as = bs) (by simp [and_assoc])
      (@instDecidableAnd _ _ (decEq k l) (@instDecidableAnd _ _ (a.decEq b) (decEqMembers as bs)))

end

instance : DecidableEq Value := Value.decEq

namespace Value

/-- An object with the given members. -/
def object (ms : List (String × Value)) : Value :=
  .obj (ms.foldl (fun m b => OrderedMap.insert b.1 b.2 m) [])

def isObject : Value → Bool
  | .obj _ => true
  | _ => false

/-- The member `k`; only an object has any. -/
def find? (v : Value) (k : String) : Option Value :=
  match v with
  | .obj ms => ms.lookup k
  | _ => none

def contains (v : Value) (k : String) : Bool := (v.find? k).isSome

def str? : Value → Option String
  | .str s => some s
  | _ => none

def arr? : Value → Option (List Value)
  | .arr items => some items
  | _ => none

def obj? : Value → Option (List (String × Value))
  | .obj ms => some ms
  | _ => none

def int? : Value → Option ℤ
  | .int i => some i
  | _ => none

/-- The member `k` if it is a string. -/
def stringAt? (v : Value) (k : String) : Option String := (v.find? k).bind str?

/-- The member `k` if it is an array. -/
def arrayAt? (v : Value) (k : String) : Option (List Value) := (v.find? k).bind arr?

/-- Reads the string member `k`, or the default if there is none. -/
def value (v : Value) (k default : String) : Except Error String :=
  match v with
  | .obj ms =>
    match ms.lookup k with
    | none => .ok default
    | some (.str s) => .ok s
    | some _ => .error (.typeError 302)
  | _ => .error (.typeError 306)

/-- A floating-point number cut to the integer towards zero. -/
def truncate (bits : BitVec 64) : ℤ :=
  let e := (bits.extractLsb' 52 11).toNat
  let m := 2 ^ 52 + (bits.extractLsb' 0 52).toNat
  -- below the exponent of 1.0 (the subnormal numbers too) only the fraction is left
  let n : ℕ := if e < 1023 then 0 else if e ≤ 1075 then m / 2 ^ (1075 - e) else m * 2 ^ (e - 1075)
  if bits.msb then -(n : ℤ) else n

/-- The number as a signed 64-bit integer. Integers are signed or unsigned
64-bit ones, and the large unsigned ones come out negative. -/
def toInt64? : Value → Option ℤ
  | .int i => if i < 2 ^ 64 then some (if i < 2 ^ 63 then i else i - 2 ^ 64) else none
  | .float bits => some (truncate bits)
  | _ => none

/-- The number as a signed 32-bit integer; truth values are numbers here. -/
def toInt32? : Value → Option ℤ
  | .int i => some (i.bmod (2 ^ 32))
  | .float bits => some (truncate bits)
  | .bool b => some (if b then 1 else 0)
  | _ => none

/-- Reads the number member `k`, or the default if there is none. -/
def intValue (v : Value) (k : String) (default : ℤ) : Except Error ℤ :=
  match v with
  | .obj ms =>
    match ms.lookup k with
    | none => .ok default
    | some x =>
      match x.toInt32? with
      | some i => .ok i
      | none => .error (.typeError 302)
  | _ => .error (.typeError 306)

/-- Assigns to the member `k`; null becomes an object first. -/
def put (v : Value) (k : String) (x : Value) : Except Error Value :=
  match v with
  | .obj ms => .ok (.obj (OrderedMap.insert k x ms))
  | .null => .ok (.obj [(k, x)])
  | _ => .error (.typeError 305)

/-- Changes the member `k` in place, if there is one. -/
def modify (v : Value) (k : String) (f : Value → Value) : Value :=
  match v with
  | .obj ms => .obj (OrderedMap.modify k f ms)
  | v => v

@[simp]
theorem find?_obj (ms : List (String × Value)) (k : String) : (obj ms).find? k = ms.lookup k := rfl

@[simp]
theorem str?_str (s : String) : (str s).str? = some s := rfl

@[simp]
theorem arr?_arr (items : List Value) : (arr items).arr? = some items := rfl

/-- A number that is not cut to size: it is the integer it becomes, unless it
becomes negative. -/
theorem toInt64?_natCast {v : Value} {n : ℕ} (h : v.toInt64? = some (n : ℤ)) :
    v = .int n ∨ ∃ bits, v = .float bits := by
  cases v with
  | int i =>
    refine Or.inl ?_
    simp only [toInt64?] at h
    split_ifs at h with h64 h63
    · obtain rfl : i = n := by simpa using h
      rfl
    · have hi : i - 2 ^ 64 = n := by simpa using h
      omega
  | float bits => exact Or.inr ⟨bits, rfl⟩
  | _ => simp [toInt64?] at h

theorem str?_eq_some {v : Value} {s : String} (h : v.str? = some s) : v = .str s := by
  cases v <;> simp_all [str?]

@[simp]
theorem find?_modify (v : Value) (k k' : String) (f : Value → Value) :
    (v.modify k f).find? k' = if k' = k then (v.find? k').map f else v.find? k' := by
  cases v <;> simp [modify, find?]

/-- A member with a string is what `value` reads. -/
theorem value_of_stringAt? {v : Value} {k s : String} (d : String) (h : v.stringAt? k = some s) :
    v.value k d = .ok s := by
  cases v with
  | obj ms =>
    rw [stringAt?, find?_obj] at h
    obtain ⟨x, hx, hs⟩ := Option.bind_eq_some_iff.mp h
    rw [str?_eq_some hs] at hx
    simp [value, hx]
  | _ => simp [stringAt?, find?] at h

end Value

theorem sizeOf_erase_le (k : String) : ∀ ms : List (String × Value), sizeOf (OrderedMap.erase k ms) ≤ sizeOf ms
  | [] => by simp [OrderedMap.erase]
  | b :: ms => by
    have ih := sizeOf_erase_le k ms
    rw [OrderedMap.erase] at ih
    rw [OrderedMap.erase, List.filter_cons]
    split_ifs
    · simp only [List.cons.sizeOf_spec]; omega
    · simp only [List.cons.sizeOf_spec]; omega

theorem sizeOf_lookup_lt {ms : List (String × Value)} {k : String} {v : Value} (h : ms.lookup k = some v) :
    sizeOf v < sizeOf ms := by
  obtain ⟨l, r, rfl, -⟩ := List.lookup_eq_some_iff.mp h
  have hmem : (k, v) ∈ l ++ (k, v) :: r := by simp
  have := List.sizeOf_lt_of_mem hmem
  simp only [Prod.mk.sizeOf_spec] at this
  omega

/-- The numbers that fit: 64-bit integers, signed or not, and the finite
floating-point numbers. -/
def intFits (i : ℤ) : Prop := -2 ^ 63 ≤ i ∧ i < 2 ^ 64

def floatFits (bits : BitVec 64) : Prop := bits.extractLsb' 52 11 ≠ BitVec.allOnes 11

mutual

/-- Sorted keys and numbers that fit, all the way down. -/
def Value.WF : Value → Prop
  | .int i => intFits i
  | .float bits => floatFits bits
  | .arr items => itemsWF items
  | .obj ms => OrderedMap.Sorted ms ∧ membersWF ms
  | _ => True

def itemsWF : List Value → Prop
  | [] => True
  | v :: vs => v.WF ∧ itemsWF vs

def membersWF : List (String × Value) → Prop
  | [] => True
  | (_, v) :: ms => v.WF ∧ membersWF ms

end

theorem itemsWF_iff : ∀ {vs : List Value}, itemsWF vs ↔ ∀ v ∈ vs, v.WF
  | [] => by simp [itemsWF]
  | v :: vs => by rw [itemsWF, @itemsWF_iff vs]; simp

theorem membersWF_iff : ∀ {ms : List (String × Value)}, membersWF ms ↔ ∀ b ∈ ms, b.2.WF
  | [] => by simp [membersWF]
  | (_, v) :: ms => by rw [membersWF, @membersWF_iff ms]; simp

theorem wf_insert {ms : List (String × Value)} {k : String} {v : Value} (h : (Value.obj ms).WF) (hv : v.WF) :
    (Value.obj (OrderedMap.insert k v ms)).WF := by
  obtain ⟨hs, hm⟩ := h
  refine ⟨hs.insert k v, membersWF_iff.mpr fun b hb => ?_⟩
  rcases OrderedMap.mem_insert hb with rfl | hb
  · exact hv
  · exact membersWF_iff.mp hm b hb

theorem wf_object {ms : List (String × Value)} (h : ∀ b ∈ ms, b.2.WF) : (Value.object ms).WF := by
  have key : ∀ (ms acc : List (String × Value)), (∀ b ∈ ms, b.2.WF) → (Value.obj acc).WF →
      (Value.obj (ms.foldl (fun m b => OrderedMap.insert b.1 b.2 m) acc)).WF := by
    intro ms
    induction ms with
    | nil => exact fun acc _ ha => ha
    | cons b ms ih =>
      intro acc hb ha
      exact ih _ (fun b' hb' => hb b' (List.mem_cons_of_mem _ hb')) (wf_insert ha (hb b List.mem_cons_self))
  exact key ms [] h ⟨OrderedMap.sorted_nil, trivial⟩

/-- Parsing and printing. A text that is not JSON does not parse. -/
structure Codec where
  parse : String → Option Value
  dump : Value → String

/-- Parsing undoes printing, at `v`. -/
def Codec.RoundTrips (C : Codec) (v : Value) : Prop := C.parse (C.dump v) = some v

/-- What is printed parses to nothing else. -/
def Codec.Sound (C : Codec) : Prop := ∀ v w : Value, v.WF → C.parse (C.dump v) = some w → w = v

/-- The codec of finitely many texts, each with the value it prints. -/
def Codec.ofTable (texts : List (String × Value)) : Codec where
  parse := fun text => texts.lookup text
  dump := fun v => ((texts.find? fun b => b.2 = v).map Prod.fst).getD ""

theorem Codec.wf_of_parse_ofTable {texts : List (String × Value)} (h : ∀ b ∈ texts, b.2.WF) {text : String} {v : Value}
    (hv : (Codec.ofTable texts).parse text = some v) : v.WF := by
  obtain ⟨l, r, rfl, -⟩ := List.lookup_eq_some_iff.mp hv
  exact h (text, v) (by simp)

theorem Codec.sound_ofTable {texts : List (String × Value)} (hn : (texts.map Prod.fst).Nodup)
    (h0 : "" ∉ texts.map Prod.fst) : (Codec.ofTable texts).Sound := by
  intro v w _ h
  simp only [ofTable] at h
  obtain ⟨l, r, hl, -⟩ := List.lookup_eq_some_iff.mp h
  cases hf : texts.find? fun b => b.2 = v with
  | none =>
    rw [hf] at hl
    refine absurd ?_ h0
    rw [hl]
    simp
  | some b =>
    have hb : b.2 = v := by simpa using List.find?_some hf
    have hw : (b.1, w) ∈ texts := by
      rw [hl, hf]
      simp
    have := List.inj_on_of_nodup_map hn (List.mem_of_find?_eq_some hf) hw rfl
    rw [← hb, this]

end Json
