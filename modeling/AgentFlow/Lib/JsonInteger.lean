/-
# JSON integers of any size

A document may give an integer of any size. A parser keeps it as an integer if
it fits 64 bits, signed or not, and otherwise makes it a floating-point number.
So an integer that a program reads is the one that was written
(`int?_kept`).

Key definitions: `Value.kept`, `Value.intAt?`.
Key theorems: `find?_kept`, `intAt?_kept`.
-/
import AgentFlow.Lib.JsonSort

namespace Json

instance (i : ℤ) : Decidable (intFits i) := inferInstanceAs (Decidable (_ ∧ _))

mutual

/-- What a parser keeps of a document; `round` makes an integer a floating-point number. -/
def Value.kept (round : ℤ → BitVec 64) : Value → Value
  | .int i => if intFits i then .int i else .float (round i)
  | .arr items => .arr (keptItems round items)
  | .obj ms => .obj (keptMembers round ms)
  | .null => .null
  | .bool b => .bool b
  | .float bits => .float bits
  | .str s => .str s

def keptItems (round : ℤ → BitVec 64) : List Value → List Value
  | [] => []
  | v :: vs => v.kept round :: keptItems round vs

def keptMembers (round : ℤ → BitVec 64) : List (String × Value) → List (String × Value)
  | [] => []
  | (k, v) :: ms => (k, v.kept round) :: keptMembers round ms

end

/-- The member `k` if it is an integer. -/
def Value.intAt? (v : Value) (k : String) : Option ℤ := (v.find? k).bind Value.int?

section

variable (round : ℤ → BitVec 64)

theorem keptMembers_eq_map (ms : List (String × Value)) :
    keptMembers round ms = ms.map fun b => (b.1, b.2.kept round) := by
  induction ms with
  | nil => rw [keptMembers, List.map_nil]
  | cons b ms ih => rw [keptMembers, ih, List.map_cons]

/-- A document and what is kept of it have the same members. -/
theorem Value.find?_kept (v : Value) (k : String) : (v.kept round).find? k = (v.find? k).map (Value.kept round) := by
  cases v with
  | obj ms => rw [Value.kept, Value.find?_obj, Value.find?_obj, keptMembers_eq_map, lookup_map_snd]
  | int i =>
    rw [Value.kept]
    split_ifs <;> rfl
  | _ => rw [Value.kept]; rfl

/-- An integer is kept if it fits. -/
theorem Value.int?_kept (v : Value) : (v.kept round).int? = v.int?.filter fun i => intFits i := by
  cases v with
  | int i =>
    rw [Value.kept]
    split_ifs with h
    · simp [Value.int?, Option.filter, h]
    · simp [Value.int?, Option.filter, h]
  | _ => rw [Value.kept]; rfl

theorem Value.intAt?_kept (v : Value) (k : String) :
    (v.kept round).intAt? k = (v.intAt? k).filter fun i => intFits i := by
  rw [Value.intAt?, Value.intAt?, Value.find?_kept]
  cases v.find? k with
  | none => rfl
  | some w => exact w.int?_kept round

/-- An object is kept as an object. -/
theorem Value.kept_eq_obj {v : Value} {ms : List (String × Value)} (h : v.kept round = .obj ms) :
    ∃ ns, v = .obj ns ∧ ms = ns.map fun b => (b.1, b.2.kept round) := by
  cases v with
  | obj ns =>
    rw [Value.kept, keptMembers_eq_map] at h
    exact ⟨ns, rfl, (Value.obj.inj h).symm⟩
  | int i =>
    rw [Value.kept] at h
    split_ifs at h
  | _ => rw [Value.kept] at h; cases h

end

end Json
