/-
# How long a JSON text is at least

A text that parses to a value spells it out: it is at least as long as the
strings in the value with their quotes, the brackets around them, and one
character for each other leaf (`Value.weight`). So what a program reads out of
a value is shorter than the text the value came from.

Key definitions: `Value.weight`, `Codec.SpellsOut`.
-/
import AgentFlow.Lib.Json

namespace Json

mutual

/-- The least length of a text that spells the value out. -/
def Value.weight : Value → ℕ
  | .null => 1
  | .bool _ => 1
  | .int _ => 1
  | .float _ => 1
  | .str s => s.length + 2
  | .arr items => itemsWeight items + 2
  | .obj members => membersWeight members + 2

def itemsWeight : List Value → ℕ
  | [] => 0
  | v :: vs => v.weight + itemsWeight vs

def membersWeight : List (String × Value) → ℕ
  | [] => 0
  | (k, v) :: ms => k.length + 3 + v.weight + membersWeight ms

end

/-- What parses is spelled out. -/
def Codec.SpellsOut (C : Codec) : Prop := ∀ text v, C.parse text = some v → v.weight ≤ text.length

theorem membersWeight_cons (k : String) (v : Value) (ms : List (String × Value)) :
    membersWeight ((k, v) :: ms) = k.length + 3 + v.weight + membersWeight ms := rfl

namespace Value

theorem weight_str (s : String) : (str s).weight = s.length + 2 := rfl

theorem weight_arr (items : List Value) : (arr items).weight = itemsWeight items + 2 := rfl

theorem weight_obj (members : List (String × Value)) : (obj members).weight = membersWeight members + 2 := rfl

theorem weight_pos (v : Value) : 0 < v.weight := by
  cases v <;> exact Nat.succ_pos _

theorem weight_lt_of_find? {v w : Value} {k : String} (h : v.find? k = some w) : w.weight < v.weight := by
  cases v with
  | obj ms =>
    replace h : ms.lookup k = some w := h
    have hmembers : w.weight ≤ membersWeight ms := by
      induction ms with
      | nil => simp at h
      | cons b ms ih =>
        obtain ⟨l, x⟩ := b
        rw [OrderedMap.lookup_cons] at h
        rw [membersWeight_cons]
        split_ifs at h
        · obtain rfl : x = w := by simpa using h
          omega
        · have := ih h
          omega
    rw [weight_obj]
    omega
  | _ => simp [find?] at h

theorem length_lt_of_stringAt? {v : Value} {k s : String} (h : v.stringAt? k = some s) : s.length < v.weight := by
  obtain ⟨w, hw, hs⟩ := Option.bind_eq_some_iff.mp h
  have hlt := weight_lt_of_find? hw
  cases w with
  | str t =>
    obtain rfl : t = s := by simpa [str?] using hs
    rw [weight_str] at hlt
    omega
  | _ => simp [str?] at hs

theorem itemsWeight_lt_of_arrayAt? {v : Value} {k : String} {items : List Value} (h : v.arrayAt? k = some items) :
    itemsWeight items < v.weight := by
  obtain ⟨w, hw, hs⟩ := Option.bind_eq_some_iff.mp h
  have hlt := weight_lt_of_find? hw
  cases w with
  | arr l =>
    obtain rfl : l = items := by simpa [arr?] using hs
    rw [weight_arr] at hlt
    omega
  | _ => simp [arr?] at hs

end Value

theorem Codec.roundTrips_ofTable {texts : List (String × Value)}
    (h : ∀ b ∈ texts, (Codec.ofTable texts).parse ((Codec.ofTable texts).dump b.2) = some b.2) {text : String}
    {v : Value} (hv : (Codec.ofTable texts).parse text = some v) : (Codec.ofTable texts).RoundTrips v := by
  obtain ⟨l, r, hl, -⟩ := List.lookup_eq_some_iff.mp hv
  exact h (text, v) (by rw [hl]; simp)

end Json
