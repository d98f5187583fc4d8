/-
# Values at a path of a document

What stands at a path of members of a JSON value (`memberAt?`), and the value
with something placed there (`place`): objects on the way are kept, whatever
else is on the way is replaced by an object. The two are a lens: what was
placed is found (`memberAt?_place`), the last of two placements counts
(`place_place`), and a path that parts from the one placed at keeps what it had
(`memberAt?_place_of_parted`).

The members stay in the order in which they were first bound (`assign`).

Key definitions: `assign`, `Value.memberAt?`, `Value.place`.
-/
import AgentFlow.Lib.Json

namespace Json

/-- Binds `k`, in the place it has or else at the end. -/
def assign (k : String) (v : Value) : List (String × Value) → List (String × Value)
  | [] => [(k, v)]
  | (k', v') :: ms => if k' = k then (k, v) :: ms else (k', v') :: assign k v ms

theorem lookup_assign (k k' : String) (v : Value) (ms : List (String × Value)) :
    (assign k v ms).lookup k' = if k' = k then some v else ms.lookup k' := by
  induction ms with
  | nil => rw [assign, OrderedMap.lookup_cons, List.lookup_nil]
  | cons b ms ih =>
    obtain ⟨j, w⟩ := b
    rw [assign]
    split_ifs with hj hk hk
    · rw [hk, OrderedMap.lookup_cons, if_pos rfl]
    · rw [OrderedMap.lookup_cons, OrderedMap.lookup_cons, if_neg hk, if_neg (hj ▸ hk)]
    · rw [OrderedMap.lookup_cons, if_neg (hk ▸ Ne.symm hj), ih, if_pos hk]
    · rw [OrderedMap.lookup_cons, OrderedMap.lookup_cons, ih, if_neg hk]

theorem assign_assign (k : String) (v w : Value) (ms : List (String × Value)) :
    assign k w (assign k v ms) = assign k w ms := by
  induction ms with
  | nil => rw [assign, assign, assign, if_pos rfl]
  | cons b ms ih =>
    obtain ⟨j, x⟩ := b
    rw [assign, assign]
    split_ifs with hj
    · rw [assign, if_pos rfl]
    · rw [assign, if_neg hj, ih]

namespace Value

/-- The members; a value that is no object has none. -/
def members (v : Value) : List (String × Value) := v.obj?.getD []

theorem lookup_members (v : Value) (k : String) : v.members.lookup k = v.find? k := by
  cases v <;> rfl

/-- What stands at the path. -/
def memberAt? : List String → Value → Option Value
  | [], v => some v
  | k :: path, v => (v.find? k).bind (memberAt? path)

/-- The value with another placed at the path. -/
def place (v : Value) : List String → Value → Value
  | [], _ => v
  | k :: path, root => .obj (assign k (place v path ((root.find? k).getD .null)) root.members)

theorem find?_place (v root : Value) (k k' : String) (path : List String) :
    (place v (k :: path) root).find? k' =
      if k' = k then some (place v path ((root.find? k).getD .null)) else root.find? k' := by
  rw [place, find?_obj, lookup_assign, lookup_members]

/-- What was placed is found. -/
theorem memberAt?_place (v root : Value) (path : List String) : memberAt? path (place v path root) = some v := by
  induction path generalizing root with
  | nil => rfl
  | cons k path ih => rw [memberAt?, find?_place, if_pos rfl, Option.bind_some, ih]

/-- The last of two placements counts. -/
theorem place_place (v w root : Value) (path : List String) :
    place w path (place v path root) = place w path root := by
  induction path generalizing root with
  | nil => rfl
  | cons k path ih =>
    have hfind := find?_place v root k k path
    have hmembers : (place v (k :: path) root).members =
        assign k (place v path ((root.find? k).getD .null)) root.members := rfl
    rw [if_pos rfl] at hfind
    rw [place, hfind, hmembers, Option.getD_some, ih, assign_assign]
    rfl

/-- A path that parts from the one placed at keeps what it had. -/
theorem memberAt?_place_of_parted {p q : List String} (v root : Value) (hpq : ¬ p <+: q) (hqp : ¬ q <+: p) :
    memberAt? q (place v p root) = memberAt? q root := by
  induction p generalizing q root with
  | nil => exact absurd List.nil_prefix hpq
  | cons k p ih =>
    cases q with
    | nil => exact absurd List.nil_prefix hqp
    | cons k' q =>
      rw [memberAt?, memberAt?, find?_place]
      split_ifs with hk
      · subst hk
        rw [List.cons_prefix_cons, not_and] at hpq hqp
        rw [Option.bind_some, ih _ (hpq rfl) (hqp rfl)]
        cases root.find? k' with
        | some w => rfl
        | none =>
          -- nothing stands below a member that there is not
          cases q with
          | nil => exact absurd List.nil_prefix (hqp rfl)
          | cons _ _ => rfl
      · rfl

/-- On the way only the members count. -/
theorem place_congr {root root' : Value} (h : root.members = root'.members) (v : Value) (k : String)
    (path : List String) : place v (k :: path) root = place v (k :: path) root' := by
  rw [place, place, ← lookup_members, ← lookup_members, h]

end Value

end Json
