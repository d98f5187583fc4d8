/-
# JSON values with their members sorted

Some libraries keep the members of an object as they were written, and others
by key. `Value.sort` turns the first into the second, all the way down. What
a program reads from the two is the same up to sorting (`find?_sort`,
`arrayAt?_sort`, `stringAt?_sort`).

Key definitions: `Value.sort`, `Value.parts`, `Value.Keyed`.
-/
import AgentFlow.Lib.Json

namespace Json

mutual

/-- The value with the members of its objects sorted by key. -/
def Value.sort : Value → Value
  | .arr items => .arr (sortItems items)
  | .obj ms => .obj (sortMembers ms)
  | .null => .null
  | .bool b => .bool b
  | .int i => .int i
  | .float bits => .float bits
  | .str s => .str s

def sortItems : List Value → List Value
  | [] => []
  | v :: vs => v.sort :: sortItems vs

def sortMembers : List (String × Value) → List (String × Value)
  | [] => []
  | (k, v) :: ms => OrderedMap.insert k v.sort (sortMembers ms)

end

mutual

/-- The value and all values in it. -/
def Value.parts : Value → List Value
  | .arr items => .arr items :: itemsParts items
  | .obj ms => .obj ms :: membersParts ms
  | .null => [.null]
  | .bool b => [.bool b]
  | .int i => [.int i]
  | .float bits => [.float bits]
  | .str s => [.str s]

def itemsParts : List Value → List Value
  | [] => []
  | v :: vs => v.parts ++ itemsParts vs

def membersParts : List (String × Value) → List Value
  | [] => []
  | (_, v) :: ms => v.parts ++ membersParts ms

end

mutual

/-- No object of the value has a key twice. -/
def Value.Keyed : Value → Prop
  | .arr items => itemsKeyed items
  | .obj ms => (ms.map Prod.fst).Nodup ∧ membersKeyed ms
  | _ => True

def itemsKeyed : List Value → Prop
  | [] => True
  | v :: vs => v.Keyed ∧ itemsKeyed vs

def membersKeyed : List (String × Value) → Prop
  | [] => True
  | (_, v) :: ms => v.Keyed ∧ membersKeyed ms

end

theorem sortItems_eq_map : ∀ vs : List Value, sortItems vs = vs.map Value.sort
  | [] => rfl
  | v :: vs => by rw [sortItems, sortItems_eq_map vs, List.map_cons]

theorem membersKeyed_iff : ∀ {ms : List (String × Value)}, membersKeyed ms ↔ ∀ b ∈ ms, b.2.Keyed
  | [] => by simp [membersKeyed]
  | (_, v) :: ms => by rw [membersKeyed, @membersKeyed_iff ms]; simp

theorem lookup_sortMembers (k : String) : ∀ ms : List (String × Value),
    (sortMembers ms).lookup k = (ms.lookup k).map Value.sort
  | [] => rfl
  | (k', v) :: ms => by
    rw [sortMembers, OrderedMap.lookup_insert, lookup_sortMembers k ms, OrderedMap.lookup_cons]
    split_ifs <;> rfl

theorem sorted_sortMembers : ∀ ms : List (String × Value), OrderedMap.Sorted (sortMembers ms)
  | [] => OrderedMap.sorted_nil
  | (k, v) :: ms => (sorted_sortMembers ms).insert k v.sort

theorem lookup_map_snd (k : String) (f : Value → Value) : ∀ ms : List (String × Value),
    (ms.map fun b => (b.1, f b.2)).lookup k = (ms.lookup k).map f
  | [] => rfl
  | (k', v) :: ms => by
    rw [List.map_cons, OrderedMap.lookup_cons, OrderedMap.lookup_cons, lookup_map_snd k f ms]
    split_ifs <;> rfl

namespace Value

@[simp]
theorem sort_arr (items : List Value) : (arr items).sort = arr (items.map sort) := by
  rw [sort, sortItems_eq_map]

@[simp]
theorem sort_obj (ms : List (String × Value)) : (obj ms).sort = obj (sortMembers ms) := by rw [sort]

@[simp]
theorem sort_str (s : String) : (str s).sort = str s := by rw [sort]

/-- A sorted object is well formed if its members are. -/
theorem wf_sort_obj : ∀ {ms : List (String × Value)}, (∀ b ∈ ms, b.2.sort.WF) → (obj ms).sort.WF
  | [], _ => ⟨OrderedMap.sorted_nil, trivial⟩
  | (k, v) :: ms, h => by
    rw [sort_obj, sortMembers]
    have hrest : (obj ms).sort.WF := wf_sort_obj fun b hb => h b (List.mem_cons_of_mem _ hb)
    rw [sort_obj] at hrest
    exact wf_insert hrest (h (k, v) List.mem_cons_self)

@[simp]
theorem find?_sort (v : Value) (k : String) : v.sort.find? k = (v.find? k).map sort := by
  cases v <;> simp [sort, find?, lookup_sortMembers]

@[simp]
theorem str?_sort (v : Value) : v.sort.str? = v.str? := by
  cases v <;> simp [sort, str?]

@[simp]
theorem int?_sort (v : Value) : v.sort.int? = v.int? := by
  cases v <;> simp [sort, int?]

@[simp]
theorem isObject_sort (v : Value) : v.sort.isObject = v.isObject := by
  cases v <;> simp [sort, isObject]

@[simp]
theorem stringAt?_sort (v : Value) (k : String) : v.sort.stringAt? k = v.stringAt? k := by
  rw [stringAt?, stringAt?, find?_sort, Option.bind_map]
  exact congrArg _ (funext str?_sort)

end Value

end Json
