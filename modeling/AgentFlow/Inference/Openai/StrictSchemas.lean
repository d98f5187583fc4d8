/-
# Strict schemas

A strict function promises that every object schema in its parameters
requires all its properties and no others, and that no schema bounds a length
(`Settled`). Else the schema is to stay as it is: without the members that are
edited, a schema and its rewriting are the same (`essentials`).

Key definitions: `StrictSchema`, `Settled`, `essentials`, `Strictly`.
Key theorems: `settled_obj`, `essentials_eq_iff`.
-/
import AgentFlow.Inference.Openai.StrictTools
import Mathlib.Logic.Relation

namespace AgentFlow.Openai

open Json Relation

/-! ### What holds wherever a relation leads -/

section Everywhere

variable {α : Type} {R : α → α → Prop} {P : α → Prop}

/-- `P` holds of `a`, and of all that `R` leads to from there. -/
def Everywhere (R : α → α → Prop) (P : α → Prop) (a : α) : Prop := ∀ b, ReflTransGen R a b → P b

theorem everywhere_iff {a : α} : Everywhere R P a ↔ P a ∧ ∀ b, R a b → Everywhere R P b := by
  constructor
  · intro h
    exact ⟨h a .refl, fun b hb c hc => h c (.head hb hc)⟩
  · rintro ⟨ha, h⟩ b hb
    rcases hb.cases_head with rfl | ⟨c, hc, hb⟩
    · exact ha
    · exact h c hc b hb

end Everywhere

/-! ### Strict schemas -/

/-- The type is object, or properties are given. -/
def isObjectSchema (ms : List (String × Value)) : Bool :=
  ms.lookup "type" = some (.str "object") || ((ms.lookup "properties").bind Value.obj?).isSome

/-- An object schema requires its properties, and allows no others. -/
structure ClosedSchema (ms : List (String × Value)) : Prop where
  required : isObjectSchema ms = true → ∃ req, ms.lookup "required" = some (.arr req) ∧
    ∀ v, v ∈ req ↔ ∃ b ∈ propertiesOf ms, v = .str b.1
  closed : isObjectSchema ms = true → ms.lookup "additionalProperties" = some (.bool false)

def Unbounded (ms : List (String × Value)) : Prop := ∀ k ∈ unsupportedKeywords, ms.lookup k = none

structure StrictSchema (ms : List (String × Value)) : Prop extends ClosedSchema ms where
  unbounded : Unbounded ms

def StrictNode : Value → Prop
  | .obj ms => StrictSchema ms
  | _ => True

/-- The schemas among the alternatives and the definitions of a schema. -/
def sideSchemas (ms : List (String × Value)) : List Value :=
  ((Value.obj ms).arrayAt? "anyOf").getD [] ++
    ((((Value.obj ms).find? "definitions").bind Value.obj?).getD []).map Prod.snd

/-- A schema right below another: a property, the items, an alternative or a definition. -/
inductive Child : Value → Value → Prop
  | property {ms : List (String × Value)} {b : String × Value} (h : b ∈ propertiesOf ms) : Child (.obj ms) b.2
  | items {ms : List (String × Value)} {v : Value} (h : ms.lookup "items" = some v) : Child (.obj ms) v
  | side {ms : List (String × Value)} {v : Value} (h : v ∈ sideSchemas ms) : Child (.obj ms) v

/-- Strict, wherever one looks. -/
def Settled (v : Value) : Prop := Everywhere Child StrictNode v

theorem settled_obj {ms : List (String × Value)} : Settled (.obj ms) ↔ StrictSchema ms ∧
    (∀ b ∈ propertiesOf ms, Settled b.2) ∧ (∀ v, ms.lookup "items" = some v → Settled v) ∧
      ∀ v ∈ sideSchemas ms, Settled v := by
  rw [Settled, everywhere_iff]
  refine and_congr_right fun _ => ⟨fun h => ?_, fun h v hv => ?_⟩
  · exact ⟨fun b hb => h _ (.property hb), fun v hv => h v (.items hv), fun v hv => h v (.side hv)⟩
  · cases hv with
    | property hb => exact h.1 _ hb
    | items hv => exact h.2.1 v hv
    | side hv => exact h.2.2 v hv

theorem settled_of_not_object {v : Value} (h : ¬ v.isObject = true) : Settled v := by
  cases v with
  | obj ms => exact absurd rfl h
  | _ => exact everywhere_iff.mpr ⟨trivial, fun _ hc => by cases hc⟩

/-! ### What the edits leave -/

/-- Without the members that are edited: the bounds and, of an object schema, what closes it. -/
def withoutEdits (isObject : Bool) (ms : List (String × Value)) : List (String × Value) :=
  if isObject then OrderedMap.erase "additionalProperties" (OrderedMap.erase "required" (withoutKeywords ms))
  else withoutKeywords ms

mutual

/-- A schema without what is edited, in it and in the schemas below. -/
def essentials : Value → Value
  | .obj ms => .obj (withoutEdits (isObjectSchema ms) (essentialMembers ms))
  | v => v

def essentialMembers : List (String × Value) → List (String × Value)
  | [] => []
  | (k, v) :: ms => (k, essentialMember k v) :: essentialMembers ms

/-- The value of one member: a table of schemas, a schema, a list of schemas, or no schema. -/
def essentialMember (k : String) : Value → Value
  | .obj ms =>
    if k = "properties" ∨ k = "definitions" then .obj (essentialEntries ms)
    else if k = "items" then .obj (withoutEdits (isObjectSchema ms) (essentialMembers ms))
    else .obj ms
  | .arr vs => if k = "anyOf" then .arr (essentialItems vs) else .arr vs
  | v => v

def essentialEntries : List (String × Value) → List (String × Value)
  | [] => []
  | (k, v) :: ms => (k, essentials v) :: essentialEntries ms

def essentialItems : List Value → List Value
  | [] => []
  | v :: vs => essentials v :: essentialItems vs

end

theorem essentialMember_items (v : Value) : essentialMember "items" v = essentials v := by
  cases v <;> simp [essentialMember, essentials]

theorem essentialMembers_eq (ms : List (String × Value)) :
    essentialMembers ms = ms.map fun b => (b.1, essentialMember b.1 b.2) := by
  induction ms with
  | nil => rfl
  | cons b ms ih =>
    rw [essentialMembers, ih]
    rfl

theorem lookup_essentialMembers (k : String) (ms : List (String × Value)) :
    (essentialMembers ms).lookup k = (ms.lookup k).map (essentialMember k) := by
  induction ms with
  | nil => rfl
  | cons b ms ih =>
    rw [essentialMembers, OrderedMap.lookup_cons, OrderedMap.lookup_cons, ih]
    split_ifs with h
    · rw [h]; rfl
    · rfl

theorem sorted_essentialMembers {ms : List (String × Value)} (h : OrderedMap.Sorted ms) :
    OrderedMap.Sorted (essentialMembers ms) := by
  rw [essentialMembers_eq]
  exact List.pairwise_map.mpr h

/-- Whether the edits may touch a member of the schema. -/
def edited (ms : List (String × Value)) (k : String) : Prop :=
  k ∈ unsupportedKeywords ∨ (isObjectSchema ms = true ∧ (k = "required" ∨ k = "additionalProperties"))

theorem lookup_keywords {k : String} (hk : k ∈ unsupportedKeywords) (ms : List (String × Value)) :
    (withoutKeywords ms).lookup k = none := by
  simp only [unsupportedKeywords, List.mem_cons, List.not_mem_nil, or_false] at hk
  rcases hk with rfl | rfl | rfl | rfl <;> simp [withoutKeywords, unsupportedKeywords]

theorem lookup_withoutEdits_of_edited {ms : List (String × Value)} {k : String} (h : edited ms k)
    (ms' : List (String × Value)) : (withoutEdits (isObjectSchema ms) ms').lookup k = none := by
  rcases h with hk | ⟨hobj, hk⟩
  · cases isObjectSchema ms with
    | true => simp [withoutEdits, lookup_keywords hk]
    | false => exact lookup_keywords hk ms'
  · rw [hobj]
    rcases hk with rfl | rfl <;> simp [withoutEdits]

theorem lookup_withoutEdits {ms : List (String × Value)} {k : String} (h : ¬ edited ms k)
    (ms' : List (String × Value)) : (withoutEdits (isObjectSchema ms) ms').lookup k = ms'.lookup k := by
  obtain ⟨hkey, hobj⟩ := not_or.mp h
  cases ho : isObjectSchema ms with
  | true =>
    have hk := not_or.mp fun hk => hobj ⟨ho, hk⟩
    simp only [withoutEdits, if_true, OrderedMap.lookup_erase, if_neg hk.1, if_neg hk.2]
    exact lookup_withoutKeywords hkey ms'
  | false => exact lookup_withoutKeywords hkey ms'

theorem sorted_withoutEdits {b : Bool} {ms : List (String × Value)} (h : OrderedMap.Sorted ms) :
    OrderedMap.Sorted (withoutEdits b ms) := by
  have hbare : OrderedMap.Sorted (withoutKeywords ms) :=
    ((((h.erase "minLength").erase "maxLength").erase "minItems").erase "maxItems")
  rw [withoutEdits]
  split_ifs
  · exact (hbare.erase _).erase _
  · exact hbare

/-- Two schemas with the same essentials agree in the members that are not edited. -/
theorem essentials_eq_iff {ms ms' : List (String × Value)} (hs : OrderedMap.Sorted ms) (hs' : OrderedMap.Sorted ms')
    (hobj : isObjectSchema ms' = isObjectSchema ms) :
    essentials (.obj ms') = essentials (.obj ms) ↔ ∀ k, ¬ edited ms k →
      (ms'.lookup k).map (essentialMember k) = (ms.lookup k).map (essentialMember k) := by
  rw [essentials, essentials, Value.obj.injEq, hobj]
  constructor
  · intro h k hk
    have := congrArg (List.lookup k) h
    rwa [lookup_withoutEdits hk, lookup_withoutEdits hk, lookup_essentialMembers, lookup_essentialMembers] at this
  · intro h
    refine OrderedMap.Sorted.ext (sorted_withoutEdits (sorted_essentialMembers hs'))
      (sorted_withoutEdits (sorted_essentialMembers hs)) fun k => ?_
    by_cases hk : edited ms k
    · rw [lookup_withoutEdits_of_edited hk, lookup_withoutEdits_of_edited hk]
    · rw [lookup_withoutEdits hk, lookup_withoutEdits hk, lookup_essentialMembers, lookup_essentialMembers, h k hk]

/-- What the rewriting of a schema is to bring about: it is strict throughout, and else the same. -/
structure Strictly (v r : Value) : Prop where
  settled : Settled r
  unchanged : essentials r = essentials v

end AgentFlow.Openai
