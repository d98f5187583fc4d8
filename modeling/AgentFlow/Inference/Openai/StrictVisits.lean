/-
# Where strict schemas are strict

`NormalizeStrictSchema` goes through properties and the items of properties
only (`Visit.Next`): what it does not get to must have been strict before
(`Visit.Fits`), and where it gets to the items of an array it closes them, be
they objects or not. One visit brings about what it should, given that those
it goes on to do; so does the rewriting, by induction on the schema.

Key definitions: `Visit.Next`, `Visit.Fits`, `StrictThroughout`.
Key theorems: `strictly_visits`, `strictThroughout_iff_fits`.
-/
import AgentFlow.Inference.Openai.StrictSchemas

namespace AgentFlow.Openai

open Json Fallible

/-! ### Where the rewriting goes -/

/-- The two ways the rewriting gets to a schema: it closes the schema whatever it is, or as one of
the properties. -/
inductive Visit
  | node (ms : List (String × Value))
  | property (v : Value)

/-- Where the rewriting goes from there: to the properties, of a property only if it is an object
schema, and to the items of a property. -/
inductive Visit.Next : Visit → Visit → Prop
  | property {ms : List (String × Value)} {b : String × Value} (h : b ∈ propertiesOf ms) :
    Next (.node ms) (.property b.2)
  | nested {vs : List (String × Value)} {b : String × Value} (ht : vs.lookup "type" = some (.str "object"))
    (h : b ∈ propertiesOf vs) : Next (.property (.obj vs)) (.property b.2)
  | items {vs ms : List (String × Value)} (h : vs.lookup "items" = some (.obj ms)) :
    Next (.property (.obj vs)) (.node ms)

/-- What must hold before of the schema that is visited. The bounds of a node stay, and so do the
schemas in its items; a node that is no object schema gets closed. A property that has another
type stays as open as it is. No visit looks at alternatives and definitions. -/
def Visit.Fits : Visit → Prop
  | .node ms => Unbounded ms ∧ (isObjectSchema ms = false → ms.lookup "additionalProperties" = some (.bool false)) ∧
      (∀ v, ms.lookup "items" = some v → Settled v) ∧ ∀ v ∈ sideSchemas ms, Settled v
  | .property (.obj vs) => (∀ v ∈ sideSchemas vs, Settled v) ∧
      (vs.lookup "type" ≠ some (.str "object") → ClosedSchema vs ∧ ∀ b ∈ propertiesOf vs, Settled b.2)
  | .property _ => True

/-- Every visit from this one on finds what it must. -/
def Visit.AllFit (t : Visit) : Prop := Everywhere Visit.Next Visit.Fits t

theorem Visit.allFit_property {vs : List (String × Value)} :
    (Visit.property (.obj vs)).AllFit ↔ (Visit.property (.obj vs)).Fits ∧
      (vs.lookup "type" = some (.str "object") → ∀ b ∈ propertiesOf vs, (Visit.property b.2).AllFit) ∧
        ∀ ms, vs.lookup "items" = some (.obj ms) → (Visit.node ms).AllFit := by
  rw [AllFit, everywhere_iff]
  refine and_congr_right fun _ => ⟨fun h => ⟨fun ht b hb => h _ (.nested ht hb), fun ms hm => h _ (.items hm)⟩,
    fun h t ht => ?_⟩
  cases ht with
  | nested ht hb => exact h.1 ht _ hb
  | items hm => exact h.2 _ hm

/-- The search was through and has found nothing. -/
def Scanned (v : Value) : Prop := ∀ n ∈ nodes v, ¬ IllTyped n ∧ ¬ EmptyObject n

theorem Scanned.sound {v : Value} (h : Scanned v) : Sound v := fun n hn => (h n hn).1

theorem Scanned.mem {ms : List (String × Value)} (h : Scanned (.obj ms)) {b : String × Value} (hb : b ∈ ms) :
    Scanned b.2 := fun n hn => h n (by rw [nodes]; exact List.mem_cons_of_mem _ (mem_memberNodes.mpr ⟨b, hb, hn⟩))

/-- A schema that passed the search, and is well-formed. -/
structure Cleared (v : Value) : Prop where
  scanned : Scanned v
  wf : v.WF

theorem Cleared.mem {ms : List (String × Value)} (h : Cleared (.obj ms)) {b : String × Value} (hb : b ∈ ms) : Cleared b.2 :=
  ⟨h.scanned.mem hb, membersWF_iff.mp h.wf.2 b hb⟩

theorem Cleared.lookup {ms : List (String × Value)} (h : Cleared (.obj ms)) {k : String} {v : Value}
    (hv : ms.lookup k = some v) : Cleared v := by
  obtain ⟨l, r, rfl, -⟩ := List.lookup_eq_some_iff.mp hv
  exact h.mem (b := (k, v)) (by simp)

theorem propertiesOf_of_lookup {ms props : List (String × Value)} (h : ms.lookup "properties" = some (.obj props)) :
    propertiesOf ms = props := by
  rw [propertiesOf, Value.find?_obj, h]
  rfl

theorem propertiesOf_of_not {ms : List (String × Value)} (h : ∀ props, ms.lookup "properties" ≠ some (.obj props)) :
    propertiesOf ms = [] := by
  rw [propertiesOf, Value.find?_obj]
  cases hv : ms.lookup "properties" with
  | none => rfl
  | some v =>
    cases v with
    | obj props => exact absurd hv (h props)
    | _ => rfl

theorem propertiesOf_congr {ms ms' : List (String × Value)} (h : ms'.lookup "properties" = ms.lookup "properties") :
    propertiesOf ms' = propertiesOf ms := by
  rw [propertiesOf, propertiesOf, Value.find?_obj, Value.find?_obj, h]

theorem isObjectSchema_congr {ms ms' : List (String × Value)} (ht : ms'.lookup "type" = ms.lookup "type")
    (hp : ms'.lookup "properties" = ms.lookup "properties") : isObjectSchema ms' = isObjectSchema ms := by
  rw [isObjectSchema, isObjectSchema, ht, hp]

theorem sideSchemas_congr {ms ms' : List (String × Value)} (ha : ms'.lookup "anyOf" = ms.lookup "anyOf")
    (hd : ms'.lookup "definitions" = ms.lookup "definitions") : sideSchemas ms' = sideSchemas ms := by
  rw [sideSchemas, sideSchemas, Value.arrayAt?, Value.arrayAt?, Value.find?_obj, Value.find?_obj, Value.find?_obj,
    Value.find?_obj, ha, hd]

theorem strictly_iff {v r : Value} : Strictly v r ↔ Settled r ∧ essentials r = essentials v :=
  ⟨fun h => ⟨h.settled, h.unchanged⟩, fun h => ⟨h.1, h.2⟩⟩

theorem strictProperties_iff {props props' : List (String × Value)} : strictProperties props = .ok props' ↔
    List.Forall₂ (fun b b' => b'.1 = b.1 ∧ strictProperty b.2 = .ok b'.2) props props' := by
  have hstep : ∀ b b' : String × Value, (do return (b.1, ← strictProperty b.2) :
      Except Json.Error (String × Value)) = .ok b' ↔ b'.1 = b.1 ∧ strictProperty b.2 = .ok b'.2 := by
    rintro ⟨k, v⟩ ⟨k', v'⟩
    cases strictProperty v with
    | error e => exact iff_of_false (fun h => by cases h) (fun h => by cases h.2)
    | ok r =>
      simp only [bind, Except.bind, pure, Except.pure, Except.ok.injEq, Prod.mk.injEq]
      exact and_congr_left fun _ => eq_comm
  rw [strictProperties, mapM_ok_iff]
  simp only [hstep]

theorem keys_of_strictProperties {props props' : List (String × Value)} (h : strictProperties props = .ok props') :
    props'.map Prod.fst = props.map Prod.fst := by
  induction strictProperties_iff.mp h with
  | nil => rfl
  | cons hb _ ih => rw [List.map_cons, List.map_cons, hb.1, ih (strictProperties_iff.mpr ‹_›)]

/-- The properties are what they should be if each is. -/
theorem strictly_properties {P : Value → Prop} {props props' : List (String × Value)}
    (hprops : strictProperties props = .ok props')
    (h : ∀ b ∈ props, ∀ r, strictProperty b.2 = .ok r → (Strictly b.2 r ↔ P b.2)) :
    ((∀ b ∈ props', Settled b.2) ∧ essentialEntries props' = essentialEntries props) ↔ ∀ b ∈ props, P b.2 := by
  induction strictProperties_iff.mp hprops with
  | nil => simp
  | @cons b b' props props' hb hrest ih =>
    obtain ⟨k, v⟩ := b
    obtain ⟨k', r⟩ := b'
    obtain ⟨rfl, hr⟩ := hb
    rw [List.forall_mem_cons, List.forall_mem_cons, ← h _ List.mem_cons_self r hr,
      ← ih (strictProperties_iff.mpr hrest) fun b hb => h b (List.mem_cons_of_mem _ hb), strictly_iff, essentialEntries,
      essentialEntries, List.cons.injEq, Prod.mk.injEq]
    tauto

/-- An object schema whose required properties are those it has. -/
theorem closedSchema_of_lookups {ms props props' : List (String × Value)}
    (hp : ms.lookup "properties" = some (.obj props')) (hk : props'.map Prod.fst = props.map Prod.fst)
    (hr : ms.lookup "required" = some (.arr (props.map fun b => .str b.1)))
    (hc : ms.lookup "additionalProperties" = some (.bool false)) : ClosedSchema ms := by
  refine ⟨fun _ => ⟨_, hr, fun v => ?_⟩, fun _ => hc⟩
  have hnames : props.map (fun b => Value.str b.1) = (props'.map Prod.fst).map Value.str := by
    rw [hk, List.map_map]
    rfl
  rw [hnames, propertiesOf_of_lookup hp, List.mem_map]
  constructor
  · rintro ⟨k, hk, rfl⟩
    obtain ⟨b, hb, rfl⟩ := List.mem_map.mp hk
    exact ⟨b, hb, rfl⟩
  · rintro ⟨b, hb, rfl⟩
    exact ⟨b.1, List.mem_map_of_mem hb, rfl⟩

theorem essentialMember_properties (props : List (String × Value)) :
    essentialMember "properties" (.obj props) = .obj (essentialEntries props) := by
  rw [essentialMember, if_pos (Or.inl rfl)]

theorem not_edited_properties (ms : List (String × Value)) : ¬ edited ms "properties" := by
  rintro (h | ⟨-, h⟩)
  · exact absurd h (by decide)
  · exact absurd h (by decide)

theorem not_edited_items (ms : List (String × Value)) : ¬ edited ms "items" := by
  rintro (h | ⟨-, h⟩)
  · exact absurd h (by decide)
  · exact absurd h (by decide)

/-- A node with properties, once rewritten. -/
def closing (props props' ms : List (String × Value)) : List (String × Value) :=
  OrderedMap.insert "additionalProperties" (.bool false)
    (OrderedMap.insert "required" (.arr (props.map fun b => .str b.1)) (OrderedMap.insert "properties" (.obj props') ms))

theorem isObjectSchema_of_properties {ms props : List (String × Value)}
    (h : ms.lookup "properties" = some (.obj props)) : isObjectSchema ms = true := by
  simp [isObjectSchema, h, Value.obj?]

/-- What becomes of a property: its bounds go, its items are rewritten if they are a schema, and it
is closed if it is an object schema. -/
structure PropertyResult (vs ms : List (String × Value)) : Prop where
  sorted : OrderedMap.Sorted ms
  unbounded : Unbounded ms
  others : ∀ k, k ∉ unsupportedKeywords → k ≠ "items" →
    k ≠ "properties" ∧ k ≠ "required" ∧ k ≠ "additionalProperties" → ms.lookup k = vs.lookup k
  opened : vs.lookup "type" ≠ some (.str "object") → ms.lookup "properties" = vs.lookup "properties" ∧
    ms.lookup "required" = vs.lookup "required" ∧
      ms.lookup "additionalProperties" = vs.lookup "additionalProperties"
  closed : vs.lookup "type" = some (.str "object") → ∃ props props', vs.lookup "properties" = some (.obj props) ∧
    strictProperties props = .ok props' ∧ ms.lookup "properties" = some (.obj props') ∧
      ms.lookup "required" = some (.arr (props.map fun b => .str b.1)) ∧
        ms.lookup "additionalProperties" = some (.bool false)
  itemsNode : ∀ is, vs.lookup "items" = some (.obj is) →
    ∃ r, strictNode (.obj is) = .ok r ∧ ms.lookup "items" = some r
  itemsOther : (∀ is, vs.lookup "items" ≠ some (.obj is)) → ms.lookup "items" = vs.lookup "items"

namespace PropertyResult

variable {vs ms : List (String × Value)}

theorem type_eq (h : PropertyResult vs ms) : ms.lookup "type" = vs.lookup "type" :=
  h.others "type" (by decide) (by decide) (by decide)

theorem sideSchemas_eq (h : PropertyResult vs ms) : sideSchemas ms = sideSchemas vs :=
  sideSchemas_congr (h.others "anyOf" (by decide) (by decide) (by decide))
    (h.others "definitions" (by decide) (by decide) (by decide))

theorem isObjectSchema_eq (h : PropertyResult vs ms) : isObjectSchema ms = isObjectSchema vs := by
  by_cases ht : vs.lookup "type" = some (.str "object")
  · rw [isObjectSchema, isObjectSchema, h.type_eq, ht]
    rfl
  · exact isObjectSchema_congr h.type_eq (h.opened ht).1

/-- The items are what they should be. -/
def ItemsStrict (vs ms : List (String × Value)) : Prop :=
  (∀ v, ms.lookup "items" = some v → Settled v) ∧
    (ms.lookup "items").map essentials = (vs.lookup "items").map essentials

theorem itemsStrict_iff (h : PropertyResult vs ms)
    (ih : ∀ is, vs.lookup "items" = some (.obj is) → ∀ r, strictNode (.obj is) = .ok r →
      (Strictly (.obj is) r ↔ (Visit.node is).AllFit)) :
    ItemsStrict vs ms ↔ ∀ is, vs.lookup "items" = some (.obj is) → (Visit.node is).AllFit := by
  by_cases hi : ∃ is, vs.lookup "items" = some (.obj is)
  · obtain ⟨is, hi⟩ := hi
    obtain ⟨r, hr, hl⟩ := h.itemsNode is hi
    have hthis : ItemsStrict vs ms ↔ Strictly (.obj is) r := by
      rw [ItemsStrict, hl, hi, strictly_iff]
      simp
    rw [hthis, ih is hi r hr]
    refine ⟨fun hf is' hi' => ?_, fun hf => hf is hi⟩
    obtain rfl := Value.obj.inj (Option.some.inj (hi.symm.trans hi'))
    exact hf
  · have hno : ∀ is, vs.lookup "items" ≠ some (.obj is) := fun is h => hi ⟨is, h⟩
    refine iff_of_true ⟨fun v hv => ?_, by rw [h.itemsOther hno]⟩ fun is hi' => absurd hi' (hno is)
    rw [h.itemsOther hno] at hv
    refine settled_of_not_object fun hobj => ?_
    cases v with
    | obj is => exact hno is hv
    | _ => cases hobj

/-- The schema itself and its properties are what they should be. -/
def SelfStrict (vs ms : List (String × Value)) : Prop :=
  ClosedSchema ms ∧ (∀ b ∈ propertiesOf ms, Settled b.2) ∧
    (ms.lookup "properties").map (essentialMember "properties") =
      (vs.lookup "properties").map (essentialMember "properties")

theorem selfStrict_iff (h : PropertyResult vs ms)
    (ih : ∀ b ∈ propertiesOf vs, ∀ r, strictProperty b.2 = .ok r → (Strictly b.2 r ↔ (Visit.property b.2).AllFit)) :
    SelfStrict vs ms ↔
      (vs.lookup "type" ≠ some (.str "object") → ClosedSchema vs ∧ ∀ b ∈ propertiesOf vs, Settled b.2) ∧
        (vs.lookup "type" = some (.str "object") → ∀ b ∈ propertiesOf vs, (Visit.property b.2).AllFit) := by
  by_cases ht : vs.lookup "type" = some (.str "object")
  · obtain ⟨props, props', hp, hprops', hp', hr, hc⟩ := h.closed ht
    rw [propertiesOf_of_lookup hp] at ih ⊢
    have hbelow := strictly_properties (P := fun v => (Visit.property v).AllFit) hprops' ih
    have hclosed := closedSchema_of_lookups hp' (keys_of_strictProperties hprops') hr hc
    have hthis : SelfStrict vs ms ↔
        (∀ b ∈ props', Settled b.2) ∧ essentialEntries props' = essentialEntries props := by
      rw [SelfStrict, propertiesOf_of_lookup hp', hp', hp, Option.map_some, Option.map_some, essentialMember_properties,
        essentialMember_properties, Option.some.injEq, Value.obj.injEq]
      exact ⟨fun hs => hs.2, fun hs => ⟨hclosed, hs⟩⟩
    rw [hthis, hbelow]
    exact ⟨fun hf => ⟨fun hn => absurd ht hn, fun _ => hf⟩, fun hf => hf.2 ht⟩
  · obtain ⟨hp, hr, hc⟩ := h.opened ht
    have hthis : SelfStrict vs ms ↔ ClosedSchema vs ∧ ∀ b ∈ propertiesOf vs, Settled b.2 := by
      rw [SelfStrict, propertiesOf_congr hp, hp]
      have hclosed : ClosedSchema ms ↔ ClosedSchema vs := by
        refine ⟨fun hs => ⟨fun ho => ?_, fun ho => ?_⟩, fun hs => ⟨fun ho => ?_, fun ho => ?_⟩⟩
        · rw [← hr, ← propertiesOf_congr hp]
          exact hs.required (h.isObjectSchema_eq.trans ho)
        · rw [← hc]
          exact hs.closed (h.isObjectSchema_eq.trans ho)
        · rw [hr, propertiesOf_congr hp]
          exact hs.required (h.isObjectSchema_eq.symm.trans ho)
        · rw [hc]
          exact hs.closed (h.isObjectSchema_eq.symm.trans ho)
      rw [hclosed, and_iff_left rfl]
    rw [hthis]
    exact ⟨fun hs => ⟨fun _ => hs, fun hn => absurd hn ht⟩, fun hs => hs.1 ht⟩

/-- Where the essentials of a property could differ. -/
theorem essentials_iff (h : PropertyResult vs ms) (hs : OrderedMap.Sorted vs) :
    essentials (.obj ms) = essentials (.obj vs) ↔ (ms.lookup "items").map essentials = (vs.lookup "items").map essentials ∧
      (ms.lookup "properties").map (essentialMember "properties") =
        (vs.lookup "properties").map (essentialMember "properties") := by
  have hitems : essentialMember "items" = essentials := funext essentialMember_items
  rw [essentials_eq_iff hs h.sorted h.isObjectSchema_eq]
  constructor
  · intro he
    have := he "items" (not_edited_items vs)
    rw [hitems] at this
    exact ⟨this, he "properties" (not_edited_properties vs)⟩
  · rintro ⟨hi, hp⟩ k hk
    by_cases hki : k = "items"
    · rw [hki, hitems, hi]
    by_cases hkp : k = "properties"
    · rw [hkp, hp]
    have hkw := not_or.mp hk
    by_cases hko : k ≠ "required" ∧ k ≠ "additionalProperties"
    · rw [h.others k hkw.1 hki ⟨hkp, hko⟩]
    · have ht : vs.lookup "type" ≠ some (.str "object") := by
        intro ht
        obtain ⟨props, -, hp, -⟩ := h.closed ht
        refine hkw.2 ⟨isObjectSchema_of_properties hp, ?_⟩
        by_contra hne
        exact hko (not_or.mp hne)
      obtain ⟨-, hr, hc⟩ := h.opened ht
      rw [not_and_or, not_not, not_not] at hko
      rcases hko with rfl | rfl
      · rw [hr]
      · rw [hc]

/-- **A property.** -/
theorem strictly_iff (h : PropertyResult vs ms) (hs : OrderedMap.Sorted vs)
    (ihp : ∀ b ∈ propertiesOf vs, ∀ r, strictProperty b.2 = .ok r → (Strictly b.2 r ↔ (Visit.property b.2).AllFit))
    (ihn : ∀ is, vs.lookup "items" = some (.obj is) → ∀ r, strictNode (.obj is) = .ok r →
      (Strictly (.obj is) r ↔ (Visit.node is).AllFit)) :
    Strictly (.obj vs) (.obj ms) ↔ (Visit.property (.obj vs)).AllFit := by
  have hstrict : StrictSchema ms ↔ ClosedSchema ms := ⟨fun hs => hs.toClosedSchema, fun hs => ⟨hs, h.unbounded⟩⟩
  have hparts : Strictly (.obj vs) (.obj ms) ↔
      SelfStrict vs ms ∧ ItemsStrict vs ms ∧ ∀ v ∈ sideSchemas vs, Settled v := by
    rw [Openai.strictly_iff, settled_obj, hstrict, h.essentials_iff hs, h.sideSchemas_eq, SelfStrict, ItemsStrict]
    tauto
  rw [hparts, h.selfStrict_iff ihp, h.itemsStrict_iff ihn, Visit.allFit_property, Visit.Fits]
  tauto

end PropertyResult

/-! ### Parameters and functions -/

theorem mem_propertiesOf {ms : List (String × Value)} {b : String × Value} (h : b ∈ propertiesOf ms) :
    ∃ props, ms.lookup "properties" = some (.obj props) ∧ b ∈ props := by
  by_cases hp : ∃ props, ms.lookup "properties" = some (.obj props)
  · obtain ⟨props, hp⟩ := hp
    exact ⟨props, hp, propertiesOf_of_lookup hp ▸ h⟩
  · rw [propertiesOf_of_not fun props h => hp ⟨props, h⟩] at h
    cases h

theorem Cleared.property {ms : List (String × Value)} (h : Cleared (.obj ms)) {b : String × Value}
    (hb : b ∈ propertiesOf ms) : Cleared b.2 := by
  obtain ⟨props, hp, hb⟩ := mem_propertiesOf hb
  exact (h.lookup hp).mem hb

/-- The function is made strict: its parameters, if they are a schema, have properties, and the
search finds no object schema without. -/
structure MadeStrict (func : List (String × Value)) (r : Value) : Prop where
  result : normalizeStrictSchema func = .ok r
  scanned : ∀ params, func.lookup "parameters" = some (.obj params) →
    propertiesOf params ≠ [] ∧ hasEmptyObject (.obj params) = .ok false

theorem MadeStrict.cases {func : List (String × Value)} {r : Value} (h : MadeStrict func r) :
    ((∀ params, func.lookup "parameters" ≠ some (.obj params)) ∧
        r = .obj (OrderedMap.insert "strict" (.bool true) func)) ∨
      ∃ params params', func.lookup "parameters" = some (.obj params) ∧ strictNode (.obj params) = .ok params' ∧
        r = .obj (OrderedMap.insert "parameters" params' (OrderedMap.insert "strict" (.bool true) func)) := by
  have hr := h.result
  rw [normalizeStrictSchema] at hr
  split at hr
  · next params hp =>
    obtain ⟨hprops, hscan⟩ := h.scanned params hp
    have hnot : ¬ (((Value.obj params).find? "properties").bind Value.obj?).getD [] = [] := hprops
    simp only [hnot, if_false, hscan] at hr
    cases hnode : strictNode (.obj params) with
    | error e =>
      rw [hnode] at hr
      cases hr
    | ok params' =>
      rw [hnode] at hr
      exact Or.inr ⟨params, params', hp, hnode, (Except.ok.inj hr).symm⟩
  · next hno => exact Or.inl ⟨fun params hp => hno params hp, (Except.ok.inj hr).symm⟩

/-- A function that was not strict is made strict when it is strict afterwards. -/
theorem madeStrict_iff {func : List (String × Value)} {r : Value} (hno : func.lookup "strict" ≠ some (.bool true))
    (hr : normalizeStrictSchema func = .ok r) : MadeStrict func r ↔ r.find? "strict" = some (.bool true) := by
  constructor
  · intro h
    rcases h.cases with ⟨-, rfl⟩ | ⟨params, params', -, -, rfl⟩ <;> simp
  · intro hs
    refine ⟨hr, fun params hp => ?_⟩
    have hleft : r ≠ .obj func := by
      rintro rfl
      exact hno hs
    rw [normalizeStrictSchema, hp] at hr
    by_cases hprops : propertiesOf params = []
    · exact absurd (Except.ok.inj ((if_pos hprops).symm.trans hr)).symm hleft
    · have hnot : ¬ (((Value.obj params).find? "properties").bind Value.obj?).getD [] = [] := hprops
      simp only [hnot, if_false] at hr
      refine ⟨hprops, ?_⟩
      cases hscan : hasEmptyObject (.obj params) with
      | error e =>
        rw [hscan] at hr
        cases hr
      | ok found =>
        cases found with
        | true =>
          rw [hscan] at hr
          exact absurd (Except.ok.inj hr).symm hleft
        | false => rfl

end AgentFlow.Openai
