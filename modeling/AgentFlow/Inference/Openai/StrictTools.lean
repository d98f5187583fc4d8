/-
# Normalising tools never throws, nearly

`NormalizeStrictSchema` looks through the parameters of a function for an
object schema without properties, taking every object in them for a schema
(`nodes`) and reading its type as a string. A type that is no string ends the
search with an exception, unless the search has ended before (`Scannable`).
The rewriting that follows meets no other objects, and throws nothing.

Key definitions: `nodes`, `IllTyped`, `Scannable`, `PassesThrough`.
Key theorems: `hasEmptyObject_ok_iff`, `strictNode_ok`,
`passesThrough_iff_scannable`.
-/
import AgentFlow.Lib.Fallible
import AgentFlow.Inference.Openai.MessageMap

namespace AgentFlow.Openai

open Json Fallible

/-! ### The search -/

mutual

/-- The members of all objects in a value, an object before those in it. -/
def nodes : Value → List (List (String × Value))
  | .obj ms => ms :: memberNodes ms
  | .arr items => itemNodes items
  | _ => []

def itemNodes : List Value → List (List (String × Value))
  | [] => []
  | v :: vs => nodes v ++ itemNodes vs

def memberNodes : List (String × Value) → List (List (String × Value))
  | [] => []
  | (_, v) :: ms => nodes v ++ memberNodes ms

end

/-- The type of the object is there, and is no string. -/
def IllTyped (ms : List (String × Value)) : Prop := ∃ v, ms.lookup "type" = some v ∧ v.str? = none

/-- The properties of an object schema, if it has any. -/
def propertiesOf (ms : List (String × Value)) : List (String × Value) :=
  (((Value.obj ms).find? "properties").bind Value.obj?).getD []

/-- An object schema without properties. -/
def EmptyObject (ms : List (String × Value)) : Prop :=
  ms.lookup "type" = some (.str "object") ∧ propertiesOf ms = []

/-- The search, over the objects in their order. -/
def scanNodes : List (List (String × Value)) → Except Json.Error Bool
  | [] => .ok false
  | ms :: rest => do
    if (← (Value.obj ms).value "type" "") = "object" ∧ propertiesOf ms = [] then return true
    scanNodes rest

theorem scanNodes_append (ns ns' : List (List (String × Value))) :
    scanNodes (ns ++ ns') = (do if ← scanNodes ns then return true else scanNodes ns') := by
  induction ns with
  | nil => rfl
  | cons ms ns ih =>
    rw [List.cons_append, scanNodes, scanNodes]
    cases (Value.obj ms).value "type" "" with
    | error e => rfl
    | ok type =>
      simp only [bind, Except.bind] at ih ⊢
      split_ifs
      · rfl
      · exact ih

mutual

theorem hasEmptyObject_eq : ∀ v : Value, hasEmptyObject v = scanNodes (nodes v)
  | .arr items => by rw [hasEmptyObject, nodes, anyItem_eq items]
  | .obj ms => by
    rw [hasEmptyObject, nodes, scanNodes, anyMember_eq ms]
    rfl
  | .null => rfl
  | .bool _ => rfl
  | .int _ => rfl
  | .float _ => rfl
  | .str _ => rfl

theorem anyItem_eq : ∀ vs : List Value, anyItem vs = scanNodes (itemNodes vs)
  | [] => rfl
  | v :: vs => by rw [anyItem, itemNodes, scanNodes_append, hasEmptyObject_eq v, anyItem_eq vs]

theorem anyMember_eq : ∀ ms : List (String × Value), anyMember ms = scanNodes (memberNodes ms)
  | [] => rfl
  | (_, v) :: ms => by rw [anyMember, memberNodes, scanNodes_append, hasEmptyObject_eq v, anyMember_eq ms]

end

/-- Every object with a type that is no string comes after an object schema without properties. -/
def Scannable (ns : List (List (String × Value))) : Prop :=
  ∀ p ms s, ns = p ++ ms :: s → IllTyped ms → ∃ ms' ∈ p, EmptyObject ms'

theorem typeValue_of_illTyped {ms : List (String × Value)} (h : IllTyped ms) :
    (Value.obj ms).value "type" "" = .error (.typeError 302) := by
  obtain ⟨v, hv, hs⟩ := h
  cases v with
  | str s => cases hs
  | _ => simp [Value.value, hv]

theorem typeValue_of_not_illTyped {ms : List (String × Value)} (h : ¬ IllTyped ms) :
    (Value.obj ms).value "type" "" = .ok (((Value.obj ms).stringAt? "type").getD "") := by
  cases hv : ms.lookup "type" with
  | none => simp [Value.value, Value.stringAt?, hv]
  | some v =>
    cases v with
    | str s => simp [Value.value, Value.stringAt?, hv]
    | _ => exact absurd ⟨_, hv, rfl⟩ h

theorem emptyObject_iff {ms : List (String × Value)} :
    EmptyObject ms ↔ ((Value.obj ms).stringAt? "type").getD "" = "object" ∧ propertiesOf ms = [] := by
  refine and_congr_left fun _ => ?_
  rw [Value.stringAt?, Value.find?_obj]
  cases ms.lookup "type" with
  | none => simp
  | some v => cases v <;> simp [Value.str?]

/-- One object of the search. -/
theorem scanNodes_cons {ms : List (String × Value)} (h : ¬ IllTyped ms) (rest : List (List (String × Value))) :
    (EmptyObject ms → scanNodes (ms :: rest) = .ok true) ∧
      (¬ EmptyObject ms → scanNodes (ms :: rest) = scanNodes rest) := by
  rw [emptyObject_iff, scanNodes, typeValue_of_not_illTyped h]
  simp only [bind, Except.bind]
  exact ⟨fun he => by rw [if_pos he]; rfl, fun he => by rw [if_neg he]⟩

/-- **When the search ends well.** -/
theorem scanNodes_ok_iff : ∀ {ns : List (List (String × Value))}, (∃ b, scanNodes ns = .ok b) ↔ Scannable ns
  | [] => iff_of_true ⟨false, rfl⟩ fun p ms s h => by simp at h
  | ms :: rest => by
    have ih := @scanNodes_ok_iff rest
    by_cases hill : IllTyped ms
    · refine iff_of_false ?_ fun h => ?_
      · rintro ⟨b, hb⟩
        rw [scanNodes, typeValue_of_illTyped hill] at hb
        cases hb
      · obtain ⟨ms', hms', -⟩ := h [] ms rest rfl hill
        exact absurd hms' List.not_mem_nil
    obtain ⟨hend, hgo⟩ := scanNodes_cons hill rest
    by_cases hempty : EmptyObject ms
    · rw [hend hempty]
      refine iff_of_true ⟨true, rfl⟩ fun p ms' s h hill' => ?_
      cases p with
      | nil =>
        obtain ⟨rfl, -⟩ := List.cons.inj h
        exact absurd hill' hill
      | cons ms'' p =>
        obtain ⟨rfl, -⟩ := List.cons.inj h
        exact ⟨_, List.mem_cons_self, hempty⟩
    · rw [hgo hempty, ih]
      constructor
      · intro h p ms' s heq hill'
        cases p with
        | nil =>
          obtain ⟨rfl, -⟩ := List.cons.inj heq
          exact absurd hill' hill
        | cons ms'' p =>
          obtain ⟨rfl, rfl⟩ := List.cons.inj heq
          obtain ⟨m, hm, he⟩ := h p ms' s rfl hill'
          exact ⟨m, List.mem_cons_of_mem _ hm, he⟩
      · intro h p ms' s heq hill'
        obtain ⟨m, hm, he⟩ := h (ms :: p) ms' s (by rw [heq]; rfl) hill'
        rcases List.mem_cons.mp hm with rfl | hm
        · exact absurd he hempty
        · exact ⟨m, hm, he⟩

/-- A search that finds nothing has seen every object. -/
theorem scanNodes_ok_false {ns : List (List (String × Value))} (h : scanNodes ns = .ok false) :
    ∀ ms ∈ ns, ¬ IllTyped ms ∧ ¬ EmptyObject ms := by
  induction ns with
  | nil => simp
  | cons ms rest ih =>
    have hill : ¬ IllTyped ms := by
      intro hill
      rw [scanNodes, typeValue_of_illTyped hill] at h
      cases h
    obtain ⟨hend, hgo⟩ := scanNodes_cons hill rest
    have hempty : ¬ EmptyObject ms := by
      intro hempty
      rw [hend hempty] at h
      cases h
    rw [hgo hempty] at h
    exact List.forall_mem_cons.mpr ⟨⟨hill, hempty⟩, ih h⟩

theorem hasEmptyObject_ok_iff {v : Value} : (∃ b, hasEmptyObject v = .ok b) ↔ Scannable (nodes v) := by
  rw [hasEmptyObject_eq, scanNodes_ok_iff]

/-! ### The rewriting -/

/-- No object in the value has a type that is no string. -/
def Sound (v : Value) : Prop := ∀ ms ∈ nodes v, ¬ IllTyped ms

theorem mem_memberNodes {n : List (String × Value)} : ∀ {ms : List (String × Value)},
    n ∈ memberNodes ms ↔ ∃ b ∈ ms, n ∈ nodes b.2
  | [] => iff_of_false List.not_mem_nil fun ⟨_, hb, _⟩ => List.not_mem_nil hb
  | (_, v) :: ms => by rw [memberNodes, List.mem_append, @mem_memberNodes n ms, List.exists_mem_cons_iff]

theorem sound_obj {ms : List (String × Value)} : Sound (.obj ms) ↔ ¬ IllTyped ms ∧ ∀ b ∈ ms, Sound b.2 := by
  rw [Sound, nodes, List.forall_mem_cons]
  refine and_congr_right fun _ => ⟨fun h b hb n hn => h n (mem_memberNodes.mpr ⟨b, hb, hn⟩), fun h n hn => ?_⟩
  obtain ⟨b, hb, hn⟩ := mem_memberNodes.mp hn
  exact h b hb n hn

theorem Sound.lookup {ms : List (String × Value)} {k : String} {v : Value} (h : Sound (.obj ms))
    (hv : ms.lookup k = some v) : Sound v := by
  obtain ⟨l, r, rfl, -⟩ := List.lookup_eq_some_iff.mp hv
  exact (sound_obj.mp h).2 (k, v) (by simp)

theorem lookup_withoutKeywords {k : String} (hk : k ∉ unsupportedKeywords) (ms : List (String × Value)) :
    (withoutKeywords ms).lookup k = ms.lookup k := by
  simp only [unsupportedKeywords, List.mem_cons, List.not_mem_nil, or_false, not_or] at hk
  simp only [withoutKeywords, unsupportedKeywords, List.foldl_cons, List.foldl_nil, OrderedMap.lookup_erase,
    if_neg hk.1, if_neg hk.2.1, if_neg hk.2.2.1, if_neg hk.2.2.2]

theorem mem_withoutKeywords {b : String × Value} {ms : List (String × Value)} (h : b ∈ withoutKeywords ms) : b ∈ ms := by
  simp only [withoutKeywords, unsupportedKeywords, List.foldl_cons, List.foldl_nil, OrderedMap.erase,
    List.mem_filter] at h
  exact h.1.1.1.1

theorem Sound.withoutKeywords {ms : List (String × Value)} (h : Sound (.obj ms)) :
    Sound (.obj (withoutKeywords ms)) := by
  obtain ⟨hill, hms⟩ := sound_obj.mp h
  refine sound_obj.mpr ⟨?_, fun b hb => hms b (mem_withoutKeywords hb)⟩
  rintro ⟨v, hv, hs⟩
  rw [lookup_withoutKeywords (by decide)] at hv
  exact hill ⟨v, hv, hs⟩

/-- What becomes of the properties of a schema. -/
def strictProperties (props : List (String × Value)) : Except Json.Error (List (String × Value)) :=
  props.mapM fun b => do return (b.1, ← strictProperty b.2)

theorem strictNode_properties {ms props : List (String × Value)} (h : ms.lookup "properties" = some (.obj props)) :
    strictNode (.obj ms) = (do
      let props' ← strictProperties props
      return .obj (OrderedMap.insert "additionalProperties" (.bool false)
        (OrderedMap.insert "required" (.arr (props.map fun b => .str b.1))
          (OrderedMap.insert "properties" (.obj props') ms)))) := by
  rw [strictNode]
  split
  · next props' h' =>
    obtain rfl : props = props' := Value.obj.inj (Option.some.inj (h.symm.trans h'))
    simp only [List.mapM_subtype, List.unattach_attach]
    rfl
  · next hno => exact absurd h (hno props)

theorem strictNode_bare {ms : List (String × Value)} (h : ∀ props, ms.lookup "properties" ≠ some (.obj props)) :
    strictNode (.obj ms) = .ok (.obj (OrderedMap.insert "additionalProperties" (.bool false) ms)) := by
  rw [strictNode]
  split
  · next props h' => exact absurd h' (h props)
  · rfl

theorem strictProperty_of_not_object {v : Value} (h : ¬ v.isObject = true) : strictProperty v = .ok v := by
  cases v with
  | obj ms => exact absurd rfl h
  | _ =>
    rw [strictProperty]
    · rfl
    · simp

/-- A property that is itself an object schema is rewritten as one; its items are in any case. -/
theorem strictProperty_obj {vs : List (String × Value)} (h : ¬ IllTyped vs) :
    strictProperty (.obj vs) = (do
      let val ← (if vs.lookup "type" = some (.str "object") then strictNode (.obj (withoutKeywords vs))
        else pure (.obj (withoutKeywords vs)))
      match vs.lookup "items" with
      | some (.obj items) => val.put "items" (← strictNode (.obj items))
      | _ => return val) := by
  have hitems : (withoutKeywords vs).lookup "items" = vs.lookup "items" := lookup_withoutKeywords (by decide) vs
  have hbare : ¬ IllTyped (withoutKeywords vs) := by
    rintro ⟨v, hv, hs⟩
    rw [lookup_withoutKeywords (by decide)] at hv
    exact h ⟨v, hv, hs⟩
  have htype : ((Value.obj (withoutKeywords vs)).stringAt? "type").getD "" = "object" ↔
      vs.lookup "type" = some (.str "object") := by
    rw [Value.stringAt?, Value.find?_obj, lookup_withoutKeywords (by decide)]
    cases vs.lookup "type" with
    | none => simp
    | some v => cases v <;> simp [Value.str?]
  rw [strictProperty, typeValue_of_not_illTyped hbare]
  simp only [bind, Except.bind, htype]
  split_ifs
  all_goals
    split
    · rfl
    · split
      · next items hi =>
        rw [hitems] at hi
        simp only [hi]
      · next hno =>
        rw [hitems] at hno
        split
        · next items hi => exact absurd hi (hno items)
        · rfl

theorem strictProperties_ok {props : List (String × Value)} (h : ∀ b ∈ props, ∃ r, strictProperty b.2 = .ok r) :
    ∃ props', strictProperties props = .ok props' := by
  refine exists_mapM_iff.mpr fun b hb => ?_
  obtain ⟨r, hr⟩ := h b hb
  exact ⟨(b.1, r), by rw [hr]; rfl⟩

/-- The rewriting of what is at most `n` large, where a property counts for one more than a node. -/
theorem strict_ok_of_size (n : ℕ) :
    (∀ ms, 2 * sizeOf (Value.obj ms) ≤ n → Sound (.obj ms) → ∃ r, strictNode (.obj ms) = .ok (.obj r)) ∧
      ∀ v, 2 * sizeOf v + 1 ≤ n → Sound v → ∃ r, strictProperty v = .ok r := by
  induction n using Nat.strong_induction_on with
  | _ n ih =>
    constructor
    · intro ms hn hs
      by_cases hp : ∃ props, ms.lookup "properties" = some (.obj props)
      · obtain ⟨props, hp⟩ := hp
        have hsize := sizeOf_lookup_lt hp
        simp only [Value.obj.sizeOf_spec] at hsize hn
        obtain ⟨props', hprops⟩ : ∃ props', strictProperties props = .ok props' := by
          refine strictProperties_ok fun b hb => ?_
          have hb' := List.sizeOf_lt_of_mem hb
          obtain ⟨k, v⟩ := b
          simp only [Prod.mk.sizeOf_spec] at hb'
          exact (ih (2 * sizeOf v + 1) (by omega)).2 v le_rfl ((sound_obj.mp (hs.lookup hp)).2 (k, v) hb)
        rw [strictNode_properties hp, hprops]
        exact ⟨_, rfl⟩
      · rw [strictNode_bare fun props h => hp ⟨props, h⟩]
        exact ⟨_, rfl⟩
    · intro v hn hs
      by_cases hobj : v.isObject = true
      · cases v with
        | obj vs =>
          have hbare := sizeOf_withoutKeywords_le vs
          simp only [Value.obj.sizeOf_spec] at hn
          obtain ⟨val, hval⟩ : ∃ val, (if vs.lookup "type" = some (.str "object") then
              strictNode (.obj (withoutKeywords vs)) else pure (.obj (withoutKeywords vs))) = .ok (.obj val) := by
            split_ifs
            · exact (ih (2 * sizeOf (Value.obj (withoutKeywords vs))) (by
                simp only [Value.obj.sizeOf_spec]; omega)).1 _ le_rfl hs.withoutKeywords
            · exact ⟨_, rfl⟩
          rw [strictProperty_obj (sound_obj.mp hs).1, hval]
          simp only [bind, Except.bind]
          split
          · next items hi =>
            have hsize := sizeOf_lookup_lt hi
            simp only [Value.obj.sizeOf_spec] at hsize
            obtain ⟨r, hr⟩ := (ih (2 * sizeOf (Value.obj items)) (by
              simp only [Value.obj.sizeOf_spec]; omega)).1 items le_rfl (hs.lookup hi)
            rw [hr]
            exact ⟨_, rfl⟩
          · exact ⟨_, rfl⟩
        | _ => cases hobj
      · exact ⟨v, strictProperty_of_not_object hobj⟩

/-- **The rewriting throws nothing** where all types are strings. -/
theorem strictNode_ok {ms : List (String × Value)} (h : Sound (.obj ms)) : ∃ r, strictNode (.obj ms) = .ok (.obj r) :=
  (strict_ok_of_size _).1 ms le_rfl h

/-! ### Functions and tools -/

/-- The objects in the parameters that are searched: those of a function whose parameters have properties. -/
def searched (func : List (String × Value)) : List (List (String × Value)) :=
  match func.lookup "parameters" with
  | some (.obj params) => if propertiesOf params = [] then [] else nodes (.obj params)
  | _ => []

section normalize

variable {func params : List (String × Value)}

theorem searched_params (hp : func.lookup "parameters" = some (.obj params)) :
    searched func = if propertiesOf params = [] then [] else nodes (.obj params) := by
  simp only [searched, hp]

theorem searched_bare (hno : ∀ params, func.lookup "parameters" ≠ some (.obj params)) : searched func = [] := by
  unfold searched
  split
  · next params hp => exact absurd hp (hno params)
  · rfl

theorem normalizeStrictSchema_bare (hno : ∀ params, func.lookup "parameters" ≠ some (.obj params)) :
    normalizeStrictSchema func = .ok (.obj (OrderedMap.insert "strict" (.bool true) func)) := by
  unfold normalizeStrictSchema
  split
  · next params hp => exact absurd hp (hno params)
  · rfl

/-- Parameters without properties are left as they are. -/
theorem normalizeStrictSchema_empty (hp : func.lookup "parameters" = some (.obj params))
    (hprops : propertiesOf params = []) : normalizeStrictSchema func = .ok (.obj func) := by
  simp only [normalizeStrictSchema, hp]
  exact if_pos hprops

theorem normalizeStrictSchema_params (hp : func.lookup "parameters" = some (.obj params))
    (hprops : propertiesOf params ≠ []) : normalizeStrictSchema func = (do
      if ← hasEmptyObject (.obj params) then return .obj func
      let params' ← strictNode (.obj params)
      return .obj (OrderedMap.insert "parameters" params' (OrderedMap.insert "strict" (.bool true) func))) := by
  simp only [normalizeStrictSchema, hp]
  exact if_neg hprops

/-- A function is left as it is, or made strict. -/
theorem normalizeStrictSchema_cases (func : List (String × Value)) :
    ((∃ r, normalizeStrictSchema func = .ok r) ↔ Scannable (searched func)) ∧
      ∀ r, normalizeStrictSchema func = .ok r → r = .obj func ∨ r.find? "strict" = some (.bool true) := by
  have hnil : Scannable [] := fun p ms s h => by simp at h
  by_cases hparams : ∃ params, func.lookup "parameters" = some (.obj params)
  · obtain ⟨params, hp⟩ := hparams
    rw [searched_params hp]
    by_cases hprops : propertiesOf params = []
    · rw [if_pos hprops, normalizeStrictSchema_empty hp hprops]
      exact ⟨iff_of_true ⟨_, rfl⟩ hnil, fun r hr => Or.inl (Except.ok.inj hr).symm⟩
    · rw [if_neg hprops, ← hasEmptyObject_ok_iff, normalizeStrictSchema_params hp hprops]
      cases hscan : hasEmptyObject (.obj params) with
      | error e => exact ⟨iff_of_false (by simp [bind, Except.bind]) (by simp), by simp [bind, Except.bind]⟩
      | ok found =>
        cases found with
        | true => exact ⟨iff_of_true ⟨.obj func, rfl⟩ ⟨true, rfl⟩, fun r hr => Or.inl (Except.ok.inj hr).symm⟩
        | false =>
          have hsound : Sound (.obj params) := fun ms hms =>
            (scanNodes_ok_false ((hasEmptyObject_eq _).symm.trans hscan) ms hms).1
          obtain ⟨params', hparams'⟩ := strictNode_ok hsound
          simp only [bind, Except.bind, hparams']
          refine ⟨iff_of_true ⟨_, rfl⟩ ⟨false, rfl⟩, fun r hr => Or.inr ?_⟩
          rw [← Except.ok.inj hr]
          simp
  · have hno : ∀ params, func.lookup "parameters" ≠ some (.obj params) := fun params hp => hparams ⟨params, hp⟩
    rw [searched_bare hno, normalizeStrictSchema_bare hno]
    refine ⟨iff_of_true ⟨_, rfl⟩ hnil, fun r hr => Or.inr ?_⟩
    rw [← Except.ok.inj hr]
    simp

end normalize

/-- The objects of a tool that are searched. -/
def toolNodes (t : Value) : List (List (String × Value)) :=
  match t.find? "function" with
  | some (.obj func) => searched func
  | _ => []

/-- A tool that is not strict after it was normalised is the tool it was. -/
def PassesThrough (t t' : Value) : Prop :=
  (t'.find? "function").bind (·.find? "strict") ≠ some (.bool true) → t' = t

section tool

variable {t : Value} {func : List (String × Value)}

theorem toolNodes_function (hf : t.find? "function" = some (.obj func)) : toolNodes t = searched func := by
  simp only [toolNodes, hf]

theorem toolNodes_bare (hno : ∀ func, t.find? "function" ≠ some (.obj func)) : toolNodes t = [] := by
  unfold toolNodes
  split
  · next func hf => exact absurd hf (hno func)
  · rfl

theorem strictTool_function (hf : t.find? "function" = some (.obj func)) :
    strictTool t = normalizeStrictSchema func >>= t.put "function" := by
  simp only [strictTool, hf]

theorem strictTool_bare (hno : ∀ func, t.find? "function" ≠ some (.obj func)) : strictTool t = .ok t := by
  unfold strictTool
  split
  · next func hf => exact absurd hf (hno func)
  · rfl

theorem strictTool_cases (hwf : t.WF) : ((∃ t', strictTool t = .ok t') ↔ Scannable (toolNodes t)) ∧
    ∀ t', strictTool t = .ok t' → PassesThrough t t' := by
  by_cases hfunc : ∃ func, t.find? "function" = some (.obj func)
  · obtain ⟨func, hf⟩ := hfunc
    obtain ⟨hiff, hcases⟩ := normalizeStrictSchema_cases func
    rw [toolNodes_function hf, strictTool_function hf, ← hiff]
    cases t with
    | obj ms =>
      cases hr : normalizeStrictSchema func with
      | error e => exact ⟨iff_of_false (by simp [bind, Except.bind]) (by simp), by simp [bind, Except.bind]⟩
      | ok r =>
        refine ⟨iff_of_true ⟨_, rfl⟩ ⟨r, rfl⟩, fun t' ht' => ?_⟩
        obtain rfl : Value.obj (OrderedMap.insert "function" r ms) = t' := Except.ok.inj ht'
        intro hstrict
        rcases hcases r hr with rfl | hs
        · rw [Value.find?_obj] at hf
          exact congrArg Value.obj (hwf.1.insert_of_lookup hf)
        · simp [hs] at hstrict
    | _ => cases hf
  · have hno : ∀ func, t.find? "function" ≠ some (.obj func) := fun func hf => hfunc ⟨func, hf⟩
    rw [toolNodes_bare hno, strictTool_bare hno]
    exact ⟨iff_of_true ⟨t, rfl⟩ fun p ms s h => by simp at h, fun t' ht' _ => (Except.ok.inj ht').symm⟩

end tool

/-! ### Requests -/

theorem wireTools_cases {model : String} (hm : isDeepSeekFamily model = true) {tools : List Value}
    (hwf : ∀ t ∈ tools, t.WF) :
    ((∃ ts, wireTools model true tools = .ok ts) ↔ ∀ t ∈ tools, Scannable (toolNodes t)) ∧
      ∀ ts, wireTools model true tools = .ok ts → List.Forall₂ PassesThrough tools ts := by
  have hwire : wireTools model true tools = tools.mapM strictTool := by rw [wireTools, hm]; rfl
  rw [hwire]
  constructor
  · simp only [mapM_ok_iff]
    rw [exists_forall₂]
    exact forall₂_congr fun t ht => (strictTool_cases (hwf t ht)).1
  · intro ts hts
    refine ((List.forall₂_and_left _ _).mpr ⟨hwf, mapM_ok_iff.mp hts⟩).imp fun t t' ht => ?_
    exact (strictTool_cases ht.1).2 t' ht.2

/-- **When a request body with strict tools is built.** The tools in it that
are not strict are those that were given. -/
theorem passesThrough_iff_scannable {C : Codec} (hparsed : ∀ text v, C.parse text = some v → v.WF) {model : String}
    (hm : isDeepSeekFamily model = true) (opts : ChatConversationOptions) (messages : List Value) (stream : Bool)
    {tools : List Value} (ht : C.parse opts.toolsJson = some (.arr tools)) :
    (∃ body, requestBody C model opts messages stream true = .ok body ∧
      buildRequestBody C model opts messages stream true = .ok (C.dump body) ∧
        List.Forall₂ PassesThrough tools ((body.arrayAt? "tools").getD [])) ↔
      ∀ t ∈ tools, Scannable (toolNodes t) := by
  have hwf : ∀ t ∈ tools, t.WF := itemsWF_iff.mp (hparsed _ _ ht)
  obtain ⟨hiff, hpass⟩ := wireTools_cases hm hwf
  rw [← hiff]
  constructor
  · rintro ⟨body, hbody, -, -⟩
    rw [requestBody, ht] at hbody
    cases tools with
    | nil => exact hiff.mpr (by simp)
    | cons t ts =>
      cases hwire : wireTools model true (t :: ts) with
      | error e =>
        simp only [hwire] at hbody
        cases hbody
      | ok sent => exact ⟨sent, rfl⟩
  · rintro ⟨sent, hsent⟩
    have hbody : ∃ body, requestBody C model opts messages stream true = .ok body ∧
        (body.arrayAt? "tools").getD [] = sent := by
      rw [requestBody, ht]
      cases tools with
      | nil =>
        refine ⟨_, rfl, ?_⟩
        have hnil : sent = [] := List.forall₂_nil_left_iff.mp (hpass sent hsent)
        simp only [bodyMembers, Value.arrayAt?, Value.find?_obj, hnil]
        split_ifs <;> simp [OrderedMap.lookup_cons]
      | cons t ts =>
        simp only [hsent]
        exact ⟨_, rfl, by simp [Value.arrayAt?, Value.arr?]⟩
    obtain ⟨body, hbody, htools⟩ := hbody
    refine ⟨body, hbody, by rw [buildRequestBody, hbody]; rfl, ?_⟩
    rw [htools]
    exact hpass sent hsent

def toolOf (parameters : Value) : Value :=
  .object [("type", .str "function"),
    ("function", .object [("name", .str "find"), ("parameters", parameters)])]

def paramsOf (type : Value) : Value :=
  .object [("type", .str "object"), ("properties", .object [("name", .object [("type", type)])])]

theorem wf_toolOf {parameters : Value} (h : parameters.WF) : (toolOf parameters).WF := by
  refine wf_object ?_
  simp only [List.forall_mem_cons]
  refine ⟨trivial, wf_object ?_, by simp⟩
  simp only [List.forall_mem_cons]
  exact ⟨trivial, h, by simp⟩

theorem wf_paramsOf {type : Value} (h : type.WF) : (paramsOf type).WF := by
  refine wf_object ?_
  simp only [List.forall_mem_cons]
  refine ⟨trivial, wf_object ?_, by simp⟩
  simp only [List.forall_mem_cons]
  refine ⟨wf_object ?_, by simp⟩
  simp only [List.forall_mem_cons]
  exact ⟨h, by simp⟩

/-- Two tools, the second with a property that may be null. -/
def toolTexts : List (String × Value) :=
  [("string", .arr [toolOf (paramsOf (.str "string"))]),
    ("union", .arr [toolOf (paramsOf (.arr [.str "string", .str "null"]))])]

def toolOptions (toolsJson : String) : ChatConversationOptions := ⟨"", toolsJson, 0, false⟩

theorem passesThrough_string :
    ∃ body, requestBody (.ofTable toolTexts) "deepseek-chat" (toolOptions "string") [] false true = .ok body ∧
      buildRequestBody (.ofTable toolTexts) "deepseek-chat" (toolOptions "string") [] false true =
        .ok ((Codec.ofTable toolTexts).dump body) ∧
      List.Forall₂ PassesThrough [toolOf (paramsOf (.str "string"))] ((body.arrayAt? "tools").getD []) := by
  refine (passesThrough_iff_scannable (fun text v hv => ?_) (by decide +kernel) _ _ _ rfl).mpr ?_
  · refine Codec.wf_of_parse_ofTable (fun b hb => ?_) hv
    rcases List.mem_cons.mp hb with rfl | hb
    · exact ⟨wf_toolOf (wf_paramsOf trivial), trivial⟩
    · rw [List.mem_singleton.mp hb]
      exact ⟨wf_toolOf (wf_paramsOf ⟨trivial, trivial, trivial⟩), trivial⟩
  · intro t ht
    rw [List.mem_singleton.mp ht]
    exact scanNodes_ok_iff.mp ⟨false, by decide +kernel⟩

theorem not_passesThrough_union :
    (Codec.ofTable toolTexts).parse (toolOptions "union").toolsJson =
        some (.arr [toolOf (paramsOf (.arr [.str "string", .str "null"]))]) ∧
      ¬ ∃ body, buildRequestBody (.ofTable toolTexts) "deepseek-chat" (toolOptions "union") [] false true = .ok body := by
  refine ⟨rfl, ?_⟩
  rintro ⟨body, hbody⟩
  have herr : requestBody (.ofTable toolTexts) "deepseek-chat" (toolOptions "union") [] false true =
      .error (.typeError 302) := by decide +kernel
  rw [buildRequestBody, herr] at hbody
  cases hbody

end AgentFlow.Openai
