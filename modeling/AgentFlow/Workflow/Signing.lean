/-
# What a signature covers

A signature is computed over the canonical form of a document. Two documents
have the same form if and only if they are the same up to the order of
members and the signature itself. All that the parser reads is then the same,
but for one thing: the default of a state field is kept as the text of its
JSON, in the order of the document (`SameDefault`).

Key definitions: `Alike`, `SameButSigning`, `Covered`.
Key theorems: `canon_true`, `parseRoot_of_alike`, `covered_of_injOn`.
-/
import AgentFlow.Lib.JsonOrder
import AgentFlow.Workflow.Accepted

namespace AgentFlow.Workflow

open Json Fallible

namespace WorkflowLoader

/-! ### The canonical form -/

theorem sorted_canonMembers {isRoot : Bool} : ∀ {ms sorted : List (String × Value)}, OrderedMap.Sorted sorted →
    OrderedMap.Sorted (canonMembers isRoot ms sorted)
  | [], _, h => h
  | (k, v) :: ms, sorted, h => by
    rw [canonMembers]
    refine sorted_canonMembers ?_
    split_ifs
    · exact h
    · exact h.insert _ _

theorem lookup_canonMembers {isRoot : Bool} (k : String) : ∀ {ms sorted : List (String × Value)},
    (ms.map Prod.fst).Nodup → (canonMembers isRoot ms sorted).lookup k =
      if isRoot ∧ k = "signing" then sorted.lookup k else ((ms.lookup k).map (canon false)).or (sorted.lookup k)
  | [], sorted, _ => by simp [canonMembers]
  | (k', v) :: ms, sorted, hn => by
    rw [List.map_cons, List.nodup_cons] at hn
    rw [canonMembers, lookup_canonMembers k hn.2, OrderedMap.lookup_cons]
    by_cases hk : k = k'
    · subst hk
      rw [OrderedMap.lookup_eq_none_of_notMem hn.1, if_pos rfl]
      by_cases hs : isRoot ∧ k = "signing"
      · rw [if_pos hs, if_pos hs, if_pos hs]
      · rw [if_neg hs, if_neg hs, if_neg hs, OrderedMap.lookup_insert, if_pos rfl]
        rfl
    · have hsorted : (if isRoot = true ∧ k' = "signing" then sorted
          else OrderedMap.insert k' (canon false v) sorted).lookup k = sorted.lookup k := by
        split_ifs
        · rfl
        · rw [OrderedMap.lookup_insert, if_neg hk]
      rw [hsorted, if_neg hk]

mutual

/-- Below the root the canonical form is the sorted value. -/
theorem canon_false : ∀ {v : Value}, v.Keyed → canon false v = v.sort
  | .obj ms, h => by
    rw [canon, Value.sort_obj]
    refine congrArg _ (OrderedMap.Sorted.ext (sorted_canonMembers OrderedMap.sorted_nil) (sorted_sortMembers ms) ?_)
    intro k
    rw [lookup_canonMembers k h.1, if_neg (by simp), lookup_sortMembers, List.lookup_nil, Option.or_none]
    exact lookup_canon h.2 k
  | .arr items, h => by rw [canon, Value.sort, canonItems_eq h]
  | .null, _ => rfl
  | .bool _, _ => rfl
  | .int _, _ => rfl
  | .float _, _ => rfl
  | .str _, _ => rfl

theorem lookup_canon : ∀ {ms : List (String × Value)}, membersKeyed ms → ∀ k : String,
    (ms.lookup k).map (canon false) = (ms.lookup k).map Value.sort
  | [], _, _ => rfl
  | (k', v) :: ms, h, k => by
    rw [OrderedMap.lookup_cons]
    split_ifs
    · exact congrArg some (canon_false h.1)
    · exact lookup_canon h.2 k

theorem canonItems_eq : ∀ {vs : List Value}, itemsKeyed vs → canonItems vs = sortItems vs
  | [], _ => rfl
  | v :: vs, h => by rw [canonItems, sortItems, canon_false h.1, canonItems_eq h.2]

end

/-- **The canonical form** of a document is the sorted document without its signature. -/
theorem canon_true {v : Value} (h : v.Keyed) : canon true v = (v.without "signing").sort := by
  cases v with
  | obj ms =>
    rw [canon, Value.without, Value.sort_obj]
    refine congrArg _ (OrderedMap.Sorted.ext (sorted_canonMembers OrderedMap.sorted_nil) (sorted_sortMembers _) ?_)
    intro k
    rw [lookup_canonMembers k h.1, lookup_sortMembers, OrderedMap.lookup_erase, List.lookup_nil, Option.or_none]
    by_cases hk : k = "signing"
    · rw [if_pos ⟨rfl, hk⟩, if_pos hk]
      rfl
    · rw [if_neg (fun hs => hk hs.2), if_neg hk]
      exact lookup_canon h.2 k
  | arr items =>
    change canon true (.arr items) = (Value.arr items).sort
    rw [canon, Value.sort, canonItems_eq h]
  | _ => rfl

/-! ### What is read of two documents with the same canonical form -/

/-- Two values that are the same once sorted. -/
structure Alike (a b : Value) : Prop where
  left : a.Keyed
  right : b.Keyed
  sort : a.sort = b.sort

namespace Alike

variable {a b : Value} {k : String}

theorem find? (h : Alike a b) (k : String) : (a.find? k = none ∧ b.find? k = none) ∨
    ∃ v w, a.find? k = some v ∧ b.find? k = some w ∧ Alike v w := by
  have hk := congrArg (fun v => Value.find? v k) h.sort
  simp only [Value.find?_sort] at hk
  cases hv : a.find? k with
  | none =>
    rw [hv] at hk
    exact Or.inl ⟨rfl, by simpa using hk.symm⟩
  | some v =>
    rw [hv] at hk
    obtain ⟨w, hw, hvw⟩ := Option.map_eq_some_iff.mp hk.symm
    exact Or.inr ⟨v, w, rfl, hw, h.left.find? hv, h.right.find? hw, hvw.symm⟩

theorem isObject (h : Alike a b) : a.isObject = b.isObject := by
  rw [← Value.isObject_sort a, h.sort, Value.isObject_sort]

theorem str? (h : Alike a b) : a.str? = b.str? := by
  rw [← Value.str?_sort a, h.sort, Value.str?_sort]

theorem int? (h : Alike a b) : a.int? = b.int? := by
  rw [← Value.int?_sort a, h.sort, Value.int?_sort]

theorem eq_bool {x : Bool} (h : Alike a b) : a = .bool x ↔ b = .bool x := by
  have hs := h.sort
  cases a <;> cases b <;> simp [Value.sort] at hs ⊢
  rw [hs]

theorem obj {ms : List (String × Value)} (h : Alike (.obj ms) b) : ∃ ns, b = .obj ns := sort_eq_obj h.sort

theorem arr {items : List Value} (h : Alike (.arr items) b) :
    ∃ items', b = .arr items' ∧ items.map Value.sort = items'.map Value.sort := by
  obtain ⟨items', rfl⟩ := sort_eq_arr h.sort
  have hs := h.sort
  rw [Value.sort_arr, Value.sort_arr] at hs
  exact ⟨items', rfl, Value.arr.inj hs⟩

theorem contains (h : Alike a b) (k : String) : a.contains k = b.contains k := by
  rw [Value.contains, Value.contains]
  rcases h.find? k with ⟨ha, hb⟩ | ⟨v, w, ha, hb, -⟩
  · rw [ha, hb]
  · rw [ha, hb, Option.isSome_some, Option.isSome_some]

theorem stringAt? (h : Alike a b) (k : String) : a.stringAt? k = b.stringAt? k := by
  rw [← Value.stringAt?_sort a, h.sort, Value.stringAt?_sort]

theorem textAt (h : Alike a b) (k : String) : textAt a k = textAt b k := by
  rw [WorkflowLoader.textAt, WorkflowLoader.textAt, h.stringAt? k]

theorem intAt (h : Alike a b) (k : String) : (a.find? k).bind Value.int? = (b.find? k).bind Value.int? := by
  rcases h.find? k with ⟨ha, hb⟩ | ⟨v, w, ha, hb, hvw⟩
  · rw [ha, hb]
  · rw [ha, hb, Option.bind_some, Option.bind_some, hvw.int?]

theorem uint32At (h : Alike a b) (k : String) : uint32At a k = uint32At b k := by
  rw [WorkflowLoader.uint32At, WorkflowLoader.uint32At, h.intAt k]

theorem int32At (h : Alike a b) (k : String) : int32At a k = int32At b k := by
  rw [WorkflowLoader.int32At, WorkflowLoader.int32At, h.intAt k]

end Alike

/-! ### Members -/

section

variable {ν : Type} {f : String → Value → Except Status.Error ν}

theorem sorted_foldlM : ∀ {ms : List (String × Value)} {acc m : List (String × ν)}, OrderedMap.Sorted acc →
    ms.foldlM (fun m b => (f b.1 b.2).map fun v => OrderedMap.insert b.1 v m) acc = .ok m → OrderedMap.Sorted m
  | [], acc, m, hacc, h => by rwa [← Except.ok.inj h]
  | b :: ms, acc, m, hacc, h => by
    rw [List.foldlM_cons, bind_eq_ok] at h
    obtain ⟨acc', hacc', h⟩ := h
    cases hx : f b.1 b.2 with
    | error e => simp [hx, Except.map] at hacc'
    | ok x =>
      obtain rfl : OrderedMap.insert b.1 x acc = acc' := by simpa [hx, Except.map] using hacc'
      exact sorted_foldlM (hacc.insert _ _) h

theorem sorted_parseMembers {ms : List (String × Value)} {m : List (String × ν)} (h : parseMembers f ms = .ok m) :
    OrderedMap.Sorted m := sorted_foldlM OrderedMap.sorted_nil h

theorem exists_foldlM : ∀ {ms : List (String × Value)} (acc : List (String × ν)),
    (∀ b ∈ ms, ∃ x, f b.1 b.2 = .ok x) →
    ∃ m, ms.foldlM (fun m b => (f b.1 b.2).map fun v => OrderedMap.insert b.1 v m) acc = .ok m
  | [], acc, _ => ⟨acc, rfl⟩
  | b :: ms, acc, h => by
    obtain ⟨x, hx⟩ := h b List.mem_cons_self
    obtain ⟨m, hm⟩ := exists_foldlM (OrderedMap.insert b.1 x acc) fun b' hb' => h b' (List.mem_cons_of_mem _ hb')
    refine ⟨m, ?_⟩
    rw [List.foldlM_cons, hx]
    exact hm

/-- Members that all parse are parsed. -/
theorem exists_parseMembers {ms : List (String × Value)} (h : ∀ b ∈ ms, ∃ x, f b.1 b.2 = .ok x) :
    ∃ m, parseMembers f ms = .ok m := exists_foldlM [] h

variable {R : ν → ν → Prop} {ms ns : List (String × Value)} {m : List (String × ν)}

theorem parseMembers_of_alike (hf : ∀ k v w x, Alike v w → f k v = .ok x → ∃ y, f k w = .ok y ∧ R x y)
    (h : Alike (.obj ms) (.obj ns)) (hm : parseMembers f ms = .ok m) :
    ∃ m', parseMembers f ns = .ok m' ∧ ∀ k, Option.Rel R (m.lookup k) (m'.lookup k) := by
  have hbound := lookup_parseMembers h.left.1 hm
  -- each member of the second has one in the first
  obtain ⟨m', hm'⟩ : ∃ m', parseMembers f ns = .ok m' := by
    refine exists_parseMembers fun b hb => ?_
    have hw : (Value.obj ns).find? b.1 = some b.2 := OrderedMap.lookup_of_mem h.right.1 hb
    rcases h.find? b.1 with ⟨-, hnone⟩ | ⟨v, w, hv, hw', hvw⟩
    · rw [hw] at hnone
      cases hnone
    · obtain rfl : b.2 = w := Option.some.inj (hw.symm.trans hw')
      obtain ⟨x, hx, -⟩ := (hbound b.1).1 v hv
      obtain ⟨y, hy, -⟩ := hf _ _ _ _ hvw hx
      exact ⟨y, hy⟩
  have hbound' := lookup_parseMembers h.right.1 hm'
  refine ⟨m', hm', fun k => ?_⟩
  rcases h.find? k with ⟨hv, hw⟩ | ⟨v, w, hv, hw, hvw⟩
  · rw [(hbound k).2 hv, (hbound' k).2 hw]
    exact .none
  · obtain ⟨x, hx, hmx⟩ := (hbound k).1 v hv
    obtain ⟨y, hy, hmy⟩ := (hbound' k).1 w hw
    obtain ⟨y', hy', hr⟩ := hf _ _ _ _ hvw hx
    rw [hmx, hmy]
    obtain rfl : y' = y := Except.ok.inj (hy'.symm.trans hy)
    exact .some hr

theorem eq_of_rel {x y : Option ν} (h : Option.Rel Eq x y) : x = y := by
  cases h with
  | some h => rw [h]
  | none => rfl

theorem parseMembers_eq_of_alike (hf : ∀ k v w x, Alike v w → f k v = .ok x → f k w = .ok x)
    (h : Alike (.obj ms) (.obj ns)) (hm : parseMembers f ms = .ok m) : parseMembers f ns = .ok m := by
  obtain ⟨m', hm', hrel⟩ := parseMembers_of_alike (R := Eq) (fun k v w x hvw hx => ⟨x, hf k v w x hvw hx, rfl⟩) h hm
  rw [hm', OrderedMap.Sorted.ext (sorted_parseMembers hm) (sorted_parseMembers hm') fun k => ?_]
  exact eq_of_rel (hrel k)

end

/-! ### The parts of a document -/

/-- The texts of one default value, up to the order of members. -/
def SameDefault (C : Codec) (x y : String) : Prop :=
  (x = "" ∧ y = "") ∨ ∃ v w : Value, x = C.dump v ∧ y = C.dump w ∧ v.Same w

def SameField (C : Codec) (x y : StateFieldDecl) : Prop :=
  x.type = y.type ∧ SameDefault C x.defaultValueJson y.defaultValueJson

/-- Specifications that differ in their signatures, and in the order of
members in the defaults of their states. -/
structure SameButSigning (C : Codec) (s t : WorkflowSpec) : Prop where
  rest : { s with signing := none, state := { s.state with fields := [] } } =
    { t with signing := none, state := { t.state with fields := [] } }
  fields : ∀ k, Option.Rel (SameField C) (s.state.fields.lookup k) (t.state.fields.lookup k)

section

variable {C : Codec} {a b : Value}

theorem parseStrings_sort {message : String} (items : List Value) :
    parseStrings message (items.map Value.sort) = parseStrings message items := by
  induction items with
  | nil => rfl
  | cons v vs ih =>
    rw [parseStrings] at ih
    rw [parseStrings, parseStrings, List.map_cons, List.mapM_cons, List.mapM_cons, ih, Value.str?_sort]
    rfl

theorem parseStrings_of_alike {message : String} {items items' : List Value}
    (h : items.map Value.sort = items'.map Value.sort) : parseStrings message items = parseStrings message items' := by
  rw [← parseStrings_sort items, h, parseStrings_sort]

theorem parseStateField_of_alike (k : String) (h : Alike a b) {x : StateFieldDecl}
    (hx : parseStateField C k a = .ok x) : ∃ y, parseStateField C k b = .ok y ∧ SameField C x y := by
  unfold parseStateField at hx
  split_ifs at hx with hobj
  obtain rfl := Except.ok.inj hx
  refine ⟨_, by rw [parseStateField, if_pos (h.isObject ▸ hobj)], h.textAt "type", ?_⟩
  rcases h.find? "default" with ⟨hv, hw⟩ | ⟨v, w, hv, hw, hvw⟩
  · exact Or.inl ⟨by rw [hv]; rfl, by rw [hw]; rfl⟩
  · exact Or.inr ⟨v, w, by rw [hv]; rfl, by rw [hw]; rfl, (Value.same_iff_sort_eq hvw.left hvw.right).mpr hvw.sort⟩

theorem parseStateFields_of_alike (h : Alike a b) {m : List (String × StateFieldDecl)}
    (hm : parseStateFields C a = .ok m) :
    ∃ m', parseStateFields C b = .ok m' ∧ ∀ k, Option.Rel (SameField C) (m.lookup k) (m'.lookup k) := by
  rw [parseStateFields] at hm ⊢
  rcases h.find? "fields" with ⟨hv, hw⟩ | ⟨v, w, hv, hw, hvw⟩
  · rw [hv] at hm
    obtain rfl := Except.ok.inj hm
    rw [hw]
    exact ⟨[], rfl, fun _ => .none⟩
  · rw [hv] at hm
    rw [hw]
    cases v with
    | obj ms =>
      obtain ⟨ns, rfl⟩ := hvw.obj
      exact parseMembers_of_alike (fun k v w x h hx => parseStateField_of_alike k h hx) hvw hm
    | _ => cases hm

theorem parseStateSpec_of_alike (h : Alike a b) {s : StateSpec} (hs : parseStateSpec C a = .ok s) :
    ∃ t, parseStateSpec C b = .ok t ∧ { s with fields := [] } = { t with fields := [] } ∧
      ∀ k, Option.Rel (SameField C) (s.fields.lookup k) (t.fields.lookup k) := by
  unfold parseStateSpec at hs
  split_ifs at hs with hobj
  obtain ⟨m, hm, hs⟩ := bind_eq_ok.mp hs
  obtain rfl := Except.ok.inj hs
  obtain ⟨m', hm', hrel⟩ := parseStateFields_of_alike h hm
  refine ⟨_, by rw [parseStateSpec, if_pos (h.isObject ▸ hobj), hm']; rfl, ?_, hrel⟩
  simp only [h.textAt]

theorem parseState_of_alike (h : Alike a b) {s : StateSpec} (hs : parseState C a = .ok s) :
    ∃ t, parseState C b = .ok t ∧ { s with fields := [] } = { t with fields := [] } ∧
      ∀ k, Option.Rel (SameField C) (s.fields.lookup k) (t.fields.lookup k) := by
  rw [parseState] at hs ⊢
  rcases h.find? "state" with ⟨hv, hw⟩ | ⟨v, w, hv, hw, hvw⟩
  · rw [hv] at hs
    obtain rfl := Except.ok.inj hs
    rw [hw]
    exact ⟨{}, rfl, rfl, fun _ => .none⟩
  · rw [hv] at hs
    rw [hw]
    exact parseStateSpec_of_alike hvw hs

theorem parseRoster_of_alike (h : Alike a b) {names : List String} (hn : parseRoster a = .ok names) :
    parseRoster b = .ok names := by
  rw [parseRoster] at hn ⊢
  rcases h.find? "agents" with ⟨hv, hw⟩ | ⟨v, w, hv, hw, hvw⟩
  · rwa [hv, ← hw] at hn
  · rw [hv] at hn
    rw [hw]
    cases v with
    | arr items =>
      obtain ⟨items', rfl, hitems⟩ := hvw.arr
      exact (parseStrings_of_alike hitems).symm.trans hn
    | _ => cases hn

theorem parseInputTemplate_of_alike (h : Alike a b) {m : List (String × String)}
    (hm : parseInputTemplate a = .ok m) : parseInputTemplate b = .ok m := by
  rw [parseInputTemplate] at hm ⊢
  rcases h.find? "input_template" with ⟨hv, hw⟩ | ⟨v, w, hv, hw, hvw⟩
  · rw [hv] at hm
    rw [hw]
    exact hm
  · rw [hv] at hm
    rw [hw]
    cases v with
    | obj ms =>
      obtain ⟨ns, rfl⟩ := hvw.obj
      refine parseMembers_eq_of_alike (fun k v w x hvw hx => ?_) hvw hm
      rwa [parseTemplate, ← hvw.str?, ← parseTemplate]
    | _ => cases hm

theorem parseDelegateSpec_of_alike (h : Alike a b) {d : DelegateSpec} (hd : parseDelegateSpec a = .ok d) :
    parseDelegateSpec b = .ok d := by
  rw [parseDelegateSpec] at hd ⊢
  have hobj : a.isObject = true := by
    by_contra hno
    rw [if_neg hno] at hd
    cases hd
  rw [if_pos hobj] at hd
  obtain ⟨names, hnames, hd⟩ := bind_eq_ok.mp hd
  rw [if_pos (h.isObject ▸ hobj), parseRoster_of_alike h hnames]
  refine bind_eq_ok.mpr ⟨names, rfl, ?_⟩
  rw [h.contains "parallel"] at hd
  split_ifs at hd with hparallel
  obtain ⟨template, htemplate, hd⟩ := bind_eq_ok.mp hd
  rw [if_neg hparallel, parseInputTemplate_of_alike h htemplate]
  refine bind_eq_ok.mpr ⟨template, rfl, ?_⟩
  rw [← hd, h.uint32At "max_depth", h.textAt "goal_template", h.textAt "output_extract"]

theorem parseBackend_of_alike (name : String) (h : Alike a b) {backend : String}
    (hb : parseBackend name a = .ok backend) : parseBackend name b = .ok backend := by
  rw [parseBackend] at hb ⊢
  rcases h.find? "backend" with ⟨hv, hw⟩ | ⟨v, w, hv, hw, hvw⟩
  · rwa [hv, ← hw] at hb
  · rw [hv] at hb
    rw [hw]
    cases v with
    | str s =>
      have hs : w.str? = some s := hvw.str?.symm
      rw [Value.str?_eq_some hs]
      exact hb
    | _ => cases hb

theorem parseModel_of_alike (name : String) (h : Alike a b) {m : ModelSpec} (hm : parseModel name a = .ok m) :
    parseModel name b = .ok m := by
  rw [parseModel] at hm ⊢
  rcases h.find? "model" with ⟨hv, hw⟩ | ⟨v, w, hv, hw, hvw⟩
  · rwa [hv, ← hw] at hm
  · rw [hv] at hm
    rw [hw]
    simp only at hm ⊢
    split_ifs at hm with hobj
    obtain ⟨backend, hb, hm⟩ := bind_eq_ok.mp hm
    rw [if_pos (hvw.isObject ▸ hobj), parseBackend_of_alike name hvw hb]
    refine bind_eq_ok.mpr ⟨backend, rfl, ?_⟩
    have hcalls : (v.find? "constrained_tool_calls" == some (.bool true)) =
        (w.find? "constrained_tool_calls" == some (.bool true)) := by
      rcases hvw.find? "constrained_tool_calls" with ⟨hx, hy⟩ | ⟨x, y, hx, hy, hxy⟩
      · rw [hx, hy]
      · rw [hx, hy, Bool.eq_iff_iff, beq_iff_eq, beq_iff_eq, Option.some.injEq, Option.some.injEq, hxy.eq_bool]
    rw [← hm, hvw.int32At "max_output_tokens", hcalls]

theorem parseTools_of_alike (name : String) (h : Alike a b) {tools : List String} (ht : parseTools name a = .ok tools) :
    parseTools name b = .ok tools := by
  rw [parseTools] at ht ⊢
  rcases h.find? "tools" with ⟨hv, hw⟩ | ⟨v, w, hv, hw, hvw⟩
  · rwa [hv, ← hw] at ht
  · rw [hv] at ht
    rw [hw]
    cases v with
    | arr items =>
      obtain ⟨items', rfl, hitems⟩ := hvw.arr
      exact (parseStrings_of_alike hitems).symm.trans ht
    | _ => cases ht

theorem parseDelegates_of_alike (name : String) (h : Alike a b) {d : Option DelegateSpec}
    (hd : parseDelegates name a = .ok d) : parseDelegates name b = .ok d := by
  rw [parseDelegates] at hd ⊢
  rcases h.find? "delegates" with ⟨hv, hw⟩ | ⟨v, w, hv, hw, hvw⟩
  · rwa [hv, ← hw] at hd
  · rw [hv] at hd
    rw [hw]
    simp only at hd ⊢
    cases hs : parseDelegateSpec v with
    | error e => simp [hs] at hd
    | ok s =>
      rw [hs] at hd
      rw [parseDelegateSpec_of_alike hvw hs]
      exact hd

theorem parseAgentDef_of_alike (name : String) (h : Alike a b) {d : AgentDef} (hd : parseAgentDef name a = .ok d) :
    parseAgentDef name b = .ok d := by
  rw [parseAgentDef] at hd ⊢
  split_ifs at hd with hobj
  obtain ⟨model, hmodel, hd⟩ := bind_eq_ok.mp hd
  obtain ⟨tools, htools, hd⟩ := bind_eq_ok.mp hd
  obtain ⟨delegates, hdelegates, hd⟩ := bind_eq_ok.mp hd
  rw [if_pos (h.isObject ▸ hobj), parseModel_of_alike name h hmodel, parseTools_of_alike name h htools,
    parseDelegates_of_alike name h hdelegates, ← h.textAt "system_prompt"]
  exact hd

theorem parseAgents_of_alike (h : Alike a b) {agents : List (String × AgentDef)} (ha : parseAgents a = .ok agents) :
    parseAgents b = .ok agents := by
  rw [parseAgents] at ha ⊢
  rcases h.find? "agents" with ⟨hv, hw⟩ | ⟨v, w, hv, hw, hvw⟩
  · rwa [hv, ← hw] at ha
  · rw [hv] at ha
    rw [hw]
    cases v with
    | obj ms =>
      obtain ⟨ns, rfl⟩ := hvw.obj
      exact parseMembers_eq_of_alike (fun k v w x hvw hx => parseAgentDef_of_alike k hvw hx) hvw ha
    | _ => cases ha

/-! ### The whole document -/

theorem find?_without {k k' : String} (hk : k' ≠ k) (v : Value) : (v.without k).find? k' = v.find? k' := by
  cases v with
  | obj ms => rw [Value.without, Value.find?_obj, OrderedMap.lookup_erase, if_neg hk, Value.find?_obj]
  | _ => rfl

theorem isObject_without (k : String) (v : Value) : (v.without k).isObject = v.isObject := by
  cases v <;> rfl

theorem textAt_without {k k' : String} (hk : k' ≠ k) (v : Value) : textAt (v.without k) k' = textAt v k' := by
  rw [textAt, textAt, Value.stringAt?, Value.stringAt?, find?_without hk]

theorem uint32At_without {k k' : String} (hk : k' ≠ k) (v : Value) : uint32At (v.without k) k' = uint32At v k' := by
  rw [uint32At, uint32At, find?_without hk]

theorem parseState_without (v : Value) : parseState C (v.without "signing") = parseState C v := by
  rw [parseState, parseState, find?_without (by decide)]

theorem parseAgents_without (v : Value) : parseAgents (v.without "signing") = parseAgents v := by
  rw [parseAgents, parseAgents, find?_without (by decide)]

/-- **Documents that differ in the signature and the order of members** parse
to specifications that differ in the signature and the texts of defaults. -/
theorem parseRoot_of_alike (h : Alike (a.without "signing") (b.without "signing")) {s : WorkflowSpec}
    {signing : Option Signing} (hs : parseRoot C a = .ok s) (hsigning : parseSignature b = .ok signing) :
    ∃ t, parseRoot C b = .ok t ∧ SameButSigning C s t := by
  rw [parseRoot] at hs
  split_ifs at hs with hobj
  obtain ⟨state, hstate, hs⟩ := bind_eq_ok.mp hs
  obtain ⟨agents, hagents, hs⟩ := bind_eq_ok.mp hs
  obtain ⟨_, -, hs⟩ := bind_eq_ok.mp hs
  obtain rfl := Except.ok.inj hs
  obtain ⟨state', hstate', hrest, hfields⟩ := parseState_of_alike h ((parseState_without a).trans hstate)
  rw [parseState_without] at hstate'
  have hagents' : parseAgents b = .ok agents :=
    (parseAgents_without b).symm.trans (parseAgents_of_alike h ((parseAgents_without a).trans hagents))
  have hobj' : b.isObject = true := by
    rw [← isObject_without "signing" b, ← h.isObject, isObject_without, hobj]
  have htext : ∀ k, k ≠ "signing" → textAt a k = textAt b k := fun k hk => by
    rw [← textAt_without hk a, h.textAt, textAt_without hk]
  have hversion : uint32At a "schema_version" = uint32At b "schema_version" := by
    rw [← uint32At_without (k := "signing") (by decide) a, h.uint32At, uint32At_without (by decide)]
  refine ⟨_, by rw [parseRoot, if_pos hobj', hstate', hagents', hsigning]; rfl, ?_, hfields⟩
  simp only [htext "name" (by decide), htext "version" (by decide), htext "main" (by decide), hversion, hrest]

end

/-! ### Comparing signatures -/

theorem foldl_diff {ps : List (UInt8 × UInt8)} : ∀ {d : UInt8},
    ps.foldl (fun d p => d ||| (p.1 ^^^ p.2)) d = 0 ↔ d = 0 ∧ ∀ p ∈ ps, p.1 = p.2 := by
  induction ps with
  | nil => simp
  | cons p ps ih =>
    intro d
    rw [List.foldl_cons, ih, UInt8.or_eq_zero_iff, UInt8.xor_eq_zero_iff, List.forall_mem_cons, and_assoc]

/-- Texts of one length have no difference if and only if they are equal. -/
theorem diff_eq_zero {expected supplied : List UInt8} (h : expected.length = supplied.length) :
    diff expected supplied = 0 ↔ expected = supplied := by
  rw [diff, foldl_diff, and_iff_right rfl]
  constructor
  · intro hall
    refine List.ext_getElem h fun i h₁ h₂ => ?_
    exact hall (expected[i], supplied[i]) (List.mem_iff_getElem.mpr ⟨i, by simp [h₁, h₂], by simp⟩)
  · rintro rfl p hp
    obtain ⟨i, hi, rfl⟩ := List.mem_iff_getElem.mp hp
    simp

theorem bytes_inj {s t : String} : bytes s = bytes t ↔ s = t := by
  rw [bytes, bytes, Array.toList_inj, ByteArray.ext_iff.symm, String.toByteArray_inj]

theorem verifySignature_eq_ok {L : LoaderHost} {canonical : String} {sig : Signing}
    {resolve : String → Except Status.Error String} : verifySignature L canonical sig resolve = .ok () ↔
      sig.algo = "HMAC-SHA256" ∧ ∃ key, resolve sig.keyId = .ok key ∧
        sig.signature = hmacSha256Base64 L key canonical := by
  rw [verifySignature, seq_eq_ok, require_eq_ok, bind_eq_ok]
  refine and_congr_right fun _ => exists_congr fun key => and_congr_right fun _ => ?_
  rw [seq_eq_ok, require_eq_ok, require_eq_ok]
  constructor
  · rintro ⟨hlen, hdiff⟩
    exact (bytes_inj.mp ((diff_eq_zero hlen).mp hdiff)).symm
  · intro heq
    rw [heq]
    exact ⟨rfl, (diff_eq_zero rfl).mpr rfl⟩

/-! ### Coverage -/

/-- A document that was parsed. -/
def Parsed (L : LoaderHost) (root : Value) : Prop := ∃ text, L.ordered.parse text = some root

/-- What the canonical form and the signature over it stand for. -/
structure Covered (L : LoaderHost) : Prop where
  /-- Forms are equal if and only if the documents are, up to order and signature. -/
  form : ∀ a b, Parsed L a → Parsed L b →
    (canonicalForm L.sorted a = canonicalForm L.sorted b ↔ (a.without "signing").Same (b.without "signing"))
  /-- All that is parsed is covered. -/
  spec : ∀ a b s signing, Parsed L a → Parsed L b → canonicalForm L.sorted a = canonicalForm L.sorted b →
    parseRoot L.ordered a = .ok s → parseSignature b = .ok signing →
    ∃ t, parseRoot L.ordered b = .ok t ∧ SameButSigning L.ordered s t
  /-- What is accepted is signed. -/
  accepted : ∀ opts resolve text w, opts.keyResolver = some resolve → opts.requireSigned = true →
    load L opts text = .ok w → ∃ root sig key, L.ordered.parse text = some root ∧ w.spec.signing = some sig ∧
      resolve sig.keyId = .ok key ∧
        sig.signature = L.encodeBlock (L.hmacSha256 key (canonicalForm L.sorted root))

section

variable {L : LoaderHost}

theorem checkSigning_of_required {opts : LoaderOptions} {resolve : String → Except Status.Error String} {root : Value}
    {spec : WorkflowSpec} (hresolver : opts.keyResolver = some resolve) (hrequired : opts.requireSigned = true)
    (h : checkSigning L opts root spec = .ok ()) : ∃ sig key, spec.signing = some sig ∧
      resolve sig.keyId = .ok key ∧ sig.signature = hmacSha256Base64 L key (canonicalForm L.sorted root) := by
  unfold checkSigning at h
  cases hsigned : signed? spec with
  | none =>
    rw [hsigned] at h
    rw [require_eq_ok.mp h] at hrequired
    cases hrequired
  | some sig =>
    rw [hsigned] at h
    obtain ⟨-, key, hkey, hsig⟩ := verifySignature_eq_ok.mp (option_forM_eq_ok.mp h resolve hresolver)
    exact ⟨sig, key, (Option.filter_eq_some_iff.mp hsigned).1, hkey, hsig⟩

/-- **Coverage of signatures.** -/
theorem covered_of_injOn (hkeyed : ∀ root, Parsed L root → root.Keyed)
    (hdump : Set.InjOn L.sorted.dump {v | ∃ root, Parsed L root ∧ v = canon true root})
    (hmac : ∀ key data, L.hmacSha256 key data ≠ []) : Covered L := by
  have hform : ∀ a b, Parsed L a → Parsed L b → (canonicalForm L.sorted a = canonicalForm L.sorted b ↔
      (a.without "signing").sort = (b.without "signing").sort) := by
    intro a b ha hb
    rw [← canon_true (hkeyed a ha), ← canon_true (hkeyed b hb)]
    exact hdump.eq_iff ⟨a, ha, rfl⟩ ⟨b, hb, rfl⟩
  refine ⟨fun a b ha hb => ?_, fun a b s signing ha hb heq hs hsigning => ?_,
    fun opts resolve text w hresolver hrequired hload => ?_⟩
  · rw [hform a b ha hb,
      Value.same_iff_sort_eq ((hkeyed a ha).without "signing") ((hkeyed b hb).without "signing")]
  · exact parseRoot_of_alike ⟨(hkeyed a ha).without _, (hkeyed b hb).without _, (hform a b ha hb).mp heq⟩ hs hsigning
  · obtain ⟨-, root, spec, hroot, -, hcheck, -, hw⟩ := load_eq_ok.mp hload
    obtain ⟨-, -, -, -, -, hsigning⟩ := checkSpec_eq_ok.mp hcheck
    obtain ⟨sig, key, hsig, hkey, hequal⟩ := checkSigning_of_required hresolver hrequired hsigning
    rw [hmacSha256Base64, if_neg (hmac _ _)] at hequal
    exact ⟨root, sig, key, hroot, by rw [hw, hsig], hkey, hequal⟩

end

/-! ### Documents -/

/-- A document with a place in its state, signed. -/
def placeDocument (place : Value) : Value :=
  .obj [("name", .str "desk"), ("main", .str "clerk"),
    ("state", .obj [("fields", .obj [("place", .obj [("default", place)])])]),
    ("agents", .obj [("clerk", .obj [])]),
    ("signing", .obj [("algo", .str "HMAC-SHA256"), ("key_id", .str "office"),
      ("signature", .str "lpFxQQ97EspZMwtVQNHunoHA53XwGZM2ZQiK004hXG0=")])]

def placeXY : Value := .obj [("x", .int 1), ("y", .int 2)]

def placeYX : Value := .obj [("y", .int 2), ("x", .int 1)]

def canonicalPlace : String :=
  "\x7b\"agents\":\x7b\"clerk\":\x7b\x7d\x7d,\"main\":\"clerk\",\"name\":\"desk\",\"state\":" ++
    "\x7b\"fields\":\x7b\"place\":\x7b\"default\":\x7b\"x\":1,\"y\":2\x7d\x7d\x7d\x7d\x7d"

def placeMac : List UInt8 :=
  [150, 145, 113, 65, 15, 123, 18, 202, 89, 51, 11, 85, 64, 209, 238, 158, 129, 192, 231, 117, 240, 25, 147, 54, 101,
    8, 138, 211, 78, 33, 92, 109]

def placeLoader : LoaderHost :=
  { sorted := .ofTable [(canonicalPlace, canon true (placeDocument placeXY)), ("\x7b\"x\":1,\"y\":2\x7d", placeXY)]
    ordered := .ofTable [("xy.json", placeDocument placeXY), ("yx.json", placeDocument placeYX),
      ("\x7b\"x\":1,\"y\":2\x7d", placeXY), ("\x7b\"y\":2,\"x\":1\x7d", placeYX)]
    registry := .empty
    hmacSha256 := fun key data => if key = "secret" ∧ data = canonicalPlace then placeMac else [0]
    encodeBlock := fun mac => if mac = placeMac then "lpFxQQ97EspZMwtVQNHunoHA53XwGZM2ZQiK004hXG0=" else ""
    base64Unescape := fun _ => none
    readFile := fun _ => none
    parseDescriptorSet := fun _ => none
    buildFile := fun _ _ => false
    findMessageType := fun _ _ => false }

def officeOptions : LoaderOptions :=
  { keyResolver := some fun keyId => if keyId = "office" then .ok "secret" else .error ⟨.notFound, "no key"⟩
    requireSigned := true }

theorem parsed_placeLoader {root : Value} (h : Parsed placeLoader root) :
    root = placeDocument placeXY ∨ root = placeDocument placeYX ∨ root = placeXY ∨ root = placeYX := by
  obtain ⟨text, htext⟩ := h
  obtain ⟨l, r, hl, -⟩ := List.lookup_eq_some_iff.mp htext
  have hm : (text, root) ∈ l ++ (text, root) :: r := by simp
  rw [← hl] at hm
  simp only [List.mem_cons, Prod.mk.injEq, List.not_mem_nil, or_false] at hm
  tauto

theorem canon_placeLoader {root : Value} (h : Parsed placeLoader root) :
    canon true root = canon true (placeDocument placeXY) ∨ canon true root = placeXY := by
  rcases parsed_placeLoader h with rfl | rfl | rfl | rfl
  · exact Or.inl rfl
  · exact Or.inl (by decide +kernel)
  · exact Or.inr (by decide +kernel)
  · exact Or.inr (by decide +kernel)

/-- Both orders of the members are accepted under the one signature. -/
theorem covered_placeLoader : Covered placeLoader ∧
    (∃ w, load placeLoader officeOptions "xy.json" = .ok w) ∧ ∃ w, load placeLoader officeOptions "yx.json" = .ok w := by
  have hdump : placeLoader.sorted.dump (canon true (placeDocument placeXY)) ≠ placeLoader.sorted.dump placeXY := by
    decide +kernel
  refine ⟨covered_of_injOn (fun root hroot => ?_) ?_ fun key data => ?_, ⟨_, rfl⟩, ⟨_, rfl⟩⟩
  · rcases parsed_placeLoader hroot with rfl | rfl | rfl | rfl <;>
      simp [placeDocument, placeXY, placeYX, Value.Keyed, membersKeyed]
  · rintro v ⟨a, ha, rfl⟩ w ⟨b, hb, rfl⟩ heq
    rcases canon_placeLoader ha with ha | ha <;> rcases canon_placeLoader hb with hb | hb <;> rw [ha, hb] at heq ⊢
    · exact absurd heq hdump
    · exact absurd heq.symm hdump
  · change (if key = "secret" ∧ data = canonicalPlace then placeMac else [0]) ≠ []
    split_ifs <;> simp [placeMac]

/-- The default of the field is kept in the order of the document. -/
theorem not_same_of_canonicalForm : ∃ a b s t, Parsed placeLoader a ∧ Parsed placeLoader b ∧
    canonicalForm placeLoader.sorted a = canonicalForm placeLoader.sorted b ∧
      parseRoot placeLoader.ordered a = .ok s ∧ parseRoot placeLoader.ordered b = .ok t ∧
        { s with signing := none } ≠ { t with signing := none } := by
  refine ⟨placeDocument placeXY, placeDocument placeYX, _, _, ⟨"xy.json", by decide +kernel⟩,
    ⟨"yx.json", by decide +kernel⟩, by decide +kernel, rfl, rfl, by decide +kernel⟩

end WorkflowLoader

end AgentFlow.Workflow
