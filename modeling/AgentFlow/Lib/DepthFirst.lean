/-
# Depth-first search with three colours

The iterative search of a graph: a stack of nodes, each with the index of its
next child, and a map of colours. A node is white before it is seen, grey
while it is on the stack, and black once its children are done. A grey child
closes a cycle, and ends the search.

A search that ends without one has found the graph acyclic: a black node is
accessible (`Explored`), and in the end all nodes are black. The nodes on the
stack are a path, so a grey child does lie on a cycle. The fuel is the weight of
what is white (`weight`), and is enough for the loop to end by itself (`Ends`).

Key definitions: `Color`, `visit`, `search`, `Ends`, `Explored`.
Key theorems: `ends_visit`, `acc_of_search`, `search_ok_iff`.
-/
import AgentFlow.Lib.OrderedMap

namespace DepthFirst

inductive Color
  | white
  | gray
  | black
  deriving DecidableEq, Repr

abbrev Colors (κ : Type*) := List (κ × Color)

section

variable {κ : Type*} {children : κ → List κ} {stack : List (κ × ℕ)}

/-- What is left to do for the white nodes. -/
def weight (children : κ → List κ) (color : Colors κ) : ℕ :=
  (color.map fun b => if b.2 = .white then (children b.1).length + 1 else 0).sum

/-- What is left to do for the nodes on the stack. -/
def pending (children : κ → List κ) (stack : List (κ × ℕ)) : ℕ :=
  (stack.map fun e => (children e.1).length - e.2 + 1).sum

/-- The children that were passed are accessible, but for the one that is next
on the stack. -/
def Passed (children : κ → List κ) : Option κ → List (κ × ℕ) → Prop
  | _, [] => True
  | next, (cur, idx) :: stack =>
    (∀ j < idx, ∀ child, (children cur)[j]? = some child →
      Acc (fun x y => x ∈ children y) child ∨ next = some child) ∧ Passed children (some cur) stack

theorem weight_cons (k : κ) (c : Color) (color : Colors κ) : weight children ((k, c) :: color) =
    (if c = .white then (children k).length + 1 else 0) + weight children color := rfl

theorem pending_cons (cur : κ) (idx : ℕ) (stack : List (κ × ℕ)) :
    pending children ((cur, idx) :: stack) = (children cur).length - idx + 1 + pending children stack := rfl

/-- An accessible node need not be next. -/
theorem Passed.settle {cur : κ} (hc : Acc (fun x y => x ∈ children y) cur) (h : Passed children (some cur) stack) :
    Passed children none stack := by
  cases stack with
  | nil => trivial
  | cons e stack =>
    refine ⟨fun j hj child hchild => Or.inl ?_, h.2⟩
    rcases h.1 j hj child hchild with ha | hn
    · exact ha
    · rwa [← Option.some.inj hn]

/-- One more child is passed. -/
theorem Passed.advance {cur child : κ} {idx : ℕ} {next : Option κ} (h : Passed children none ((cur, idx) :: stack))
    (hchild : (children cur)[idx]? = some child) (hc : Acc (fun x y => x ∈ children y) child ∨ next = some child) :
    Passed children next ((cur, idx + 1) :: stack) := by
  refine ⟨fun j hj child' hchild' => ?_, h.2⟩
  rcases Nat.lt_succ_iff_lt_or_eq.mp hj with hj | rfl
  · rcases h.1 j hj child' hchild' with ha | hn
    · exact Or.inl ha
    · cases hn
  · rwa [← Option.some.inj (hchild.symm.trans hchild')]

/-- From a node of a path every later one is reached. -/
theorem transGen_of_isChain {r : κ → κ → Prop} {x y : κ} {path : List κ} (h : List.IsChain r (x :: path))
    (hy : y ∈ path) : Relation.TransGen r x y := by
  have htrans : List.IsChain (Relation.TransGen r) (x :: path) := h.imp fun _ _ => Relation.TransGen.single
  exact (List.pairwise_cons.mp (List.isChain_iff_pairwise.mp htrans)).1 y hy

/-- A node without children is accessible. -/
theorem acc_of_nil {x : κ} (h : children x = []) : Acc (fun x y => x ∈ children y) x :=
  ⟨_, fun y hy => by rw [h] at hy; cases hy⟩

end

variable {κ : Type*} [LinearOrder κ]

/-- Paints a node that is on the map. -/
def paint (k : κ) (c : Color) (color : Colors κ) : Colors κ := OrderedMap.modify k (fun _ => c) color

/-- The loop of the search; a child that is not on the map is passed over. -/
def visit (children : κ → List κ) : ℕ → Colors κ → List (κ × ℕ) → Except κ (Colors κ)
  | 0, color, _ => .ok color
  | _ + 1, color, [] => .ok color
  | n + 1, color, (cur, idx) :: stack =>
    match (children cur)[idx]? with
    | none => visit children n (paint cur .black color) stack
    | some child =>
      match color.lookup child with
      | some .gray => .error child
      | some .white => visit children n (paint child .gray color) ((child, 0) :: (cur, idx + 1) :: stack)
      | some .black | none => visit children n color ((cur, idx + 1) :: stack)

/-- The search from each node that is still white when its turn comes. -/
def search (children : κ → List κ) : List κ → Colors κ → Except κ (Colors κ)
  | [], color => .ok color
  | start :: starts, color =>
    if color.lookup start = some .white then
      match visit children (weight children color) (paint start .gray color) [(start, 0)] with
      | .ok color => search children starts color
      | .error child => .error child
    else search children starts color

section

variable {children : κ → List κ} {color color' : Colors κ} {stack : List (κ × ℕ)}

@[simp]
theorem lookup_paint (k k' : κ) (c : Color) :
    (paint k c color).lookup k' = if k' = k then (color.lookup k').map fun _ => c else color.lookup k' := by
  rw [paint, OrderedMap.lookup_modify]

/-! ### The fuel is enough -/

theorem paint_cons (k k' : κ) (c c' : Color) (color : Colors κ) :
    paint k c ((k', c') :: color) = (k', if k' = k then c else c') :: paint k c color := by
  rw [paint, OrderedMap.modify, List.map_cons]
  split_ifs <;> rfl

theorem weight_paint_le (k : κ) {c : Color} (hc : c ≠ .white) : ∀ color : Colors κ,
    weight children (paint k c color) ≤ weight children color
  | [] => le_rfl
  | (k', c') :: color => by
    have ih := weight_paint_le k hc color
    rw [paint_cons, weight_cons, weight_cons]
    by_cases hk : k' = k
    · rw [if_pos hk, if_neg hc]
      omega
    · rw [if_neg hk]
      omega

/-- A white node that is painted has its weight no longer. -/
theorem weight_paint_lt {k : κ} {c : Color} (hc : c ≠ .white) : ∀ {color : Colors κ}, color.lookup k = some .white →
    weight children (paint k c color) + (children k).length + 1 ≤ weight children color
  | (k', c') :: color, h => by
    rw [OrderedMap.lookup_cons] at h
    rw [paint_cons, weight_cons, weight_cons]
    by_cases hk : k' = k
    · have hrest : weight children (paint k c color) ≤ weight children color := weight_paint_le k hc color
      rw [if_pos hk.symm] at h
      obtain rfl := Option.some.inj h
      subst hk
      rw [if_pos rfl, if_neg hc, if_pos rfl]
      omega
    · have ih := weight_paint_lt hc (if_neg (Ne.symm hk) ▸ h)
      rw [if_neg hk]
      omega

/-- A run of the loop to its end, and what it ends with. -/
inductive Ends (children : κ → List κ) : Colors κ → List (κ × ℕ) → Except κ (Colors κ) → Prop
  | done (color : Colors κ) : Ends children color [] (.ok color)
  | pop {color : Colors κ} {cur : κ} {idx : ℕ} {stack : List (κ × ℕ)} {r : Except κ (Colors κ)}
      (hchild : (children cur)[idx]? = none) (h : Ends children (paint cur .black color) stack r) :
      Ends children color ((cur, idx) :: stack) r
  | cycle {color : Colors κ} {cur : κ} {idx : ℕ} {stack : List (κ × ℕ)} {child : κ}
      (hchild : (children cur)[idx]? = some child) (hcolor : color.lookup child = some .gray) :
      Ends children color ((cur, idx) :: stack) (.error child)
  | push {color : Colors κ} {cur : κ} {idx : ℕ} {stack : List (κ × ℕ)} {child : κ} {r : Except κ (Colors κ)}
      (hchild : (children cur)[idx]? = some child) (hcolor : color.lookup child = some .white)
      (h : Ends children (paint child .gray color) ((child, 0) :: (cur, idx + 1) :: stack) r) :
      Ends children color ((cur, idx) :: stack) r
  | pass {color : Colors κ} {cur : κ} {idx : ℕ} {stack : List (κ × ℕ)} {child : κ} {r : Except κ (Colors κ)}
      (hchild : (children cur)[idx]? = some child)
      (hcolor : color.lookup child = some .black ∨ color.lookup child = none)
      (h : Ends children color ((cur, idx + 1) :: stack) r) : Ends children color ((cur, idx) :: stack) r

/-- **The loop ends**, with what enough fuel gives. -/
theorem ends_visit {n : ℕ} {color : Colors κ} {stack : List (κ × ℕ)}
    (hn : weight children color + pending children stack ≤ n) :
    Ends children color stack (visit children n color stack) := by
  induction n generalizing color stack with
  | zero =>
    cases stack with
    | nil => exact .done color
    | cons e stack =>
      rw [pending_cons] at hn
      omega
  | succ n ih =>
    cases stack with
    | nil => exact .done color
    | cons e stack =>
      obtain ⟨cur, idx⟩ := e
      rw [pending_cons] at hn
      rw [visit]
      cases hchild : (children cur)[idx]? with
      | none =>
        have hw : weight children (paint cur .black color) ≤ weight children color :=
          weight_paint_le cur (by decide) color
        exact .pop hchild (ih (by omega))
      | some child =>
        have hlt : idx < (children cur).length := (List.getElem?_eq_some_iff.mp hchild).1
        have hless : weight children color + pending children ((cur, idx + 1) :: stack) ≤ n := by
          rw [pending_cons]
          omega
        cases hcolor : color.lookup child with
        | none =>
          simp only [hcolor]
          exact .pass hchild (Or.inr hcolor) (ih hless)
        | some c =>
          cases c with
          | gray =>
            simp only [hcolor]
            exact .cycle hchild hcolor
          | black =>
            simp only [hcolor]
            exact .pass hchild (Or.inl hcolor) (ih hless)
          | white =>
            have hw : weight children (paint child .gray color) + (children child).length + 1 ≤ weight children color :=
              weight_paint_lt (by decide) hcolor
            simp only [hcolor]
            refine .push hchild hcolor (ih ?_)
            rw [pending_cons] at hless ⊢
            rw [pending_cons]
            omega

/-- A run through the nodes to search from. -/
inductive Searches (children : κ → List κ) : Colors κ → List κ → Except κ (Colors κ) → Prop
  | done (color : Colors κ) : Searches children color [] (.ok color)
  | skip {color : Colors κ} {start : κ} {starts : List κ} {r : Except κ (Colors κ)}
      (hw : color.lookup start ≠ some .white) (h : Searches children color starts r) :
      Searches children color (start :: starts) r
  | cycle {color : Colors κ} {start : κ} {starts : List κ} {child : κ} (hw : color.lookup start = some .white)
      (hends : Ends children (paint start .gray color) [(start, 0)] (.error child)) :
      Searches children color (start :: starts) (.error child)
  | next {color color₁ : Colors κ} {start : κ} {starts : List κ} {r : Except κ (Colors κ)}
      (hw : color.lookup start = some .white)
      (hends : Ends children (paint start .gray color) [(start, 0)] (.ok color₁))
      (h : Searches children color₁ starts r) : Searches children color (start :: starts) r

/-- **The search ends**, with what it is defined to be. -/
theorem searches_search (starts : List κ) (color : Colors κ) :
    Searches children color starts (search children starts color) := by
  induction starts generalizing color with
  | nil => exact .done color
  | cons start starts ih =>
    rw [search]
    by_cases hw : color.lookup start = some .white
    · have hlt : weight children (paint start .gray color) + (children start).length + 1 ≤ weight children color :=
        weight_paint_lt (by decide) hw
      have hends : Ends children (paint start .gray color) [(start, 0)]
          (visit children (weight children color) (paint start .gray color) [(start, 0)]) :=
        ends_visit (by rw [pending_cons, pending]; simp; omega)
      rw [if_pos hw]
      cases hv : visit children (weight children color) (paint start .gray color) [(start, 0)] with
      | error child => exact .cycle hw (hv ▸ hends)
      | ok color₁ => exact .next hw (hv ▸ hends) (ih color₁)
    · rw [if_neg hw]
      exact .skip hw (ih color)

/-! ### What a search has found -/

/-- The invariant of the search. -/
structure Explored (children : κ → List κ) (color : Colors κ) (stack : List (κ × ℕ)) : Prop where
  gray : ∀ x, color.lookup x = some .gray → x ∈ stack.map Prod.fst
  black : ∀ x, color.lookup x = some .black → Acc (fun x y => x ∈ children y) x
  unknown : ∀ x, color.lookup x = none → children x = []
  passed : Passed children none stack

/-- The nodes are the same, and none has become white. -/
structure Follows (color color' : Colors κ) : Prop where
  known : ∀ x, color'.lookup x = none ↔ color.lookup x = none
  white : ∀ x, color'.lookup x = some .white → color.lookup x = some .white

theorem Follows.refl (color : Colors κ) : Follows color color := ⟨fun _ => Iff.rfl, fun _ h => h⟩

theorem Follows.trans {color₁ color₂ color₃ : Colors κ} (h₁ : Follows color₁ color₂) (h₂ : Follows color₂ color₃) :
    Follows color₁ color₃ :=
  ⟨fun x => (h₂.known x).trans (h₁.known x), fun x h => h₁.white x (h₂.white x h)⟩

theorem Follows.paint (k : κ) {c : Color} (hc : c ≠ .white) : Follows color (paint k c color) := by
  refine ⟨fun x => ?_, fun x h => ?_⟩
  · rw [lookup_paint]
    split_ifs
    · rw [Option.map_eq_none_iff]
    · rfl
  · rw [lookup_paint] at h
    split_ifs at h
    · obtain ⟨-, -, h⟩ := Option.map_eq_some_iff.mp h
      exact absurd h hc
    · exact h

/-- All children of the node on top were passed. -/
theorem Explored.pop {cur : κ} {idx : ℕ} (h : Explored children color ((cur, idx) :: stack))
    (hno : (children cur)[idx]? = none) : Explored children (paint cur .black color) stack := by
  have hc : Acc (fun x y => x ∈ children y) cur := by
    refine ⟨_, fun y hy => ?_⟩
    obtain ⟨j, hj, rfl⟩ := List.mem_iff_getElem.mp hy
    have hlt : j < idx := hj.trans_le (List.getElem?_eq_none_iff.mp hno)
    rcases h.passed.1 j hlt _ (List.getElem?_eq_getElem hj) with ha | hn
    · exact ha
    · cases hn
  refine ⟨fun x hx => ?_, fun x hx => ?_, fun x hx => h.unknown x ?_, h.passed.2.settle hc⟩
  · rw [lookup_paint] at hx
    split_ifs at hx with hk
    · obtain ⟨-, -, hx⟩ := Option.map_eq_some_iff.mp hx
      cases hx
    · exact (List.mem_cons.mp (h.gray x hx)).resolve_left hk
  · rw [lookup_paint] at hx
    split_ifs at hx with hk
    · rwa [hk]
    · exact h.black x hx
  · exact ((Follows.paint cur (by decide)).known x).mp hx

/-- A white child goes on the stack. -/
theorem Explored.push {cur child : κ} {idx : ℕ} (h : Explored children color ((cur, idx) :: stack))
    (hchild : (children cur)[idx]? = some child) :
    Explored children (paint child .gray color) ((child, 0) :: (cur, idx + 1) :: stack) := by
  refine ⟨fun x hx => ?_, fun x hx => ?_, fun x hx => h.unknown x ?_, by simp, h.passed.advance hchild (Or.inr rfl)⟩
  · rw [lookup_paint] at hx
    split_ifs at hx with hk
    · simp [hk]
    · exact List.mem_cons_of_mem _ (h.gray x hx)
  · rw [lookup_paint] at hx
    split_ifs at hx with hk
    · obtain ⟨-, -, hx⟩ := Option.map_eq_some_iff.mp hx
      cases hx
    · exact h.black x hx
  · exact ((Follows.paint child (by decide)).known x).mp hx

theorem Explored.advance {cur child : κ} {idx : ℕ} (h : Explored children color ((cur, idx) :: stack))
    (hchild : (children cur)[idx]? = some child) (hc : Acc (fun x y => x ∈ children y) child) :
    Explored children color ((cur, idx + 1) :: stack) :=
  ⟨h.gray, h.black, h.unknown, h.passed.advance hchild (Or.inl hc)⟩

/-- A child that is passed over is accessible. -/
theorem Explored.acc_of_passed {child : κ} (h : Explored children color stack)
    (hcolor : color.lookup child = some .black ∨ color.lookup child = none) : Acc (fun x y => x ∈ children y) child :=
  hcolor.elim (h.black child) fun hnone => acc_of_nil (h.unknown child hnone)

/-- **The loop keeps the invariant**, and ends with an empty stack. -/
theorem Explored.ends {r : Except κ (Colors κ)} (hends : Ends children color stack r)
    (h : Explored children color stack) (hr : r = .ok color') :
    Explored children color' [] ∧ Follows color color' := by
  induction hends with
  | done color =>
    obtain rfl := Except.ok.inj hr
    exact ⟨h, .refl _⟩
  | pop hchild _ ih =>
    obtain ⟨hx, hf⟩ := ih (h.pop hchild) hr
    exact ⟨hx, (Follows.paint _ (by decide)).trans hf⟩
  | cycle _ _ => cases hr
  | push hchild _ _ ih =>
    obtain ⟨hx, hf⟩ := ih (h.push hchild) hr
    exact ⟨hx, (Follows.paint _ (by decide)).trans hf⟩
  | pass hchild hcolor _ ih => exact ih (h.advance hchild (h.acc_of_passed hcolor)) hr

/-- A search starts with one grey node. -/
theorem Explored.start {x : κ} (h : Explored children color []) :
    Explored children (paint x .gray color) [(x, 0)] := by
  refine ⟨fun y hy => ?_, fun y hy => ?_, fun y hy => h.unknown y ?_, by simp, trivial⟩
  · rw [lookup_paint] at hy
    split_ifs at hy with hk
    · simp [hk]
    · exact absurd (h.gray y hy) (by simp)
  · rw [lookup_paint] at hy
    split_ifs at hy with hk
    · obtain ⟨-, -, hy⟩ := Option.map_eq_some_iff.mp hy
      cases hy
    · exact h.black y hy
  · exact ((Follows.paint x (by decide)).known y).mp hy

/-- Nodes that were searched from are not white. -/
theorem Explored.searches {starts : List κ} {r : Except κ (Colors κ)} (hsearches : Searches children color starts r)
    (h : Explored children color []) (hr : r = .ok color') :
    Explored children color' [] ∧ Follows color color' ∧ ∀ x ∈ starts, color'.lookup x ≠ some .white := by
  induction hsearches with
  | done color =>
    obtain rfl := Except.ok.inj hr
    exact ⟨h, .refl _, by simp⟩
  | skip hw _ ih =>
    obtain ⟨hx, hf, hstarts⟩ := ih h hr
    exact ⟨hx, hf, List.forall_mem_cons.mpr ⟨fun hno => hw (hf.white _ hno), hstarts⟩⟩
  | cycle _ _ => cases hr
  | next _ hends _ ih =>
    obtain ⟨h₁, hf₁⟩ := h.start.ends hends rfl
    obtain ⟨hx, hf, hstarts⟩ := ih h₁ hr
    refine ⟨hx, ((Follows.paint _ (by decide)).trans hf₁).trans hf, List.forall_mem_cons.mpr ⟨fun hno => ?_, hstarts⟩⟩
    have hgray := hf₁.white _ (hf.white _ hno)
    rw [lookup_paint, if_pos rfl] at hgray
    obtain ⟨-, -, hgray⟩ := Option.map_eq_some_iff.mp hgray
    cases hgray

/-! ### A cycle is found -/

/-- The nodes on the stack are a path, so **a grey child closes a cycle.** -/
theorem cycle_of_ends {r : Except κ (Colors κ)} {child : κ} (hends : Ends children color stack r)
    (h : Explored children color stack) (hpath : List.IsChain (fun x y => x ∈ children y) (stack.map Prod.fst))
    (hr : r = .error child) : Relation.TransGen (fun x y => x ∈ children y) child child := by
  induction hends with
  | done _ => cases hr
  | pop hchild _ ih => exact ih (h.pop hchild) (List.IsChain.tail hpath) hr
  | @cycle color cur idx stack child' hchild hcolor =>
    obtain rfl := Except.error.inj hr
    have hstep : child' ∈ children cur := List.mem_of_getElem? hchild
    rcases List.mem_cons.mp (h.gray child' hcolor) with heq | hin
    · exact Relation.TransGen.single (heq ▸ hstep)
    · exact Relation.TransGen.head hstep (transGen_of_isChain hpath hin)
  | push hchild _ _ ih =>
    exact ih (h.push hchild) (List.isChain_cons_cons.mpr ⟨List.mem_of_getElem? hchild, hpath⟩) hr
  | pass hchild hcolor _ ih => exact ih (h.advance hchild (h.acc_of_passed hcolor)) hpath hr

theorem cycle_of_searches {starts : List κ} {r : Except κ (Colors κ)} {child : κ}
    (hsearches : Searches children color starts r) (h : Explored children color []) (hr : r = .error child) :
    Relation.TransGen (fun x y => x ∈ children y) child child := by
  induction hsearches with
  | done _ => cases hr
  | skip _ _ ih => exact ih h hr
  | cycle _ hends =>
    obtain rfl := Except.error.inj hr
    exact cycle_of_ends hends h.start (List.isChain_singleton _) rfl
  | next _ hends _ ih => exact ih (h.start.ends hends rfl).1 hr

/-- Before the search: all nodes are white. -/
theorem explored_white (hwhite : ∀ x c, color.lookup x = some c → c = .white)
    (hknown : ∀ x, color.lookup x = none → children x = []) : Explored children color [] := by
  refine ⟨fun x hx => ?_, fun x hx => ?_, hknown, trivial⟩
  · cases hwhite x _ hx
  · cases hwhite x _ hx

/-- **A search that ends finds the graph acyclic**: from a map on which all
nodes are white, if all nodes with children are on it and searched from. -/
theorem acc_of_search {starts : List κ} (hwhite : ∀ x c, color.lookup x = some c → c = .white)
    (hknown : ∀ x, color.lookup x = none → children x = []) (hstarts : ∀ x, color.lookup x ≠ none → x ∈ starts)
    (hs : search children starts color = .ok color') (x : κ) : Acc (fun x y => x ∈ children y) x := by
  have h : Explored children color [] := explored_white hwhite hknown
  obtain ⟨h', hf, hno⟩ := h.searches (hs ▸ searches_search starts color) rfl
  cases hx : color'.lookup x with
  | none => exact acc_of_nil (h'.unknown x hx)
  | some c =>
    cases c with
    | white =>
      have hx' : color.lookup x ≠ none := fun hn => by
        rw [(hf.known x).mpr hn] at hx
        cases hx
      exact absurd hx (hno x (hstarts x hx'))
    | gray => exact absurd (h'.gray x hx) (by simp)
    | black => exact h'.black x hx

/-- **A search from all nodes succeeds exactly on graphs without a cycle.** -/
theorem search_ok_iff {starts : List κ} (hwhite : ∀ x c, color.lookup x = some c → c = .white)
    (hknown : ∀ x, color.lookup x = none → children x = []) (hstarts : ∀ x, color.lookup x ≠ none → x ∈ starts) :
    (∃ color', search children starts color = .ok color') ↔
      ∀ x, ¬ Relation.TransGen (fun x y => x ∈ children y) x x := by
  constructor
  · rintro ⟨color', hs⟩ x hcycle
    have hacc := acc_of_search hwhite hknown hstarts hs
    exact (WellFounded.intro hacc).transGen.irrefl.irrefl x hcycle
  · intro hno
    have hrun : Searches children color starts (search children starts color) := searches_search starts color
    cases hs : search children starts color with
    | ok color' => exact ⟨color', rfl⟩
    | error child =>
      rw [hs] at hrun
      exact absurd (cycle_of_searches hrun (explored_white hwhite hknown) rfl) (hno child)

end

end DepthFirst
