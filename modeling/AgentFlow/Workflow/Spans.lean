/-
# The spans of sub-agents

Each call of `RunAsync` that returns starts a span and ends it with the same
identity and depth, and the spans of the calls in it lie in between: the
history of the run and that of each call in it has that outline, and the log
of all starts and ends is well nested. This fails for a call that is refused
as one of an unknown agent, whose span ends without a start, and for a call
that throws, whose span does not end.

Key definitions: `WellNested`, `spanLog`, `Bracketed`, `Balanced`, `Throws`,
`Unthrown`, `Calm`.
Key theorems: `Ran.bracketed_iff`, `balanced_iff_calm`, `not_balanced`.
-/
import AgentFlow.Workflow.Boundary
import AgentFlow.Workflow.RunShape

namespace AgentFlow.Workflow

open Json
open SubAgentRuntime

/-! ### Brackets -/

/-- The start or the end of a span. -/
inductive Bracket (κ : Type)
  | opening (k : κ)
  | closing (k : κ)
  deriving DecidableEq, Repr

/-- Every span that starts ends, after all that started within it. -/
inductive WellNested {κ : Type} : List (Bracket κ) → Prop
  | nil : WellNested []
  | span (k : κ) {l l' : List (Bracket κ)} (h : WellNested l) (h' : WellNested l') :
      WellNested (.opening k :: (l ++ .closing k :: l'))

theorem WellNested.append {κ : Type} {l l' : List (Bracket κ)} (h : WellNested l) (h' : WellNested l') :
    WellNested (l ++ l') := by
  induction h with
  | nil => exact h'
  | span k h _ _ ih =>
    rw [List.cons_append, List.append_assoc, List.cons_append]
    exact .span k h ih

/-! ### The log of a run -/

/-- The start and the end of a span, by its identity and depth. -/
def bracket : (e : Effect) → Answer e → List (Bracket (String × ℕ))
  | .subAgentStart _ _ id _ depth _, _ => [.opening (id, depth)]
  | .subAgentEnd id depth _ _ _, _ => [.closing (id, depth)]
  | _, _ => []

/-- The starts and ends of all spans, in order. -/
def spanLog (l : Hist) : List (Bracket (String × ℕ)) := History.collect (S := effects) bracket l

theorem spanLog_append (l l' : Hist) : spanLog (l ++ l') = spanLog l ++ spanLog l' := History.collect_append ..

/-- One span is started and ended, and all calls are in it. -/
def Bracketed (depth : ℕ) (l : Hist) : Prop :=
  ∃ id n, outline l = .opening id depth :: (List.replicate n .nested ++ [.closing id depth])

/-- The run has its span, each call in it has its own, and they are well
nested in that of the run. -/
structure Balanced (c : RunArgs) (l : Hist) : Prop where
  own : Bracketed c.ctx.depth l
  nested : ∀ c' sub, Within l c' sub → Bracketed c'.ctx.depth sub
  log : ∃ id inner, spanLog l = .opening (id, c.ctx.depth) :: (inner ++ [.closing (id, c.ctx.depth)]) ∧ WellNested inner

/-- What shows only calls logs what they log. -/
theorem wellNested_of_outline : ∀ {l : Hist} {n : ℕ}, outline l = List.replicate n .nested →
    (∀ c sub r, .entered c sub r ∈ l → WellNested (spanLog sub)) → WellNested (spanLog l)
  | [], _, _, _ => by
    rw [spanLog, History.collect]
    exact .nil
  | .did e a :: l, n, ho, hin => by
    have hrest : outline l = List.replicate n .nested ∧ bracket e a = [] := by
      cases e <;> first
        | exact ⟨ho, rfl⟩
        | cases n <;> cases ho
    rw [spanLog, History.collect, Item.collect, hrest.2]
    exact wellNested_of_outline hrest.1 fun c sub r hm => hin c sub r (List.mem_cons_of_mem _ hm)
  | .entered c sub r :: l, n, ho, hin => by
    cases n with
    | zero => cases ho
    | succ n =>
      rw [spanLog, History.collect, Item.collect]
      exact (hin c sub r List.mem_cons_self).append (wellNested_of_outline (List.cons.inj ho).2
        fun c sub r hm => hin c sub r (List.mem_cons_of_mem _ hm))

/-- What shows nothing logs nothing. -/
theorem spanLog_of_unmarked : ∀ {l : Hist}, (∀ i ∈ l, mark? i = none) → spanLog l = []
  | [], _ => by rw [spanLog, History.collect]
  | .did e a :: l, h => by
    have hi : mark? (.did e a) = none := h _ List.mem_cons_self
    have hb : bracket e a = [] := by cases e <;> first | rfl | cases hi
    rw [spanLog, History.collect, Item.collect, hb]
    exact spanLog_of_unmarked fun i hm => h i (List.mem_cons_of_mem _ hm)
  | .entered c sub r :: l, h => by cases h _ List.mem_cons_self

/-- The log of an item that shows is the log of what it shows. -/
theorem spanLog_of_mark {i : Item effects} {id : String} {depth : ℕ} :
    (mark? i = some (.opening id depth) → spanLog [i] = [.opening (id, depth)]) ∧
      (mark? i = some (.closing id depth) → spanLog [i] = [.closing (id, depth)]) := by
  constructor
  · intro h
    cases i with
    | did e a =>
      rw [spanLog, History.collect, Item.collect, History.collect, List.append_nil]
      cases e <;> cases h
      rfl
    | entered c sub r => cases h
  · intro h
    cases i with
    | did e a =>
      rw [spanLog, History.collect, Item.collect, History.collect, List.append_nil]
      cases e <;> cases h
      rfl
    | entered c sub r => cases h

/-- The log of a run with one span: that span, with what the calls log in it. -/
theorem Bracketed.log {depth : ℕ} {l : Hist} (h : Bracketed depth l)
    (hin : ∀ c sub r, .entered c sub r ∈ l → WellNested (spanLog sub)) :
    ∃ id inner, spanLog l = .opening (id, depth) :: (inner ++ [.closing (id, depth)]) ∧ WellNested inner := by
  obtain ⟨id, n, ho⟩ := h
  obtain ⟨u, i, l', rfl, hu, hi, ho⟩ := List.filterMap_eq_cons_iff.mp ho
  obtain ⟨mid, l', rfl, hmid, ho⟩ := List.filterMap_eq_append_iff.mp ho
  obtain ⟨w, j, v, rfl, hw, hj, hv⟩ := List.filterMap_eq_cons_iff.mp ho
  refine ⟨id, spanLog mid, ?_, wellNested_of_outline hmid fun c sub r hm => hin c sub r (by simp [hm])⟩
  have hsplit : u ++ i :: (mid ++ (w ++ j :: v)) = u ++ ([i] ++ (mid ++ (w ++ ([j] ++ v)))) := rfl
  rw [hsplit, spanLog_append, spanLog_append, spanLog_append, spanLog_append, spanLog_append, spanLog_of_unmarked hu,
    spanLog_of_mark.1 hi, spanLog_of_unmarked hw, spanLog_of_mark.2 hj,
    spanLog_of_unmarked (List.filterMap_eq_nil_iff.mp hv)]
  rfl

theorem Bracketed.wellNested {depth : ℕ} {l : Hist} (h : Bracketed depth l)
    (hin : ∀ c sub r, .entered c sub r ∈ l → WellNested (spanLog sub)) : WellNested (spanLog l) := by
  obtain ⟨id, inner, hl, hi⟩ := h.log hin
  rw [hl]
  exact .span _ hi .nil

/-- Runs that have their spans, at each depth, log them well nested. -/
theorem wellNested_of_within (l : Hist) : (∀ c sub, Within l c sub → Bracketed c.ctx.depth sub) →
    ∀ c sub r, .entered c sub r ∈ l → WellNested (spanLog sub) := by
  refine Within.induction (P := fun l : Hist => (∀ c sub, Within l c sub → Bracketed c.ctx.depth sub) →
    ∀ c sub r, .entered c sub r ∈ l → WellNested (spanLog sub)) (fun l ih hin c sub r hm => ?_) l
  exact (hin c sub (.here hm)).wellNested
    (ih c sub r hm fun c' sub' hw => hin c' sub' (.deeper hm hw))

theorem Balanced.of_bracketed {c : RunArgs} {l : Hist} (h : Bracketed c.ctx.depth l)
    (hin : ∀ c' sub, Within l c' sub → Bracketed c'.ctx.depth sub) : Balanced c l where
  own := h
  nested := hin
  log := h.log (wellNested_of_within l hin)

/-! ### What breaks a span -/

/-- Something is thrown that `RunAsync` does not catch. -/
def Throws : Item effects → Prop
  | .did (.createConversation ..) (.error x) => ∀ what, x ≠ .agentflow what
  | .did (.send ..) (.error _) => True
  | .did (.decide ..) (.error x) => x.what? = none
  | .did (.invoke ..) (.error x) => x.what? = none
  | _ => False

/-- The tools of the call can be exported if it gets so far, and nothing is
thrown at it. -/
structure Unthrown (H : Host) (c : RunArgs) (l : Hist) : Prop where
  exports : ∀ id d child, l.head? = some (drawn id) → admission H.workflow c = .admitted d →
    H.workflow.findAgent c.child = some child →
    (child.systemPrompt = "" ∨ ∃ template, TemplateString.parse child.systemPrompt = .ok template) →
    ∃ tools, (toolView H c child (rootOf c id)).exportToolsJson H = .ok tools
  quiet : ∀ i ∈ l, ¬ Throws i

/-- The call is not one of an unknown agent either. -/
structure Calm (H : Host) (c : RunArgs) (l : Hist) : Prop extends Unthrown H c l where
  known : admission H.workflow c ≠ .unknownAgent

namespace SubAgentRuntime

variable {K : Contract effects} {H : Host} {c : RunArgs} {l : Hist} {r : Except Thrown Value}

theorem thrown_of_throws {i : Item effects} (hi : ToolItem K i) (h : Throws i) :
    ∃ x, thrown? i = some x ∧ x.what? = none := by
  cases i with
  | did e a =>
    cases e <;> first | exact absurd hi id | skip
    all_goals cases a <;> first | exact ⟨_, rfl, h⟩ | exact absurd h id
  | entered c sub r => exact absurd h id

theorem Polled.quiet {ctx : SubAgentContext} {l : Hist} {b : Bool} (h : Polled ctx l b) : ∀ i ∈ l, ¬ Throws i := by
  intro i hi ht
  have hi := h.polls i hi
  cases i with
  | did e a =>
    cases hi
    exact ht
  | entered c sub r => cases hi

namespace Turned

variable {ctx : SubAgentContext} {n : ℕ} {raw : String} {turned : Hist}

/-- Nothing was thrown at turns that return. -/
theorem quiet {q : Except ErrorKind String} (h : Turned K H ctx n raw turned (.ok q)) : ∀ i ∈ turned, ¬ Throws i := by
  generalize hq : (.ok q : Except Thrown (Except ErrorKind String)) = r at h
  induction h with
  | thrown | broken => cases hq
  | spent => simp
  | cancelled _ hl => exact hl.quiet
  | failed _ hl | answered _ hl =>
    intro i hi
    rcases List.mem_append.mp hi with hi | hi
    · exact hl.quiet i hi
    · rw [List.mem_singleton.mp hi]
      exact id
  | @again n _ l hl _ _ _ _ tools rest ht hr _ _ ih =>
    intro i hi
    rcases List.mem_append.mp hi with hi | hi
    · exact hl.quiet i hi
    rcases List.mem_cons.mp hi with rfl | hi
    · exact id
    rcases List.mem_append.mp hi with hi | hi
    · intro hthrows
      obtain ⟨x, hx, hw⟩ := thrown_of_throws (ht i hi) hthrows
      cases hr.goesOn i hi x hx hw
    · exact ih hq i hi

/-- What was thrown at the tool calls of turns that return was caught. -/
theorem caught {q : Except ErrorKind String} (h : Turned K H ctx n raw turned (.ok q)) :
    ∀ i ∈ turned, ∀ x, thrown? i = some x → x.what? ≠ none := by
  generalize hq : (.ok q : Except Thrown (Except ErrorKind String)) = r at h
  have hpolled : ∀ {l : Hist} {b : Bool}, Polled ctx l b → ∀ i ∈ l, ∀ x, thrown? i = some x → x.what? ≠ none := by
    intro l b hl i hi x hx
    rw [hl.polls.quiet i hi] at hx
    cases hx
  induction h with
  | thrown | broken => cases hq
  | spent => simp
  | cancelled _ hl => exact hpolled hl
  | failed _ hl | answered _ hl =>
    intro i hi x hx
    rcases List.mem_append.mp hi with hi | hi
    · exact hpolled hl i hi x hx
    · rw [List.mem_singleton.mp hi] at hx
      cases hx
  | again _ hl _ _ ht hr _ ih =>
    intro i hi x hx
    rcases List.mem_append.mp hi with hi | hi
    · exact hpolled hl i hi x hx
    rcases List.mem_cons.mp hi with rfl | hi
    · cases hx
    rcases List.mem_append.mp hi with hi | hi
    · intro hw
      cases hr.goesOn i hi x hx hw
    · exact ih hq i hi x hx

/-- Something was thrown at turns that throw. -/
theorem throws {x : Thrown} (h : Turned K H ctx n raw turned (.error x)) :
    ∃ i ∈ turned, Throws i ∨ ∃ c sub y, i = .entered c sub (some (.error y)) ∧ y.what? = none := by
  generalize hq : (.error x : Except Thrown (Except ErrorKind String)) = r at h
  induction h with
  | spent | cancelled | failed | answered => cases hq
  | thrown => exact ⟨_, List.mem_append_right _ (List.mem_singleton_self _), Or.inl trivial⟩
  | @broken _ _ _ _ _ _ _ _ tools ht y hy hr =>
    obtain ⟨i, hi, hiy⟩ := hr.thrown y rfl hy
    refine ⟨i, by simp [hi], ?_⟩
    cases i with
    | did e a =>
      left
      cases e <;> first | cases hiy | skip
      all_goals
        cases a with
        | ok _ => cases hiy
        | error z =>
          cases hiy
          exact hy
    | entered c sub r =>
      right
      match r with
      | none => cases hiy
      | some (.ok _) => cases hiy
      | some (.error z) =>
        cases hiy
        exact ⟨c, sub, y, rfl, hy⟩
  | again _ _ _ _ _ _ _ ih =>
    obtain ⟨i, hi, h⟩ := ih hq
    exact ⟨i, by simp [hi], h⟩

/-- The calls in some turns kept the contract. -/
theorem entered {q : Except Thrown (Except ErrorKind String)} (h : Turned K H ctx n raw turned q) {c : RunArgs}
    {sub : Hist} {r : Option (Except Thrown Value)} (hm : .entered c sub r ∈ turned) :
    ∃ r', r = some r' ∧ K.gives c sub r' := by
  rcases h.mem _ hm with hi | ⟨message, q, hi⟩ | hi
  · cases hi
  · cases hi
  · cases r with
    | none => exact absurd hi id
    | some r => exact ⟨r, rfl, hi.2⟩

end Turned

variable {d : DelegateSpec} {child : AgentDef} {id system : String} {clock rest : Hist}

theorem Prepared.outline (h : Prepared H c d child system clock) :
    outline (drawn id :: started c id :: clock ++ rest) = .opening id c.ctx.depth :: Workflow.outline rest := by
  have hclock : Workflow.outline clock = [] := by
    rcases h.prompt with ⟨-, -, rfl⟩ | ⟨_, _, -, -, -, rfl⟩
    · rfl
    · rfl
  have hstart : Workflow.outline (drawn id :: started c id :: clock) = .opening id c.ctx.depth :: Workflow.outline clock :=
    rfl
  rw [outline_append, hstart, hclock]
  rfl

/-- What is done before the tools are exported throws nothing and calls
nothing. -/
theorem Prepared.still (h : Prepared H c d child system clock) {i : Item effects}
    (hi : i ∈ drawn id :: started c id :: clock ++ rest) :
    (¬ Throws i ∧ ∀ c sub r, i ≠ .entered c sub r) ∨ i ∈ rest := by
  rcases h.mem hi with hi | hi
  · left
    rcases hi with rfl | rfl | ⟨time, rfl⟩ <;> exact ⟨fun h => h, fun _ _ _ h => by cases h⟩
  · exact Or.inr hi

theorem Prepared.known (h : Prepared H c d child system clock) : admission H.workflow c ≠ .unknownAgent := by
  rw [h.admitted]
  simp

/-- A span that is not ended. -/
theorem not_bracketed_of_open {depth n : ℕ} {l : Hist} (h : outline l = .opening id depth :: List.replicate n .nested) :
    ¬ Bracketed depth l := by
  rintro ⟨id', m, hm⟩
  rw [h] at hm
  have : Mark.closing id' depth ∈ List.replicate n Mark.nested := by
    rw [(List.cons.inj hm).2]
    simp
  cases (List.mem_replicate.mp this).2

/-- **When a run has its span**: it is not one of an unknown agent, and it
returns. -/
theorem Ran.bracketed_iff (h : Ran K H c l r) :
    Bracketed c.ctx.depth l ↔ admission H.workflow c ≠ .unknownAgent ∧ ∃ v, r = .ok v := by
  have hends : ∀ {id : String} {n : ℕ} {more : List Mark} {v : Value},
      outline l = .opening id c.ctx.depth :: (List.replicate n .nested ++ more) → more = [.closing id c.ctx.depth] →
      admission H.workflow c ≠ .unknownAgent → r = .ok v →
      (Bracketed c.ctx.depth l ↔ admission H.workflow c ≠ .unknownAgent ∧ ∃ v, r = .ok v) := by
    rintro id n more v ho rfl ha rfl
    exact ⟨fun _ => ⟨ha, v, rfl⟩, fun _ => ⟨id, n, ho⟩⟩
  have hopen : ∀ {id : String} {n : ℕ} {x : Thrown},
      outline l = .opening id c.ctx.depth :: List.replicate n .nested → r = .error x →
      (Bracketed c.ctx.depth l ↔ admission H.workflow c ≠ .unknownAgent ∧ ∃ v, r = .ok v) := by
    rintro id n x ho rfl
    exact ⟨fun hb => absurd hb (not_bracketed_of_open ho), fun ⟨_, v, hv⟩ => by cases hv⟩
  cases h with
  | unknownAgent id ha =>
    refine ⟨fun ⟨id', n, ho⟩ => ?_, fun ⟨hn, _⟩ => absurd ha hn⟩
    cases (List.cons.inj ho).1
  | maxDepthExceeded id ha => exact hends (n := 0) rfl rfl (by simp [ha]) rfl
  | badTemplate id ha => exact hends (n := 0) rfl rfl (by simp [ha]) rfl
  | unexported id hp => exact hopen (n := 0) (by rw [← List.append_nil (_ :: _), hp.outline]; rfl) rfl
  | unknownBackend id hp | noConversation id hp => exact hends (n := 0) hp.outline rfl hp.known rfl
  | uncreated id hp => exact hopen (n := 0) hp.outline rfl
  | thrown id hp ht hl =>
    obtain ⟨n, hn⟩ := hl.outline
    exact hopen (n := n) (by rw [hp.outline, ← hn]; rfl) rfl
  | failed id hp ht hl | extracted id hp ht hl | unextracted id hp ht hl =>
    obtain ⟨n, hn⟩ := hl.outline
    refine @hends id n _ _ ?_ rfl hp.known rfl
    rw [hp.outline, ← hn]
    exact congrArg (Mark.opening id c.ctx.depth :: ·) (outline_append _ _)

/-- The calls in a run are in its turns, which return if it does. -/
theorem Ran.entered_turned (h : Ran K H c l r) {c' : RunArgs} {sub : Hist} {r' : Option (Except Thrown Value)}
    (hm : .entered c' sub r' ∈ l) : ∃ turned q, Turned K H c.ctx kSubAgentMaxIter "" turned q ∧
      .entered c' sub r' ∈ turned ∧ ((∃ v, r = .ok v) → ∃ q', q = .ok q') := by
  cases h with
  | unknownAgent | maxDepthExceeded | badTemplate => simp [drawn, started, failedWith, ended] at hm
  | unexported id hp =>
    rw [← List.append_nil (_ :: _)] at hm
    rcases hp.still hm with ⟨-, hno⟩ | hm
    · exact absurd rfl (hno _ _ _)
    · cases hm
  | unknownBackend id hp | uncreated id hp | noConversation id hp =>
    rcases hp.still hm with ⟨-, hno⟩ | hm
    · exact absurd rfl (hno _ _ _)
    · simp [asking, failedWith, ended] at hm
  | thrown id hp ht hl =>
    rcases hp.still hm with ⟨-, hno⟩ | hm
    · exact absurd rfl (hno _ _ _)
    · exact ⟨_, _, hl, (List.mem_cons.mp hm).resolve_left nofun, fun ⟨v, hv⟩ => by cases hv⟩
  | failed id hp ht hl | extracted id hp ht hl | unextracted id hp ht hl =>
    rcases hp.still hm with ⟨-, hno⟩ | hm
    · exact absurd rfl (hno _ _ _)
    rcases List.mem_append.mp ((List.mem_cons.mp hm).resolve_left nofun) with hm | hm
    · exact ⟨_, _, hl, hm, fun _ => ⟨_, rfl⟩⟩
    · simp [failedWith, succeeded, ended] at hm

/-- The calls in a run kept the contract. -/
theorem Ran.entered (h : Ran K H c l r) {c' : RunArgs} {sub : Hist} {r' : Option (Except Thrown Value)}
    (hm : .entered c' sub r' ∈ l) : ∃ q, r' = some q ∧ K.gives c' sub q := by
  obtain ⟨turned, q, ht, hm, -⟩ := h.entered_turned hm
  exact ht.entered hm

/-- What the end of a run throws. -/
theorem not_throws_ended {success : Bool} {kind : String} {bytes : ℕ} : ¬ Throws (ended c id success kind bytes) :=
  fun h => h

/-- Nothing was thrown at a run that returns. -/
theorem Ran.quiet {v : Value} (h : Ran K H c l (.ok v)) : ∀ i ∈ l, ¬ Throws i := by
  intro i hi
  generalize hr : (.ok v : Except Thrown Value) = r at h
  cases h with
  | unexported | uncreated | thrown => cases hr
  | unknownAgent | maxDepthExceeded | badTemplate =>
    simp only [List.mem_cons, List.not_mem_nil, or_false] at hi
    rcases hi with rfl | rfl | rfl <;> exact fun h => h
  | unknownBackend id hp ht what =>
    rcases hp.still hi with ⟨hno, -⟩ | hi
    · exact hno
    rcases List.mem_cons.mp hi with rfl | hi
    · exact fun h => h what rfl
    · rw [List.mem_singleton.mp hi]
      exact not_throws_ended
  | noConversation id hp =>
    rcases hp.still hi with ⟨hno, -⟩ | hi
    · exact hno
    rcases List.mem_cons.mp hi with rfl | hi
    · exact fun h => h
    · rw [List.mem_singleton.mp hi]
      exact not_throws_ended
  | failed id hp ht hl | extracted id hp ht hl =>
    rcases hp.still hi with ⟨hno, -⟩ | hi
    · exact hno
    rcases List.mem_cons.mp hi with rfl | hi
    · exact fun h => h
    rcases List.mem_append.mp hi with hi | hi
    · exact hl.quiet i hi
    · rw [List.mem_singleton.mp hi]
      exact not_throws_ended
  | unextracted id hp ht hl =>
    rcases hp.still hi with ⟨hno, -⟩ | hi
    · exact hno
    rcases List.mem_cons.mp hi with rfl | hi
    · exact fun h => h
    rcases List.mem_append.mp hi with hi | hi
    · exact hl.quiet i hi
    rcases List.mem_cons.mp hi with rfl | hi
    · exact fun h => h
    · rw [List.mem_singleton.mp hi]
      exact not_throws_ended

/-- Nothing was thrown at a run that returns. -/
theorem Ran.unthrown {v : Value} (h : Ran K H c l (.ok v)) : Unthrown H c l := by
  refine ⟨fun id d child hid ha hc hs => ?_, h.quiet⟩
  have hexports : ∀ {id' d' child' system tools clock}, Prepared H c d' child' system clock →
      (toolView H c child' (rootOf c id')).exportToolsJson H = .ok tools → drawn id' = drawn id →
      ∃ tools, (toolView H c child (rootOf c id)).exportToolsJson H = .ok tools := by
    intro id' d' child' system tools clock hp ht hid
    cases hid
    cases hc.symm.trans hp.declared
    exact ⟨tools, ht⟩
  generalize hr : (.ok v : Except Thrown Value) = r at h
  cases h with
  | unexported | uncreated | thrown => cases hr
  | unknownAgent _ hno | maxDepthExceeded _ hno => cases hno.symm.trans ha
  | badTemplate _ hno hc' hp he =>
    cases hc.symm.trans hc'
    rcases hs with hs | ⟨template, hs⟩
    · exact absurd hs hp
    · cases he.symm.trans hs
  | unknownBackend id' hp ht | noConversation id' hp ht | failed id' hp ht | extracted id' hp ht
  | unextracted id' hp ht => exact hexports hp ht (Option.some.inj hid)

/-- A run at which nothing is thrown returns, if what the calls in it throw is
caught. -/
theorem Ran.returned (h : Ran K H c l r) (hu : Unthrown H c l)
    (hin : ∀ c' sub x, .entered c' sub (some (.error x)) ∈ l → x.what? ≠ none) : ∃ v, r = .ok v := by
  cases h with
  | unexported id hp hx =>
    obtain ⟨tools, ht⟩ := hu.exports id _ _ rfl hp.admitted hp.declared hp.parses
    cases hx.symm.trans ht
  | uncreated id hp ht hx =>
    have hno := hu.quiet _ (List.mem_append_right _ (List.mem_singleton_self _))
    exact absurd hx hno
  | thrown id hp ht hl =>
    obtain ⟨i, hi, hthrows | ⟨c', sub, y, rfl, hy⟩⟩ := hl.throws
    · exact absurd hthrows (hu.quiet i (by simp [hi]))
    · exact absurd hy (hin c' sub y (by simp [hi]))
  | _ => exact ⟨_, rfl⟩

end SubAgentRuntime

/-! ### The spans of all calls -/

/-- The run and all calls in it are calm. -/
def AllCalm (H : Host) (c : RunArgs) (l : Hist) : Prop :=
  Calm H c l ∧ ∀ c' sub, Within l c' sub → Calm H c' sub

/-- What a call gives: it has its spans if and only if it is calm, and it
returns then. -/
def GivesSpans (H : Host) (c : RunArgs) (l : Hist) (r : Except Thrown Value) : Prop :=
  (AllCalm H c l → Balanced c l ∧ ∃ v, r = .ok v) ∧ (Balanced c l → AllCalm H c l)

theorem AllCalm.of_entered {H : Host} {c c' : RunArgs} {l sub : Hist} {r : Option (Except Thrown Value)}
    (h : AllCalm H c l) (hm : .entered c' sub r ∈ l) : AllCalm H c' sub :=
  ⟨h.2 _ _ (.here hm), fun c'' sub' hw => h.2 c'' sub' (.deeper hm hw)⟩

theorem Balanced.of_entered {c c' : RunArgs} {l sub : Hist} {r : Option (Except Thrown Value)}
    (h : Balanced c l) (hm : .entered c' sub r ∈ l) : Balanced c' sub :=
  .of_bracketed (h.nested _ _ (.here hm)) fun c'' sub' hw => h.nested c'' sub' (.deeper hm hw)

theorem givesSpans_of_ran {H : Host} (c : RunArgs) (l : Hist) (r : Except Thrown Value)
    (h : Ran (freely (GivesSpans H)) H c l r) : GivesSpans H c l r := by
  constructor
  · intro hcalm
    have hin : ∀ c' sub q, .entered c' sub q ∈ l → Balanced c' sub ∧ ∃ v, q = some (.ok v) := by
      intro c' sub q hm
      obtain ⟨q, rfl, hg⟩ := h.entered hm
      obtain ⟨hb, v, rfl⟩ := hg.1 (hcalm.of_entered hm)
      exact ⟨hb, v, rfl⟩
    obtain ⟨v, rfl⟩ := h.returned hcalm.1.toUnthrown fun c' sub x hm => by
      obtain ⟨-, v, hv⟩ := hin c' sub _ hm
      cases hv
    refine ⟨.of_bracketed (h.bracketed_iff.mpr ⟨hcalm.1.known, v, rfl⟩) fun c' sub hw => ?_, v, rfl⟩
    cases hw with
    | here hm => exact (hin _ _ _ hm).1.own
    | deeper hm hw => exact (hin _ _ _ hm).1.nested _ _ hw
  · intro hb
    obtain ⟨hk, v, rfl⟩ := h.bracketed_iff.mp hb.own
    refine ⟨⟨h.unthrown, hk⟩, fun c' sub hw => ?_⟩
    cases hw with
    | here hm =>
      obtain ⟨q, rfl, hg⟩ := h.entered hm
      exact (hg.2 (hb.of_entered hm)).1
    | deeper hm hw =>
      obtain ⟨q, rfl, hg⟩ := h.entered hm
      exact (hg.2 (hb.of_entered hm)).2 _ _ hw

/-- **When the spans are balanced.** A call that returns has its span, and all
calls in it have theirs within it, if and only if it and all calls in it are
calm. -/
theorem balanced_iff_calm {H : Host} {c : RunArgs} {l : Hist} {v : Value}
    (h : Runs (runAsync H) (runAsync H c) l (some (.ok v))) : Balanced c l ↔ AllCalm H c l := by
  have hg := givesSpans_of_ran c l (.ok v) (ran_of_runs givesSpans_of_ran h)
  exact ⟨hg.2, fun hc => (hg.1 hc).1⟩

/-! ### Runs -/

/-- A planner that delegates to a writer, who delegates to an editor. -/
def studio : WorkflowSpec where
  agents := [("editor", {}), ("planner", { delegates := some { agents := ["writer"], maxDepth := 3 } }),
    ("writer", { delegates := some { agents := ["editor"], maxDepth := 3 } })]
  main := "planner"

def studioTexts : List (String × Value) :=
  [("schema", .obj [("type", .str "object"), ("properties", .obj [
      ("agent", .obj [("type", .str "string"), ("enum", .arr [.str "editor"])]),
      ("goal", .obj [("type", .str "string")])]), ("required", .arr [.str "agent", .str "goal"])]),
    ("write?", SubAgentRuntime.userMessage "write"),
    ("to the editor", .obj [("agent", .str "editor"), ("goal", .str "check")]),
    ("pass on", .obj [("tool_calls", .arr [.obj [("name", .str "delegate"), ("id", .str "call-1"),
      ("arguments", .str "to the editor")]])])]

def studioHost : Host where
  sorted := .ofTable [("schema", .obj [])]
  ordered := .ofTable studioTexts
  parseError := fun _ => "parse error"
  typeError := fun _ => "type error"
  registry := .empty
  workflow := studio

/-- The writer passes the text on to the editor first. -/
def studioAnswer (i : ℕ) : (e : Effect) → Option (Answer e)
  | .send message _ => some (.ok (.ok (if message = "write?" then "pass on" else "done")))
  | e => officeAnswer i e

/-- The planner calls the writer. -/
def studioCall : RunArgs := ⟨"planner", "writer", "write", {}⟩

def studioRun : Hist × ℕ × Outcome effects Value :=
  Coroutine.replay (runAsync studioHost) studioAnswer 40 0 (runAsync studioHost studioCall)

/-- A history has the calls that are its own, and those in them. -/
theorem within_cases {l : Hist} {c : RunArgs} {sub : Hist} (h : Within l c sub) :
    (c, sub) ∈ calls l ∨ ∃ c' sub', (c', sub') ∈ calls l ∧ Within sub' c sub := by
  cases h with
  | here hm => exact Or.inl (List.mem_filterMap.mpr ⟨_, hm, rfl⟩)
  | deeper hm hw => exact Or.inr ⟨_, _, List.mem_filterMap.mpr ⟨_, hm, rfl⟩, hw⟩

theorem not_within_of_calls {l : Hist} (h : calls l = []) {c : RunArgs} {sub : Hist} : ¬ Within l c sub := by
  intro hw
  rcases within_cases hw with hm | ⟨c', sub', hm, -⟩
  · rw [h] at hm
    cases hm
  · rw [h] at hm
    cases hm

theorem balanced_iff_calm_studio : ∃ l v, Runs (runAsync studioHost) (runAsync studioHost studioCall) l (some (.ok v)) ∧
    (calls l).length = 1 ∧ Balanced studioCall l ∧ AllCalm studioHost studioCall l := by
  have hr : Runs (runAsync studioHost) (runAsync studioHost studioCall) studioRun.1 studioRun.2.2 :=
    Coroutine.runs_replay (runAsync studioHost) studioAnswer 40 0 (runAsync studioHost studioCall)
  have ho : studioRun.2.2 = some (.ok (.str "done")) := by decide
  have hown : outline studioRun.1 = [.opening "id" 0, .nested, .closing "id" 0] := by decide
  have hone : (calls studioRun.1).length = 1 := by decide
  have hnested : (calls studioRun.1).all (fun p => decide (outline p.2 =
      [.opening "id" p.1.ctx.depth, .closing "id" p.1.ctx.depth]) && (calls p.2).isEmpty) = true := by decide
  simp only [List.all_eq_true, Bool.and_eq_true, decide_eq_true_eq, List.isEmpty_iff] at hnested
  rw [ho] at hr
  have hb : Balanced studioCall studioRun.1 := by
    refine .of_bracketed ⟨"id", 1, hown⟩ fun c sub hw => ?_
    rcases within_cases hw with hm | ⟨c', sub', hm, hw⟩
    · exact ⟨"id", 0, (hnested _ hm).1⟩
    · exact absurd hw (not_within_of_calls (hnested _ hm).2)
  exact ⟨_, _, hr, hone, hb, (balanced_iff_calm hr).mp hb⟩

/-- The planner asks for an agent that is not in its roster: the span ends and
has not started. -/
theorem not_balanced : ∃ l v, Runs (runAsync studioHost) (runAsync studioHost ⟨"planner", "editor", "check", {}⟩) l
    (some (.ok v)) ∧ ¬ Balanced ⟨"planner", "editor", "check", {}⟩ l := by
  have hr := Coroutine.runs_replay (runAsync studioHost) studioAnswer 40 0
    (runAsync studioHost ⟨"planner", "editor", "check", {}⟩)
  have ho : (Coroutine.replay (runAsync studioHost) studioAnswer 40 0
      (runAsync studioHost ⟨"planner", "editor", "check", {}⟩)).2.2 =
      some (.ok (errorValue .unknownAgent [])) := by decide
  have hown : outline (Coroutine.replay (runAsync studioHost) studioAnswer 40 0
      (runAsync studioHost ⟨"planner", "editor", "check", {}⟩)).1 = [.closing "id" 0] := by decide
  rw [ho] at hr
  refine ⟨_, _, hr, fun hb => ?_⟩
  obtain ⟨id, n, hn⟩ := hb.own
  rw [hown] at hn
  cases (List.cons.inj hn).1

end AgentFlow.Workflow
