/-
# What a tool call of a view does

The rules for the coroutines of tool calls, for any contract: a tool call does
nothing but emit its events, poll the token, ask the gate, invoke its tool and
call `RunAsync` (`ToolItems`). A gated tool is invoked only as its tier and
the gate grant it (`GatedTool.Grants`). What is thrown at a tool call and is no
standard exception goes on, and nothing else does (`Raises`).

Key definitions: `ToolItems`, `GatedTool.Grants`, `Raises`, `responses`,
`outline`.
Key theorems: `GatedTool.wp_invoke`, `InvocationToolView.wp_invoke`,
`SubAgentRuntime.wp_callTools`.
-/
import AgentFlow.Workflow.SubAgentRuntime

namespace AgentFlow.Workflow

open Json
open Coroutine (wp wp_bind wp_mono wp_attempt afterwards)

/-- The effects of a tool call that change nothing. -/
def Asks : Deed effects → Prop
  | .effect (.toolEvent ..) => True
  | .effect .isCancelled => True
  | .effect (.decide ..) => True
  | _ => False

/-- What a gated tool may do. -/
def GatedDeed : Deed effects → Prop
  | .effect (.toolEvent ..) => True
  | .effect .isCancelled => True
  | .effect (.decide ..) => True
  | .effect (.invoke ..) => True
  | _ => False

def GatedItems (l : Hist) : Prop := ∀ i ∈ l, GatedDeed i.deed

/-- Nothing was done but to poll the token. -/
def Polls (l : Hist) : Prop := ∀ i ∈ l, i.deed = .effect .isCancelled

theorem gatedItems_nil : GatedItems [] := by simp [GatedItems]

theorem gatedItems_singleton {i : Item effects} (h : GatedDeed i.deed) : GatedItems [i] := by
  simpa [GatedItems] using h

theorem GatedItems.append {l₁ l₂ : Hist} (h₁ : GatedItems l₁) (h₂ : GatedItems l₂) : GatedItems (l₁ ++ l₂) := by
  intro i hi
  rcases List.mem_append.mp hi with hi | hi
  · exact h₁ i hi
  · exact h₂ i hi

theorem Polls.gatedItems {l : Hist} (h : Polls l) : GatedItems l := by
  intro i hi
  rw [h i hi]
  trivial

/-- What was thrown at a tool call. -/
def thrown? : Item effects → Option Thrown
  | .did (.decide ..) (.error x) => some x
  | .did (.invoke ..) (.error x) => some x
  | .entered _ _ (some (.error x)) => some x
  | _ => none

/-- Nothing was thrown. -/
def Quiet (l : Hist) : Prop := ∀ i ∈ l, thrown? i = none

/-- An exception that is no standard one goes on, and no other such is thrown. -/
structure Raises {α : Type} (l : Hist) (r : Except Thrown α) : Prop where
  goesOn : ∀ i ∈ l, ∀ x, thrown? i = some x → x.what? = none → r = .error x
  thrown : ∀ x, r = .error x → x.what? = none → ∃ i ∈ l, thrown? i = some x

section

variable {α β : Type} {l l₁ l₂ : Hist}

theorem quiet_nil : Quiet [] := by simp [Quiet]

theorem Quiet.append (h₁ : Quiet l₁) (h₂ : Quiet l₂) : Quiet (l₁ ++ l₂) := by
  intro i hi
  rcases List.mem_append.mp hi with hi | hi
  · exact h₁ i hi
  · exact h₂ i hi

theorem Polls.quiet (h : Polls l) : Quiet l := by
  intro i hi
  have hi := h i hi
  cases i with
  | did e a =>
    cases hi
    rfl
  | entered c sub r => cases hi

theorem Quiet.raises (h : Quiet l) (a : α) : Raises l (.ok a) where
  goesOn i hi x hx _ := by rw [h i hi] at hx; cases hx
  thrown x hx _ := by cases hx

/-- Only the last thing was thrown. -/
theorem Quiet.raises_snoc (h : Quiet l) {i : Item effects} {x : Thrown} (hi : thrown? i = some x) :
    Raises (l ++ [i]) (.error x : Except Thrown α) where
  goesOn j hj y hy _ := by
    rcases List.mem_append.mp hj with hj | hj
    · rw [h j hj] at hy
      cases hy
    · rw [List.mem_singleton.mp hj, hi] at hy
      rw [Option.some.inj hy]
  thrown y hy _ := by
    cases hy
    exact ⟨i, by simp, hi⟩

theorem Raises.append_quiet {r : Except Thrown α} (h : Raises l₁ r) (h₂ : Quiet l₂) : Raises (l₁ ++ l₂) r where
  goesOn i hi x hx hw := by
    rcases List.mem_append.mp hi with hi | hi
    · exact h.goesOn i hi x hx hw
    · rw [h₂ i hi] at hx
      cases hx
  thrown x hx hw := by
    obtain ⟨i, hi, hix⟩ := h.thrown x hx hw
    exact ⟨i, List.mem_append_left _ hi, hix⟩

/-- What was done before goes on with what is done after. -/
theorem Raises.append {a : α} {r : Except Thrown β} (h₁ : Raises l₁ (.ok a : Except Thrown α)) (h₂ : Raises l₂ r) :
    Raises (l₁ ++ l₂) r where
  goesOn i hi x hx hw := by
    rcases List.mem_append.mp hi with hi | hi
    · cases h₁.goesOn i hi x hx hw
    · exact h₂.goesOn i hi x hx hw
  thrown x hx hw := by
    obtain ⟨i, hi, hix⟩ := h₂.thrown x hx hw
    exact ⟨i, List.mem_append_right _ hi, hix⟩

theorem Raises.ok {a : α} (h : Raises l (.ok a : Except Thrown α)) (b : β) : Raises l (.ok b) where
  goesOn i hi x hx hw := by cases h.goesOn i hi x hx hw
  thrown x hx _ := by cases hx

/-- An exception is the same for all results. -/
theorem Raises.error {x : Thrown} (h : Raises l (.error x : Except Thrown α)) : Raises l (.error x : Except Thrown β) where
  goesOn i hi y hy hw := by
    cases h.goesOn i hi y hy hw
    rfl
  thrown y hy hw := by
    cases hy
    exact h.thrown x rfl hw

end

section

variable {K : Contract effects} {A : Hist → Deed effects → Prop} {h : Hist} {α : Type}
  {Q : Hist → Except Thrown α → Prop}

/-- Polling a token is one item, or none for the token that never fires. -/
theorem CancelToken.wp_isCancelled {cancel : CancelToken} {f : Bool → Co α} (hA : A h (.effect .isCancelled))
    (hf : ∀ l b, Polls l → (f b).wp K A Q (h ++ l)) : (cancel.isCancelled >>= f).wp K A Q h := by
  cases cancel with
  | run =>
    refine ⟨hA, fun b => hf _ b ?_⟩
    simp [Polls, Item.deed]
  | unfired =>
    have hf := hf [] false (by simp [Polls])
    rwa [List.append_nil] at hf

/-- An event is one item, or none without a callback. -/
theorem GatedTool.wp_event {g : GatedTool} {callId : String} {phase : Phase} {f : Unit → Co α}
    (hA : ∀ e, Asks (.effect e) → A h (.effect e)) (hf : ∀ l, GatedItems l → Quiet l → (f ()).wp K A Q (h ++ l)) :
    (g.event callId phase >>= f).wp K A Q h := by
  rw [event]
  by_cases hevent : g.context.event = true
  · rw [if_pos hevent]
    exact ⟨hA _ trivial, fun u => hf _ (gatedItems_singleton trivial) (by simp [Quiet, thrown?])⟩
  · rw [if_neg hevent]
    have hf := hf [] gatedItems_nil quiet_nil
    rwa [List.append_nil] at hf

end

namespace GatedTool

/-- What the tier and the gate grant after `l`: the arguments as they were
submitted, or those that the gate has just approved for this call. -/
def Grants (g : GatedTool) (args callId args' : String) (l : Hist) : Prop :=
  g.tier ≠ .blocked ∧
    if g.tier = .confirm ∧ g.gate = true then
      ∃ u decision polls, l = u ++ .did (.decide g.inner.schema.name args (g.rooted callId) callId)
          (.ok decision : Except Thrown ToolGateDecision) :: polls ∧
        Polls polls ∧ decision.approved = true ∧ args' = approvedArgs decision args
    else args' = args

variable {K : Contract effects} {A : Hist → Deed effects → Prop} {h : Hist} {g : GatedTool}
  {args callId : String} {cancel : CancelToken} {Q : Hist → Except Thrown String → Prop}

theorem wp_return {result : String} {phase : Phase} (hA : ∀ l a, GatedItems l → Asks a → A (h ++ l) a)
    (hQ : ∀ l r, GatedItems l → Raises l r → Q (h ++ l) r) {l : Hist} (hl : GatedItems l) (hq : Quiet l) :
    (g.event callId phase >>= fun _ => (return result : Co String)).wp K A Q (h ++ l) :=
  wp_event (fun e he => hA l _ hl he) fun l' hl' hq' => by
    rw [List.append_assoc]
    exact hQ _ _ (hl.append hl') ((hq.append hq').raises _)

theorem wp_throw {x : Thrown} {phase : Phase} (hA : ∀ l a, GatedItems l → Asks a → A (h ++ l) a)
    (hQ : ∀ l r, GatedItems l → Raises l r → Q (h ++ l) r) {l : Hist} (hl : GatedItems l)
    (hr : Raises l (.error x : Except Thrown String)) :
    (g.event callId phase >>= fun _ => (Coroutine.fail x : Co String)).wp K A Q (h ++ l) :=
  wp_event (fun e he => hA l _ hl he) fun l' hl' hq' => by
    rw [List.append_assoc]
    exact hQ _ _ (hl.append hl') (hr.append_quiet hq')

theorem wp_invokeInner {args' : String} {l : Hist} (hA : ∀ l a, GatedItems l → Asks a → A (h ++ l) a)
    (hQ : ∀ l r, GatedItems l → Raises l r → Q (h ++ l) r) (hl : GatedItems l) (hq : Quiet l)
    (hi : A (h ++ l) (.effect (.invoke g.inner args' callId))) :
    (g.invokeInner args' callId).wp K A Q (h ++ l) := by
  refine ⟨hi, fun r => ?_⟩
  have hl' : GatedItems (l ++ [.did (.invoke g.inner args' callId) r]) := hl.append (gatedItems_singleton trivial)
  rw [List.append_assoc]
  cases r with
  | ok result => exact wp_return hA hQ hl' (hq.append (by simp [Quiet, thrown?]))
  | error x => exact wp_throw hA hQ hl' (hq.raises_snoc rfl)

theorem wp_confirm {l : Hist} (hA : ∀ l a, GatedItems l → Asks a → A (h ++ l) a)
    (hQ : ∀ l r, GatedItems l → Raises l r → Q (h ++ l) r) (hl : GatedItems l) (hq : Quiet l)
    (htier : g.tier = .confirm) (hgate : g.gate = true)
    (hi : ∀ l args', GatedItems l → g.Grants args callId args' l →
      A (h ++ l) (.effect (.invoke g.inner args' callId))) :
    (g.confirm args callId cancel).wp K A Q (h ++ l) := by
  refine ⟨hA l _ hl trivial, fun r => ?_⟩
  have hr : GatedItems (l ++ [.did (.decide g.inner.schema.name args (g.rooted callId) callId) r]) :=
    hl.append (gatedItems_singleton trivial)
  rw [List.append_assoc]
  cases r with
  | error x => exact wp_throw hA hQ hr (hq.raises_snoc rfl)
  | ok decision =>
    refine CancelToken.wp_isCancelled (hA _ _ hr trivial) fun polls b hp => ?_
    have hl' := hr.append hp.gatedItems
    have hdecide : Quiet [.did (.decide g.inner.schema.name args (g.rooted callId) callId)
        (.ok decision : Except Thrown ToolGateDecision)] := by simp [Quiet, thrown?]
    have hq' := (hq.append hdecide).append hp.quiet
    rw [List.append_assoc]
    cases b with
    | true => exact wp_return hA hQ hl' hq'
    | false =>
      cases happroved : decision.approved with
      | false => simpa [happroved] using wp_return hA hQ hl' hq'
      | true =>
        simp only [Bool.false_eq_true, if_false, if_true]
        refine wp_invokeInner hA hQ hl' hq' (hi _ _ hl' ⟨by simp [htier], ?_⟩)
        rw [if_pos ⟨htier, hgate⟩]
        exact ⟨l, decision, polls, by simp, hp, happroved, rfl⟩

/-- **A gated tool** asks, and invokes its tool as it is granted. -/
theorem wp_invoke (hA : ∀ l a, GatedItems l → Asks a → A (h ++ l) a)
    (hi : ∀ l args', GatedItems l → g.Grants args callId args' l →
      A (h ++ l) (.effect (.invoke g.inner args' callId)))
    (hQ : ∀ l r, GatedItems l → Raises l r → Q (h ++ l) r) : (g.invoke args callId cancel).wp K A Q h := by
  refine wp_event (fun e he => by simpa using hA [] _ gatedItems_nil he) fun l hl hq => ?_
  by_cases hblocked : g.tier = .blocked
  · rw [if_pos hblocked]
    exact wp_return hA hQ hl hq
  · rw [if_neg hblocked]
    refine CancelToken.wp_isCancelled (hA l _ hl trivial) fun polls b hp => ?_
    have hl' := hl.append hp.gatedItems
    have hq' := hq.append hp.quiet
    rw [List.append_assoc]
    cases b with
    | true => exact wp_return hA hQ hl' hq'
    | false =>
      simp only [Bool.false_eq_true, if_false]
      split_ifs with hconfirm
      · exact wp_confirm hA hQ hl' hq' hconfirm.1 hconfirm.2 hi
      · exact wp_invokeInner hA hQ hl' hq' (hi _ _ hl' ⟨hblocked, by rw [if_neg hconfirm]⟩)

end GatedTool

/-! ### A call of a view -/

/-- What a tool call did: what a gated tool may do, and calls of `RunAsync`
that kept the contract. -/
def ToolItem (K : Contract effects) : Item effects → Prop
  | .did e _ => GatedDeed (.effect e)
  | .entered c sub (some r) => K.calls c ∧ K.gives c sub r
  | .entered _ _ none => False

def ToolItems (K : Contract effects) (l : Hist) : Prop := ∀ i ∈ l, ToolItem K i

section

variable {K : Contract effects} {A : Hist → Deed effects → Prop} {h : Hist} {α : Type}

theorem toolItems_nil : ToolItems K [] := by simp [ToolItems]

theorem ToolItems.append {l₁ l₂ : Hist} (h₁ : ToolItems K l₁) (h₂ : ToolItems K l₂) : ToolItems K (l₁ ++ l₂) := by
  intro i hi
  rcases List.mem_append.mp hi with hi | hi
  · exact h₁ i hi
  · exact h₂ i hi

theorem GatedItems.toolItems {l : Hist} (hl : GatedItems l) : ToolItems K l := by
  intro i hi
  have hi' := hl i hi
  cases i with
  | did e a => exact hi'
  | entered c sub r => exact absurd hi' id

/-- The rule for a call of `RunAsync` whose exceptions go on. -/
theorem wp_callRunAsync {c : RunArgs} {f : Value → α} {Q : Hist → Except Thrown α → Prop} (hA : A h (.call c))
    (hc : K.calls c) (hQ : ∀ l r, ToolItems K l → Raises l r → Q (h ++ l) r) :
    (callRunAsync c >>= fun v => (return f v : Co α)).wp K A Q h := by
  refine ⟨hA, hc, fun sub r hg => ?_⟩
  have hl : ToolItems K [.entered c sub (some r)] := by simpa [ToolItems, ToolItem] using ⟨hc, hg⟩
  cases r with
  | ok v =>
    have hq : Quiet [.entered c sub (some (.ok v))] := by simp [Quiet, thrown?]
    exact hQ _ _ hl (hq.raises _)
  | error x => exact hQ _ _ hl (quiet_nil.raises_snoc rfl)

variable {H : Host} {args callId name : String} {cancel : CancelToken} {Q : Hist → Except Thrown String → Prop}

theorem NestedDelegate.wp_invoke {d : NestedDelegate}
    (hc : ∀ agent goal, A h (.call ⟨d.parent, agent, goal, { d.ctx with parentCancel := some cancel }⟩) ∧
      K.calls ⟨d.parent, agent, goal, { d.ctx with parentCancel := some cancel }⟩)
    (hQ : ∀ l r, ToolItems K l → Raises l r → Q (h ++ l) r) : (d.invoke H args cancel).wp K A Q h := by
  have hbad : Q h (.ok badArgs) := by
    have := hQ [] (.ok badArgs) toolItems_nil (quiet_nil.raises _)
    rwa [List.append_nil] at this
  unfold NestedDelegate.invoke
  cases H.ordered.parse args with
  | none => exact hbad
  | some v =>
    cases hagent : v.stringAt? "agent" with
    | none => simpa [hagent] using hbad
    | some agent =>
      cases hgoal : v.stringAt? "goal" with
      | none => simpa [hagent, hgoal] using hbad
      | some goal =>
        simp only [hagent, hgoal]
        exact wp_callRunAsync (hc agent goal).1 (hc agent goal).2 hQ

/-- **A call of a view** is one of its gated tool or of its `delegate` tool of
that name, or does nothing. -/
theorem InvocationToolView.wp_invoke {view : InvocationToolView} (hA : ∀ l a, ToolItems K l → Asks a → A (h ++ l) a)
    (hg : ∀ g, view.tools.lookup name = some (.gated g) → ∀ l args', GatedItems l → g.Grants args callId args' l →
      A (h ++ l) (.effect (.invoke g.inner args' callId)))
    (hd : ∀ d, view.tools.lookup name = some (.delegate d) → ∀ agent goal,
      A h (.call ⟨d.parent, agent, goal, { d.ctx with parentCancel := some cancel }⟩) ∧
        K.calls ⟨d.parent, agent, goal, { d.ctx with parentCancel := some cancel }⟩)
    (hQ : ∀ l r, ToolItems K l → Raises l r → Q (h ++ l) r) : (view.invoke H name args callId cancel).wp K A Q h := by
  unfold InvocationToolView.invoke
  cases hl : view.tools.lookup name with
  | none =>
    have := hQ [] (.ok toolNotAllowed) toolItems_nil (quiet_nil.raises _)
    rwa [List.append_nil] at this
  | some tool =>
    cases tool with
    | gated g =>
      exact GatedTool.wp_invoke (fun l a hl => hA l a hl.toolItems) (hg g hl)
        fun l r hl hr => hQ l r hl.toolItems hr
    | delegate d => exact NestedDelegate.wp_invoke (hd d hl) hQ

/-- Nothing is thrown but what is no standard exception. -/
def Escapes {α : Type} (r : Except Thrown α) : Prop := ∀ x, r = .error x → x.what? = none

theorem escapes_ok {α : Type} (a : α) : Escapes (.ok a) := by simp [Escapes]

/-- The rule for a tool call whose standard exceptions become its result. -/
theorem wp_toolResult {p : Co String}
    (hp : p.wp K A (fun h' r => ∃ l, h' = h ++ l ∧ ToolItems K l ∧ Raises l r) h)
    (hQ : ∀ l r, ToolItems K l → Raises l r → Escapes r → Q (h ++ l) r) : (toolResult p).wp K A Q h := by
  rw [toolResult, wp_bind, wp_attempt]
  refine wp_mono ?_ hp
  rintro h' r ⟨l, rfl, hl, hr⟩
  cases r with
  | ok result => exact hQ l _ hl hr (escapes_ok _)
  | error x =>
    simp only [afterwards]
    cases hx : x.what? with
    | none => exact hQ l _ hl hr.error (by rintro _ ⟨⟩; exact hx)
    | some what =>
      -- a standard exception was the last to be thrown
      have hraises : Raises l (.ok ("Tool error: " ++ what) : Except Thrown String) := by
        refine ⟨fun i hi y hy hw => ?_, fun y hy => by cases hy⟩
        cases hr.goesOn i hi y hy hw
        rw [hx] at hw
        cases hw
      exact hQ l _ hl hraises (escapes_ok _)

/-- **The calls of a response**, one after the other. -/
theorem SubAgentRuntime.wp_callTools {view : InvocationToolView} (hA : ∀ l a, ToolItems K l → Asks a → A (h ++ l) a)
    (hd : ∀ name d, view.tools.lookup name = some (.delegate d) → ∀ l agent goal, ToolItems K l →
      A (h ++ l) (.call ⟨d.parent, agent, goal, { d.ctx with parentCancel := some cancel }⟩) ∧
        K.calls ⟨d.parent, agent, goal, { d.ctx with parentCancel := some cancel }⟩) :
    ∀ (calls : List Call) {Q : Hist → Except Thrown (List (Call × String)) → Prop} {l₀ : Hist}, ToolItems K l₀ →
      (∀ call ∈ calls, ∀ g, view.tools.lookup call.name = some (.gated g) → ∀ l l' args', ToolItems K l →
        GatedItems l' → g.Grants call.args call.callId args' l' →
        A (h ++ l ++ l') (.effect (.invoke g.inner args' call.callId))) →
      (∀ l r, ToolItems K l → Raises l r → Escapes r → Q (h ++ l₀ ++ l) r) →
      (callTools H view cancel calls).wp K A Q (h ++ l₀)
  | [], Q, l₀, hl₀, hg, hQ => by
    have := hQ [] (.ok []) toolItems_nil (quiet_nil.raises _) (escapes_ok _)
    rwa [List.append_nil] at this
  | call :: calls, Q, l₀, hl₀, hg, hQ => by
    rw [callTools, wp_bind]
    refine wp_toolResult ?_ fun l r hl hr hx => ?_
    · refine InvocationToolView.wp_invoke (fun l a hl ha => ?_) (fun g hgl l args' hl hgr => ?_)
        (fun d hdl agent goal => hd call.name d hdl l₀ agent goal hl₀) fun l r hl hr => ⟨l, rfl, hl, hr⟩
      · rw [List.append_assoc]
        exact hA _ a (hl₀.append hl) ha
      · exact hg call List.mem_cons_self g hgl l₀ l args' hl₀ hl hgr
    · cases r with
      | error x =>
        refine hQ l _ hl hr.error ?_
        rintro _ ⟨⟩
        exact hx x rfl
      | ok result =>
        simp only [afterwards]
        rw [wp_bind, List.append_assoc]
        refine wp_callTools hA hd calls (hl₀.append hl)
          (fun call' hc => hg call' (List.mem_cons_of_mem _ hc)) fun l' r' hl' hr' hx' => ?_
        rw [← List.append_assoc, List.append_assoc (h ++ l₀)]
        cases r' with
        | error x =>
          refine hQ _ _ (hl.append hl') (hr.append hr').error ?_
          rintro _ ⟨⟩
          exact hx' x rfl
        | ok results =>
          exact hQ _ _ (hl.append hl') (hr.append (hr'.ok ((call, result) :: results))) (escapes_ok _)

end

/-! ### Responses -/

/-- The response, if the item is one. -/
def response? : Item effects → Option String
  | .did (.send _ _) (.ok (.ok response)) => some response
  | _ => none

/-- The responses of the model. -/
def responses (h : Hist) : List String := h.filterMap response?

theorem responses_append (h l : Hist) : responses (h ++ l) = responses h ++ responses l := List.filterMap_append

theorem response?_of_gated {i : Item effects} (h : GatedDeed i.deed) : response? i = none := by
  cases i with
  | did e a => cases e <;> first | rfl | exact absurd h id
  | entered c sub r => rfl

theorem GatedItems.responses {l : Hist} (hl : GatedItems l) : responses l = [] :=
  List.filterMap_eq_nil_iff.mpr fun i hi => response?_of_gated (hl i hi)

theorem ToolItems.responses {K : Contract effects} {l : Hist} (hl : ToolItems K l) : responses l = [] := by
  refine List.filterMap_eq_nil_iff.mpr fun i hi => ?_
  have hi' := hl i hi
  cases i with
  | did e a => exact response?_of_gated hi'
  | entered c sub r => rfl

/-! ### Spans -/

/-- The start of a span, the end of one, or a call in between. -/
inductive Mark
  | opening (id : String) (depth : ℕ)
  | closing (id : String) (depth : ℕ)
  | nested
  deriving DecidableEq, Repr

def mark? : Item effects → Option Mark
  | .did (.subAgentStart _ _ id _ depth _) _ => some (.opening id depth)
  | .did (.subAgentEnd id depth _ _ _) _ => some (.closing id depth)
  | .entered .. => some .nested
  | _ => none

/-- The spans that a run itself starts and ends, and the calls in it. -/
def outline (h : Hist) : List Mark := h.filterMap mark?

theorem outline_append (h l : Hist) : outline (h ++ l) = outline h ++ outline l := List.filterMap_append

theorem Polls.responses {l : Hist} (hl : Polls l) : responses l = [] := hl.gatedItems.responses

/-- Only calls show. -/
theorem ToolItems.outline {K : Contract effects} {l : Hist} (hl : ToolItems K l) :
    ∃ n, outline l = List.replicate n .nested := by
  refine ⟨(Workflow.outline l).length, List.eq_replicate_iff.mpr ⟨rfl, fun m hm => ?_⟩⟩
  obtain ⟨i, hi, him⟩ := List.mem_filterMap.mp hm
  have hi := hl i hi
  cases i with
  | did e a => cases e <;> first | exact absurd hi id | cases him
  | entered c sub r => exact (Option.some.inj him).symm

/-! ### A turn -/

namespace SubAgentRuntime

/-- The token of the run is polled once, and another is not. -/
def Polled (ctx : SubAgentContext) (l : Hist) (b : Bool) : Prop :=
  (ctx.parentCancel = some .run ∧ l = [.did .isCancelled b]) ∨ (ctx.parentCancel ≠ some .run ∧ l = [] ∧ b = false)

theorem Polled.polls {ctx : SubAgentContext} {l : Hist} {b : Bool} (h : Polled ctx l b) : Polls l := by
  rcases h with ⟨-, rfl⟩ | ⟨-, rfl, -⟩
  · simp [Polls, Item.deed]
  · simp [Polls]

variable {K : Contract effects} {A : Hist → Deed effects → Prop} {h : Hist} {α : Type}

theorem wp_cancelled {ctx : SubAgentContext} {f : Bool → Co α} {Q : Hist → Except Thrown α → Prop}
    (hA : A h (.effect .isCancelled)) (hf : ∀ l b, Polled ctx l b → (f b).wp K A Q (h ++ l)) :
    (cancelled ctx >>= f).wp K A Q h := by
  have hnone : ctx.parentCancel ≠ some .run → (f false).wp K A Q h := by
    intro hctx
    have hf := hf [] false (Or.inr ⟨hctx, rfl, rfl⟩)
    rwa [List.append_nil] at hf
  unfold cancelled
  match hctx : ctx.parentCancel with
  | none => exact hnone (by simp [hctx])
  | some .unfired => exact hnone (by simp [hctx])
  | some .run => exact ⟨hA, fun b => hf _ b (Or.inl ⟨hctx, rfl⟩)⟩

/-- **The rule of a turn.** -/
theorem wp_turns_succ {H : Host} {view : InvocationToolView} {ctx : SubAgentContext} {n : ℕ} {message raw : String}
    {Q : Hist → Except Thrown (Except ErrorKind String) → Prop} (hpoll : A h (.effect .isCancelled))
    (hcancelled : ∀ l, Polled ctx l true → Q (h ++ l) (.ok (.error .cancelled)))
    (hsend : ∀ l, Polled ctx l false → A (h ++ l) (.effect (.send message ctx.tokenChannel)))
    (hthrown : ∀ l x, Polled ctx l false → Q (h ++ l ++ [.did (.send message ctx.tokenChannel) (.error x)]) (.error x))
    (hfailed : ∀ l e, Polled ctx l false →
      Q (h ++ l ++ [.did (.send message ctx.tokenChannel) (.ok (.error e))]) (.ok (.error .engineError)))
    (hanswer : ∀ l response, Polled ctx l false → asked H.ordered response = none →
      Q (h ++ l ++ [.did (.send message ctx.tokenChannel) (.ok (.ok response))]) (.ok (.ok response)))
    (htools : ∀ l response calls, Polled ctx l false → asked H.ordered response = some calls →
      (callTools H view (cancelRef ctx) calls >>= fun results =>
        turns H view ctx n (H.sorted.dump (toolMessage results).sort) response).wp K A Q
        (h ++ l ++ [.did (.send message ctx.tokenChannel) (.ok (.ok response))])) :
    (turns H view ctx (n + 1) message raw).wp K A Q h := by
  unfold turns
  refine wp_cancelled hpoll fun l b hl => ?_
  cases b with
  | true => exact hcancelled l hl
  | false =>
    refine ⟨hsend l hl, fun r => ?_⟩
    match r with
    | .error x => exact hthrown l x hl
    | .ok (.error e) => exact hfailed l e hl
    | .ok (.ok response) =>
      simp only [Coroutine.bind]
      cases hasked : asked H.ordered response with
      | none => exact hanswer l response hl hasked
      | some calls => exact htools l response calls hl hasked

end SubAgentRuntime

end AgentFlow.Workflow
