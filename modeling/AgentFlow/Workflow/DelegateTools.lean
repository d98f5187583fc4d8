/-
# The two delegate tools

`MakeDelegateTool` builds the `delegate` tool of the main agent, and `RunAsync`
that of a sub-agent. Over the same parent, context and surroundings they
return the same text for arguments that are no JSON and for those that name an
agent and a goal, as long as the token has not fired and nothing is thrown at
`RunAsync`. For other arguments the one of the main agent throws or goes on
with empty names, where the other one refuses; and the one of the main agent
asks the token before all checks, where the other one leaves it to `RunAsync`.

Key definitions: `Twin`, `Together`, `Named`, `Startable`, `Agrees`.
Key theorems: `Ran.of_fired`, `DelegateTool.runs_of_read`,
`NestedDelegate.runs_of_named`, `sameResult_iff_agrees`, `not_sameResult`.
-/
import AgentFlow.Workflow.CancelReport
import AgentFlow.Workflow.Spans

namespace AgentFlow.Workflow

open Json
open SubAgentRuntime

/-- The tool of the main agent and that of a sub-agent, for the same parent in
the same context. -/
structure Twin (tool : DelegateTool) (d : NestedDelegate) : Prop where
  parent : d.parent = tool.parentAgent
  ctx : d.ctx = { tool.ctx with tokenChannel := tool.forwards || tool.ctx.tokenChannel }
  runtime : tool.runtime = true

/-- The histories of the two tools in the same surroundings: whether the token
has fired, and what `RunAsync` does when both call it. -/
structure Together (fired : Bool) (l₁ l₂ : Hist) : Prop where
  asked : ∀ b, .did .isCancelled b ∈ l₁ → b = fired
  calls : ∀ c sub₁ r₁ sub₂ r₂, .entered c sub₁ r₁ ∈ l₁ → .entered c sub₂ r₂ ∈ l₂ → sub₁ = sub₂ ∧ r₁ = r₂
  polls : fired = true → ∀ b ∈ History.collect (S := effects) polled l₂, b = true

/-- The arguments name an agent and a goal. -/
def Named (H : Host) (args agent goal : String) : Prop :=
  ∃ v, H.ordered.parse args = some v ∧ v.stringAt? "agent" = some agent ∧ v.stringAt? "goal" = some goal

/-- What the tool of the main agent reads in the arguments. -/
def Read (H : Host) (args agent goal : String) : Prop :=
  ∃ v, H.ordered.parse args = some v ∧ v.value "agent" "" = .ok agent ∧ v.value "goal" "" = .ok goal

/-- The call is admitted, its prompt parses, its tools can be exported, and its
conversation is created. -/
structure Startable (H : Host) (c : RunArgs) (l : Hist) : Prop where
  admitted : ∃ d, admission H.workflow c = .admitted d
  prompt : ∀ child, H.workflow.findAgent c.child = some child →
    child.systemPrompt = "" ∨ ∃ template, TemplateString.parse child.systemPrompt = .ok template
  exports : ∀ id child, l.head? = some (drawn id) → H.workflow.findAgent c.child = some child →
    ∃ tools, (toolView H c child (rootOf c id)).exportToolsJson H = .ok tools
  created : ∀ backend agent options r, .did (.createConversation backend agent options) r ∈ l → r = .ok true

/-- Nothing is thrown at the call, and what the calls in it throw is caught. -/
def Undisturbed (H : Host) (c : RunArgs) (l : Hist) : Prop :=
  Unthrown H c l ∧ ∀ c' sub x, .entered c' sub (some (.error x)) ∈ l → x.what? ≠ none

/-- When the two tools agree: the arguments are no JSON; or they name an agent
and a goal, and `RunAsync` is not disturbed, or starts if the token has fired;
or the answer to empty names happens to be the text that refuses them. -/
inductive Agrees (H : Host) (fired : Bool) (args : String) (l₁ l₂ : Hist) : Prop
  | noJson (h : H.ordered.parse args = none)
  | named {agent goal : String} (h : Named H args agent goal) (hc : ∀ c sub r, .entered c sub r ∈ l₂ →
      if fired then Startable H c sub else Undisturbed H c sub)
  | coincidence {agent goal : String} (hr : Read H args agent goal) (hn : ∀ agent goal, ¬ Named H args agent goal)
      (hf : fired = false) (hc : ∀ c sub r, .entered c sub r ∈ l₁ → ∃ v, r = some (.ok v) ∧ resultText H v = badArgs)

namespace SubAgentRuntime

variable {K : Contract effects} {H : Host} {c : RunArgs} {l : Hist} {r : Except Thrown Value}

/-- **When `RunAsync` returns.** -/
theorem Ran.returns_iff (h : Ran K H c l r) : (∃ v, r = .ok v) ↔ Undisturbed H c l := by
  constructor
  · rintro ⟨v, rfl⟩
    refine ⟨h.unthrown, fun c' sub x hm => ?_⟩
    obtain ⟨turned, q, ht, hm, hq⟩ := h.entered_turned hm
    obtain ⟨q', rfl⟩ := hq ⟨v, rfl⟩
    exact ht.caught _ hm x rfl
  · exact fun hu => h.returned hu.1 hu.2

/-- Turns at which the token has fired are cancelled. -/
theorem Turned.of_fired {ctx : SubAgentContext} {n : ℕ} {raw : String} {turned : Hist}
    {q : Except Thrown (Except ErrorKind String)} (h : Turned K H ctx (n + 1) raw turned q)
    (hc : ctx.parentCancel = some .run) (hp : ∀ b, .did .isCancelled b ∈ turned → b = true) :
    q = .ok (.error .cancelled) := by
  have hno : ∀ {l rest : Hist}, turned = l ++ rest → ¬ Polled ctx l false := by
    rintro l rest rfl (⟨-, rfl⟩ | ⟨hne, -, -⟩)
    · cases hp false (by simp)
    · exact hne hc
  cases h with
  | cancelled _ hl => rfl
  | thrown _ hl | failed _ hl | answered _ hl | broken _ hl | again _ hl => exact absurd hl (hno rfl)

/-- The errors of `RunAsync` are well formed. -/
theorem wf_errorValue {kind : ErrorKind} {more : List (String × Value)} (h : ∀ b ∈ more, b.2.sort.WF) :
    (errorValue kind more).sort.WF := by
  refine Value.wf_sort_obj fun b hb => ?_
  rcases List.mem_cons.mp hb with rfl | hb
  · rw [Value.sort_str]
    trivial
  · exact h b hb

/-- **What `RunAsync` does when the token has fired**: it is cancelled if it
starts, and ends with another error or throws if it does not. -/
theorem Ran.of_fired (h : Ran K H c l r) (hdepth : c.ctx.depth < 2 ^ 32) (hc : c.ctx.parentCancel = some .run)
    (hp : ∀ b, .did .isCancelled b ∈ l → b = true) :
    (Startable H c l ∧ r = .ok (errorValue .cancelled [])) ∨ (¬ Startable H c l ∧ ((∃ x, r = .error x) ∨
      ∃ kind more, r = .ok (errorValue kind more) ∧ kind ≠ .cancelled ∧ (errorValue kind more).sort.WF)) := by
  have hturns : ∀ {turned q}, Turned K H c.ctx kSubAgentMaxIter "" turned q → (∀ i ∈ turned, i ∈ l) →
      q = .ok (.error .cancelled) := fun ht hsub => ht.of_fired hc fun b hb => hp b (hsub _ hb)
  cases h with
  | unknownAgent id ha =>
    refine Or.inr ⟨fun hs => ?_, Or.inr ⟨_, _, rfl, nofun, wf_errorValue (by simp)⟩⟩
    obtain ⟨d, hd⟩ := hs.admitted
    cases ha.symm.trans hd
  | maxDepthExceeded id ha =>
    refine Or.inr ⟨fun hs => ?_, Or.inr ⟨_, _, rfl, nofun, wf_errorValue fun b hb => ?_⟩⟩
    · obtain ⟨d, hd⟩ := hs.admitted
      cases ha.symm.trans hd
    · rw [List.mem_singleton.mp hb, Value.sort, Value.WF, intFits]
      omega
  | badTemplate id ha hchild hne he =>
    refine Or.inr ⟨fun hs => ?_, Or.inr ⟨_, _, rfl, nofun, wf_errorValue (by simp)⟩⟩
    rcases hs.prompt _ hchild with h | ⟨template, h⟩
    · exact hne h
    · cases he.symm.trans h
  | unexported id hp' hx =>
    refine Or.inr ⟨fun hs => ?_, Or.inl ⟨_, rfl⟩⟩
    obtain ⟨tools, ht⟩ := hs.exports id _ rfl hp'.declared
    cases hx.symm.trans ht
  | unknownBackend id hp' =>
    refine Or.inr ⟨fun hs => ?_, Or.inr ⟨_, _, rfl, nofun, wf_errorValue fun b hb => ?_⟩⟩
    · cases hs.created _ _ _ _ (List.mem_append_right _ List.mem_cons_self)
    · rw [List.mem_singleton.mp hb, Value.sort_str]
      trivial
  | noConversation id hp' =>
    refine Or.inr ⟨fun hs => ?_, Or.inr ⟨_, _, rfl, nofun, wf_errorValue (by simp)⟩⟩
    cases hs.created _ _ _ _ (List.mem_append_right _ List.mem_cons_self)
  | uncreated id hp' =>
    refine Or.inr ⟨fun hs => ?_, Or.inl ⟨_, rfl⟩⟩
    cases hs.created _ _ _ _ (List.mem_append_right _ List.mem_cons_self)
  | thrown id hp' ht hl => cases hturns hl fun i hi => by simp [hi]
  | extracted id hp' ht hl | unextracted id hp' ht hl => cases hturns hl fun i hi => by simp [hi]
  | failed id hp' ht hl =>
    cases hturns hl fun i hi => by simp [hi]
    refine Or.inl ⟨⟨⟨_, hp'.admitted⟩, fun child' hc => ?_, fun id' child' hid hc => ?_, fun _ _ _ _ hm => ?_⟩, rfl⟩
    · cases hc.symm.trans hp'.declared
      exact hp'.parses
    · cases hid
      cases hc.symm.trans hp'.declared
      exact ⟨_, ht⟩
    · rcases hp'.mem hm with (hi | hi | ⟨time, hi⟩) | hm
      · cases hi
      · cases hi
      · cases hi
      rcases List.mem_cons.mp hm with hi | hm
      · cases hi
        rfl
      rcases List.mem_append.mp hm with hm | hm
      · exact absurd hm hl.not_created
      · cases List.mem_singleton.mp hm

end SubAgentRuntime

/-! ### What the two tools do -/

section

variable {H : Host} {args agent goal : String} {l : Hist} {q : Except Thrown String}

/-- A call of `RunAsync` whose result is returned. -/
theorem runs_callRunAsync {c : RunArgs} {f : Value → String}
    (h : Runs (runAsync H) (callRunAsync c >>= fun v => (return f v : Co String)) l (some q)) :
    ∃ sub r, l = [.entered c sub (some r)] ∧ Runs (runAsync H) (runAsync H c) sub (some r) ∧ q = r.map f := by
  cases h with
  | @call _ _ _ sub _ r _ hc h =>
    cases r with
    | ok v =>
      cases h
      exact ⟨sub, .ok v, rfl, hc, rfl⟩
    | error x =>
      cases h
      exact ⟨sub, .error x, rfl, hc, rfl⟩

/-- What the nested tool calls. -/
def NestedDelegate.calling (d : NestedDelegate) (agent goal : String) : RunArgs :=
  ⟨d.parent, agent, goal, { d.ctx with parentCancel := some .run }⟩

theorem NestedDelegate.runs_of_named {d : NestedDelegate} (hn : Named H args agent goal)
    (h : Runs (runAsync H) (d.invoke H args .run) l (some q)) : ∃ sub r, l = [.entered (d.calling agent goal) sub (some r)] ∧
      Runs (runAsync H) (runAsync H (d.calling agent goal)) sub (some r) ∧ q = r.map (resultText H) := by
  obtain ⟨v, hv, ha, hg⟩ := hn
  simp only [NestedDelegate.invoke, hv, ha, hg] at h
  exact runs_callRunAsync h

theorem NestedDelegate.runs_of_not_named {d : NestedDelegate} (hn : ∀ agent goal, ¬ Named H args agent goal)
    (h : Runs (runAsync H) (d.invoke H args .run) l (some q)) : l = [] ∧ q = .ok badArgs := by
  have hbad : d.invoke H args .run = Coroutine.ret badArgs := by
    unfold NestedDelegate.invoke
    cases hv : H.ordered.parse args with
    | none => rfl
    | some v =>
      cases ha : v.stringAt? "agent" with
      | none => simp [ha]
      | some agent =>
        cases hg : v.stringAt? "goal" with
        | none => simp [ha, hg]
        | some goal => exact absurd ⟨v, hv, ha, hg⟩ (hn agent goal)
  rw [hbad] at h
  cases h
  exact ⟨rfl, rfl⟩

/-- What the tool of the main agent calls. -/
def DelegateTool.calling (tool : DelegateTool) (agent goal : String) : RunArgs :=
  ⟨tool.parentAgent, agent, goal,
    { tool.ctx with parentCancel := some .run, tokenChannel := tool.forwards || tool.ctx.tokenChannel }⟩

/-- The only call in a history. -/
def Calls (c : RunArgs) (sub : Hist) (r : Except Thrown Value) (l : Hist) : Prop :=
  .entered c sub (some r) ∈ l ∧ ∀ c' sub' r', .entered c' sub' r' ∈ l → c' = c ∧ sub' = sub ∧ r' = some r

theorem Calls.awaited {c : RunArgs} {sub : Hist} {r : Except Thrown Value} (h : Calls c sub r l) (e : Effect)
    (a : Answer e) : Calls c sub r (.did e a :: l) := by
  refine ⟨List.mem_cons_of_mem _ h.1, fun c' sub' r' hm => h.2 c' sub' r' ?_⟩
  rcases List.mem_cons.mp hm with hi | hm
  · cases hi
  · exact hm

theorem DelegateTool.runs_run {tool : DelegateTool} (h : Runs (runAsync H) (tool.run H agent goal .run) l (some q)) :
    ∃ sub r, Calls (tool.calling agent goal) sub r l ∧ q = r.map (resultText H) := by
  unfold DelegateTool.run at h
  by_cases hf : tool.forwards = true
  · rw [if_pos hf] at h
    have hcall : tool.calling agent goal =
        ⟨tool.parentAgent, agent, goal, { tool.ctx with parentCancel := some .run, tokenChannel := true }⟩ := by
      rw [DelegateTool.calling, hf, Bool.true_or]
    rw [hcall]
    cases h with
    | await a h =>
      cases h with
      | @call _ _ _ sub _ r _ hc h =>
        refine ⟨sub, r, ?_⟩
        cases r with
        | ok v =>
          cases h with
          | await a h =>
            cases h
            simp [Calls, Except.map]
        | error x =>
          cases h
          simp [Calls, Except.map]
  · rw [if_neg hf] at h
    have hcall : tool.calling agent goal =
        ⟨tool.parentAgent, agent, goal, { tool.ctx with parentCancel := some .run }⟩ := by
      rw [DelegateTool.calling, Bool.eq_false_of_not_eq_true hf, Bool.false_or]
    obtain ⟨sub, r, rfl, -, rfl⟩ := runs_callRunAsync h
    rw [hcall]
    exact ⟨sub, r, by simp [Calls], rfl⟩

theorem DelegateTool.runs_of_read {tool : DelegateTool} (hr : Read H args agent goal) (hrt : tool.runtime = true)
    (h : Runs (runAsync H) (tool.invoke H args .run) l (some q)) : ∃ b, .did .isCancelled b ∈ l ∧
      ((b = true ∧ q = .ok cancelledResult) ∨
        (b = false ∧ ∃ sub r, Calls (tool.calling agent goal) sub r l ∧ q = r.map (resultText H))) := by
  obtain ⟨v, hv, ha, hg⟩ := hr
  simp only [DelegateTool.invoke, hv, ha, hg] at h
  cases h with
  | await b h =>
    refine ⟨b, List.mem_cons_self, ?_⟩
    cases b with
    | true =>
      cases h
      exact Or.inl ⟨rfl, rfl⟩
    | false =>
      simp only [hrt, if_true] at h
      obtain ⟨sub, r, hc, hq⟩ := runs_run h
      exact Or.inr ⟨rfl, sub, r, hc.awaited _ _, hq⟩

theorem DelegateTool.runs_of_noJson {tool : DelegateTool} (hv : H.ordered.parse args = none)
    (h : Runs (runAsync H) (tool.invoke H args .run) l (some q)) : q = .ok badArgs := by
  simp only [DelegateTool.invoke, hv] at h
  cases h
  rfl

/-- Members of another type are thrown at the model's call. -/
theorem DelegateTool.runs_of_not_read {tool : DelegateTool} (hr : ∀ agent goal, ¬ Read H args agent goal)
    (hv : H.ordered.parse args ≠ none) (h : Runs (runAsync H) (tool.invoke H args .run) l (some q)) :
    ∃ x, q = .error x := by
  obtain ⟨v, hv⟩ := Option.ne_none_iff_exists'.mp hv
  simp only [DelegateTool.invoke, hv] at h
  cases ha : v.value "agent" "" with
  | error e =>
    simp only [ha] at h
    cases h
    exact ⟨_, rfl⟩
  | ok agent =>
    cases hg : v.value "goal" "" with
    | error e =>
      simp only [ha, hg] at h
      cases h
      exact ⟨_, rfl⟩
    | ok goal => exact absurd ⟨v, hv, ha, hg⟩ (hr agent goal)

end

/-! ### When they agree -/

section

variable {H : Host} {fired : Bool} {args agent goal : String} {l₁ l₂ : Hist} {c : RunArgs} {sub : Hist}
  {r : Except Thrown Value} {tool : DelegateTool} {d : NestedDelegate}

theorem Named.read (h : Named H args agent goal) : Read H args agent goal := by
  obtain ⟨v, hv, ha, hg⟩ := h
  exact ⟨v, hv, Value.value_of_stringAt? "" ha, Value.value_of_stringAt? "" hg⟩

/-- The text of another error is not the one of a cancelled call. -/
theorem resultText_ne_cancelledResult (hsound : H.sorted.Sound)
    (hread : H.sorted.parse cancelledResult = some (errorValue .cancelled [])) {kind : ErrorKind}
    {more : List (String × Value)} (hk : kind ≠ .cancelled) (hw : (errorValue kind more).sort.WF) :
    resultText H (errorValue kind more) ≠ cancelledResult := by
  intro h
  have hp : H.sorted.parse (H.sorted.dump (errorValue kind more).sort) = some (errorValue .cancelled []) := by
    rw [← hread, ← h]
    rfl
  have hv := congrArg (Value.stringAt? · "error") (hsound _ _ hw hp)
  simp only [Value.stringAt?_sort] at hv
  cases kind <;> simp [errorValue, Value.stringAt?, ErrorKind.text] at hv hk

theorem Twin.calling_eq (h : Twin tool d) (agent goal : String) : d.calling agent goal = tool.calling agent goal := by
  rw [NestedDelegate.calling, DelegateTool.calling, h.parent, h.ctx]

/-- With names, what `RunAsync` does decides. -/
theorem agrees_iff_of_named (hn : Named H args agent goal) (hl : l₂ = [.entered c sub (some r)]) :
    Agrees H fired args l₁ l₂ ↔ if fired then Startable H c sub else Undisturbed H c sub := by
  subst hl
  constructor
  · rintro (hno | ⟨-, hc⟩ | ⟨-, hno, -, -⟩)
    · obtain ⟨v, hv, -⟩ := hn
      cases hno.symm.trans hv
    · exact hc c sub _ (List.mem_singleton_self _)
    · exact absurd hn (hno agent goal)
  · intro h
    refine .named hn fun c' sub' r' hm => ?_
    cases List.mem_singleton.mp hm
    exact h

/-- The token has fired: the tool of the main agent says so at once, and the
other one if `RunAsync` starts. -/
theorem cancelledResult_iff_startable (hsound : H.sorted.Sound)
    (hprint : H.sorted.dump (errorValue .cancelled []).sort = cancelledResult)
    (hread : H.sorted.parse cancelledResult = some (errorValue .cancelled []))
    (h : Runs (runAsync H) (runAsync H c) sub (some r)) (hdepth : c.ctx.depth < 2 ^ 32)
    (hc : c.ctx.parentCancel = some .run) (hp : ∀ b, .did .isCancelled b ∈ sub → b = true) :
    r.map (resultText H) = .ok cancelledResult ↔ Startable H c sub := by
  have hran : Ran (freely fun _ _ _ => True) H c sub r := ran_of_runs (fun _ _ _ _ => trivial) h
  rcases hran.of_fired hdepth hc hp with ⟨hs, rfl⟩ | ⟨hs, ⟨x, rfl⟩ | ⟨kind, more, rfl, hk, hw⟩⟩
  · exact iff_of_true (congrArg Except.ok hprint) hs
  · exact iff_of_false (fun h => by cases h) hs
  · refine iff_of_false (fun heq => ?_) hs
    exact resultText_ne_cancelledResult hsound hread hk hw (Except.ok.inj heq)

theorem map_ok_iff {f : Value → String} : (∃ s, r.map f = .ok s) ↔ ∃ v, r = .ok v := by
  cases r with
  | ok v => exact iff_of_true ⟨_, rfl⟩ ⟨_, rfl⟩
  | error x => exact iff_of_false (by simp [Except.map]) (by simp)

end

/-- **When the two delegate tools are the same.** Over the same parent, context
and surroundings, they return the same text if and only if they agree. -/
theorem sameResult_iff_agrees {H : Host} {fired : Bool} {args : String} {tool : DelegateTool} {d : NestedDelegate}
    {l₁ l₂ : Hist} {q₁ q₂ : Except Thrown String} (hsound : H.sorted.Sound)
    (hprint : H.sorted.dump (errorValue .cancelled []).sort = cancelledResult)
    (hread : H.sorted.parse cancelledResult = some (errorValue .cancelled []))
    (htwin : Twin tool d) (hdepth : tool.ctx.depth < 2 ^ 32)
    (h₁ : Runs (runAsync H) (tool.invoke H args .run) l₁ (some q₁))
    (h₂ : Runs (runAsync H) (d.invoke H args .run) l₂ (some q₂)) (ht : Together fired l₁ l₂) :
    (∃ s, q₁ = .ok s ∧ q₂ = .ok s) ↔ Agrees H fired args l₁ l₂ := by
  by_cases hv : H.ordered.parse args = none
  · have hno : ∀ agent goal, ¬ Named H args agent goal := by
      rintro agent goal ⟨v, hv', -⟩
      cases hv.symm.trans hv'
    rw [DelegateTool.runs_of_noJson hv h₁, (NestedDelegate.runs_of_not_named hno h₂).2]
    exact iff_of_true ⟨_, rfl, rfl⟩ (.noJson hv)
  by_cases hn : ∃ agent goal, Named H args agent goal
  · obtain ⟨agent, goal, hn⟩ := hn
    obtain ⟨sub₂, r₂, rfl, hrun, rfl⟩ := NestedDelegate.runs_of_named hn h₂
    obtain ⟨b, hb, hcases⟩ := DelegateTool.runs_of_read hn.read htwin.runtime h₁
    obtain rfl := ht.asked b hb
    rw [agrees_iff_of_named hn rfl]
    rcases hcases with ⟨rfl, rfl⟩ | ⟨rfl, sub₁, r₁, hc, rfl⟩
    · have hp : ∀ b, .did .isCancelled b ∈ sub₂ → b = true := fun b hb => by
        refine ht.polls rfl b ?_
        rw [History.collect, Item.collect]
        exact List.mem_append_left _ (History.mem_collect (by simp [polled]) hb)
      have hd : (d.calling agent goal).ctx.depth < 2 ^ 32 := by
        rw [htwin.calling_eq]
        exact hdepth
      rw [if_pos rfl, ← cancelledResult_iff_startable hsound hprint hread hrun hd rfl hp]
      constructor
      · rintro ⟨s, hs, hq⟩
        rw [hq, hs]
      · exact fun hq => ⟨_, rfl, hq⟩
    · -- both call `RunAsync` with the same arguments
      have hcall := hc.1
      rw [← htwin.calling_eq] at hcall
      obtain ⟨-, hr⟩ := ht.calls _ _ _ _ _ hcall (List.mem_singleton_self _)
      cases hr
      have hran : Ran (freely fun _ _ _ => True) H (d.calling agent goal) sub₂ r₂ :=
        ran_of_runs (fun _ _ _ _ => trivial) hrun
      rw [if_neg (by simp), ← hran.returns_iff, ← map_ok_iff (f := resultText H)]
      simp only [and_self]
  · simp only [not_exists] at hn
    obtain ⟨rfl, rfl⟩ := NestedDelegate.runs_of_not_named hn h₂
    by_cases hr : ∃ agent goal, Read H args agent goal
    · obtain ⟨agent, goal, hr⟩ := hr
      obtain ⟨b, hb, hcases⟩ := DelegateTool.runs_of_read hr htwin.runtime h₁
      obtain rfl := ht.asked b hb
      rcases hcases with ⟨rfl, rfl⟩ | ⟨rfl, sub, r, hc, rfl⟩
      · refine iff_of_false ?_ ?_
        · rintro ⟨s, hs, hq⟩
          cases hs
          exact absurd (Except.ok.inj hq) (by decide)
        · rintro (hno | ⟨hno, -⟩ | ⟨-, -, hf, -⟩)
          · exact hv hno
          · exact hn _ _ hno
          · cases hf
      · constructor
        · rintro ⟨s, hs, hq⟩
          cases hq
          refine .coincidence hr hn rfl fun c' sub' r' hm => ?_
          obtain ⟨-, -, rfl⟩ := hc.2 _ _ _ hm
          cases r with
          | ok v => exact ⟨v, rfl, Except.ok.inj hs⟩
          | error x => cases hs
        · rintro (hno | ⟨hno, -⟩ | ⟨-, -, -, hco⟩)
          · exact absurd hno hv
          · exact absurd hno (hn _ _)
          · obtain ⟨v, hv, htext⟩ := hco _ _ _ hc.1
            cases hv
            exact ⟨badArgs, congrArg Except.ok htext, rfl⟩
    · simp only [not_exists] at hr
      obtain ⟨x, rfl⟩ := DelegateTool.runs_of_not_read hr hv h₁
      refine iff_of_false (by simp) ?_
      rintro (hno | ⟨hno, -⟩ | ⟨hread', -⟩)
      · exact hv hno
      · exact hn _ _ hno
      · exact hr _ _ hread'

/-! ### Runs -/

/-- The studio, where an array is a text too. -/
def twinHost : Host :=
  { studioHost with
    sorted := .ofTable [("schema", .obj []), (cancelledResult, errorValue .cancelled [])]
    ordered := .ofTable (("[]", .arr []) :: studioTexts) }

/-- The tool of a writer at the top level. -/
def twinTool : DelegateTool := makeDelegateTool twinHost true "writer" ["editor"] {} false false

/-- The tool of a writer that somebody has called. -/
def twinNested : NestedDelegate := ⟨⟨"delegate", "Hand a sub-task to another agent.", "schema"⟩, "writer", {}⟩

theorem sameResult_iff_agrees_twin : ∃ l₁ l₂,
    Runs (runAsync twinHost) (twinTool.invoke twinHost "to the editor" .run) l₁ (some (.ok "done")) ∧
    Runs (runAsync twinHost) (twinNested.invoke twinHost "to the editor" .run) l₂ (some (.ok "done")) ∧
    Agrees twinHost false "to the editor" l₁ l₂ := by
  have hr := Coroutine.runs_replay (runAsync twinHost) studioAnswer 40 0
    (runAsync twinHost (twinNested.calling "editor" "check"))
  have ho : (Coroutine.replay (runAsync twinHost) studioAnswer 40 0
      (runAsync twinHost (twinNested.calling "editor" "check"))).2.2 = some (.ok (.str "done")) := by decide +kernel
  have hv : twinHost.ordered.parse "to the editor" =
      some (.obj [("agent", .str "editor"), ("goal", .str "check")]) := by decide +kernel
  rw [ho] at hr
  generalize (Coroutine.replay (runAsync twinHost) studioAnswer 40 0
    (runAsync twinHost (twinNested.calling "editor" "check"))).1 = sub at hr
  have h₁ : Runs (runAsync twinHost) (twinTool.invoke twinHost "to the editor" .run)
      [.did .isCancelled false, .entered (twinNested.calling "editor" "check") sub (some (.ok (.str "done")))]
      (some (.ok "done")) := by
    rw [DelegateTool.invoke, hv]
    refine Runs.await (S := effects) (e := .isCancelled) false ?_
    exact .call hr (.ret "done")
  have h₂ : Runs (runAsync twinHost) (twinNested.invoke twinHost "to the editor" .run)
      [.entered (twinNested.calling "editor" "check") sub (some (.ok (.str "done")))] (some (.ok "done")) := by
    rw [NestedDelegate.invoke, hv]
    exact .call hr (.ret "done")
  have ht : Together false [.did .isCancelled false,
      .entered (twinNested.calling "editor" "check") sub (some (.ok (.str "done")))]
      [.entered (twinNested.calling "editor" "check") sub (some (.ok (.str "done")))] := by
    refine ⟨fun b hb => by simpa using hb, fun c sub₁ r₁ sub₂ r₂ hm hm' => ?_, nofun⟩
    simp only [List.mem_cons, List.not_mem_nil, or_false, reduceCtorEq, false_or, Item.entered.injEq] at hm hm'
    exact ⟨hm.2.1.trans hm'.2.1.symm, hm.2.2.trans hm'.2.2.symm⟩
  exact ⟨_, _, h₁, h₂, (sameResult_iff_agrees (Codec.sound_ofTable (by decide) (by decide)) (by decide +kernel)
    (by decide +kernel) ⟨rfl, rfl, rfl⟩ (by decide) h₁ h₂ ht).mp ⟨"done", rfl, rfl⟩⟩

/-- Arguments that are no object: the tool of the main agent throws, and the
other one refuses them. -/
theorem not_sameResult : ∃ x,
    Runs (runAsync twinHost) (twinTool.invoke twinHost "[]" .run) [] (some (.error x)) ∧
    Runs (runAsync twinHost) (twinNested.invoke twinHost "[]" .run) [] (some (.ok badArgs)) ∧
    Twin twinTool twinNested ∧ Together false [] [] := by
  refine ⟨_, .fail _, .ret _, ⟨rfl, rfl, rfl⟩, ?_⟩
  constructor
  · intro b hb
    cases hb
  · intro c sub₁ r₁ sub₂ r₂ hm
    cases hm
  · intro hfired
    cases hfired

end AgentFlow.Workflow
