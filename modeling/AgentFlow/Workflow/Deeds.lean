/-
# What a call of `RunAsync` may do

Whatever its surroundings answer, `RunAsync` creates a conversation only for
the child, with its prompt evaluated and its tools exported, and calls itself
only for the child and one deeper. The same for the `delegate` tool of an
agent at the top level.

Key definitions: `Free`, `evaluated`, `nestedCall`.
Key theorems: `only_runAsync`, `DelegateTool.only_invoke`.
-/
import AgentFlow.Lib.Nesting
import AgentFlow.Workflow.Boundary

namespace AgentFlow.Workflow

open Json
open SubAgentRuntime
open Coroutine (Only)

/-- An effect that is no conversation. -/
def Free : Effect → Prop
  | .createConversation .. => False
  | _ => True

/-- The prompt of the agent, evaluated at some time; nothing if it does not parse. -/
def evaluated (H : Host) (agent : AgentDef) (time : Now) : Option String :=
  if agent.systemPrompt = "" then some ""
  else
    match TemplateString.parse agent.systemPrompt with
    | .error _ => none
    | .ok template => some (promptText H.ordered (template.evaluate H.ordered
        { workflowName := H.workflow.name, workflowVersion := H.workflow.version, now := time }))

/-- The call that the `delegate` tool of the child makes. -/
def nestedCall (c : RunArgs) (rootId agent goal : String) (cancel : CancelToken) : RunArgs :=
  ⟨c.child, agent, goal, { nestedContext c.ctx rootId with parentCancel := some cancel }⟩

section

variable {A : Deed effects → Prop} {H : Host} {c : RunArgs} {args callId name : String} {cancel : CancelToken}

theorem only_emit (hA : ∀ e, Free e → A (.effect e)) {e : Effect} (he : Free e) : (emit e).Only A :=
  ⟨hA e he, fun _ => trivial⟩

theorem CancelToken.only_isCancelled (hA : ∀ e, Free e → A (.effect e)) : cancel.isCancelled.Only A := by
  cases cancel with
  | run => exact ⟨hA _ trivial, fun _ => trivial⟩
  | unfired => trivial

namespace GatedTool

variable {g : GatedTool}

theorem only_event (hA : ∀ e, Free e → A (.effect e)) {phase : Phase} : (g.event callId phase).Only A := by
  unfold event
  split_ifs
  · exact only_emit hA trivial
  · trivial

theorem only_invokeInner (hA : ∀ e, Free e → A (.effect e)) : (g.invokeInner args callId).Only A := by
  refine ⟨hA _ trivial, fun r => ?_⟩
  cases r with
  | ok result => exact (only_event hA).bind fun _ => trivial
  | error x => exact (only_event hA).bind fun _ => trivial

theorem only_confirm (hA : ∀ e, Free e → A (.effect e)) : (g.confirm args callId cancel).Only A := by
  refine ⟨hA _ trivial, fun r => ?_⟩
  cases r with
  | error x => exact (only_event hA).bind fun _ => trivial
  | ok decision =>
    refine (CancelToken.only_isCancelled hA).bind fun b => ?_
    split_ifs
    · exact (only_event hA).bind fun _ => trivial
    · exact only_invokeInner hA
    · exact (only_event hA).bind fun _ => trivial

/-- A gated tool makes no calls. -/
theorem only_invoke (hA : ∀ e, Free e → A (.effect e)) : (g.invoke args callId cancel).Only A := by
  refine (only_event hA).bind fun _ => ?_
  by_cases hb : g.tier = .blocked
  · rw [if_pos hb]
    exact (only_event hA).bind fun _ => trivial
  · rw [if_neg hb]
    refine (CancelToken.only_isCancelled hA).bind fun b => ?_
    split_ifs
    · exact (only_event hA).bind fun _ => trivial
    · exact only_confirm hA
    · exact only_invokeInner hA

end GatedTool

theorem only_callRunAsync {f : Value → String} (hc : A (.call c)) :
    (callRunAsync c >>= fun v => (return f v : Co String)).Only A := by
  refine ⟨hc, fun r => ?_⟩
  cases r with
  | ok v => trivial
  | error x => trivial

theorem NestedDelegate.only_invoke {d : NestedDelegate}
    (hd : ∀ agent goal, A (.call ⟨d.parent, agent, goal, { d.ctx with parentCancel := some cancel }⟩)) :
    (d.invoke H args cancel).Only A := by
  unfold NestedDelegate.invoke
  cases H.ordered.parse args with
  | none => trivial
  | some v =>
    cases hagent : v.stringAt? "agent" with
    | none =>
      simp only [hagent]
      trivial
    | some agent =>
      cases hgoal : v.stringAt? "goal" with
      | none =>
        simp only [hagent, hgoal]
        trivial
      | some goal =>
        simp only [hagent, hgoal]
        exact only_callRunAsync (hd agent goal)

theorem InvocationToolView.only_invoke {view : InvocationToolView} (hA : ∀ e, Free e → A (.effect e))
    (hd : ∀ d, view.tools.lookup name = some (.delegate d) → ∀ agent goal,
      A (.call ⟨d.parent, agent, goal, { d.ctx with parentCancel := some cancel }⟩)) :
    (view.invoke H name args callId cancel).Only A := by
  unfold InvocationToolView.invoke
  cases hl : view.tools.lookup name with
  | none => trivial
  | some tool =>
    cases tool with
    | gated g => exact GatedTool.only_invoke hA
    | delegate d => exact NestedDelegate.only_invoke (hd d hl)

theorem only_toolResult {p : Co String} (hp : p.Only A) : (toolResult p).Only A := by
  refine hp.attempt.bind fun r => ?_
  cases r with
  | ok result => trivial
  | error x =>
    dsimp only
    cases x.what? with
    | none => trivial
    | some what => trivial

theorem only_callTools {view : InvocationToolView} (hA : ∀ e, Free e → A (.effect e))
    (hd : ∀ name d, view.tools.lookup name = some (.delegate d) → ∀ agent goal,
      A (.call ⟨d.parent, agent, goal, { d.ctx with parentCancel := some cancel }⟩)) :
    ∀ calls : List Call, (callTools H view cancel calls).Only A
  | [] => trivial
  | call :: calls => by
    refine (only_toolResult (InvocationToolView.only_invoke hA (hd call.name))).bind fun result => ?_
    exact (only_callTools hA hd calls).bind fun results => trivial

theorem only_turns {view : InvocationToolView} {ctx : SubAgentContext} (hA : ∀ e, Free e → A (.effect e))
    (hd : ∀ name d, view.tools.lookup name = some (.delegate d) → ∀ agent goal,
      A (.call ⟨d.parent, agent, goal, { d.ctx with parentCancel := some (cancelRef ctx) }⟩)) :
    ∀ (n : ℕ) (message raw : String), (turns H view ctx n message raw).Only A
  | 0, message, raw => trivial
  | n + 1, message, raw => by
    have hcancelled : (cancelled ctx).Only A := by
      unfold cancelled
      split
      · exact CancelToken.only_isCancelled hA
      · trivial
    refine hcancelled.bind fun b => ?_
    split_ifs
    · trivial
    · refine ⟨hA _ trivial, fun r => ?_⟩
      match r with
      | .error x => trivial
      | .ok (.error e) => trivial
      | .ok (.ok response) =>
        simp only [Coroutine.bind]
        cases asked H.ordered response with
        | none => trivial
        | some calls => exact (only_callTools hA hd calls).bind fun results => only_turns hA hd n _ _

theorem only_endWith (hA : ∀ e, Free e → A (.effect e)) {id : String} {kind : ErrorKind}
    {more : List (String × Value)} : (endWith id c kind more).Only A := ⟨hA _ trivial, fun _ => trivial⟩

theorem only_finish (hA : ∀ e, Free e → A (.effect e)) {d : DelegateSpec} {id raw : String} :
    (finish H d id c raw).Only A := by
  unfold finish
  cases extracted H.ordered (extractPath d) raw with
  | some text => exact ⟨hA _ trivial, fun _ => trivial⟩
  | none => exact ⟨hA _ trivial, fun _ => ⟨hA _ trivial, fun _ => trivial⟩⟩

theorem only_start (hA : ∀ e, Free e → A (.effect e)) {d : DelegateSpec} {child : AgentDef} {id rootId system : String}
    (hcreate : ∀ tools, (toolView H c child rootId).exportToolsJson H = .ok tools → A (.effect
      (.createConversation child.model.backend c.child (conversationOptions H child system tools))))
    (hd : ∀ agent goal cancel, A (.call (nestedCall c rootId agent goal cancel))) :
    (start H d id rootId c child system).Only A := by
  have hview : ∀ name d, (toolView H c child rootId).tools.lookup name = some (.delegate d) → ∀ agent goal,
      A (.call ⟨d.parent, agent, goal, { d.ctx with parentCancel := some (cancelRef c.ctx) }⟩) := by
    intro name d hl agent goal
    rcases mem_toolView (mem_of_lookup hl) with ⟨tool, hb, -⟩ | ⟨spec, hs, hb⟩
    · cases hb
    · obtain ⟨-, hb⟩ := Prod.mk.inj hb
      cases hb
      exact hd agent goal _
  unfold start
  split
  · trivial
  · next tools ht =>
    refine ⟨hcreate tools ht, fun r => ?_⟩
    match r with
    | .error (.agentflow _) => exact only_endWith hA
    | .error (.std _) => trivial
    | .error .other => trivial
    | .ok false => exact only_endWith hA
    | .ok true =>
      refine (only_turns hA hview _ _ _).bind fun r => ?_
      cases r with
      | error kind => exact only_endWith hA
      | ok raw => exact only_finish hA

/-- **What `RunAsync` may do.** -/
theorem only_runAsync (hA : ∀ e, Free e → A (.effect e))
    (hcreate : ∀ child time system rootId tools, H.workflow.findAgent c.child = some child →
      evaluated H child time = some system → (toolView H c child rootId).exportToolsJson H = .ok tools →
      A (.effect (.createConversation child.model.backend c.child (conversationOptions H child system tools))))
    (hcall : ∀ d, admission H.workflow c = .admitted d → ∀ rootId agent goal cancel,
      A (.call (nestedCall c rootId agent goal cancel))) :
    (runAsync H c).Only A := by
  refine ⟨hA _ trivial, fun id => ?_⟩
  simp only [Coroutine.bind]
  cases ha : admission H.workflow c with
  | unknownAgent => exact only_endWith hA
  | maxDepthExceeded => exact ⟨hA _ trivial, fun _ => only_endWith hA⟩
  | admitted d =>
    refine ⟨hA _ trivial, fun _ => ?_⟩
    simp only [Coroutine.bind]
    unfold proceed
    split
    · exact ⟨hA _ trivial, fun a => a.elim⟩
    · next child hchild =>
      have hstart : ∀ {time system}, evaluated H child time = some system →
          (start H d id (rootOf c id) c child system).Only A := fun he =>
        only_start hA (fun tools ht => hcreate child _ _ _ tools hchild he ht) fun _ _ _ => hcall d ha _ _ _ _
      unfold systemText
      split_ifs with hp
      · exact @hstart ⟨"", 0, 0⟩ _ (if_pos hp)
      · cases htemplate : TemplateString.parse child.systemPrompt with
        | error e => exact only_endWith hA
        | ok template =>
          refine ⟨hA _ trivial, fun time => @hstart time _ ?_⟩
          rw [evaluated, if_neg hp, htemplate]

/-- What the tool of an agent at the top level may do. -/
theorem DelegateTool.only_invoke {tool : DelegateTool} (hA : ∀ e, Free e → A (.effect e))
    (hcall : ∀ c : RunArgs, c.parent = tool.parentAgent → c.ctx.depth = tool.ctx.depth → A (.call c)) :
    (tool.invoke H args cancel).Only A := by
  unfold DelegateTool.invoke
  cases H.ordered.parse args with
  | none => trivial
  | some v =>
    dsimp only
    cases v.value "agent" "" with
    | error e => trivial
    | ok agent =>
      dsimp only
      cases v.value "goal" "" with
      | error e => trivial
      | ok goal =>
        refine (CancelToken.only_isCancelled hA).bind fun b => ?_
        split_ifs
        · trivial
        · unfold DelegateTool.run
          split_ifs
          · refine ⟨hA _ trivial, fun _ => ⟨hcall _ rfl rfl, fun r => ?_⟩⟩
            cases r with
            | ok v => exact ⟨hA _ trivial, fun _ => trivial⟩
            | error x => trivial
          · exact only_callRunAsync (hcall _ rfl rfl)
        · trivial

end

end AgentFlow.Workflow
