/-
# Reporting that a delegation was cancelled

The token of the parent may fire at any moment of a run. The loop of the
sub-agent polls it before each turn only: a send that it interrupts fails with
a status, which is reported as an error of the engine, and the set-up and the
end of the turns do not ask it at all. A run in which the token fires and that
has no final answer is reported as cancelled if and only if it is admitted and
set up, no send of it fails, and its turns are not used up.

Key definitions: `Fires`, `ReportsCancel`, `Unhindered`.
Key theorems: `Turned.failed_cases`, `reportsCancel_iff_unhindered`,
`not_reportsCancel`.
-/
import AgentFlow.Workflow.Exhaustion

namespace AgentFlow.Workflow

open Json
open SubAgentRuntime

/-- The answer to a poll. -/
def polled : (e : Effect) → Answer e → List Bool
  | .isCancelled, b => [b]
  | _, _ => []

/-- The token fires at some moment: the polls before say no, those after say
yes. -/
def Fires (l : Hist) : Prop :=
  ∃ before after, History.collect (S := effects) polled l = List.replicate before false ++ List.replicate after true

/-- If the parent's token fires, and the run does not end with a final answer,
it is cancelled: so says its result, and so ends its span. -/
def ReportsCancel (H : Host) (c : RunArgs) (l : Hist) (v : Value) : Prop :=
  c.ctx.parentCancel = some .run → Fires l → ¬ ((∃ text, v = .str text) ∧ Final H l) →
    v = errorValue .cancelled [] ∧ ends l = [(false, "cancelled")]

theorem not_answered_errorValue {H : Host} {l : Hist} (kind : ErrorKind) (more : List (String × Value)) :
    ¬ ((∃ text, errorValue kind more = .str text) ∧ Final H l) := by
  rintro ⟨⟨text, ht⟩, -⟩
  cases ht

/-- A send came back with a status. -/
def SendFails : Item effects → Prop
  | .did (.send ..) (.ok (.error _)) => True
  | _ => False

/-- The call is admitted, its prompt parses, its conversation is created, no
send fails, and the turns are not used up. -/
structure Unhindered (H : Host) (c : RunArgs) (l : Hist) : Prop where
  admitted : ∃ d, admission H.workflow c = .admitted d
  prompt : ∀ child, H.workflow.findAgent c.child = some child →
    child.systemPrompt = "" ∨ ∃ template, TemplateString.parse child.systemPrompt = .ok template
  created : ∀ backend agent options r, .did (.createConversation backend agent options) r ∈ l → r = .ok true
  answered : ∀ i ∈ l, ¬ SendFails i
  left : ¬ UsedUp H l

namespace SubAgentRuntime

variable {K : Contract effects} {H : Host} {c : RunArgs} {l : Hist} {v : Value}

/-- A tool call is no turn. -/
theorem not_sendFails {i : Item effects} (hi : ToolItem K i) : ¬ SendFails i := by
  cases i with
  | did e a => cases e <;> first | exact absurd hi id | exact fun h => h
  | entered c sub r => exact fun h => h

theorem Polled.not_sendFails {ctx : SubAgentContext} {l : Hist} {b : Bool} (hl : Polled ctx l b) :
    ∀ i ∈ l, ¬ SendFails i := by
  intro i hi hf
  have hi := hl.polls i hi
  cases i with
  | did e a =>
    cases hi
    exact hf
  | entered c sub r => cases hi

/-- The turns create no conversation. -/
theorem Turned.not_created {ctx : SubAgentContext} {n : ℕ} {raw : String} {turned : Hist}
    {q : Except Thrown (Except ErrorKind String)} (h : Turned K H ctx n raw turned q) {backend agent : String}
    {options : ChatConversationOptions} {r : Except Thrown Bool} :
    .did (.createConversation backend agent options) r ∉ turned := by
  intro hm
  rcases h.mem _ hm with hi | ⟨message, q, hi⟩ | hi
  · cases hi
  · cases hi
  · exact hi

/-- Turns end with an error as their token was polled, or as their last send
failed. -/
theorem Turned.failed_cases {ctx : SubAgentContext} {n : ℕ} {raw : String} {turned : Hist} {kind : ErrorKind}
    (h : Turned K H ctx n raw turned (.ok (.error kind))) :
    (kind = .cancelled ∧ ∀ i ∈ turned, ¬ SendFails i) ∨ (kind = .engineError ∧ ∃ i ∈ turned, SendFails i) := by
  generalize hq : (.ok (.error kind) : Except Thrown (Except ErrorKind String)) = q at h
  induction h with
  | spent | thrown | answered | broken => cases hq
  | cancelled _ hl =>
    cases hq
    exact Or.inl ⟨rfl, hl.not_sendFails⟩
  | failed _ hl message e =>
    cases hq
    exact Or.inr ⟨rfl, _, List.mem_append_right _ (List.mem_singleton_self _), trivial⟩
  | again _ hl message _ ht _ _ ih =>
    rcases ih hq with ⟨hk, hno⟩ | ⟨hk, i, hi, hf⟩
    · refine Or.inl ⟨hk, fun i hi => ?_⟩
      rcases List.mem_append.mp hi with hi | hi
      · exact hl.not_sendFails i hi
      rcases List.mem_cons.mp hi with rfl | hi
      · exact fun h => h
      rcases List.mem_append.mp hi with hi | hi
      · exact SubAgentRuntime.not_sendFails (ht i hi)
      · exact hno i hi
    · exact Or.inr ⟨hk, i, by simp [hi], hf⟩

/-- No send of turns that return a response failed. -/
theorem Turned.answered_all {ctx : SubAgentContext} {n : ℕ} {raw answer : String} {turned : Hist}
    (h : Turned K H ctx n raw turned (.ok (.ok answer))) : ∀ i ∈ turned, ¬ SendFails i := by
  generalize hq : (.ok (.ok answer) : Except Thrown (Except ErrorKind String)) = q at h
  induction h with
  | cancelled | thrown | failed | broken => cases hq
  | spent => simp
  | answered _ hl =>
    intro i hi
    rcases List.mem_append.mp hi with hi | hi
    · exact hl.not_sendFails i hi
    · rw [List.mem_singleton.mp hi]
      exact fun h => h
  | again _ hl message _ ht _ _ ih =>
    intro i hi
    rcases List.mem_append.mp hi with hi | hi
    · exact hl.not_sendFails i hi
    rcases List.mem_cons.mp hi with rfl | hi
    · exact fun h => h
    rcases List.mem_append.mp hi with hi | hi
    · exact SubAgentRuntime.not_sendFails (ht i hi)
    · exact ih hq i hi

/-- A run with its turns is unhindered if no send of them fails, and they are
not used up. -/
theorem unhindered_of_turns {d : DelegateSpec} {child : AgentDef} {system tools id : String} {clock turned more : Hist}
    {q : Except Thrown (Except ErrorKind String)} (hp : Prepared H c d child system clock)
    (ht : Turned K H c.ctx kSubAgentMaxIter "" turned q) (hs : ∀ i ∈ turned, ¬ SendFails i)
    (hmore : ∀ i ∈ more, ¬ SendFails i ∧ ∀ backend agent options r, i ≠ .did (.createConversation backend agent options) r)
    (hu : ¬ UsedUp H (drawn id :: started c id :: clock ++ asking H c child system tools (.ok true) :: (turned ++ more))) :
    Unhindered H c (drawn id :: started c id :: clock ++ asking H c child system tools (.ok true) :: (turned ++ more)) where
  admitted := ⟨d, hp.admitted⟩
  prompt child' hc := by
    cases hc.symm.trans hp.declared
    exact hp.parses
  created backend agent options r hm := by
    rcases hp.mem hm with (hi | hi | ⟨time, hi⟩) | hm
    · cases hi
    · cases hi
    · cases hi
    rcases List.mem_cons.mp hm with hi | hm
    · cases hi
      rfl
    rcases List.mem_append.mp hm with hm | hm
    · exact absurd hm ht.not_created
    · exact absurd rfl ((hmore _ hm).2 _ _ _ _)
  answered i hm := by
    rcases hp.mem hm with (rfl | rfl | ⟨time, rfl⟩) | hm
    · exact fun h => h
    · exact fun h => h
    · exact fun h => h
    rcases List.mem_cons.mp hm with rfl | hm
    · exact fun h => h
    rcases List.mem_append.mp hm with hm | hm
    · exact hs i hm
    · exact (hmore i hm).1
  left := hu

end SubAgentRuntime

/-- **When a cancelled run says so.** In every run in which the parent's token
fires: the run is reported as cancelled unless it has a final answer, if and
only if nothing else ends it. -/
theorem reportsCancel_iff_unhindered {H : Host} {c : RunArgs} {l : Hist} {v : Value}
    (hc : c.ctx.parentCancel = some .run) (hf : Fires l) (h : Runs (runAsync H) (runAsync H c) l (some (.ok v))) :
    ReportsCancel H c l v ↔ Unhindered H c l := by
  have hran : Ran (freely fun _ _ _ => True) H c l (.ok v) := ran_of_runs (fun _ _ _ _ => trivial) h
  -- any other error is no report of a cancellation
  have hother : ∀ {kind more}, v = errorValue kind more → kind ≠ .cancelled → ¬ ReportsCancel H c l v := by
    rintro kind more rfl hk hr
    have := (hr hc hf (not_answered_errorValue kind more)).1
    cases kind <;> simp [errorValue, ErrorKind.text] at this hk
  -- with a text, the answer is what matters
  have htext : ∀ {text}, v = .str text → (Final H l ↔ ¬ UsedUp H l) → (ReportsCancel H c l v ↔ ¬ UsedUp H l) := by
    rintro text rfl hfinal
    rw [← hfinal]
    constructor
    · intro hr
      by_contra hno
      cases (hr hc hf fun h => hno h.2).1
    · exact fun hfin _ _ hno => absurd ⟨⟨text, rfl⟩, hfin⟩ hno
  generalize hr : (.ok v : Except Thrown Value) = r at hran
  cases hran with
  | unexported | uncreated | thrown => cases hr
  | unknownAgent _ ha | maxDepthExceeded _ ha =>
    cases hr
    refine iff_of_false (hother rfl (by simp)) fun hu => ?_
    obtain ⟨d, hd⟩ := hu.admitted
    cases ha.symm.trans hd
  | badTemplate _ ha hchild hp he =>
    cases hr
    refine iff_of_false (hother rfl (by simp)) fun hu => ?_
    rcases hu.prompt _ hchild with hs | ⟨template, ht⟩
    · exact hp hs
    · cases he.symm.trans ht
  | unknownBackend id hp | noConversation id hp =>
    cases hr
    refine iff_of_false (hother rfl (by simp)) fun hu => ?_
    cases hu.created _ _ _ _ (List.mem_append_right _ List.mem_cons_self)
  | failed id hp ht hl =>
    cases hr
    rcases hl.failed_cases with ⟨rfl, hs⟩ | ⟨rfl, i, hi, hfails⟩
    · refine iff_of_true (fun _ _ _ => ⟨rfl, (ends_of_turns hp hl).1⟩) (unhindered_of_turns hp hl hs ?_ fun hu => ?_)
      · intro i hi
        rw [List.mem_singleton.mp hi]
        exact ⟨fun h => h, fun _ _ _ _ he => by cases he⟩
      · have hlen := hl.length_responses_lt
        have hnone : responses [failedWith c id .cancelled] = [] := rfl
        have hused := hu.1
        rw [(ends_of_turns hp hl).2, hnone, List.append_nil] at hused
        omega
    · refine iff_of_false (hother rfl (by simp)) fun hu => hu.answered i ?_ hfails
      simp [hi]
  | extracted id hp ht hl hx =>
    cases hr
    rw [htext rfl (hl.final_iff (by rw [(ends_of_turns hp hl).2]; exact List.append_nil _))]
    refine ⟨unhindered_of_turns hp hl hl.answered_all fun i hi => ?_, Unhindered.left⟩
    rw [List.mem_singleton.mp hi]
    exact ⟨fun h => h, fun _ _ _ _ he => by cases he⟩
  | unextracted id hp ht hl hx =>
    cases hr
    rw [htext rfl (hl.final_iff (by rw [(ends_of_turns hp hl).2]; exact List.append_nil _))]
    refine ⟨unhindered_of_turns hp hl hl.answered_all fun i hi => ?_, Unhindered.left⟩
    rcases List.mem_cons.mp hi with rfl | hi
    · exact ⟨fun h => h, fun _ _ _ _ he => by cases he⟩
    · rw [List.mem_singleton.mp hi]
      exact ⟨fun h => h, fun _ _ _ _ he => by cases he⟩

/-! ### Runs -/

/-- The token fires before the second turn. -/
def firedAnswer (i : ℕ) : (e : Effect) → Option (Answer e)
  | .isCancelled => some (7 ≤ i)
  | e => officeAnswer i e

/-- The planner delegates to the worker, with the token of its run. -/
def watchedCall : RunArgs := ⟨"planner", "worker", "tidy up", { parentCancel := some .run }⟩

theorem reportsCancel_iff_unhindered_office : ∃ l, Runs (runAsync officeHost) (runAsync officeHost watchedCall) l
    (some (.ok (errorValue .cancelled []))) ∧ ends l = [(false, "cancelled")] ∧ Unhindered officeHost watchedCall l := by
  have hr := Coroutine.runs_replay (runAsync officeHost) firedAnswer 40 0 (runAsync officeHost watchedCall)
  have ho : (Coroutine.replay (runAsync officeHost) firedAnswer 40 0 (runAsync officeHost watchedCall)).2.2 =
      some (.ok (errorValue .cancelled [])) := by decide
  have hends : ends (Coroutine.replay (runAsync officeHost) firedAnswer 40 0 (runAsync officeHost watchedCall)).1 =
      [(false, "cancelled")] := by decide
  have hf : Fires (Coroutine.replay (runAsync officeHost) firedAnswer 40 0 (runAsync officeHost watchedCall)).1 :=
    ⟨2, 1, by decide⟩
  rw [ho] at hr
  exact ⟨_, hr, hends, (reportsCancel_iff_unhindered rfl hf hr).mp fun _ _ _ => ⟨rfl, hends⟩⟩

/-- The token fires while a send is in flight, which comes back with a status. -/
def interruptedAnswer (i : ℕ) : (e : Effect) → Option (Answer e)
  | .send .. => some (.ok (.error ⟨.cancelled, "cancelled"⟩))
  | e => officeAnswer i e

/-- An interrupted send is reported as an error of the engine. -/
theorem not_reportsCancel : ∃ l v, Runs (runAsync officeHost) (runAsync officeHost watchedCall) l (some (.ok v)) ∧
    Fires l ∧ ¬ ReportsCancel officeHost watchedCall l v := by
  have hr := Coroutine.runs_replay (runAsync officeHost) interruptedAnswer 40 0 (runAsync officeHost watchedCall)
  have ho : (Coroutine.replay (runAsync officeHost) interruptedAnswer 40 0 (runAsync officeHost watchedCall)).2.2 =
      some (.ok (errorValue .engineError [])) := by decide
  have hf : Fires (Coroutine.replay (runAsync officeHost) interruptedAnswer 40 0 (runAsync officeHost watchedCall)).1 :=
    ⟨1, 0, by decide⟩
  rw [ho] at hr
  refine ⟨_, _, hr, hf, fun hreport => ?_⟩
  have hv := (hreport rfl hf (not_answered_errorValue _ _)).1
  simp [errorValue, ErrorKind.text] at hv

end AgentFlow.Workflow
