/-
# Turns that are used up

A sub-agent has eight turns. A loop that has used them up while its model
still asks for tools ends like one with a final answer: the span ends with
success, and the text of the last tool calls is the result. The loop of a
node throws there.

`AnswersOnly` says that success is reported only with a final answer, and that
turns that are used up are an error. It holds of exactly the runs whose turns
are not used up.

Key definitions: `ToRun`, `UsedUp`, `ends`, `AnswersOnly`.
Key theorems: `Ran.returns`, `answersOnly_iff_not_usedUp`, `not_answersOnly`.
-/
import AgentFlow.Workflow.Boundary
import AgentFlow.Workflow.RunShape

namespace AgentFlow.Workflow

open Json
open SubAgentRuntime

/-- The response asks for a tool call that is to be run. -/
def ToRun (H : Host) (response : String) : Prop := ∃ call calls, asked H.ordered response = some (call :: calls)

/-- All turns had a response, and the last one asks for tool calls. -/
def UsedUp (H : Host) (l : Hist) : Prop :=
  (responses l).length = kSubAgentMaxIter ∧ ∃ response, (responses l).getLast? = some response ∧ ToRun H response

/-- There is a last response, and it asks for no tool call. -/
def Final (H : Host) (l : Hist) : Prop := ∃ response, (responses l).getLast? = some response ∧ ¬ ToRun H response

def end? : Item effects → Option (Bool × String)
  | .did (.subAgentEnd _ _ success kind _) _ => some (success, kind)
  | _ => none

/-- How a run ends its span: whether with success, and the error kind. -/
def ends (l : Hist) : List (Bool × String) := l.filterMap end?

/-- Success is reported and a text is returned only with a final answer, and
turns that are used up are an error. -/
structure AnswersOnly (H : Host) (l : Hist) (v : Value) : Prop where
  final : (∃ kind, (true, kind) ∈ ends l) ∨ (∃ text, v = .str text) → Final H l
  exhausted : UsedUp H l → (false, "max_iter_exceeded") ∈ ends l ∧
    ∃ more, v = .obj (("error", .str "max_iter_exceeded") :: more)

theorem ends_append (h l : Hist) : ends (h ++ l) = ends h ++ ends l := List.filterMap_append

/-- A history that closes no span ends none. -/
theorem ends_of_outline {l : Hist} {n : ℕ} (h : outline l = List.replicate n .nested) : ends l = [] := by
  refine List.filterMap_eq_nil_iff.mpr fun i hi => ?_
  by_contra hend
  obtain ⟨m, hm⟩ : ∃ m, mark? i = some m ∧ m ≠ .nested := by
    cases i with
    | did e a => cases e <;> first | exact absurd rfl hend | exact ⟨_, rfl, by simp⟩
    | entered c sub r => exact absurd rfl hend
  have hmem : m ∈ outline l := List.mem_filterMap.mpr ⟨i, hi, hm.1⟩
  rw [h] at hmem
  exact hm.2 (List.mem_replicate.mp hmem).2

namespace SubAgentRuntime

variable {K : Contract effects} {H : Host} {c : RunArgs} {l : Hist} {v : Value}

theorem Turned.ends {ctx : SubAgentContext} {n : ℕ} {raw : String} {r : Except Thrown (Except ErrorKind String)}
    (h : Turned K H ctx n raw l r) : ends l = [] := by
  obtain ⟨k, hk⟩ := h.outline
  exact ends_of_outline hk

theorem Prepared.ends {d : DelegateSpec} {child : AgentDef} {system : String} {clock : Hist}
    (h : Prepared H c d child system clock) : ends clock = [] ∧ responses clock = [] := by
  rcases h.prompt with ⟨-, -, rfl⟩ | ⟨_, _, -, -, -, rfl⟩
  · exact ⟨rfl, rfl⟩
  · exact ⟨rfl, rfl⟩

/-- The ends and the responses of a run with its turns. -/
theorem ends_of_turns {d : DelegateSpec} {child : AgentDef} {system tools id : String} {clock turned more : Hist}
    {q : Except Thrown (Except ErrorKind String)} (hp : Prepared H c d child system clock)
    (ht : Turned K H c.ctx kSubAgentMaxIter "" turned q) :
    Workflow.ends (drawn id :: started c id :: clock ++ asking H c child system tools (.ok true) :: (turned ++ more)) =
        Workflow.ends more ∧
      responses (drawn id :: started c id :: clock ++ asking H c child system tools (.ok true) :: (turned ++ more)) =
        responses turned ++ responses more := by
  have hsplit : drawn id :: started c id :: clock ++ asking H c child system tools (.ok true) :: (turned ++ more) =
      [drawn id, started c id] ++ (clock ++ ([asking H c child system tools (.ok true)] ++ (turned ++ more))) := rfl
  rw [hsplit]
  refine ⟨?_, ?_⟩
  · rw [ends_append, ends_append, ends_append, ends_append, hp.ends.1, ht.ends]
    rfl
  · rw [responses_append, responses_append, responses_append, responses_append, hp.ends.2]
    rfl

/-- Turns that return a response are used up, or have a final one. -/
theorem Turned.final_iff {ctx : SubAgentContext} {answer : String} {turned : Hist}
    (h : Turned K H ctx kSubAgentMaxIter "" turned (.ok (.ok answer))) (hl : responses l = responses turned) :
    Final H l ↔ ¬ UsedUp H l := by
  obtain ⟨hlast, hend⟩ := h.last_response
  rw [← hl] at hlast hend
  have hne : responses l ≠ [] := by
    rcases hend with hend | ⟨hne, -⟩
    · rintro hnil
      simp [hnil, kSubAgentMaxIter] at hend
    · exact hne
  have hlast' : (responses l).getLast? = some answer := by
    rw [← hlast, List.getLast?_eq_some_getLast hne, Option.getD_some]
  constructor
  · rintro ⟨response, hr, hnot⟩ ⟨-, response', hr', hrun⟩
    cases hr.symm.trans hr'
    exact hnot hrun
  · refine fun hu => ⟨answer, hlast', fun hrun => ?_⟩
    rcases hend with hend | ⟨-, ha⟩
    · exact hu ⟨hend, answer, hlast', hrun⟩
    · obtain ⟨call, calls, hc⟩ := hrun
      rw [ha] at hc
      cases hc

/-- **How a run returns**: with an error, of which its span tells, or with a
text after its turns. -/
theorem Ran.returns (h : Ran K H c l (.ok v)) :
    (∃ kind more, v = errorValue kind more ∧ Workflow.ends l = [(false, kind.text)]) ∨
    ∃ text raw turned, v = .str text ∧ responses l = responses turned ∧
      Turned K H c.ctx kSubAgentMaxIter "" turned (.ok (.ok raw)) := by
  generalize hr : (.ok v : Except Thrown Value) = r at h
  cases h with
  | unexported | uncreated | thrown => cases hr
  | unknownAgent | maxDepthExceeded | badTemplate =>
    cases hr
    exact Or.inl ⟨_, _, rfl, rfl⟩
  | unknownBackend id hp | noConversation id hp =>
    cases hr
    have hstart : Workflow.ends (drawn id :: started c id :: _) = [] := hp.ends.1
    exact Or.inl ⟨_, _, rfl, by rw [ends_append, hstart]; rfl⟩
  | failed id hp ht hl =>
    cases hr
    exact Or.inl ⟨_, _, rfl, (ends_of_turns hp hl).1⟩
  | extracted id hp ht hl =>
    cases hr
    exact Or.inr ⟨_, _, _, rfl, by rw [(ends_of_turns hp hl).2]; exact List.append_nil _, hl⟩
  | unextracted id hp ht hl =>
    cases hr
    exact Or.inr ⟨_, _, _, rfl, by rw [(ends_of_turns hp hl).2]; exact List.append_nil _, hl⟩

end SubAgentRuntime

/-- **When success means an answer.** A run that returns reports success only
with a final answer, and turns that are used up as an error, if and only if
its turns are not used up. -/
theorem answersOnly_iff_not_usedUp {H : Host} {c : RunArgs} {l : Hist} {v : Value}
    (h : Runs (runAsync H) (runAsync H c) l (some (.ok v))) : AnswersOnly H l v ↔ ¬ UsedUp H l := by
  have hran : Ran (freely fun _ _ _ => True) H c l (.ok v) := ran_of_runs (fun _ _ _ _ => trivial) h
  constructor
  · intro ha hu
    obtain ⟨-, more, hv⟩ := ha.exhausted hu
    rcases hran.returns with ⟨kind, more', hv', -⟩ | ⟨text, -, -, hv', -⟩
    · -- no error kind of the code is that one
      rw [hv'] at hv
      cases kind <;> simp [errorValue, ErrorKind.text] at hv
    · rw [hv'] at hv
      cases hv
  · intro hu
    refine ⟨fun hs => ?_, fun h => absurd h hu⟩
    rcases hran.returns with ⟨kind, more, rfl, he⟩ | ⟨text, raw, turned, -, hresp, ht⟩
    · exfalso
      rcases hs with ⟨kind', hs⟩ | ⟨text, hs⟩
      · rw [he] at hs
        simp at hs
      · cases hs
    · exact (ht.final_iff hresp).mpr hu

/-! ### A run -/

/-- The planner delegates to the worker. -/
def officeCall : RunArgs := ⟨"planner", "worker", "tidy up", {}⟩

theorem answersOnly_office : ∃ l, Runs (runAsync officeHost) (runAsync officeHost officeCall) l (some (.ok (.str "done"))) ∧
    (responses l).length = 2 ∧ AnswersOnly officeHost l (.str "done") := by
  have hr := Coroutine.runs_replay (runAsync officeHost) officeAnswer 40 0 (runAsync officeHost officeCall)
  have ho : (Coroutine.replay (runAsync officeHost) officeAnswer 40 0 (runAsync officeHost officeCall)).2.2 =
      some (.ok (.str "done")) := by decide
  have hlen : responses (Coroutine.replay (runAsync officeHost) officeAnswer 40 0 (runAsync officeHost officeCall)).1 =
      ["delete it", "done"] := by decide
  rw [ho] at hr
  refine ⟨_, hr, by rw [hlen]; rfl, (answersOnly_iff_not_usedUp hr).mpr fun hu => ?_⟩
  simp [UsedUp, hlen, kSubAgentMaxIter] at hu

/-- The worker never answers but asks to delete all files. -/
def restlessAnswer (i : ℕ) : (e : Effect) → Option (Answer e)
  | .send .. => some (.ok (.ok "delete it"))
  | e => officeAnswer i e

/-- Eight responses ask for a tool call, and the last is returned as the answer. -/
theorem not_answersOnly : ∃ l v, Runs (runAsync officeHost) (runAsync officeHost officeCall) l (some (.ok v)) ∧
    ¬ AnswersOnly officeHost l v := by
  have hr := Coroutine.runs_replay (runAsync officeHost) restlessAnswer 80 0 (runAsync officeHost officeCall)
  have hlen : responses (Coroutine.replay (runAsync officeHost) restlessAnswer 80 0
      (runAsync officeHost officeCall)).1 = List.replicate 8 "delete it" := by decide
  have ho : (Coroutine.replay (runAsync officeHost) restlessAnswer 80 0 (runAsync officeHost officeCall)).2.2 =
      some (.ok (.str "delete it")) := by decide
  have hasked : asked officeHost.ordered "delete it" = some [⟨"delete_file", "call-1", "all files"⟩] := by decide
  rw [ho] at hr
  refine ⟨_, _, hr, fun ha => ?_⟩
  obtain ⟨response, hlast, hnot⟩ := ha.final (Or.inr ⟨_, rfl⟩)
  rw [hlen] at hlast
  obtain rfl := Option.some.inj hlast
  exact hnot ⟨_, _, hasked⟩

end AgentFlow.Workflow
