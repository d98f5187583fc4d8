/-
# Tool calls side by side

`AgentNode::Run` starts a coroutine for each tool call of a response, with a
channel of capacity one for its result, and then receives from the channels in
the order of the calls. The coroutines end in any order, with a result that is
sent or with an exception that closes the channel.

Whatever the order, what the node collects for a call is how that call's own
coroutine ended (`Dispatch.Kept`, `Dispatch.collected`).

Key definitions: `Dispatch`, `Dispatch.step`, `Dispatch.Kept`.
Key theorems: `Dispatch.kept_step`, `Dispatch.collected`,
`Dispatch.not_waiting`.
-/
import AgentFlow.Lib.Channel
import AgentFlow.Lib.Run
import AgentFlow.Nodes.AgentNode
import AgentFlow.Workflow.Effects

namespace AgentFlow.Workflow

open Stepping (Run)

/-- A tool call that was started: the channel of its result, and how its
coroutine ended. -/
structure Task where
  channel : Chan Unit String
  outcome : Option (Except Thrown String)
  deriving DecidableEq

/-- The node: about to receive, waiting, or with what it has received. -/
inductive Collector
  | ready
  | waiting
  | resumed (c : Completion String)
  deriving DecidableEq

structure Dispatch where
  calls : List Call
  tasks : List Task
  received : List (Completion String)
  collector : Collector
  deriving DecidableEq

/-- What a receive completes with when the coroutine has ended. -/
def completion : Except Thrown String → Completion String
  | .ok result => .value result
  | .error _ => .closed

namespace Task

def spawned : Task := ⟨.empty, none⟩

/-- The coroutine ends: its result is sent, or the channel is closed. With
what a node that waits is resumed. -/
def finish (r : Except Thrown String) (task : Task) : Task × Option (Completion String) :=
  match r with
  | .ok result =>
    match task.channel.trySend 1 result with
    | (channel, .handed _) => (⟨channel, some r⟩, some (.value result))
    | (channel, _) => (⟨channel, some r⟩, none)
  | .error _ =>
    match task.channel.close with
    | (channel, []) => (⟨channel, some r⟩, none)
    | (channel, _ :: _) => (⟨channel, some r⟩, some .closed)

end Task

namespace Dispatch

def start (calls : List Call) : Dispatch := ⟨calls, [], [], .ready⟩

inductive Choice
  /-- The coroutine of the next call is started. -/
  | spawn
  /-- The coroutine of the `i`-th call ends. -/
  | finish (i : ℕ) (r : Except Thrown String)
  /-- The node receives from the channel of the next call. -/
  | receive
  | resume
  deriving DecidableEq

/-- The node receives when all calls are started. -/
def step (choice : Choice) (s : Dispatch) : Option Dispatch :=
  match choice with
  | .spawn =>
    if s.tasks.length < s.calls.length then some { s with tasks := s.tasks ++ [Task.spawned] } else none
  | .finish i r =>
    match s.tasks[i]? with
    | some task =>
      if task.outcome = none then
        some { s with
          tasks := s.tasks.set i (task.finish r).1
          collector := (task.finish r).2.elim s.collector .resumed }
      else none
    | none => none
  | .receive =>
    if s.collector = .ready ∧ s.tasks.length = s.calls.length then
      match s.tasks[s.received.length]? with
      | some task =>
        some { s with
          tasks := s.tasks.set s.received.length { task with channel := (task.channel.receive ()).1 }
          collector := (task.channel.receive ()).2.elim .waiting .resumed }
      | none => none
    else none
  | .resume =>
    match s.collector with
    | .resumed c => some { s with received := s.received ++ [c], collector := .ready }
    | _ => none

/-- How the coroutines may end: the one of a call as `P` has it. -/
def Ends (P : Call → Except Thrown String → Prop) (s : Dispatch) : Choice → Prop
  | .finish i r => ∀ call, s.calls[i]? = some call → P call r
  | _ => True

/-- All results are there. -/
def Collected (s : Dispatch) : Prop := s.received.length = s.calls.length

/-- The results, for the message to the model: nothing for a closed channel. -/
def results (s : Dispatch) : List (Option String) :=
  s.received.map fun
    | .value v => some v
    | _ => none

/-- A channel that holds how its coroutine ended. -/
def held : Except Thrown String → Chan Unit String
  | .ok result => ⟨[result], [], false⟩
  | .error _ => ⟨[], [], true⟩

/-- Where the `i`-th result is: it is to come, or in its channel, or on its
way to the node, or with it. -/
def Kept (s : Dispatch) (i : ℕ) (task : Task) : Prop :=
  match task.outcome with
  | none => s.received.length ≤ i ∧
      ((i ≠ s.received.length ∧ task.channel = .empty) ∨
        (i = s.received.length ∧ s.collector = .ready ∧ task.channel = .empty) ∨
        (i = s.received.length ∧ s.collector = .waiting ∧ task.channel = ⟨[], [()], false⟩))
  | some r => s.received[i]? = some (completion r) ∨
      (i = s.received.length ∧ s.collector = .resumed (completion r)) ∨
      (s.received.length ≤ i ∧ (i = s.received.length → s.collector = .ready) ∧ task.channel = held r)

/-- Each result is where it is kept, and the node is not ahead of the calls. -/
structure InOrder (P : Call → Except Thrown String → Prop) (s : Dispatch) : Prop where
  kept : ∀ (i : ℕ) (task : Task), s.tasks[i]? = some task → s.Kept i task
  ended : ∀ (i : ℕ) (task : Task) (call : Call) (r : Except Thrown String), s.tasks[i]? = some task →
    s.calls[i]? = some call → task.outcome = some r → P call r
  started : s.tasks.length ≤ s.calls.length
  behind : s.received.length ≤ s.tasks.length
  busy : s.collector ≠ .ready → s.received.length < s.tasks.length

variable {P : Call → Except Thrown String → Prop} {s s' : Dispatch}

theorem inOrder_start (calls : List Call) : (start calls).InOrder P where
  kept := by simp [start]
  ended := by simp [start]
  started := by simp [start]
  behind := by simp [start]
  busy := by simp [start]

theorem InOrder.spawn (h : s.InOrder P) (hs : step .spawn s = some s') : s'.InOrder P := by
  simp only [step] at hs
  split_ifs at hs with hlt
  cases hs
  have hnew : ∀ i task, (s.tasks ++ [Task.spawned])[i]? = some task →
      s.tasks[i]? = some task ∨ i = s.tasks.length ∧ task = Task.spawned := by
    intro i task hi
    rw [List.getElem?_append] at hi
    split_ifs at hi with hlt
    · exact Or.inl hi
    · obtain ⟨hi0, ht⟩ := List.getElem?_eq_some_iff.mp hi
      simp only [List.length_singleton, Nat.lt_one_iff] at hi0
      exact Or.inr ⟨by omega, by simpa [hi0] using ht.symm⟩
  refine ⟨fun i task hi => ?_, fun i task call r hi hcall hr => ?_, ?_, ?_, fun hc => ?_⟩
  · rcases hnew i task hi with hi | ⟨rfl, rfl⟩
    · exact h.kept i task hi
    · refine ⟨h.behind, ?_⟩
      -- a node that has nothing to receive from is about to
      by_cases hb : s.tasks.length = s.received.length
      · refine Or.inr (Or.inl ⟨hb, ?_, rfl⟩)
        by_contra hc
        exact absurd (h.busy hc) (by omega)
      · exact Or.inl ⟨hb, rfl⟩
  · rcases hnew i task hi with hi | ⟨rfl, rfl⟩
    · exact h.ended i task call r hi hcall hr
    · cases hr
  · simpa using hlt
  · simpa using Nat.le_succ_of_le h.behind
  · simpa using Nat.lt_succ_of_lt (h.busy hc)

/-- A coroutine that ends: its channel holds the result, or the node has it. -/
theorem finish_cases (r : Except Thrown String) {task : Task} (hn : task.outcome = none) :
    (task.channel = .empty → task.finish r = (⟨held r, some r⟩, none)) ∧
      (task.channel = ⟨[], [()], false⟩ → ∃ channel, task.finish r = (⟨channel, some r⟩, some (completion r))) := by
  obtain ⟨channel, outcome⟩ := task
  constructor
  · rintro rfl
    cases r <;> rfl
  · rintro rfl
    cases r with
    | ok result => exact ⟨⟨[], [], false⟩, rfl⟩
    | error x => exact ⟨⟨[], [], true⟩, rfl⟩

theorem InOrder.finish {i : ℕ} {r : Except Thrown String} (h : s.InOrder P) (hP : s.Ends P (.finish i r))
    (hs : step (.finish i r) s = some s') : s'.InOrder P := by
  simp only [step] at hs
  cases hi : s.tasks[i]? with
  | none => simp [hi] at hs
  | some task =>
    simp only [hi] at hs
    split_ifs at hs with hn
    cases hs
    have hlt : i < s.tasks.length := (List.getElem?_eq_some_iff.mp hi).1
    have hk := h.kept i task hi
    rw [Kept, hn] at hk
    obtain ⟨hle, hk⟩ := hk
    have hout : (task.finish r).1.outcome = some r := by
      obtain ⟨channel, outcome⟩ := task
      cases r <;> simp only [Task.finish] <;> split <;> rfl
    have hcases : ((task.finish r).2 = none ∧ (task.finish r).1.channel = held r ∧
          (i = s.received.length → s.collector = .ready)) ∨
        (i = s.received.length ∧ s.collector = .waiting ∧ (task.finish r).2 = some (completion r)) := by
      rcases hk with ⟨hne, hch⟩ | ⟨-, hc, hch⟩ | ⟨hei, hc, hch⟩
      · exact Or.inl ⟨by rw [(finish_cases r hn).1 hch], by rw [(finish_cases r hn).1 hch], fun he => absurd he hne⟩
      · exact Or.inl ⟨by rw [(finish_cases r hn).1 hch], by rw [(finish_cases r hn).1 hch], fun _ => hc⟩
      · obtain ⟨channel, he⟩ := (finish_cases r hn).2 hch
        exact Or.inr ⟨hei, hc, by rw [he]⟩
    refine ⟨fun j task' hj => ?_, fun j task' call r' hj hcall hr => ?_, ?_, ?_, fun hc => ?_⟩
    · rw [List.getElem?_set] at hj
      by_cases hij : i = j
      · subst hij
        simp only [if_true, hlt, Option.some.injEq] at hj
        subst hj
        rw [Kept, hout]
        rcases hcases with ⟨hc, hch, hready⟩ | ⟨hei, -, hc⟩
        · exact Or.inr (Or.inr ⟨hle, fun he => by simp [hc, hready he], hch⟩)
        · exact Or.inr (Or.inl ⟨hei, by simp [hc]⟩)
      · rw [if_neg hij] at hj
        have hkj := h.kept j task' hj
        rcases hcases with ⟨hc, -, -⟩ | ⟨hei, hw, hc⟩
        · simpa only [Kept, hc, Option.elim_none] using hkj
        · -- the other calls are not the one that the node waits for
          have hne : j ≠ s.received.length := fun he => hij (hei.trans he.symm)
          unfold Kept at hkj ⊢
          cases ho : task'.outcome with
          | none =>
            simp only [ho] at hkj ⊢
            exact ⟨hkj.1, Or.inl ⟨hne, by simpa [hne] using hkj.2⟩⟩
          | some r' =>
            simp only [ho] at hkj ⊢
            simpa [hne] using hkj
    · rw [List.getElem?_set] at hj
      by_cases hij : i = j
      · subst hij
        simp only [if_true, hlt, Option.some.injEq] at hj
        subst hj
        rw [hout] at hr
        cases hr
        exact hP call hcall
      · rw [if_neg hij] at hj
        exact h.ended j task' call r' hj hcall hr
    · simpa using h.started
    · simpa using h.behind
    · simp only [List.length_set]
      rcases hcases with ⟨hnone, -, -⟩ | ⟨hei, -, -⟩
      · refine h.busy ?_
        simpa [hnone] using hc
      · omega

theorem InOrder.receive (h : s.InOrder P) (hs : step .receive s = some s') : s'.InOrder P := by
  simp only [step] at hs
  split_ifs at hs with hc
  obtain ⟨hready, hall⟩ := hc
  cases hi : s.tasks[s.received.length]? with
  | none => simp [hi] at hs
  | some task =>
    simp only [hi, Option.some.injEq] at hs
    subst hs
    have hlt : s.received.length < s.tasks.length := (List.getElem?_eq_some_iff.mp hi).1
    refine ⟨fun j task' hj => ?_, fun j task' call r' hj hcall hr => ?_, ?_, ?_, fun _ => ?_⟩
    · rw [List.getElem?_set] at hj
      by_cases hij : s.received.length = j
      · subst hij
        simp only [if_true, hlt, Option.some.injEq] at hj
        subst hj
        have hk := h.kept _ task hi
        unfold Kept at hk ⊢
        cases ho : task.outcome with
        | none =>
          simp only [ho, hready] at hk ⊢
          have hch : task.channel = .empty := by simpa using hk
          exact ⟨le_rfl, by simp [hch, Chan.receive, Chan.empty]⟩
        | some r =>
          simp only [ho, hready] at hk ⊢
          have hch : task.channel = held r := by simpa using hk
          refine Or.inr (Or.inl ⟨trivial, ?_⟩)
          rw [hch]
          cases r <;> rfl
      · rw [if_neg hij] at hj
        have hkj := h.kept j task' hj
        have hne : j ≠ s.received.length := fun he => hij he.symm
        unfold Kept at hkj ⊢
        cases ho : task'.outcome with
        | none => simpa [ho, hne] using hkj
        | some r => simpa [ho, hne] using hkj
    · rw [List.getElem?_set] at hj
      by_cases hij : s.received.length = j
      · subst hij
        simp only [if_true, hlt, Option.some.injEq] at hj
        subst hj
        exact h.ended _ task call r' hi hcall hr
      · rw [if_neg hij] at hj
        exact h.ended j task' call r' hj hcall hr
    · simpa using h.started
    · simpa using h.behind
    · simpa using hlt

theorem InOrder.resume (h : s.InOrder P) (hs : step .resume s = some s') : s'.InOrder P := by
  simp only [step] at hs
  split at hs
  · next c hc =>
    cases hs
    have hlt := h.busy (by simp [hc])
    refine ⟨fun j task hj => ?_, h.ended, h.started, by simpa using hlt, by simp⟩
    have hk := h.kept j task hj
    unfold Kept at hk ⊢
    cases ho : task.outcome with
    | none =>
      simp only [ho, hc] at hk ⊢
      obtain ⟨hle, hk⟩ := hk
      obtain ⟨hne, hch⟩ : j ≠ s.received.length ∧ task.channel = .empty := by simpa using hk
      have hlt' : s.received.length + 1 ≤ j := by omega
      refine ⟨by simpa using hlt', ?_⟩
      by_cases he : j = s.received.length + 1
      · exact Or.inr (Or.inl ⟨by simpa using he, by simp, hch⟩)
      · exact Or.inl ⟨by simpa using he, hch⟩
    | some r =>
      simp only [ho, hc] at hk ⊢
      rcases hk with hk | ⟨rfl, hk⟩ | ⟨hle, hk, hch⟩
      · refine Or.inl ?_
        rw [List.getElem?_append_left (List.getElem?_eq_some_iff.mp hk).1]
        exact hk
      · cases hk
        exact Or.inl (by simp)
      · have hne : j ≠ s.received.length := fun he => by simpa using hk he
        refine Or.inr (Or.inr ⟨?_, by simp, hch⟩)
        simp only [List.length_append, List.length_singleton]
        omega
  · cases hs

theorem kept_step {choice : Choice} (h : s.InOrder P) (hok : s.Ends P choice) (hs : step choice s = some s') :
    s'.InOrder P := by
  cases choice with
  | spawn => exact h.spawn hs
  | finish i r => exact h.finish hok hs
  | receive => exact h.receive hs
  | resume => exact h.resume hs

theorem calls_step {choice : Choice} (hs : step choice s = some s') : s'.calls = s.calls := by
  cases choice with
  | spawn =>
    simp only [step] at hs
    split_ifs at hs
    cases hs
    rfl
  | finish i r =>
    simp only [step] at hs
    split at hs
    · split_ifs at hs
      cases hs
      rfl
    · cases hs
  | receive =>
    simp only [step] at hs
    split_ifs at hs
    split at hs
    · cases hs
      rfl
    · cases hs
  | resume =>
    simp only [step] at hs
    split at hs
    · cases hs
      rfl
    · cases hs

theorem inOrder {calls : List Call} {choices : List Choice} (h : Run step (Ends P) (start calls) choices s) :
    s.InOrder P ∧ s.calls = calls := by
  have h0 : (start calls).InOrder P ∧ (start calls).calls = calls := ⟨inOrder_start calls, rfl⟩
  exact h.invariant (I := fun s => s.InOrder P ∧ s.calls = calls)
    (fun _ _ _ hx hok hs => ⟨kept_step hx.1 hok hs, (calls_step hs).trans hx.2⟩) h0

/-- **In the order of the calls.** When all results are there, the result of a
call is how its own coroutine ended. -/
theorem collected {calls : List Call} {choices : List Choice} (h : Run step (Ends P) (start calls) choices s)
    (hc : s.Collected) : ∃ outcomes : List (Except Thrown String), List.Forall₂ P calls outcomes ∧
      s.results = outcomes.map Except.toOption := by
  obtain ⟨hi, rfl⟩ := inOrder h
  have hlen : s.tasks.length = s.calls.length := le_antisymm hi.started (hc ▸ hi.behind)
  have hready : s.collector = .ready := by
    by_contra hne
    exact absurd (hi.busy hne) (by rw [hlen, hc]; exact lt_irrefl _)
  have hended : ∀ i < s.calls.length, ∃ r, (s.tasks[i]?.bind Task.outcome) = some r ∧
      s.received[i]? = some (completion r) := by
    intro i hlt
    obtain ⟨task, htask⟩ : ∃ task, s.tasks[i]? = some task := ⟨_, List.getElem?_eq_getElem (by omega)⟩
    have hk := hi.kept i _ htask
    unfold Kept at hk
    rw [htask]
    cases ho : task.outcome with
    | none =>
      simp only [ho] at hk
      have := hk.1
      rw [hc] at this
      omega
    | some r =>
      simp only [ho, hready] at hk
      refine ⟨r, by simpa using ho, ?_⟩
      rcases hk with hk | ⟨-, hk⟩ | ⟨hle, -⟩
      · exact hk
      · cases hk
      · rw [hc] at hle
        omega
  refine ⟨s.tasks.map fun task => task.outcome.getD (.error .other), ?_, ?_⟩
  · refine List.forall₂_iff_get.mpr ⟨by simpa using hlen.symm, fun i h₁ h₂ => ?_⟩
    obtain ⟨r, hr, -⟩ := hended i h₁
    obtain ⟨task, htask, hout⟩ := Option.bind_eq_some_iff.mp hr
    have hP := hi.ended i _ _ r htask (List.getElem?_eq_getElem h₁) hout
    obtain ⟨hlt, rfl⟩ := List.getElem?_eq_some_iff.mp htask
    simpa [hout] using hP
  · refine List.ext_getElem? fun i => ?_
    by_cases hlt : i < s.calls.length
    · obtain ⟨r, hr, hrec⟩ := hended i hlt
      obtain ⟨task, htask, hout⟩ := Option.bind_eq_some_iff.mp hr
      simp only [results, List.getElem?_map, hrec, htask, hout, Option.map_some, Option.getD_some]
      cases r <;> rfl
    · have hlen' : s.results.length = s.calls.length := by rw [results, List.length_map, hc]
      rw [List.getElem?_eq_none (by omega), List.getElem?_eq_none (by rw [List.length_map, List.length_map]; omega)]

/-- When all coroutines have ended the node does not wait. -/
theorem not_waiting {calls : List Call} {choices : List Choice} (h : Run step (Ends P) (start calls) choices s)
    (hall : ∀ task ∈ s.tasks, task.outcome ≠ none) : s.collector ≠ .waiting := by
  obtain ⟨hi, -⟩ := inOrder h
  intro hw
  have hlt := hi.busy (by simp [hw])
  have htask := List.getElem?_eq_getElem hlt
  have hk := hi.kept _ _ htask
  unfold Kept at hk
  cases ho : s.tasks[s.received.length].outcome with
  | none => exact hall _ (List.getElem_mem hlt) ho
  | some r => simp [ho, hw] at hk

end Dispatch

end AgentFlow.Workflow
