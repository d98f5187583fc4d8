/-
# The deltas of a delegated sub-agent

`agentflow/workflow/delegate_tool.cc`: a call of the `delegate` tool gives its
sub-agent a token channel of its own, and spawns a coroutine that forwards what
comes over it to the run-wide channel, until an empty text. The sub-agent's
sink waits for room in the one channel (`sub_agent_runtime.cc`), the parent's
for room in the other (`agent_node.cc`). When `RunAsync` has returned the tool
sends the empty text and returns: it does not wait for the forwarding
coroutine, and what the parent streams next may overtake what is left in the
channel of the call. The `delegate` tool of a sub-agent has no such channel:
its sub-agent's sink waits on the one of the caller.

Each party is a coroutine; a choice says which one takes its next step, up to
the next `co_await` that waits. The run-wide channel has any capacity, is not
closed, and may hold deltas from before the call.

Key definitions: `Forwarding`, `Forwarding.step`, `Forwarding.stream`,
`Forwarding.ahead`, `Forwarding.Flows`.
Key theorems: `Forwarding.Wired.sendSub`, `Forwarding.Wired.sendTop`,
`Forwarding.Wired.step`.
-/
import AgentFlow.Lib.Pipe
import AgentFlow.Lib.Run

namespace AgentFlow.Workflow

open Stepping

/-- Who streamed a delta: somebody before the call, the sub-agent, or the
parent agent once it has the result of the call. -/
inductive Streamer
  | earlier
  | subAgent
  | parent
  deriving DecidableEq, Repr

/-- A delta on the run-wide channel. -/
structure Delta where
  streamer : Streamer
  text : String
  deriving DecidableEq, Repr

/-- The coroutine of the `delegate` call: `RunAsync`, and the sentinel after it. -/
inductive CallPc
  | running
  | sending
  | ending
  | returned
  deriving DecidableEq, Repr

/-- The forwarding coroutine. -/
inductive DrainPc
  | receive
  | waiting
  | holding (tok : String)
  | sending
  | ended
  deriving DecidableEq, Repr

/-- `RunAsync` has returned. -/
def CallPc.finished : CallPc → Bool
  | .ending => true
  | .returned => true
  | _ => false

/-- The text that was received and is not yet sent on. -/
def DrainPc.held : DrainPc → List String
  | .holding tok => [tok]
  | _ => []

def DrainPc.rank : DrainPc → ℕ
  | .receive => 1
  | .holding _ => 4
  | _ => 0

/-- Who sends on the run-wide channel. -/
inductive TopSender
  | drain
  | parent
  deriving DecidableEq, Repr

/-- The parties and their channels. `emitted` and `received` are what the
sub-agent has streamed and what the consumer has got. -/
structure Forwarding where
  call : CallPc
  drain : DrainPc
  parentSending : Bool
  consumerWaiting : Bool
  subCh : Pipe Unit Unit String
  top : Pipe TopSender Unit Delta
  emitted : List String
  received : List Delta
  deriving DecidableEq, Repr

namespace Forwarding

/-- The capacity of the channel of a call. -/
def kSubCapacity : ℕ := 4096

/-- The call begins, with older deltas still to be consumed. -/
def start (older : List String) : Forwarding where
  call := .running
  drain := .receive
  parentSending := false
  consumerWaiting := false
  subCh := .empty
  top := ⟨older.map fun t => ⟨.earlier, t⟩, [], []⟩
  emitted := []
  received := []

/-- The sub-agent's sink streams a delta, `RunAsync` returns, the forwarding
coroutine goes on, the parent's sink streams a delta, the consumer receives. -/
inductive Choice
  | onToken (delta : String)
  | runAsyncReturns
  | drain
  | parentOnToken (delta : String)
  | consume
  deriving DecidableEq, Repr

/-- `async_send` on the channel of the call; its sender goes on at `go`, or
once there is room. -/
def sendSub (v : String) (wait go : CallPc) (x : Forwarding) : Forwarding :=
  match x.subCh.send kSubCapacity () v with
  | (ch, .handed _) => { x with subCh := ch, drain := .holding v, call := go }
  | (ch, .buffered) => { x with subCh := ch, call := go }
  | (ch, .waits) => { x with subCh := ch, call := wait }

/-- `async_send` on the run-wide channel, and whether its sender waits. -/
def sendTop (K : ℕ) (s : TopSender) (delta : Delta) (x : Forwarding) : Forwarding × Bool :=
  match x.top.send K s delta with
  | (ch, .handed _) => ({ x with top := ch, consumerWaiting := false, received := x.received ++ [delta] }, false)
  | (ch, .buffered) => ({ x with top := ch }, false)
  | (ch, .waits) => ({ x with top := ch }, true)

/-- The sender of the call goes on. -/
def resumeCall : CallPc → CallPc
  | .sending => .running
  | .ending => .returned
  | pc => pc

/-- A sender of the run-wide channel goes on. -/
def resumeTop (x : Forwarding) : Option TopSender → Forwarding
  | some .drain => { x with drain := .receive }
  | some .parent => { x with parentSending := false }
  | none => x

/-- The loop of the forwarding coroutine. -/
def drainStep (K : ℕ) (x : Forwarding) : Option Forwarding :=
  match x.drain with
  | .receive =>
    match x.subCh.receive () with
    | (ch, some (v, woken)) =>
      some { x with subCh := ch, drain := .holding v, call := if woken.isSome then resumeCall x.call else x.call }
    | (ch, none) => some { x with subCh := ch, drain := .waiting }
  | .holding tok =>
    if tok = "" then some { x with drain := .ended }
    else
      let (y, waits) := sendTop K .drain ⟨.subAgent, tok⟩ x
      some { y with drain := if waits then .sending else .receive }
  | _ => none

def step (K : ℕ) : Choice → Forwarding → Option Forwarding
  | .onToken delta, x =>
    if x.call = .running then some (sendSub delta .sending .running { x with emitted := x.emitted ++ [delta] }) else none
  | .runAsyncReturns, x => if x.call = .running then some (sendSub "" .ending .returned x) else none
  | .drain, x => drainStep K x
  | .parentOnToken delta, x =>
    if x.call = .returned ∧ x.parentSending = false then
      let (y, waits) := sendTop K .parent ⟨.parent, delta⟩ x
      some { y with parentSending := waits }
    else none
  | .consume, x =>
    if x.consumerWaiting then none
    else
      match x.top.receive () with
      | (ch, some (delta, woken)) => some (resumeTop { x with top := ch, received := x.received ++ [delta] } woken)
      | (ch, none) => some { x with top := ch, consumerWaiting := true }

/-! ### What flows -/

/-- What has been sent on the run-wide channel, in order. -/
def stream (x : Forwarding) : List Delta := x.received ++ x.top.contents

/-- What the forwarding coroutine has still before it. -/
def ahead (x : Forwarding) : List String := x.drain.held ++ x.subCh.contents

/-- The sub-agent's texts in a stream. -/
def subTexts (l : List Delta) : List String := (l.filter fun d => d.streamer = .subAgent).map Delta.text

/-- What a step does to the stream and to what is ahead of it. -/
inductive Flows : Choice → Forwarding → Forwarding → Prop
  | emit {x y : Forwarding} {d : String} (ho : x.call.finished = false) (ho' : y.call.finished = false)
      (hs : y.stream = x.stream) (ha : y.ahead = x.ahead ++ [d]) (he : y.emitted = x.emitted ++ [d]) (hd : y.drain = .ended ↔ x.drain = .ended) :
      Flows (.onToken d) x y
  | close {x y : Forwarding} (ho : x.call.finished = false) (ho' : y.call.finished = true) (hs : y.stream = x.stream)
      (ha : y.ahead = x.ahead ++ [""]) (he : y.emitted = x.emitted) (hd : y.drain = .ended ↔ x.drain = .ended) :
      Flows .runAsyncReturns x y
  | forward {x y : Forwarding} {v : String} (hv : v ≠ "") (ho : y.call.finished = x.call.finished)
      (hs : y.stream = x.stream ++ [⟨.subAgent, v⟩]) (ha : x.ahead = v :: y.ahead) (he : y.emitted = x.emitted)
      (hd : x.drain ≠ .ended) (hd' : y.drain ≠ .ended) : Flows .drain x y
  | stop {x y : Forwarding} (ho : y.call.finished = x.call.finished) (hs : y.stream = x.stream) (ha : x.ahead = "" :: y.ahead)
      (he : y.emitted = x.emitted) (hd : x.drain ≠ .ended) (hd' : y.drain = .ended) : Flows .drain x y
  | pass {x y : Forwarding} {c : Choice} (hc : c = .drain ∨ c = .consume) (ho : y.call.finished = x.call.finished)
      (hs : y.stream = x.stream) (ha : y.ahead = x.ahead) (he : y.emitted = x.emitted)
      (hd : y.drain = .ended ↔ x.drain = .ended) : Flows c x y
  | parent {x y : Forwarding} {d : String} (ho : x.call.finished = true) (ho' : y.call.finished = true)
      (hs : y.stream = x.stream ++ [⟨.parent, d⟩]) (ha : y.ahead = x.ahead) (he : y.emitted = x.emitted)
      (hd : y.drain = x.drain) : Flows (.parentOnToken d) x y

/-- A bound on the steps of the forwarding coroutine and of the consumer while
nobody else takes one. -/
def work (x : Forwarding) : ℕ :=
  4 * x.subCh.contents.length + x.drain.rank + (2 * x.top.contents.length + (!x.consumerWaiting).toNat)

/-- The parties that wait are those the channels know of. -/
structure Wired (K : ℕ) (x : Forwarding) : Prop where
  sub : x.subCh.WF kSubCapacity
  top : x.top.WF K
  drainWaits : x.subCh.receivers = if x.drain = .waiting then [()] else []
  drainSends : (x.top.senders.map Prod.fst).count .drain = if x.drain = .sending then 1 else 0
  consumerWaits : x.top.receivers = if x.consumerWaiting then [()] else []

theorem Wired.start (K : ℕ) {older : List String} (h : older.length ≤ K) : Wired K (start older) where
  sub := Pipe.wf_buffered (Nat.zero_le _)
  top := Pipe.wf_buffered (by simpa using h)
  drainWaits := rfl
  drainSends := rfl
  consumerWaits := rfl

namespace Wired

variable {K : ℕ} {x y : Forwarding}

/-- The forwarding coroutine waits at the channel of the call. -/
theorem waiting_of_receivers (h : Wired K x) {r : Unit} {rs : List Unit} (hr : x.subCh.receivers = r :: rs) :
    x.drain = .waiting ∧ rs = [] := by
  have hw := h.drainWaits
  rw [hr] at hw
  split_ifs at hw with hd
  · exact ⟨hd, (List.cons.inj hw).2⟩

/-- A send on the channel of the call adds to what is ahead. -/
theorem sendSub (h : Wired K x) (v : String) (wait go : CallPc) :
    Wired K (sendSub v wait go x) ∧ (sendSub v wait go x).stream = x.stream ∧
      (sendSub v wait go x).ahead = x.ahead ++ [v] ∧ (sendSub v wait go x).emitted = x.emitted ∧
      ((sendSub v wait go x).drain = .ended ↔ x.drain = .ended) ∧
      ((sendSub v wait go x).call = go ∨ (sendSub v wait go x).call = wait) := by
  obtain ⟨hwf, hcases⟩ := h.sub.send () v
  unfold Forwarding.sendSub
  rcases hcases with ⟨r, rs, hr, hc, he⟩ | ⟨ch, placed, he, hr, hr', hc, hp⟩
  · obtain ⟨hdrain, rfl⟩ := h.waiting_of_receivers hr
    have hsends := h.drainSends
    rw [hdrain] at hsends
    rw [he] at hwf ⊢
    refine ⟨⟨hwf, h.top, rfl, hsends, h.consumerWaits⟩, rfl, ?_, rfl, by simp [hdrain], Or.inl rfl⟩
    simp only [ahead, hdrain, DrainPc.held, hc]
    exact congrArg ([v] ++ ·) hc
  · have hdrain : x.drain ≠ .waiting := by
      intro hd
      have hw := h.drainWaits
      rw [hr, if_pos hd] at hw
      cases hw
    rw [he] at hwf ⊢
    have hahead : x.drain.held ++ ch.contents = x.ahead ++ [v] := by
      rw [hc, ahead, List.append_assoc]
    rcases hp with ⟨rfl, -⟩ | ⟨rfl, -⟩
    · exact ⟨⟨hwf, h.top, by simp [hr', hdrain], h.drainSends, h.consumerWaits⟩, rfl, hahead, rfl, Iff.rfl, Or.inl rfl⟩
    · exact ⟨⟨hwf, h.top, by simp [hr', hdrain], h.drainSends, h.consumerWaits⟩, rfl, hahead, rfl, Iff.rfl, Or.inr rfl⟩

/-- A send on the run-wide channel adds to the stream. -/
theorem sendTop (h : Wired K x) (s : TopSender) (delta : Delta) :
    ∃ y waits, sendTop K s delta x = (y, waits) ∧ y.top.WF K ∧ y.stream = x.stream ++ [delta] ∧
      y.top.receivers = (if y.consumerWaiting then [()] else []) ∧
      y.top.senders.map Prod.fst = x.top.senders.map Prod.fst ++ (if waits then [s] else []) ∧
      2 * y.top.contents.length + (!y.consumerWaiting).toNat ≤
        (2 * x.top.contents.length + (!x.consumerWaiting).toNat) + 2 ∧
      y.call = x.call ∧ y.drain = x.drain ∧ y.subCh = x.subCh ∧ y.emitted = x.emitted := by
  obtain ⟨hwf, hcases⟩ := h.top.send s delta
  have hw := h.consumerWaits
  unfold Forwarding.sendTop
  rcases hcases with ⟨r, rs, hr, hc, he⟩ | ⟨ch, placed, he, hr, hr', hc, hp⟩
  · rw [hr] at hw
    have hrs : rs = [] := by
      split_ifs at hw
      exact (List.cons.inj hw).2
    rw [he] at hwf ⊢
    have hc' : ({ x.top with receivers := rs } : Pipe TopSender Unit Delta).contents = [] := hc
    refine ⟨_, _, rfl, hwf, ?_, hrs, (List.append_nil _).symm, ?_, rfl, rfl, rfl, rfl⟩
    · simp only [stream, hc, hc', List.append_nil]
    · simp only [hc, hc', List.length_nil, Bool.not_false, Bool.toNat_true]
      omega
  · rw [hr] at hw
    have hconsumer : x.consumerWaiting = false := by
      cases hcw : x.consumerWaiting with
      | false => rfl
      | true => simp [hcw] at hw
    have hstream : x.received ++ ch.contents = x.stream ++ [delta] := by
      rw [hc, stream, List.append_assoc]
    have hlen : 2 * ch.contents.length + (!x.consumerWaiting).toNat ≤
        (2 * x.top.contents.length + (!x.consumerWaiting).toNat) + 2 := by
      rw [hc, List.length_append, List.length_singleton]
      omega
    rw [he] at hwf ⊢
    rcases hp with ⟨rfl, hs⟩ | ⟨rfl, hs⟩
    · exact ⟨_, _, rfl, hwf, hstream, by simp [hr', hconsumer], by simp [hs], hlen, rfl, rfl, rfl, rfl⟩
    · exact ⟨_, _, rfl, hwf, hstream, by simp [hr', hconsumer], by simp [hs], hlen, rfl, rfl, rfl, rfl⟩

theorem finished_resumeCall (pc : CallPc) : (resumeCall pc).finished = pc.finished := by
  cases pc <;> rfl

/-- The forwarding coroutine takes what is ahead and puts it on the stream. -/
theorem drainStep (h : Wired K x) (hs : drainStep K x = some y) :
    Wired K y ∧ Flows .drain x y ∧ work y < work x := by
  unfold Forwarding.drainStep at hs
  split at hs
  · rename_i hd
    have hw := h.drainWaits
    have hsends := h.drainSends
    rw [hd] at hw hsends
    obtain ⟨hwf, ⟨ch, v, he, hc, hr, -⟩ | ⟨hc, he⟩⟩ := h.sub.receive ()
    · rw [he] at hs hwf
      cases hs
      refine ⟨⟨hwf, h.top, hr.trans hw, hsends, h.consumerWaits⟩, .pass (Or.inl rfl) ?_ rfl ?_ rfl ?_, ?_⟩
      · split_ifs
        · exact finished_resumeCall x.call
        · rfl
      · rw [ahead, ahead, hd, hc]
        rfl
      · simp [hd]
      · simp only [work, hd, hc, DrainPc.rank, List.length_cons]
        omega
    · rw [he] at hs hwf
      cases hs
      refine ⟨⟨hwf, h.top, ?_, hsends, h.consumerWaits⟩, .pass (Or.inl rfl) rfl rfl ?_ rfl ?_, ?_⟩
      · simp [hw]
      · rw [ahead, ahead, hd]
        rfl
      · simp [hd]
      · have hc' : ({ x.subCh with receivers := x.subCh.receivers ++ [()] } : Pipe Unit Unit String).contents = [] := hc
        simp only [work, hd, hc, hc', DrainPc.rank]
        omega
  · rename_i tok hd
    have hw := h.drainWaits
    have hsends := h.drainSends
    rw [hd] at hw hsends
    have hahead : x.ahead = tok :: x.subCh.contents := by
      rw [ahead, hd]
      rfl
    split_ifs at hs with htok
    · cases hs
      refine ⟨⟨h.sub, h.top, hw, hsends, h.consumerWaits⟩, .stop rfl rfl (htok ▸ hahead) rfl (by simp [hd]) rfl, ?_⟩
      simp only [work, hd, DrainPc.rank]
      omega
    · obtain ⟨z, waits, he, hwf, hstream, hr, hsen, hlen, hcall, -, hsub, hem⟩ := h.sendTop .drain ⟨.subAgent, tok⟩
      rw [he] at hs
      cases hs
      refine ⟨⟨?_, hwf, ?_, ?_, hr⟩, .forward htok (congrArg _ hcall) hstream ?_ hem (by simp [hd]) ?_, ?_⟩
      · rw [show z.subCh = x.subCh from hsub]
        exact h.sub
      · rw [show z.subCh = x.subCh from hsub]
        cases waits <;> exact hw
      · show (z.top.senders.map Prod.fst).count .drain = _
        rw [hsen, List.count_append, hsends]
        cases waits <;> rfl
      · rw [hahead, ahead, hsub]
        cases waits <;> rfl
      · cases waits <;> simp
      · have hrank : (if waits then DrainPc.sending else .receive).rank ≤ 1 := by cases waits <;> simp [DrainPc.rank]
        simp only [work, hd, hsub, show (DrainPc.holding tok).rank = 4 from rfl]
        omega
  · cases hs

/-- The consumer takes the oldest delta, and the stream stays as it is. -/
theorem consume (h : Wired K x) (hs : step K .consume x = some y) :
    Wired K y ∧ Flows .consume x y ∧ work y < work x := by
  simp only [Forwarding.step] at hs
  split_ifs at hs with hcw
  rw [Bool.not_eq_true] at hcw
  have hw := h.consumerWaits
  rw [hcw] at hw
  have hsends := h.drainSends
  obtain ⟨hwf, ⟨ch, delta, he, hc, hr, hsen⟩ | ⟨hc, he⟩⟩ := h.top.receive ()
  · rw [he] at hs hwf
    have hstream : x.received ++ [delta] ++ ch.contents = x.stream := by
      rw [stream, hc, List.append_assoc]
      rfl
    have hrecv : ch.receivers = if x.consumerWaiting then [()] else [] := by rw [hr, hw, hcw]
    cases hsd : x.top.senders with
    | nil =>
      rw [hsd] at hs hsen hsends
      cases hs
      refine ⟨⟨h.sub, hwf, h.drainWaits, ?_, hrecv⟩, .pass (Or.inr rfl) rfl hstream rfl rfl Iff.rfl, ?_⟩
      · show (ch.senders.map Prod.fst).count .drain = _
        rw [hsen]
        exact hsends
      · simp only [work, hc, List.length_cons, List.head?_nil, Option.map_none, resumeTop]
        omega
    | cons sw ss =>
      rw [hsd] at hs hsen hsends
      obtain ⟨s, w⟩ := sw
      cases s with
      | drain =>
        have hd : x.drain = .sending := by
          by_contra hd
          rw [if_neg hd, List.map_cons, List.count_cons_self] at hsends
          omega
        have hwaits := h.drainWaits
        rw [hd] at hwaits
        cases hs
        refine ⟨⟨h.sub, hwf, hwaits, ?_, hrecv⟩, .pass (Or.inr rfl) rfl hstream ?_ rfl (by simp [resumeTop, hd]), ?_⟩
        · show (ch.senders.map Prod.fst).count .drain = 0
          rw [if_pos hd, List.map_cons, List.count_cons_self] at hsends
          rw [hsen]
          exact Nat.succ.inj hsends
        · rw [ahead, ahead, hd]
          rfl
        · simp only [work, hc, hd, List.length_cons, List.head?_cons, Option.map_some, resumeTop, DrainPc.rank]
          omega
      | parent =>
        cases hs
        refine ⟨⟨h.sub, hwf, h.drainWaits, ?_, hrecv⟩, .pass (Or.inr rfl) rfl hstream rfl rfl Iff.rfl, ?_⟩
        · show (ch.senders.map Prod.fst).count .drain = _
          rw [hsen]
          exact hsends
        · simp only [work, hc, List.length_cons, List.head?_cons, Option.map_some, resumeTop]
          omega
  · rw [he] at hs hwf
    cases hs
    refine ⟨⟨h.sub, hwf, h.drainWaits, hsends, ?_⟩, .pass (Or.inr rfl) rfl rfl rfl rfl Iff.rfl, ?_⟩
    · simp [hw]
    · have hc' : ({ x.top with receivers := x.top.receivers ++ [()] } : Pipe TopSender Unit Delta).contents = [] := hc
      simp only [work, hc, hc', hcw, Bool.not_false, Bool.not_true, Bool.toNat_false, Bool.toNat_true]
      omega

/-- Every step moves what flows on. -/
theorem step {c : Choice} (h : Wired K x) (hs : step K c x = some y) : Wired K y ∧ Flows c x y := by
  cases c with
  | onToken d =>
    simp only [Forwarding.step] at hs
    split_ifs at hs with hcall
    cases hs
    have hx : Wired K { x with emitted := x.emitted ++ [d] } := ⟨h.sub, h.top, h.drainWaits, h.drainSends, h.consumerWaits⟩
    obtain ⟨hy, hstream, hahead, hem, hd, hgo⟩ := hx.sendSub d .sending .running
    refine ⟨hy, .emit (by rw [hcall]; rfl) ?_ hstream hahead hem hd⟩
    rcases hgo with hgo | hgo <;> rw [hgo] <;> rfl
  | runAsyncReturns =>
    simp only [Forwarding.step] at hs
    split_ifs at hs with hcall
    cases hs
    obtain ⟨hy, hstream, hahead, hem, hd, hgo⟩ := h.sendSub "" .ending .returned
    refine ⟨hy, .close (by rw [hcall]; rfl) ?_ hstream hahead hem hd⟩
    rcases hgo with hgo | hgo <;> rw [hgo] <;> rfl
  | drain => exact ⟨(h.drainStep hs).1, (h.drainStep hs).2.1⟩
  | parentOnToken d =>
    simp only [Forwarding.step] at hs
    split_ifs at hs with hcall
    obtain ⟨z, waits, he, hwf, hstream, hr, hsen, -, hc, hd, hsub, hem⟩ := h.sendTop .parent ⟨.parent, d⟩
    rw [he] at hs
    cases hs
    have hfin : x.call.finished = true := by rw [hcall.1]; rfl
    refine ⟨⟨?_, hwf, ?_, ?_, hr⟩, .parent hfin ((congrArg _ hc).trans hfin) hstream ?_ hem hd⟩
    · rw [show z.subCh = x.subCh from hsub]
      exact h.sub
    · show z.subCh.receivers = if z.drain = .waiting then [()] else []
      rw [hsub, hd]
      exact h.drainWaits
    · show (z.top.senders.map Prod.fst).count .drain = if z.drain = .sending then 1 else 0
      rw [hsen, hd, List.count_append, h.drainSends]
      cases waits <;> rfl
    · show z.drain.held ++ z.subCh.contents = _
      rw [hd, hsub, ahead]
  | consume => exact ⟨(h.consume hs).1, (h.consume hs).2.1⟩

end Wired

end Forwarding

end AgentFlow.Workflow
