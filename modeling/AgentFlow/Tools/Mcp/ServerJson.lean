/-
# What a server's JSON does to a call

A call whose request is answered returns a value or a status, or it ends in a
type error: the answer is read with accesses that throw on a member of the
wrong type. Over HTTP the error member is tested before it is read, over stdio
it is not, and the listed tools are not tested on either transport. A call
throws nothing exactly if the answer is `Readable`, and then
`AttachMcpServer` of a server that is started lazily returns OK.

Key definitions: `Reply`, `Readable`, `ToolRegistry.attachMcpServer`.
Key theorems: `survives_iff_readable`.
-/
import AgentFlow.Lib.Fallible
import AgentFlow.Tools.Mcp.Http
import AgentFlow.Workflow.Effects

namespace AgentFlow

namespace Mcp

open Json Json.Value Fallible

variable {cl : Client} {v : Value} {p : Purpose}

/-- `ListTools`, when its request has this result. -/
def listTools (cl : Client) :
    Except Json.Error (Except Status.Error Value) → Except Json.Error (Except Status.Error (List ToolSchema))
  | .error e => .error e
  | .ok (.error e) => .ok (.error e)
  | .ok (.ok result) => (listedTools cl result).map .ok

/-! ### What can be read -/

/-- The member is a string, or there is none. -/
def Textual (v : Value) (k : String) : Prop := ∀ x, v.find? k = some x → x.str?.isSome = true

/-- The member is a number or a truth value, or there is none. -/
def Numeric (v : Value) (k : String) : Prop := ∀ x, v.find? k = some x → x.toInt32?.isSome = true

theorem value_ok_iff {k d : String} : (∃ s, v.value k d = .ok s) ↔ v.isObject = true ∧ Textual v k := by
  cases v with
  | obj ms =>
    simp only [Value.value, Textual, find?_obj, isObject, true_and]
    cases hx : ms.lookup k with
    | none => simp
    | some x => cases x <;> simp [str?]
  | _ => simp [Value.value, isObject]

theorem intValue_ok_iff {k : String} {d : ℤ} : (∃ i, v.intValue k d = .ok i) ↔ v.isObject = true ∧ Numeric v k := by
  cases v with
  | obj ms =>
    simp only [intValue, Numeric, find?_obj, isObject, true_and]
    cases hx : ms.lookup k with
    | none => simp
    | some x => cases hi : x.toInt32? <;> simp [hi]
  | _ => simp [intValue, isObject]

/-- An error member that is read without a check. -/
def ReadableError (err : Value) : Prop := err.isObject = true ∧ Numeric err "code" ∧ Textual err "message"

/-- A tool entry of a list. -/
def ReadableTool (tool : Value) : Prop := tool.isObject = true ∧ Textual tool "name" ∧ Textual tool "description"

/-- The result of the request; only `ListTools` reads it. -/
def ReadableResult (p : Purpose) (result : Value) : Prop :=
  p = .listTools → ∀ tool ∈ (result.arrayAt? "tools").getD [], ReadableTool tool

theorem toolSchema_ok_iff {tool : Value} : (∃ schema, toolSchemaFromMcp cl tool = .ok schema) ↔ ReadableTool tool := by
  have hname := value_ok_iff (v := tool) (k := "name") (d := "")
  have hdescription := value_ok_iff (v := tool) (k := "description") (d := "")
  simp only [toolSchemaFromMcp, bind_eq_ok, ReadableTool]
  constructor
  · rintro ⟨schema, name, hn, description, hd, -⟩
    exact ⟨(hname.mp ⟨name, hn⟩).1, (hname.mp ⟨name, hn⟩).2, (hdescription.mp ⟨description, hd⟩).2⟩
  · rintro ⟨hobj, hn, hd⟩
    obtain ⟨name, hname⟩ := hname.mpr ⟨hobj, hn⟩
    obtain ⟨description, hdescription⟩ := hdescription.mpr ⟨hobj, hd⟩
    exact ⟨_, name, hname, description, hdescription, rfl⟩

theorem listedTools_ok_iff {result : Value} : (∃ ts, listedTools cl result = .ok ts) ↔ ReadableResult .listTools result := by
  rw [listedTools, ReadableResult]
  cases result.arrayAt? "tools" with
  | none => simp
  | some ts => simp [exists_mapM_iff, toolSchema_ok_iff]

/-- What a call returns does not throw where the tools can be read. -/
theorem returns_ne_thrown_iff {result : Value} :
    (∀ e, p.returns cl result ≠ .thrown e) ↔ ReadableResult p result := by
  cases p with
  | listTools =>
    have hlisted : (∃ ts, listedTools cl result = .ok ts) ↔ ReadableResult .listTools result := listedTools_ok_iff
    rw [← hlisted, Purpose.returns]
    cases listedTools cl result <;> simp
  | _ => simp [Purpose.returns, ReadableResult]

/-- The error member is turned into a status where it can be read. -/
theorem errorStatus_ok_iff {err : Value} {f : ℤ → String → Except Status.Error Value} :
    (∃ r, (do
      let code ← err.intValue "code" (-1)
      let message ← err.value "message" ""
      .ok (f code message) : Except Json.Error (Except Status.Error Value)) = .ok r) ↔ ReadableError err := by
  have hcode := intValue_ok_iff (v := err) (k := "code") (d := -1)
  have hmessage := value_ok_iff (v := err) (k := "message") (d := "")
  simp only [bind_eq_ok, ReadableError]
  constructor
  · rintro ⟨r, code, hc, message, hm, -⟩
    exact ⟨(hcode.mp ⟨code, hc⟩).1, (hcode.mp ⟨code, hc⟩).2, (hmessage.mp ⟨message, hm⟩).2⟩
  · rintro ⟨hobj, hc, hm⟩
    obtain ⟨code, hcode⟩ := hcode.mpr ⟨hobj, hc⟩
    obtain ⟨message, hmessage⟩ := hmessage.mpr ⟨hobj, hm⟩
    exact ⟨_, code, hcode, message, hmessage, rfl⟩

/-- What the server has sent: a message that answers the request over stdio,
or the answer to its POST. -/
inductive Reply
  | line (payload : Value)
  | post (head : Http.ResponseHead) (body : String)

namespace Reply

/-- The end of `SendRequest` for the request `id`. -/
def result (sp : Http.Spec) (s : Http.State) (id : ℕ) : Reply → Except Json.Error (Except Status.Error Value)
  | line payload => answer (.ok payload)
  | post head body => (s.postResult sp (some id) head (.ok body)).2

/-- A message that is read without a check of its error member. -/
def ReadableLine (p : Purpose) (payload : Value) : Prop :=
  payload.isObject = true ∧ (∀ err, payload.find? "error" = some err → ReadableError err) ∧
    (payload.find? "error" = none → ReadableResult p ((payload.find? "result").getD (object [])))

/-- A message whose error member is an object if it is read. -/
def ReadableMessage (p : Purpose) (msg : Value) : Prop :=
  (∀ err, msg.find? "error" = some err → err.isObject = true → ReadableError err) ∧
    (msg.find? "error" = none → ∀ result, msg.find? "result" = some result → ReadableResult p result)

/-- The members that the client reads have the types it reads them with. -/
def Readable (cl : Client) (id : ℕ) (p : Purpose) : Reply → Prop
  | line payload => ReadableLine p payload
  | post head body => ∀ messages, Http.decodeMcpHttpMessages cl head.statusCode head.headers body = .ok messages →
      ∀ msg, Http.response? id messages = some msg → ReadableMessage p msg

end Reply

open Reply

/-- The call returns a value or a status, for a result that may have been thrown. -/
theorem outcome_ne_thrown_iff {r : Except Json.Error (Except Status.Error Value)} :
    (∀ e, p.outcome cl r ≠ .thrown e) ↔ (∃ x, r = .ok x) ∧ ∀ result, r = .ok (.ok result) → ReadableResult p result := by
  cases r with
  | error e => simp [Purpose.outcome]
  | ok x =>
    cases x with
    | error e => simp [Purpose.outcome]
    | ok result => simp [Purpose.outcome, returns_ne_thrown_iff]

theorem line_ne_thrown_iff {payload : Value} :
    (∀ e, p.outcome cl (answer (.ok payload)) ≠ .thrown e) ↔ ReadableLine p payload := by
  rw [outcome_ne_thrown_iff, answer, rpcResult, ReadableLine]
  cases he : payload.find? "error" with
  | some err =>
    have hobj : payload.isObject = true := by
      cases payload with
      | obj ms => rfl
      | _ => cases he
    simp only [errorStatus_ok_iff, hobj, true_and, Option.some.injEq, forall_eq', reduceCtorEq, false_implies, and_true]
    refine and_iff_left_of_imp fun _ result hr => ?_
    simp only [bind_eq_ok] at hr
    obtain ⟨_, _, _, _, hr⟩ := hr
    cases hr
  | none =>
    cases hobj : payload.isObject with
    | true => simp
    | false => simp

theorem post_ne_thrown_iff {id : ℕ} {messages : List Value} :
    (∀ e, p.outcome cl (Http.rpcAnswer cl id messages) ≠ .thrown e) ↔
      ∀ msg, Http.response? id messages = some msg → ReadableMessage p msg := by
  rw [outcome_ne_thrown_iff, Http.rpcAnswer]
  cases hr : Http.response? id messages with
  | none => simp
  | some msg =>
    simp only [Option.some.injEq, forall_eq', ReadableMessage]
    cases he : msg.find? "error" with
    | some err =>
      simp only [Option.some.injEq, forall_eq', reduceCtorEq, false_implies, and_true]
      cases hobj : err.isObject with
      | true =>
        simp only [if_true, errorStatus_ok_iff, true_implies]
        refine and_iff_left_of_imp fun _ result hr => ?_
        simp only [bind_eq_ok] at hr
        obtain ⟨_, _, _, _, hr⟩ := hr
        cases hr
      | false => simp
    | none =>
      cases msg.find? "result" with
      | none => simp
      | some result => simp

/-- **When a call survives the server's answer.** -/
theorem Reply.ne_thrown_iff (sp : Http.Spec) (s : Http.State) (id : ℕ) (r : Reply) (p : Purpose) :
    (∀ e, p.outcome sp.toClient (r.result sp s id) ≠ .thrown e) ↔ r.Readable sp.toClient id p := by
  cases r with
  | line payload => exact line_ne_thrown_iff
  | post head body =>
    simp only [Reply.result, Http.State.postResult, Readable]
    cases hd : Http.decodeMcpHttpMessages sp.toClient head.statusCode head.headers body with
    | error e => simp [Purpose.outcome]
    | ok messages => simp [post_ne_thrown_iff]

theorem listTools_eq_error_iff {r : Except Json.Error (Except Status.Error Value)} {e : Json.Error} :
    listTools cl r = .error e ↔ Purpose.listTools.outcome cl r = .thrown e := by
  cases r with
  | error e' => simp [listTools, Purpose.outcome]
  | ok x =>
    cases x with
    | error e' => simp [listTools, Purpose.outcome]
    | ok result =>
      rw [listTools, Purpose.outcome, Purpose.returns]
      cases listedTools cl result <;> simp [Except.map]

end Mcp

/-! ### Attaching a server -/

namespace Workflow

open Json
open Mcp (Reply listTools)

/-- The filters and the policy of `AttachMcpServer`. -/
structure AttachPolicy where
  includeTools : List String := []
  excludeTools : List String := []
  lazyStart : Bool := false

def AttachPolicy.admits (a : AttachPolicy) (name : String) : Bool :=
  (a.includeTools.isEmpty || a.includeTools.contains name) && !a.excludeTools.contains name

namespace ToolRegistry

/-- `TryRegisterIfAbsent`: the tool that is there stays. -/
def tryRegisterIfAbsent (R : ToolRegistry) (tool : HostTool) : ToolRegistry :=
  if R.has tool.schema.name then R else R.register tool

/-- `McpToolAdapter`, as the registry sees it. -/
def mcpToolAdapter (schema : Mcp.ToolSchema) : HostTool :=
  { schema := ⟨schema.name, schema.description, schema.paramsJsonSchema⟩, mcp := true }

/-- What `AttachMcpServer` does with the tools it has been listed. -/
def attachListed (R : ToolRegistry) (a : AttachPolicy) :
    Except Json.Error (Except Status.Error (List Mcp.ToolSchema)) → ToolRegistry × Except Json.Error (Option Status.Error)
  | .error e => (R, .error e)
  | .ok (.error e) => (R, .ok (if a.lazyStart then none else some e))
  | .ok (.ok schemas) =>
    (schemas.foldl (fun R schema =>
      if a.admits schema.name then R.tryRegisterIfAbsent (mcpToolAdapter schema) else R) R, .ok none)

/-- `AttachMcpServer`, for what `Connect` and `ListTools` of the client come
to; a server that is started lazily is not connected first. -/
def attachMcpServer (R : ToolRegistry) (pool : Bool) (a : AttachPolicy)
    (connect : Except Json.Error (Option Status.Error))
    (list : Except Json.Error (Except Status.Error (List Mcp.ToolSchema))) :
    ToolRegistry × Except Json.Error (Option Status.Error) :=
  if !pool then
    (R, .ok (some ⟨.failedPrecondition, "AttachMcpServer requires the io_context-aware ToolRegistry ctor"⟩))
  else if a.lazyStart then R.attachListed a list
  else
    match connect with
    | .error e => (R, .error e)
    | .ok (some e) => (R, .ok (some e))
    | .ok none => R.attachListed a list

/-- What was registered before stays, whatever the server lists. -/
theorem find_attachMcpServer {R : ToolRegistry} {pool : Bool} {a : AttachPolicy}
    {connect : Except Json.Error (Option Status.Error)}
    {list : Except Json.Error (Except Status.Error (List Mcp.ToolSchema))} {name : String} {tool : HostTool}
    (h : R.find name = some tool) : (R.attachMcpServer pool a connect list).1.find name = some tool := by
  have hstep : ∀ (R : ToolRegistry) (t : HostTool), R.find name = some tool →
      (R.tryRegisterIfAbsent t).find name = some tool := by
    intro R t hR
    unfold tryRegisterIfAbsent
    split_ifs with hhas
    · exact hR
    · have hne : name ≠ t.schema.name := by
        rintro rfl
        exact hhas (by rw [has, hR]; rfl)
      rw [find, register, OrderedMap.lookup_insert, if_neg hne]
      exact hR
  have hlisted : (R.attachListed a list).1.find name = some tool := by
    rcases list with e | e | schemas
    · exact h
    · exact h
    · simp only [attachListed]
      induction schemas generalizing R with
      | nil => exact h
      | cons schema schemas ih =>
        rw [List.foldl_cons]
        refine ih ?_
        split_ifs
        · exact hstep R _ h
        · exact h
  unfold attachMcpServer
  split_ifs
  · exact h
  · exact hlisted
  · rcases connect with e | _ | e
    · exact h
    · exact hlisted
    · exact h

end ToolRegistry

/-- **When the client of a server survives its JSON**, whatever the call: the
call throws nothing, and a server that is started lazily can be attached. -/
theorem survives_iff_readable (sp : Mcp.Http.Spec) (s : Mcp.Http.State) (id : ℕ) (r : Reply) :
    (∀ p : Mcp.Purpose, (∀ e, p.outcome sp.toClient (r.result sp s id) ≠ .thrown e) ↔ r.Readable sp.toClient id p) ∧
      ∀ (R : ToolRegistry) (a : AttachPolicy) (connect : Except Json.Error (Option Status.Error)),
        (R.attachMcpServer true { a with lazyStart := true } connect (listTools sp.toClient (r.result sp s id))).2 =
            .ok none ↔
          r.Readable sp.toClient id .listTools := by
  refine ⟨fun p => r.ne_thrown_iff sp s id p, fun R a connect => ?_⟩
  have hattach (list) : R.attachMcpServer true { a with lazyStart := true } connect list =
      R.attachListed { a with lazyStart := true } list := rfl
  rw [← r.ne_thrown_iff sp s id .listTools, hattach]
  simp only [ne_eq, ← Mcp.listTools_eq_error_iff]
  rcases hl : listTools sp.toClient (r.result sp s id) with e | e | schemas
  · simp [ToolRegistry.attachListed]
  · simp [ToolRegistry.attachListed]
  · simp [ToolRegistry.attachListed]

/-- The answer to request 1 with a tool that is no object. -/
def numberedTools : Value :=
  .object [("id", .int 1), ("result", .object [("tools", .arr [.int 5])])]

def numberedSpec : Mcp.Http.Spec :=
  { codec := .ofTable [("numbered", numberedTools)], parseError := fun _ => "", commandOrUrl := "http://host",
    headers := [], metadataToken := none }

/-- **A tool that is no object throws, on both transports**, and the server
cannot be attached; so does an error that is a string, over stdio. -/
theorem not_survives :
    Mcp.Purpose.listTools.outcome numberedSpec.toClient (Reply.result numberedSpec {} 1 (.line numberedTools)) =
        .thrown (.typeError 306) ∧
      Mcp.Purpose.listTools.outcome numberedSpec.toClient (Reply.result numberedSpec {} 1 (.post ⟨200, []⟩ "numbered")) =
        .thrown (.typeError 306) ∧
      (ToolRegistry.empty.attachMcpServer true { lazyStart := true } (.ok none)
        (listTools numberedSpec.toClient (Reply.result numberedSpec {} 1 (.line numberedTools)))).2 =
          .error (.typeError 306) ∧
      (Mcp.Purpose.callTool "a" "").outcome numberedSpec.toClient
        (Reply.result numberedSpec {} 1 (.line (.object [("id", .int 1), ("error", .str "boom")]))) =
          .thrown (.typeError 306) := by
  decide +kernel

end Workflow

end AgentFlow
