/-
# The registry of workflows

`agentflow/workflow/workflow_registry.{h,cc}`: several versions of a workflow
by name, and for each name the version that was registered last. When that
version is removed, the greatest of the versions that are left takes its
place. What the registry is to give back is said by `kept`: the workflows
that are registered, the latest registration first.

Key definitions: `WorkflowRegistry`, `register`, `unregister`, `kept`,
`Lawful`, `Promotes`.
Key theorems: `consistent_after`, `lawful_iff_promotes`.
-/
import AgentFlow.Lib.History
import AgentFlow.Lib.JsonSort
import AgentFlow.Workflow.Spec

namespace AgentFlow.Workflow

/-- A shared pointer: the object, and the specification in it. -/
structure SharedWorkflow where
  object : ℕ
  spec : WorkflowSpec
  deriving DecidableEq, Repr

namespace SharedWorkflow

def name (wf : SharedWorkflow) : String := wf.spec.name

def version (wf : SharedWorkflow) : String := wf.spec.version

/-- The workflow is registered under this name and version. -/
def At (name version : String) (wf : SharedWorkflow) : Prop := wf.name = name ∧ wf.version = version

instance (name version : String) (wf : SharedWorkflow) : Decidable (At name version wf) :=
  inferInstanceAs (Decidable (_ ∧ _))

end SharedWorkflow

structure VersionedEntry where
  wf : SharedWorkflow
  registeredAt : ℤ
  deriving DecidableEq, Repr

inductive RegistryEvent
  | workflowRegistered (name version : String) (isSigned : Bool) (keyId : String)
  | workflowUnregistered (name version : String)
  deriving DecidableEq, Repr

/-- The versions of each workflow, and the latest of each; `trace` if events are emitted. -/
structure WorkflowRegistry where
  entries : List (String × List (String × VersionedEntry)) := []
  latestVersion : List (String × String) := []
  trace : Bool := false
  deriving DecidableEq, Repr

namespace WorkflowRegistry

open SharedWorkflow

def emit (r : WorkflowRegistry) (e : RegistryEvent) : List RegistryEvent := if r.trace then [e] else []

/-- `Register`. -/
def register (r : WorkflowRegistry) (now : ℤ) :
    Option SharedWorkflow → WorkflowRegistry × Option SharedWorkflow × List RegistryEvent
  | none => (r, none, [])
  | some wf =>
    let bucket := (r.entries.lookup wf.name).getD []
    ({ r with
        entries := OrderedMap.insert wf.name (OrderedMap.insert wf.version ⟨wf, now⟩ bucket) r.entries
        latestVersion := OrderedMap.insert wf.name wf.version r.latestVersion },
      some wf,
      r.emit (.workflowRegistered wf.name wf.version wf.spec.signing.isSome
        ((wf.spec.signing.map Signing.keyId).getD "")))

/-- `Get`. -/
def get (r : WorkflowRegistry) (name version : String) : Option SharedWorkflow :=
  (r.entries.lookup name).bind fun bucket => (bucket.lookup version).map VersionedEntry.wf

/-- `GetLatest`. -/
def getLatest (r : WorkflowRegistry) (name : String) : Option SharedWorkflow :=
  (r.latestVersion.lookup name).bind (r.get name)

/-- What `Unregister` leaves, with `rest` of the versions of the name. -/
def withdraw (r : WorkflowRegistry) (name version : String) (rest : List (String × VersionedEntry)) :
    WorkflowRegistry :=
  match rest.getLast? with
  | none =>
    { r with
      entries := OrderedMap.erase name r.entries
      latestVersion :=
        if r.latestVersion.lookup name = some version then OrderedMap.erase name r.latestVersion else r.latestVersion }
  | some greatest =>
    { r with
      entries := OrderedMap.insert name rest r.entries
      latestVersion :=
        if r.latestVersion.lookup name = some version then OrderedMap.insert name greatest.1 r.latestVersion
        else r.latestVersion }

/-- `Unregister`. -/
def unregister (r : WorkflowRegistry) (name version : String) : WorkflowRegistry × Bool × List RegistryEvent :=
  match r.entries.lookup name with
  | none => (r, false, [])
  | some bucket =>
    if bucket.lookup version = none then (r, false, [])
    else (r.withdraw name version (OrderedMap.erase version bucket), true, r.emit (.workflowUnregistered name version))

end WorkflowRegistry

/-! ### Calls -/

inductive RegistryCall
  | register (wf : Option SharedWorkflow) (now : ℤ)
  | unregister (name version : String)

namespace RegistryCall

/-- The name that a call is about. -/
def name? : RegistryCall → Option String
  | .register wf _ => wf.map SharedWorkflow.name
  | .unregister name _ => some name

end RegistryCall

namespace WorkflowRegistry

open SharedWorkflow

def call (r : WorkflowRegistry) : RegistryCall → WorkflowRegistry
  | .register wf now => (r.register now wf).1
  | .unregister name version => (r.unregister name version).1

/-- The registry after some calls. -/
def after (trace : Bool) (calls : List RegistryCall) : WorkflowRegistry := calls.foldl call { trace := trace }

/-- A workflow that is registered goes to the front, in place of one of the same name and version. -/
def keep (ws : List SharedWorkflow) : RegistryCall → List SharedWorkflow
  | .register none _ => ws
  | .register (some wf) _ => wf :: ws.filter fun w => ¬ At wf.name wf.version w
  | .unregister name version => ws.filter fun w => ¬ At name version w

/-- The workflows that are registered after some calls, the latest registration first. -/
def kept (calls : List RegistryCall) : List SharedWorkflow := calls.foldl keep []

/-- The most recent registration of a name. -/
def newest (ws : List SharedWorkflow) (name : String) : Option SharedWorkflow := ws.find? fun w => w.name = name

/-- The registration of a version. -/
def pinned (ws : List SharedWorkflow) (name version : String) : Option SharedWorkflow := ws.find? fun w => At name version w

/-- What is promised of the registry after some calls. -/
structure Lawful (trace : Bool) (calls : List RegistryCall) : Prop where
  null : ∀ name, (after trace calls).getLatest name = none ↔ ∀ wf ∈ kept calls, wf.name ≠ name
  latest : ∀ name, (after trace calls).getLatest name = newest (kept calls) name
  get : ∀ name version, (after trace calls).get name version = pinned (kept calls) name version
  apart : ∀ c name, c.name? ≠ some name →
    ((after trace calls).call c).getLatest name = (after trace calls).getLatest name ∧
      ∀ version, ((after trace calls).call c).get name version = (after trace calls).get name version

/-- When the newest version of a name is removed, the one registered before it
is the greatest of those that are left. -/
def Promotes (ws : List SharedWorkflow) : RegistryCall → Prop
  | .register _ _ => True
  | .unregister name version => ∀ first next, newest ws name = some first → first.version = version →
      newest (keep ws (.unregister name version)) name = some next →
      ∀ wf ∈ keep ws (.unregister name version), wf.name = name → wf.version ≤ next.version

/-! ### What is registered -/

section

variable {ws : List SharedWorkflow} {name version : String}

theorem newest_eq_none : newest ws name = none ↔ ∀ wf ∈ ws, wf.name ≠ name := by
  simp [newest, List.find?_eq_none]

theorem pinned_eq_none : pinned ws name version = none ↔ ∀ wf ∈ ws, ¬ At name version wf := by
  simp [pinned, List.find?_eq_none]

theorem at_of_pinned {wf : SharedWorkflow} (h : pinned ws name version = some wf) : At name version wf := by
  simpa using List.find?_some h

theorem name_of_newest {wf : SharedWorkflow} (h : newest ws name = some wf) : wf.name = name := by
  simpa using List.find?_some h

/-- The newest of a name is the one pinned by its version. -/
theorem pinned_of_newest {wf : SharedWorkflow} (h : newest ws name = some wf) : pinned ws name wf.version = some wf := by
  obtain ⟨hname, l, r, rfl, hl⟩ := List.find?_eq_some_iff_append.mp h
  refine List.find?_eq_some_iff_append.mpr ⟨by simpa [At] using hname, l, r, rfl, fun w hw => ?_⟩
  have hne : w.name ≠ name := by simpa using hl w hw
  simp [At, hne]

theorem pinned_filter (name' version' : String) : pinned (ws.filter fun w => ¬ At name' version' w) name version =
    if name = name' ∧ version = version' then none else pinned ws name version := by
  rw [pinned, List.find?_filter]
  split_ifs with h
  · obtain ⟨rfl, rfl⟩ := h
    simp
  · refine List.find?_congr fun w _ => ?_
    by_cases hw : At name version w
    · have hno : ¬ At name' version' w := fun ⟨hn, hv⟩ => h ⟨hw.1.symm.trans hn, hw.2.symm.trans hv⟩
      simp [hw, hno]
    · simp [hw]

theorem newest_filter {name' version' : String} (h : name ≠ name') :
    newest (ws.filter fun w => ¬ At name' version' w) name = newest ws name := by
  rw [newest, List.find?_filter]
  refine List.find?_congr fun w _ => ?_
  by_cases hw : w.name = name
  · have hno : ¬ At name' version' w := fun hat => h (hw.symm.trans hat.1)
    simp [hw, hno]
  · simp [hw]

/-- A version that is not the newest does not matter for which one is. -/
theorem newest_filter_of_ne {first : SharedWorkflow} (h : newest ws name = some first) (hv : first.version ≠ version) :
    newest (ws.filter fun w => ¬ At name version w) name = some first := by
  obtain ⟨hname, l, r, rfl, hl⟩ := List.find?_eq_some_iff_append.mp h
  rw [List.filter_append, List.filter_cons]
  have hkeep : ¬ At name version first := fun hat => hv hat.2
  simp only [hkeep, not_false_eq_true, decide_true, if_true]
  refine List.find?_eq_some_iff_append.mpr ⟨hname, _, _, rfl, fun w hw => hl w (List.mem_filter.mp hw).1⟩

end

/-! ### What a call does -/

section

variable {r : WorkflowRegistry} {ws : List SharedWorkflow} {name version : String}

theorem get_eq_bind (name version : String) : r.get name version =
    (r.entries.lookup name).bind fun bucket => (bucket.lookup version).map VersionedEntry.wf := rfl

/-- A call about another name. -/
theorem call_other {c : RegistryCall} (h : c.name? ≠ some name) :
    (r.call c).entries.lookup name = r.entries.lookup name ∧
      (r.call c).latestVersion.lookup name = r.latestVersion.lookup name := by
  cases c with
  | register wf now =>
    cases wf with
    | none => exact ⟨rfl, rfl⟩
    | some wf =>
      have hne : name ≠ wf.name := fun heq => h (by rw [heq]; rfl)
      rw [call, register, OrderedMap.lookup_insert, if_neg hne, OrderedMap.lookup_insert, if_neg hne]
      exact ⟨rfl, rfl⟩
  | unregister name' version =>
    have hne : name ≠ name' := fun heq => h (by rw [heq]; rfl)
    rw [call, unregister]
    cases r.entries.lookup name' with
    | none => exact ⟨rfl, rfl⟩
    | some bucket =>
      simp only
      split_ifs with hb
      · exact ⟨rfl, rfl⟩
      · simp only [withdraw]
        split
        · rw [OrderedMap.lookup_erase, if_neg hne]
          refine ⟨rfl, ?_⟩
          split_ifs
          · rw [OrderedMap.lookup_erase, if_neg hne]
          · rfl
        · rw [OrderedMap.lookup_insert, if_neg hne]
          refine ⟨rfl, ?_⟩
          split_ifs
          · rw [OrderedMap.lookup_insert, if_neg hne]
          · rfl

theorem get_call_other {c : RegistryCall} (h : c.name? ≠ some name) (version : String) :
    (r.call c).get name version = r.get name version := by
  rw [get_eq_bind, (call_other h).1, get_eq_bind]

theorem getLatest_call_other {c : RegistryCall} (h : c.name? ≠ some name) :
    (r.call c).getLatest name = r.getLatest name := by
  rw [getLatest, getLatest, (call_other h).2]
  exact congrArg _ (funext (get_call_other h))

/-- Removing what is not registered. -/
theorem unregister_of_get_eq_none (h : r.get name version = none) : r.call (.unregister name version) = r := by
  rw [call, unregister]
  rw [get_eq_bind] at h
  cases hb : r.entries.lookup name with
  | none => rfl
  | some bucket =>
    rw [hb, Option.bind_some, Option.map_eq_none_iff] at h
    simp [h]

/-- The registry agrees with what is registered of a name, and its latest version is one of these. -/
structure Consistent (r : WorkflowRegistry) (ws : List SharedWorkflow) (name : String) : Prop where
  get : ∀ version, r.get name version = pinned ws name version
  bucket : ∀ bucket, r.entries.lookup name = some bucket → bucket ≠ [] ∧ OrderedMap.Sorted bucket
  current : ∀ version, r.latestVersion.lookup name = some version → r.get name version ≠ none
  unset : r.latestVersion.lookup name = none → r.entries.lookup name = none

/-- The latest version of a name is the most recent one. -/
def Recent (r : WorkflowRegistry) (ws : List SharedWorkflow) (name : String) : Prop :=
  r.latestVersion.lookup name = (newest ws name).map SharedWorkflow.version

theorem Consistent.null (h : Consistent r ws name) : r.getLatest name = none ↔ newest ws name = none := by
  rw [getLatest]
  cases hv : r.latestVersion.lookup name with
  | none =>
    refine iff_of_true rfl (newest_eq_none.mpr fun wf hwf hname => ?_)
    have hget := h.get wf.version
    rw [get_eq_bind, h.unset hv] at hget
    exact pinned_eq_none.mp hget.symm wf hwf ⟨hname, rfl⟩
  | some version =>
    refine iff_of_false (h.current version hv) fun hnone => ?_
    have hget := h.current version hv
    rw [h.get version] at hget
    exact hget (pinned_eq_none.mpr fun wf hwf hat => newest_eq_none.mp hnone wf hwf hat.1)

/-- The latest workflow is the most recent one if and only if the version is. -/
theorem Consistent.latest_iff (h : Consistent r ws name) : r.getLatest name = newest ws name ↔ Recent r ws name := by
  rw [Recent, getLatest]
  cases hn : newest ws name with
  | none =>
    have hnull := h.null.mpr hn
    rw [getLatest] at hnull
    rw [hnull, Option.map_none]
    refine iff_of_true rfl ?_
    cases hv : r.latestVersion.lookup name with
    | none => rfl
    | some version =>
      rw [hv] at hnull
      exact absurd hnull (h.current version hv)
  | some wf =>
    rw [Option.map_some]
    constructor
    · intro hl
      obtain ⟨version, hv, hget⟩ := Option.bind_eq_some_iff.mp hl
      rw [h.get version] at hget
      rw [hv, (at_of_pinned hget).2]
    · intro hv
      rw [hv, Option.bind_some, h.get, pinned_of_newest hn]

theorem pinned_keep_other {c : RegistryCall} (h : c.name? ≠ some name) (version : String) :
    pinned (keep ws c) name version = pinned ws name version := by
  cases c with
  | register wf now =>
    cases wf with
    | none => rfl
    | some wf =>
      have hne : name ≠ wf.name := fun heq => h (by rw [heq]; rfl)
      have hno : ¬ At name version wf := fun hat => hne hat.1.symm
      rw [keep, pinned, List.find?_cons_of_neg (by simpa using hno)]
      exact (pinned_filter wf.name wf.version).trans (if_neg fun heq => hne heq.1)
  | unregister name' version' =>
    have hne : name ≠ name' := fun heq => h (by rw [heq]; rfl)
    exact (pinned_filter name' version').trans (if_neg fun heq => hne heq.1)

theorem newest_keep_other {c : RegistryCall} (h : c.name? ≠ some name) :
    newest (keep ws c) name = newest ws name := by
  cases c with
  | register wf now =>
    cases wf with
    | none => rfl
    | some wf =>
      have hne : name ≠ wf.name := fun heq => h (by rw [heq]; rfl)
      rw [keep, newest, List.find?_cons_of_neg (by simpa using Ne.symm hne)]
      exact newest_filter hne
  | unregister name' version' => exact newest_filter fun heq => h (by rw [heq]; rfl)

theorem Consistent.call_other {c : RegistryCall} (hc : Consistent r ws name) (h : c.name? ≠ some name) :
    Consistent (r.call c) (keep ws c) name := by
  obtain ⟨hentries, hlatest⟩ := WorkflowRegistry.call_other (r := r) h
  refine ⟨fun version => ?_, fun bucket hb => hc.bucket bucket (hentries ▸ hb), fun version hv => ?_, fun hv => ?_⟩
  · rw [get_call_other h, hc.get, pinned_keep_other h]
  · rw [get_call_other h]
    exact hc.current version (hlatest ▸ hv)
  · rw [hentries]
    exact hc.unset (hlatest ▸ hv)

theorem get_register (now : ℤ) (wf : SharedWorkflow) (version : String) :
    (r.call (.register (some wf) now)).get wf.name version =
      if version = wf.version then some wf else r.get wf.name version := by
  rw [call, register, get_eq_bind, OrderedMap.lookup_insert, if_pos rfl, Option.bind_some, OrderedMap.lookup_insert,
    get_eq_bind]
  split_ifs
  · rfl
  · cases r.entries.lookup wf.name <;> rfl

theorem Consistent.register (wf : SharedWorkflow) (now : ℤ) (h : Consistent r ws wf.name) :
    Consistent (r.call (.register (some wf) now)) (keep ws (.register (some wf) now)) wf.name := by
  have hlatest : (r.call (.register (some wf) now)).latestVersion.lookup wf.name = some wf.version := by
    rw [call, WorkflowRegistry.register, OrderedMap.lookup_insert, if_pos rfl]
  refine ⟨fun version => ?_, fun bucket hb => ?_, fun version hv => ?_, fun hv => ?_⟩
  · rw [get_register, keep, pinned]
    split_ifs with heq
    · rw [List.find?_cons_of_pos (by simp [At, heq])]
    · have hno : ¬ At wf.name version wf := fun hat => heq hat.2.symm
      rw [List.find?_cons_of_neg (by simpa using hno), h.get version]
      exact ((pinned_filter wf.name wf.version).trans (if_neg fun hv => heq hv.2)).symm
  · rw [call, WorkflowRegistry.register, OrderedMap.lookup_insert, if_pos rfl] at hb
    obtain rfl := Option.some.inj hb
    have hold : OrderedMap.Sorted ((r.entries.lookup wf.name).getD []) := by
      cases hold : r.entries.lookup wf.name with
      | none => exact OrderedMap.sorted_nil
      | some old => exact (h.bucket old hold).2
    refine ⟨fun hnil => ?_, hold.insert _ _⟩
    have hlookup := OrderedMap.lookup_insert wf.version wf.version (VersionedEntry.mk wf now)
      ((r.entries.lookup wf.name).getD [])
    rw [hnil, if_pos rfl] at hlookup
    cases hlookup
  · obtain rfl : wf.version = version := Option.some.inj (hlatest.symm.trans hv)
    rw [get_register, if_pos rfl]
    exact Option.some_ne_none wf
  · rw [hlatest] at hv
    cases hv

/-- What is registered last is the latest. -/
theorem recent_register (wf : SharedWorkflow) (now : ℤ) :
    Recent (r.call (.register (some wf) now)) (keep ws (.register (some wf) now)) wf.name := by
  rw [Recent, call, WorkflowRegistry.register, OrderedMap.lookup_insert, if_pos rfl, keep, newest,
    List.find?_cons_of_pos (by simp)]
  rfl

theorem exists_bucket (h : r.get name version ≠ none) :
    ∃ bucket, r.entries.lookup name = some bucket ∧ bucket.lookup version ≠ none := by
  rw [get_eq_bind] at h
  cases hb : r.entries.lookup name with
  | none => simp [hb] at h
  | some bucket => exact ⟨bucket, rfl, by simpa [hb] using h⟩

theorem call_unregister {bucket : List (String × VersionedEntry)} (hb : r.entries.lookup name = some bucket)
    (hv : bucket.lookup version ≠ none) :
    r.call (.unregister name version) = r.withdraw name version (OrderedMap.erase version bucket) := by
  rw [call, unregister, hb]
  simp only [if_neg hv]

theorem entries_withdraw (r : WorkflowRegistry) (name version : String) (rest : List (String × VersionedEntry)) :
    (r.withdraw name version rest).entries.lookup name = if rest = [] then none else some rest := by
  rw [withdraw]
  cases hr : rest.getLast? with
  | none => rw [OrderedMap.lookup_erase, if_pos rfl, if_pos (List.getLast?_eq_none_iff.mp hr)]
  | some greatest =>
    have hne : rest ≠ [] := fun hnil => by simp [hnil] at hr
    rw [OrderedMap.lookup_insert, if_pos rfl, if_neg hne]

theorem latestVersion_withdraw (r : WorkflowRegistry) (name version : String) (rest : List (String × VersionedEntry)) :
    (r.withdraw name version rest).latestVersion.lookup name =
      if r.latestVersion.lookup name = some version then rest.getLast?.map Prod.fst
      else r.latestVersion.lookup name := by
  rw [withdraw]
  cases rest.getLast? with
  | none =>
    simp only
    split_ifs
    · rw [OrderedMap.lookup_erase, if_pos rfl, Option.map_none]
    · rfl
  | some greatest =>
    simp only
    split_ifs
    · rw [OrderedMap.lookup_insert, if_pos rfl, Option.map_some]
    · rfl

theorem get_unregister (name version version' : String) : (r.call (.unregister name version)).get name version' =
    if version' = version then none else r.get name version' := by
  cases hb : r.entries.lookup name with
  | none =>
    have hnone : ∀ version, r.get name version = none := fun version => by rw [get_eq_bind, hb, Option.bind_none]
    rw [unregister_of_get_eq_none (hnone version), hnone, ite_self]
  | some bucket =>
    by_cases hv : bucket.lookup version = none
    · have hnone : r.get name version = none := by rw [get_eq_bind, hb, Option.bind_some, hv, Option.map_none]
      rw [unregister_of_get_eq_none hnone]
      split_ifs with heq
      · rw [heq, hnone]
      · rfl
    · have hget : (r.call (.unregister name version)).get name version' =
          ((OrderedMap.erase version bucket).lookup version').map VersionedEntry.wf := by
        rw [call_unregister hb hv, get_eq_bind, entries_withdraw]
        split_ifs with hnil
        · rw [hnil]
          rfl
        · rfl
      rw [hget, OrderedMap.lookup_erase, get_eq_bind, hb, Option.bind_some]
      split_ifs <;> rfl

theorem Consistent.unregister (version : String) (h : Consistent r ws name) :
    Consistent (r.call (.unregister name version)) (keep ws (.unregister name version)) name := by
  by_cases hget : r.get name version = none
  · have hall := pinned_eq_none.mp ((h.get version).symm.trans hget)
    rw [unregister_of_get_eq_none hget, keep, List.filter_eq_self.mpr (by simpa using hall)]
    exact h
  obtain ⟨bucket, hb, hv⟩ := exists_bucket hget
  have hsorted := (h.bucket bucket hb).2.erase version
  refine ⟨fun version' => ?_, fun rest hr => ?_, fun version' hv' => ?_, fun hnone => ?_⟩
  · rw [get_unregister, h.get, keep]
    rw [pinned_filter]
    simp
  · rw [call_unregister hb hv, entries_withdraw] at hr
    split_ifs at hr with hnil
    obtain rfl := Option.some.inj hr
    exact ⟨hnil, hsorted⟩
  · rw [call_unregister hb hv, latestVersion_withdraw] at hv'
    split_ifs at hv' with hlatest
    · -- the greatest of the rest
      obtain ⟨greatest, hg, rfl⟩ := Option.map_eq_some_iff.mp hv'
      have hne : OrderedMap.erase version bucket ≠ [] := fun hnil => by simp [hnil] at hg
      rw [call_unregister hb hv, get_eq_bind, entries_withdraw, if_neg hne, Option.bind_some,
        (hsorted.le_getLast? hg).1]
      simp
    · have hne : version' ≠ version := fun heq => hlatest (heq ▸ hv')
      rw [get_unregister, if_neg hne]
      exact h.current version' hv'
  · rw [call_unregister hb hv, latestVersion_withdraw] at hnone
    rw [call_unregister hb hv, entries_withdraw]
    split_ifs at hnone with hlatest
    · rw [if_pos (List.getLast?_eq_none_iff.mp (Option.map_eq_none_iff.mp hnone))]
    · rw [h.unset hnone] at hb
      cases hb

/-- The greatest version is the most recent one if and only if that is the greatest. -/
theorem Consistent.greatest_eq_iff {rest : List (String × VersionedEntry)} {greatest : String × VersionedEntry}
    {next : SharedWorkflow} (h : Consistent r ws name) (hb : r.entries.lookup name = some rest)
    (hg : rest.getLast? = some greatest) (hn : newest ws name = some next) :
    greatest.1 = next.version ↔ ∀ wf ∈ ws, wf.name = name → wf.version ≤ next.version := by
  obtain ⟨hlookup, hle⟩ := (h.bucket rest hb).2.le_getLast? hg
  have hmax : ∀ wf ∈ ws, wf.name = name → wf.version ≤ greatest.1 := by
    intro wf hwf hname
    have hget : r.get name wf.version ≠ none := by
      rw [h.get]
      exact fun hnone => pinned_eq_none.mp hnone wf hwf ⟨hname, rfl⟩
    rw [get_eq_bind, hb, Option.bind_some] at hget
    cases hentry : rest.lookup wf.version with
    | none => exact absurd (by rw [hentry, Option.map_none]) hget
    | some entry => exact hle _ _ hentry
  constructor
  · intro heq
    rwa [heq] at hmax
  · intro hnext
    have hget := h.get greatest.1
    rw [get_eq_bind, hb, Option.bind_some, hlookup, Option.map_some] at hget
    obtain ⟨hname, hversion⟩ := at_of_pinned hget.symm
    refine le_antisymm ?_ (hmax next (List.mem_of_find?_eq_some hn) (name_of_newest hn))
    rw [← hversion]
    exact hnext _ (List.mem_of_find?_eq_some hget.symm) hname

/-- **When the latest stays the most recent**: if the version that is promoted is. -/
theorem recent_unregister_iff (version : String) (h : Consistent r ws name) (hr : Recent r ws name) :
    Recent (r.call (.unregister name version)) (keep ws (.unregister name version)) name ↔
      Promotes ws (.unregister name version) := by
  have hafter := h.unregister version
  by_cases hget : r.get name version = none
  · have hall := pinned_eq_none.mp ((h.get version).symm.trans hget)
    have hkeep : keep ws (.unregister name version) = ws := List.filter_eq_self.mpr (by simpa using hall)
    rw [unregister_of_get_eq_none hget, hkeep]
    refine iff_of_true hr fun first next hfirst hv => ?_
    have hat := at_of_pinned (pinned_of_newest hfirst)
    exact absurd ⟨hat.1, hv⟩ (hall first (List.mem_of_find?_eq_some hfirst))
  obtain ⟨bucket, hb, hv⟩ := exists_bucket hget
  have hsorted := (h.bucket bucket hb).2.erase version
  have hlatest : (r.call (.unregister name version)).latestVersion.lookup name =
      if r.latestVersion.lookup name = some version then
        (OrderedMap.erase version bucket).getLast?.map Prod.fst
      else r.latestVersion.lookup name := by
    rw [call_unregister hb hv, latestVersion_withdraw]
  by_cases hcur : r.latestVersion.lookup name = some version
  · rw [if_pos hcur] at hlatest
    rw [Recent, hlatest]
    cases hn : newest (keep ws (.unregister name version)) name with
    | none =>
      have hnull := hafter.null.mpr hn
      refine iff_of_true ?_ fun first next _ _ hnext => by rw [hn] at hnext; cases hnext
      rw [getLatest, hlatest] at hnull
      cases hg : (OrderedMap.erase version bucket).getLast? with
      | none => rfl
      | some greatest =>
        rw [hg, Option.map_some, Option.bind_some] at hnull
        exact absurd hnull (hafter.current _ (by rw [hlatest, hg, Option.map_some]))
    | some next =>
      cases hg : (OrderedMap.erase version bucket).getLast? with
      | none =>
        rw [hg, Option.map_none] at hlatest
        have hnull : (r.call (.unregister name version)).getLatest name = none := by rw [getLatest, hlatest]; rfl
        rw [hafter.null.mp hnull] at hn
        cases hn
      | some greatest =>
        have hrest : (r.call (.unregister name version)).entries.lookup name =
            some (OrderedMap.erase version bucket) := by
          rw [call_unregister hb hv, entries_withdraw, if_neg]
          intro hnil
          simp [hnil] at hg
        rw [Recent, hcur] at hr
        obtain ⟨first, hf, heq⟩ := Option.map_eq_some_iff.mp hr.symm
        rw [Option.map_some, Option.map_some, Option.some.injEq, hafter.greatest_eq_iff hrest hg hn]
        exact ⟨fun hall _ next' _ _ hnext => Option.some.inj (hn.symm.trans hnext) ▸ hall,
          fun hp => hp first next hf heq hn⟩
  · -- the version that is removed is not the latest
    rw [if_neg hcur] at hlatest
    have hfirst : ∀ first, newest ws name = some first → first.version ≠ version := by
      intro first hf heq
      rw [Recent, hf, Option.map_some, heq] at hr
      exact hcur hr
    refine iff_of_true ?_ fun first next hf heq => absurd heq (hfirst first hf)
    rw [Recent, hlatest, hr]
    cases hf : newest ws name with
    | none =>
      have hnone : newest (keep ws (.unregister name version)) name = none :=
        newest_eq_none.mpr fun wf hwf => newest_eq_none.mp hf wf (List.mem_filter.mp hwf).1
      rw [hnone]
    | some first =>
      have hkeep : newest (keep ws (.unregister name version)) name = some first :=
        newest_filter_of_ne hf (hfirst first hf)
      rw [hkeep]

end

/-! ### Runs -/

theorem after_snoc (trace : Bool) (calls : List RegistryCall) (c : RegistryCall) :
    after trace (calls ++ [c]) = (after trace calls).call c := by
  rw [after, List.foldl_append, ← after]
  rfl

theorem kept_snoc (calls : List RegistryCall) (c : RegistryCall) : kept (calls ++ [c]) = keep (kept calls) c := by
  rw [kept, List.foldl_append, ← kept]
  rfl

theorem Consistent.call {r : WorkflowRegistry} {ws : List SharedWorkflow} {name : String} (h : Consistent r ws name)
    (c : RegistryCall) : Consistent (r.call c) (keep ws c) name := by
  by_cases hc : c.name? = some name
  · cases c with
    | register wf now =>
      obtain ⟨wf, rfl, rfl⟩ := Option.map_eq_some_iff.mp hc
      exact h.register wf now
    | unregister name' version =>
      obtain rfl := Option.some.inj hc
      exact h.unregister version
  · exact h.call_other hc

/-- **The two maps agree** with what is registered, after all calls. -/
theorem consistent_after (trace : Bool) (calls : List RegistryCall) (name : String) :
    Consistent (after trace calls) (kept calls) name := by
  induction calls using List.reverseRecOn with
  | nil =>
    refine ⟨fun _ => rfl, fun bucket hb => ?_, fun version hv => ?_, fun _ => rfl⟩
    · cases hb
    · cases hv
  | append_singleton calls c ih =>
    rw [after_snoc, kept_snoc]
    exact ih.call c

theorem recent_call_iff {r : WorkflowRegistry} {ws : List SharedWorkflow} {c : RegistryCall}
    (h : ∀ name, Consistent r ws name) (hr : ∀ name, Recent r ws name) :
    (∀ name, Recent (r.call c) (keep ws c) name) ↔ Promotes ws c := by
  have hother : ∀ name, c.name? ≠ some name → Recent (r.call c) (keep ws c) name := by
    intro name hne
    rw [Recent, (call_other hne).2, newest_keep_other hne]
    exact hr name
  cases c with
  | register wf now =>
    refine iff_of_true (fun name => ?_) trivial
    by_cases hc : (RegistryCall.register wf now).name? = some name
    · obtain ⟨wf, rfl, rfl⟩ := Option.map_eq_some_iff.mp hc
      exact recent_register wf now
    · exact hother name hc
  | unregister name version =>
    rw [← recent_unregister_iff version (h name) (hr name)]
    refine ⟨fun hall => hall name, fun hname name' => ?_⟩
    by_cases hc : name = name'
    · exact hc ▸ hname
    · exact hother name' fun heq => hc (Option.some.inj heq)

theorem lawful_iff_recent (trace : Bool) (calls : List RegistryCall) :
    Lawful trace calls ↔ ∀ name, Recent (after trace calls) (kept calls) name := by
  have hc := consistent_after trace calls
  refine ⟨fun h name => (hc name).latest_iff.mp (h.latest name), fun h => ⟨fun name => ?_, fun name => ?_,
    fun name => (hc name).get, fun c name hne => ⟨getLatest_call_other hne, get_call_other hne⟩⟩⟩
  · rw [(hc name).null, newest_eq_none]
  · exact (hc name).latest_iff.mpr (h name)

/-- **The law of the latest version** holds all along a run if and only if
each removal of the newest version of a name leaves the one before it as the
greatest. -/
theorem lawful_iff_promotes (trace : Bool) (calls : List RegistryCall) :
    (∀ before, before <+: calls → Lawful trace before) ↔
      History.Each (fun before c => Promotes (kept before) c) calls := by
  induction calls using List.reverseRecOn with
  | nil =>
    refine iff_of_true (fun before hb => ?_) History.each_nil
    rw [List.prefix_nil.mp hb]
    exact (lawful_iff_recent trace []).mpr fun _ => rfl
  | append_singleton calls c ih =>
    rw [History.each_snoc, ← ih]
    have hsplit : (∀ before, before <+: calls ++ [c] → Lawful trace before) ↔
        (∀ before, before <+: calls → Lawful trace before) ∧ Lawful trace (calls ++ [c]) := by
      refine ⟨fun h => ⟨fun before hb => h before (hb.trans (List.prefix_append _ _)), h _ List.prefix_rfl⟩,
        fun ⟨h, hc⟩ before hb => ?_⟩
      rcases List.prefix_concat_iff.mp (by simpa using hb) with rfl | hb
      · exact hc
      · exact h before hb
    rw [hsplit]
    refine and_congr_right fun h => ?_
    rw [lawful_iff_recent, after_snoc, kept_snoc]
    exact recent_call_iff (consistent_after trace calls) ((lawful_iff_recent trace calls).mp (h calls List.prefix_rfl))

/-! ### Versions that are not in the order of their names -/

def versionOf (version : String) (object : ℕ) : SharedWorkflow := ⟨object, { name := "desk", version := version }⟩

/-- Version 10 is registered after version 9, and then version 11, which is removed. -/
def tenCalls : List RegistryCall :=
  [.register (some (versionOf "v9" 0)) 0, .register (some (versionOf "v10" 1)) 1,
    .register (some (versionOf "v11" 2)) 2, .unregister "desk" "v11"]

/-- Version 9 becomes the latest. -/
theorem not_lawful_ten : (after false tenCalls).getLatest "desk" = some (versionOf "v9" 0) ∧ ¬ Lawful false tenCalls := by
  have hv9 : (after false tenCalls).getLatest "desk" = some (versionOf "v9" 0) := by decide +kernel
  have hv10 : newest (kept tenCalls) "desk" = some (versionOf "v10" 1) := by decide +kernel
  refine ⟨hv9, fun h => ?_⟩
  have hl := h.latest "desk"
  rw [hv9, hv10] at hl
  revert hl
  decide

end WorkflowRegistry

end AgentFlow.Workflow
