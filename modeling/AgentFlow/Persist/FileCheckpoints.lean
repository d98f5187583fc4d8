/-
# Checkpoints in a file

`agentflow/persist/file_checkpoint_writer.{h,cc}` and `checkpoint_reader.{h,cc}`. `Write`
serializes a checkpoint, writes the bytes to `path + ".tmp"` and renames that
file over `path`; `ReadCheckpointFromFile` parses what is at `path`.

The process can be killed between any two calls of the operating system, and a
new one goes on with the files as they are. The stream that `Write` uses has a
buffer: some of the bytes are in the file when `out.write` returns, the others
are written when the stream is closed, and whether that succeeds is not
looked at. So the file at `path` is a whole serialization if every stream is
closed with all bytes in the file (`Flushes`), and else a prefix of one.

The generated code of the message is a parameter (`Codec`).

Key definitions: `Codec`, `Disk`, `step`, `readCheckpointFromFile`, `lastReplaced`.
Key theorems: `read_of_run`, `Flushed.file_of_run`, `InStep.of_run`.
-/
import AgentFlow.Core.Runner
import AgentFlow.Lib.History
import AgentFlow.Lib.Status

namespace AgentFlow.Persist

open History Stepping

/-- The message that is written: with the time the runner puts in. -/
structure StampedCheckpoint extends Checkpoint where
  unixMicros : ℤ
  deriving DecidableEq, Repr

/-- `SerializeToString` and `ParseFromString` of the message. -/
structure Codec where
  serializeToString : StampedCheckpoint → Option Bytes
  parseFromString : Bytes → Option StampedCheckpoint

/-- Parsing undoes serializing. -/
def Codec.RoundTrip (C : Codec) : Prop := ∀ cp bytes, C.serializeToString cp = some bytes → C.parseFromString bytes = some cp

/-! ### Writing -/

/-- Where a call of `Write` is that has the mutex. -/
inductive Stage
  | opening
  | writing
  /-- The stream is to be closed; so many bytes are in the file. -/
  | closing (written : ℕ)
  | renaming
  | returning
  deriving DecidableEq, Repr

structure Call where
  cp : StampedCheckpoint
  bytes : Bytes
  stage : Stage
  deriving DecidableEq, Repr

/-- `replaced` is the rename, with the bytes that were in the file. -/
inductive Event
  | write (cp : StampedCheckpoint)
  | replaced (cp : StampedCheckpoint) (content : Bytes)
  | returned (cp : StampedCheckpoint) (status : Except Status.Error Unit)

/-- The files, the call that has the mutex, and what was done. -/
structure Disk where
  file : String → Option Bytes
  call : Option Call
  log : List Event

def tmp (path : String) : String := path ++ ".tmp"

inductive Choice
  | write (cp : StampedCheckpoint)
  | opened
  | openFailed (errno : String)
  | wrote (written : ℕ)
  | writeFailed (written : ℕ) (errno : String)
  | closed (written : ℕ)
  | renamed
  | renameFailed (errno : String)
  | returns
  | killed
  deriving DecidableEq, Repr

namespace Disk

/-- The file at `name` now holds `content`. -/
def put (d : Disk) (name : String) (content : Option Bytes) : Disk :=
  { d with file := Function.update d.file name content }

def stand (d : Disk) (call : Call) (stage : Stage) : Disk := { d with call := some { call with stage := stage } }

/-- The call returns. -/
def finish (d : Disk) (call : Call) (status : Except Status.Error Unit) : Disk :=
  { d with call := none, log := d.log ++ [.returned call.cp status] }

/-- `std::rename` of the temporary file. -/
def replace (d : Disk) (path : String) (call : Call) : Disk :=
  { ((d.put path (d.file (tmp path))).put (tmp path) none) with
    log := d.log ++ [.replaced call.cp ((d.file (tmp path)).getD [])] }

/-- What the call of `Write` does next. -/
def go (d : Disk) (path : String) (call : Call) : Choice → Stage → Option Disk
  | .opened, .opening => some ((d.put (tmp path) (some [])).stand call .writing)
  | .openFailed errno, .opening =>
    some (d.finish call (.error ⟨.unavailable, "open " ++ tmp path ++ " for write: " ++ errno⟩))
  | .wrote n, .writing =>
    if n ≤ call.bytes.length then some ((d.put (tmp path) (some (call.bytes.take n))).stand call (.closing n)) else none
  | .writeFailed n errno, .writing =>
    if n ≤ call.bytes.length then
      some ((d.put (tmp path) (some (call.bytes.take n))).finish call
        (.error ⟨.dataLoss, "write to " ++ tmp path ++ ": " ++ errno⟩))
    else none
  | .closed n, .closing written =>
    if written ≤ n ∧ n ≤ call.bytes.length then
      some ((d.put (tmp path) (some (call.bytes.take n))).stand call .renaming)
    else none
  | .renamed, .renaming => some ((d.replace path call).stand call .returning)
  | .renameFailed errno, .renaming =>
    some (d.finish call (.error ⟨.unavailable, "rename " ++ tmp path ++ " -> " ++ path ++ ": " ++ errno⟩))
  | .returns, .returning => some (d.finish call (.ok ()))
  | _, _ => none

end Disk

/-- `Write` serializes before it waits for the mutex. -/
def step (C : Codec) (path : String) : Choice → Disk → Option Disk
  | .write cp, d =>
    match C.serializeToString cp with
    | none =>
      some { d with log := d.log ++ [.write cp,
        .returned cp (.error ⟨.internal, "Checkpoint::SerializeToString failed"⟩)] }
    | some bytes =>
      if d.call = none then some { d with call := some ⟨cp, bytes, .opening⟩, log := d.log ++ [.write cp] } else none
  | .killed, d => some { d with call := none }
  | c, d => d.call.bind fun call => d.go path call c call.stage

/-! ### Reading -/

/-- The check of the version. -/
def checkVersion (cp : StampedCheckpoint) : Except Status.Error StampedCheckpoint :=
  if kCurrentCheckpointSchemaVersion < cp.schemaVersion then
    .error ⟨.failedPrecondition, "checkpoint schema_version=" ++ toString cp.schemaVersion ++
      " is newer than supported " ++ toString kCurrentCheckpointSchemaVersion⟩
  else .ok cp

/-- `ReadCheckpointFromFile`, from what is at `path`. -/
def readCheckpointFromFile (C : Codec) (path errno : String) (content : Option Bytes) :
    Except Status.Error StampedCheckpoint :=
  match content with
  | none => .error ⟨.notFound, "open " ++ path ++ " for read: " ++ errno⟩
  | some bytes =>
    match C.parseFromString bytes with
    | none => .error ⟨.dataLoss, "parse Checkpoint from " ++ path ++ " failed"⟩
    | some cp => checkVersion cp

/-! ### What was done -/

namespace Event

def write? : Event → Option StampedCheckpoint
  | .write cp => some cp
  | _ => none

def replaced? : Event → Option (StampedCheckpoint × Bytes)
  | .replaced cp content => some (cp, content)
  | _ => none

end Event

/-- The checkpoints that `Write` was called with, in order. -/
def writes (log : List Event) : List StampedCheckpoint := log.filterMap Event.write?

/-- The renames, in order: of whose file, and with which content. -/
def replacements (log : List Event) : List (StampedCheckpoint × Bytes) := log.filterMap Event.replaced?

@[simp] theorem writes_append (l l' : List Event) : writes (l ++ l') = writes l ++ writes l' := List.filterMap_append

@[simp] theorem replacements_append (l l' : List Event) : replacements (l ++ l') = replacements l ++ replacements l' :=
  List.filterMap_append

@[simp] theorem writes_write (cp : StampedCheckpoint) : writes [.write cp] = [cp] := rfl

@[simp] theorem writes_replaced (cp : StampedCheckpoint) (content : Bytes) : writes [.replaced cp content] = [] := rfl

@[simp] theorem writes_returned (cp : StampedCheckpoint) (status : Except Status.Error Unit) :
    writes [.returned cp status] = [] := rfl

@[simp] theorem replacements_write (cp : StampedCheckpoint) : replacements [.write cp] = [] := rfl

@[simp] theorem replacements_replaced (cp : StampedCheckpoint) (content : Bytes) :
    replacements [.replaced cp content] = [(cp, content)] := rfl

@[simp] theorem replacements_returned (cp : StampedCheckpoint) (status : Except Status.Error Unit) :
    replacements [.returned cp status] = [] := rfl

/-- The rename that made the file what it is. -/
def lastReplaced (log : List Event) : Option (StampedCheckpoint × Bytes) := (replacements log).getLast?

theorem lastReplaced_append_of_none {l l' : List Event} (h : replacements l' = []) :
    lastReplaced (l ++ l') = lastReplaced l := by
  rw [lastReplaced, replacements_append, h, List.append_nil]
  rfl

theorem lastReplaced_snoc (l : List Event) (cp : StampedCheckpoint) (content : Bytes) :
    lastReplaced (l ++ [.replaced cp content]) = some (cp, content) := by
  rw [lastReplaced, replacements_append, replacements_replaced]
  exact List.getLast?_concat

/-! ### What a step does -/

theorem tmp_ne (path : String) : tmp path ≠ path := by
  intro h
  have hlength := congrArg String.length h
  simp [tmp, String.length_append] at hlength

section Files

variable {d : Disk} {path name : String} {content : Option Bytes} {call : Call}

theorem put_other (h : name ≠ path) : (d.put path content).file name = d.file name := Function.update_of_ne h _ _

@[simp] theorem put_self : (d.put path content).file path = content := Function.update_self _ _ _

@[simp] theorem put_tmp_file : (d.put (tmp path) content).file path = d.file path := put_other (tmp_ne path).symm

@[simp] theorem replace_file : (d.replace path call).file path = d.file (tmp path) := by
  show ((d.put path (d.file (tmp path))).put (tmp path) none).file path = d.file (tmp path)
  rw [put_tmp_file, put_self]

theorem replace_other (h : name ≠ path) (htmp : name ≠ tmp path) : (d.replace path call).file name = d.file name := by
  show ((d.put path (d.file (tmp path))).put (tmp path) none).file name = d.file name
  rw [put_other htmp, put_other h]

end Files

/-- What each choice does. -/
inductive Did (C : Codec) (path : String) (d : Disk) : Choice → Disk → Prop
  | unserializable {cp : StampedCheckpoint} (h : C.serializeToString cp = none) :
      Did C path d (.write cp) { d with log := d.log ++ [.write cp,
        .returned cp (.error ⟨.internal, "Checkpoint::SerializeToString failed"⟩)] }
  | write {cp : StampedCheckpoint} {bytes : Bytes} (h : C.serializeToString cp = some bytes) (hfree : d.call = none) :
      Did C path d (.write cp) { d with call := some ⟨cp, bytes, .opening⟩, log := d.log ++ [.write cp] }
  | opened {call : Call} (h : d.call = some call) (hs : call.stage = .opening) :
      Did C path d .opened ((d.put (tmp path) (some [])).stand call .writing)
  | openFailed {call : Call} {errno : String} {e : Status.Error} (h : d.call = some call) (hs : call.stage = .opening) :
      Did C path d (.openFailed errno) (d.finish call (.error e))
  | wrote {call : Call} {n : ℕ} (h : d.call = some call) (hs : call.stage = .writing) (hn : n ≤ call.bytes.length) :
      Did C path d (.wrote n) ((d.put (tmp path) (some (call.bytes.take n))).stand call (.closing n))
  | writeFailed {call : Call} {n : ℕ} {errno : String} {e : Status.Error} (h : d.call = some call)
      (hs : call.stage = .writing) (hn : n ≤ call.bytes.length) : Did C path d (.writeFailed n errno)
        ((d.put (tmp path) (some (call.bytes.take n))).finish call (.error e))
  | closed {call : Call} {n written : ℕ} (h : d.call = some call) (hs : call.stage = .closing written)
      (hle : written ≤ n) (hn : n ≤ call.bytes.length) :
      Did C path d (.closed n) ((d.put (tmp path) (some (call.bytes.take n))).stand call .renaming)
  | renamed {call : Call} (h : d.call = some call) (hs : call.stage = .renaming) :
      Did C path d .renamed ((d.replace path call).stand call .returning)
  | renameFailed {call : Call} {errno : String} {e : Status.Error} (h : d.call = some call)
      (hs : call.stage = .renaming) : Did C path d (.renameFailed errno) (d.finish call (.error e))
  | returns {call : Call} (h : d.call = some call) (hs : call.stage = .returning) :
      Did C path d .returns (d.finish call (.ok ()))
  | killed : Did C path d .killed { d with call := none }

variable {C : Codec} {path : String} {d d' : Disk} {c : Choice}

theorem did_of_go {call : Call} (hcall : d.call = some call) (h : d.go path call c call.stage = some d') :
    Did C path d c d' := by
  unfold Disk.go at h
  split at h
  · cases h
    exact .opened hcall ‹_›
  · cases h
    exact .openFailed hcall ‹_›
  · split_ifs at h with hn
    cases h
    exact .wrote hcall ‹_› hn
  · split_ifs at h with hn
    cases h
    exact .writeFailed hcall ‹_› hn
  · split_ifs at h with hn
    cases h
    exact .closed hcall ‹_› hn.1 hn.2
  · cases h
    exact .renamed hcall ‹_›
  · cases h
    exact .renameFailed hcall ‹_›
  · cases h
    exact .returns hcall ‹_›
  · cases h

theorem did_of_step (h : step C path c d = some d') : Did C path d c d' := by
  unfold step at h
  split at h
  · split at h
    · cases h
      exact .unserializable ‹_›
    · split_ifs at h with hfree
      cases h
      exact .write ‹_› hfree
  · cases h
    exact .killed
  · obtain ⟨call, hcall, hgo⟩ := Option.bind_eq_some_iff.mp h
    exact did_of_go hcall hgo

/-! ### What the file holds -/

/-- What the history of a run says about the files. -/
structure Kept (C : Codec) (path : String) (before : String → Option Bytes) (d : Disk) : Prop where
  others : ∀ name, name ≠ path → name ≠ tmp path → d.file name = before name
  file : d.file path = (lastReplaced d.log).elim (before path) fun r => some r.2
  /-- A call returns OK right after its rename. -/
  acknowledged : Each (fun past e => ∀ cp, e = .returned cp (.ok ()) → (lastReplaced past).map Prod.fst = some cp) d.log
  /-- What was renamed is a first part of the serialization. -/
  torn : ∀ r ∈ replacements d.log, ∃ bytes, C.serializeToString r.1 = some bytes ∧ r.2 <+: bytes
  serialized : ∀ call, d.call = some call → C.serializeToString call.cp = some call.bytes
  temporary : ∀ call, d.call = some call → call.stage = .renaming → ∃ n, d.file (tmp path) = some (call.bytes.take n)
  swapped : ∀ call, d.call = some call → call.stage = .returning → (lastReplaced d.log).map Prod.fst = some call.cp

namespace Kept

variable {before : String → Option Bytes} {call : Call}

theorem init (h : d.call = none) (hlog : d.log = []) : Kept C path d.file d where
  others _ _ _ := rfl
  file := by rw [hlog]; rfl
  acknowledged := by rw [hlog]; exact each_nil
  torn := by simp [hlog, replacements]
  serialized := by simp [h]
  temporary := by simp [h]
  swapped := by simp [h]

/-- The mutex is free. -/
theorem freed (h : Kept C path before d) : Kept C path before { d with call := none } :=
  { h with serialized := nofun, temporary := nofun, swapped := nofun }

/-- A call gets the mutex. -/
theorem begins (h : Kept C path before d) (call : Call) (hcall : C.serializeToString call.cp = some call.bytes)
    (hs : call.stage = .opening) : Kept C path before { d with call := some call } where
  others := h.others
  file := h.file
  acknowledged := h.acknowledged
  torn := h.torn
  serialized call' hcall' := by
    cases hcall'
    exact hcall
  temporary call' hcall' hs' := by
    cases hcall'
    exact absurd (hs.symm.trans hs') nofun
  swapped call' hcall' hs' := by
    cases hcall'
    exact absurd (hs.symm.trans hs') nofun

/-- The temporary file is written to. -/
theorem put (h : Kept C path before d) (content : Option Bytes) (stage : Stage) (hcall : d.call = some call)
    (hrenaming : stage = .renaming → ∃ n, content = some (call.bytes.take n)) (hreturning : stage ≠ .returning) :
    Kept C path before ((d.put (tmp path) content).stand call stage) where
  others name hname htmp := (put_other htmp).trans (h.others name hname htmp)
  file := put_tmp_file.trans h.file
  acknowledged := h.acknowledged
  torn := h.torn
  serialized call' hcall' := by
    cases hcall'
    exact h.serialized call hcall
  temporary call' hcall' hs := by
    cases hcall'
    obtain ⟨n, hn⟩ := hrenaming hs
    exact ⟨n, put_self.trans hn⟩
  swapped call' hcall' hs := by
    cases hcall'
    exact absurd hs hreturning

/-- Events that are no renames, with files that differ in the temporary one at most. -/
theorem logs (h : Kept C path before d) {events : List Event} (hnone : replacements events = [])
    (hack : ∀ e ∈ events, ∀ cp, e = .returned cp (.ok ()) → (lastReplaced d.log).map Prod.fst = some cp) :
    Kept C path before { d with log := d.log ++ events } where
  others := h.others
  file := by
    rw [lastReplaced_append_of_none hnone]
    exact h.file
  acknowledged := by
    refine each_append.mpr ⟨h.acknowledged, ?_⟩
    intro p e s hs cp he
    have hp : replacements p = [] := by
      rw [hs, replacements_append] at hnone
      exact (List.append_eq_nil_iff.mp hnone).1
    rw [lastReplaced_append_of_none hp]
    exact hack e (hs ▸ List.mem_append_right _ List.mem_cons_self) cp he
  torn r hr := by
    rw [replacements_append, hnone, List.append_nil] at hr
    exact h.torn r hr
  serialized := h.serialized
  temporary := h.temporary
  swapped call' hcall' hs := by
    rw [lastReplaced_append_of_none hnone]
    exact h.swapped call' hcall' hs

/-- The call returns, with OK only after its rename. -/
theorem finish (h : Kept C path before d) {status : Except Status.Error Unit}
    (hok : status = .ok () → (lastReplaced d.log).map Prod.fst = some call.cp) :
    Kept C path before (d.finish call status) := by
  refine h.freed.logs rfl fun e he cp hcp => ?_
  obtain rfl := List.mem_singleton.mp he
  cases hcp
  exact hok rfl

theorem replace (h : Kept C path before d) (hcall : d.call = some call) (hs : call.stage = .renaming) :
    Kept C path before ((d.replace path call).stand call .returning) := by
  obtain ⟨n, hn⟩ := h.temporary call hcall hs
  have hlog : (d.replace path call).log = d.log ++ [.replaced call.cp (call.bytes.take n)] := by
    show d.log ++ [_] = _
    rw [hn]
    rfl
  constructor
  case others =>
    intro name hname htmp
    show (d.replace path call).file name = before name
    rw [replace_other hname htmp, h.others name hname htmp]
  case file =>
    show (d.replace path call).file path = (lastReplaced (d.replace path call).log).elim _ _
    rw [hlog, lastReplaced_snoc, replace_file, hn]
    rfl
  case acknowledged =>
    show Each _ (d.replace path call).log
    rw [hlog]
    exact h.acknowledged.append_of_forall (by simp)
  case torn =>
    show ∀ r ∈ replacements (d.replace path call).log, _
    rw [hlog, replacements_append, List.forall_mem_append]
    refine ⟨h.torn, fun r hr => ?_⟩
    obtain rfl := List.mem_singleton.mp hr
    exact ⟨call.bytes, h.serialized call hcall, List.take_prefix _ _⟩
  case serialized =>
    intro call' hcall'
    cases hcall'
    exact h.serialized call hcall
  case temporary =>
    intro call' hcall' hs'
    cases hcall'
    cases hs'
  case swapped =>
    intro call' hcall' _
    cases hcall'
    show (lastReplaced (d.replace path call).log).map Prod.fst = some call.cp
    rw [hlog, lastReplaced_snoc]
    rfl

theorem of_did (h : Kept C path before d) (hd : Did C path d c d') : Kept C path before d' := by
  cases hd with
  | unserializable hcp => exact h.logs rfl (by simp)
  | @write cp bytes hcp hfree =>
    have hlogs : Kept C path before { d with log := d.log ++ [.write cp] } := h.logs rfl (by simp)
    exact hlogs.begins ⟨cp, bytes, .opening⟩ hcp rfl
  | opened hcall => exact h.put _ _ hcall nofun nofun
  | openFailed => exact h.finish nofun
  | wrote hcall => exact h.put _ _ hcall nofun nofun
  | @writeFailed call n errno e hcall =>
    have hput := h.put (some (call.bytes.take n)) .opening hcall nofun nofun
    exact hput.finish nofun
  | closed hcall => exact h.put _ _ hcall (fun _ => ⟨_, rfl⟩) nofun
  | renamed hcall hs => exact h.replace hcall hs
  | renameFailed => exact h.finish nofun
  | returns hcall hs => exact h.finish fun _ => h.swapped _ hcall hs
  | killed => exact h.freed

theorem of_run {ok : Disk → Choice → Prop} {d₀ : Disk} {cs : List Choice} (hr : Run (step C path) ok d₀ cs d)
    (hcall : d₀.call = none) (hlog : d₀.log = []) : Kept C path d₀.file d :=
  hr.invariant (fun _ _ _ hI _ hs => hI.of_did (did_of_step hs)) (init hcall hlog)

end Kept

theorem read_whole (hC : C.RoundTrip) {cp : StampedCheckpoint} {bytes : Bytes} (h : C.serializeToString cp = some bytes)
    (errno : String) : readCheckpointFromFile C path errno (some bytes) = checkVersion cp := by
  rw [readCheckpointFromFile, hC cp bytes h]

/-- A checkpoint after one node. -/
def StampedCheckpoint.first : StampedCheckpoint where
  stateBytes := [0, 1]
  stateType := "test.T"
  completedNodes := ["a"]
  schemaVersion := 1
  unixMicros := 5

/-- The part of the generated code that one message uses. -/
def Codec.one (cp : StampedCheckpoint) (bytes : Bytes) : Codec where
  serializeToString cp' := if cp' = cp then some bytes else none
  parseFromString bytes' := if bytes' = bytes then some cp else none

/-- Every stream is closed with all bytes in the file, and the process is not killed: it
is lost where the run ends. -/
def Flushes (d : Disk) : Choice → Prop
  | .closed n => ∀ call, d.call = some call → n = call.bytes.length
  | .killed => False
  | _ => True

instance (d : Disk) : DecidablePred (Flushes d)
  | .closed n => inferInstanceAs (Decidable (∀ call ∈ d.call, n = call.bytes.length))
  | .killed => .isFalse id
  | .write _ | .opened | .openFailed _ | .wrote _ | .writeFailed _ _ | .renamed | .renameFailed _ | .returns =>
    .isTrue trivial

/-- What is renamed is a whole serialization of a checkpoint that was to be written. -/
structure Flushed (C : Codec) (path : String) (d : Disk) : Prop where
  whole : ∀ r ∈ replacements d.log, r.1 ∈ writes d.log ∧ C.serializeToString r.1 = some r.2
  serialized : ∀ call, d.call = some call → call.cp ∈ writes d.log ∧ C.serializeToString call.cp = some call.bytes
  temporary : ∀ call, d.call = some call → call.stage = .renaming → d.file (tmp path) = some call.bytes

namespace Flushed

variable {call : Call}

theorem init (h : d.call = none) (hlog : d.log = []) : Flushed C path d where
  whole := by simp [hlog, replacements]
  serialized := by simp [h]
  temporary := by simp [h]

theorem freed (h : Flushed C path d) : Flushed C path { d with call := none } :=
  { h with serialized := nofun, temporary := nofun }

/-- Events that are no renames. -/
theorem logs (h : Flushed C path d) {events : List Event} (hnone : replacements events = []) :
    Flushed C path { d with log := d.log ++ events } where
  whole r hr := by
    rw [replacements_append, hnone, List.append_nil] at hr
    obtain ⟨hw, hs⟩ := h.whole r hr
    exact ⟨by rw [writes_append]; exact List.mem_append_left _ hw, hs⟩
  serialized call' hcall' := by
    obtain ⟨hw, hs⟩ := h.serialized call' hcall'
    exact ⟨by rw [writes_append]; exact List.mem_append_left _ hw, hs⟩
  temporary := h.temporary

/-- The temporary file is written to. -/
theorem put (h : Flushed C path d) {content : Option Bytes} {stage : Stage} (hcall : d.call = some call)
    (hrenaming : stage = .renaming → content = some call.bytes) :
    Flushed C path ((d.put (tmp path) content).stand call stage) where
  whole := h.whole
  serialized call' hcall' := by
    cases hcall'
    exact h.serialized call hcall
  temporary call' hcall' hr := by
    cases hcall'
    exact put_self.trans (hrenaming hr)

theorem replace (h : Flushed C path d) (hcall : d.call = some call) (hs : call.stage = .renaming) :
    Flushed C path ((d.replace path call).stand call .returning) := by
  have htmp := h.temporary call hcall hs
  obtain ⟨hw, hbytes⟩ := h.serialized call hcall
  have hlog : (d.replace path call).log = d.log ++ [.replaced call.cp call.bytes] := by
    show d.log ++ [_] = _
    rw [htmp]
    rfl
  have hwrites : writes (d.replace path call).log = writes d.log := by
    rw [hlog, writes_append, writes_replaced, List.append_nil]
  constructor
  case whole =>
    show ∀ r ∈ replacements (d.replace path call).log, r.1 ∈ writes (d.replace path call).log ∧ _
    rw [hwrites, hlog, replacements_append, List.forall_mem_append]
    refine ⟨h.whole, fun r hr => ?_⟩
    obtain rfl := List.mem_singleton.mp hr
    exact ⟨hw, hbytes⟩
  case serialized =>
    intro call' hcall'
    cases hcall'
    exact ⟨by show call.cp ∈ writes (d.replace path call).log; rw [hwrites]; exact hw, hbytes⟩
  case temporary =>
    intro call' hcall' hs'
    cases hcall'
    cases hs'

theorem of_did (h : Flushed C path d) (hok : Flushes d c) (hd : Did C path d c d') : Flushed C path d' := by
  cases hd with
  | unserializable => exact h.logs rfl
  | @write cp bytes hcp hfree =>
    have hlogs : Flushed C path { d with log := d.log ++ [.write cp] } := h.logs rfl
    constructor
    case whole => exact hlogs.whole
    case serialized =>
      intro call' hcall'
      cases hcall'
      exact ⟨by show cp ∈ writes (d.log ++ [.write cp]); rw [writes_append]; simp, hcp⟩
    case temporary =>
      intro call' hcall' hs
      cases hcall'
      cases hs
  | opened hcall => exact h.put hcall nofun
  | openFailed => exact h.freed.logs rfl
  | wrote hcall => exact h.put hcall nofun
  | @writeFailed call n errno e hcall =>
    have hput : Flushed C path ((d.put (tmp path) (some (call.bytes.take n))).stand call .opening) := h.put hcall nofun
    exact hput.freed.logs rfl
  | closed hcall =>
    refine h.put hcall fun _ => ?_
    rw [hok _ hcall, List.take_length]
  | renamed hcall hs => exact h.replace hcall hs
  | renameFailed => exact h.freed.logs rfl
  | returns => exact h.freed.logs rfl
  | killed => exact hok.elim

theorem of_run {d₀ : Disk} {cs : List Choice} (hr : Run (step C path) Flushes d₀ cs d) (hcall : d₀.call = none)
    (hlog : d₀.log = []) : Flushed C path d :=
  hr.invariant (fun _ _ _ hI hok hs => hI.of_did hok (did_of_step hs)) (init hcall hlog)

/-- What is at the path: what was there, or a whole serialization. -/
theorem file_of_run {d₀ : Disk} {cs : List Choice} (hr : Run (step C path) Flushes d₀ cs d) (hcall : d₀.call = none)
    (hlog : d₀.log = []) : replacements d.log = [] ∧ d.file path = d₀.file path ∨
      ∃ cp bytes, (replacements d.log).getLast? = some (cp, bytes) ∧ cp ∈ writes d.log ∧
        C.serializeToString cp = some bytes ∧ d.file path = some bytes := by
  have hfile := (Kept.of_run (hr.mono fun _ _ _ => trivial) hcall hlog).file
  rcases hlast : (replacements d.log).getLast? with - | ⟨cp, bytes⟩
  · left
    refine ⟨List.getLast?_eq_none_iff.mp hlast, ?_⟩
    rw [hfile, lastReplaced, hlast]
    rfl
  · right
    obtain ⟨hw, hbytes⟩ := (of_run hr hcall hlog).whole _ (List.mem_of_getLast? hlast)
    refine ⟨cp, bytes, rfl, hw, hbytes, ?_⟩
    rw [hfile, lastReplaced, hlast]
    rfl

end Flushed

/-! ### A process on a healthy disk -/

/-- No call of the operating system fails either. -/
def Healthy (C : Codec) (d : Disk) : Choice → Prop
  | .write cp => C.serializeToString cp ≠ none
  | .openFailed _ | .writeFailed _ _ | .renameFailed _ => False
  | c => Flushes d c

instance (C : Codec) (d : Disk) : DecidablePred (Healthy C d)
  | .write cp => inferInstanceAs (Decidable (C.serializeToString cp ≠ none))
  | .openFailed _ | .writeFailed _ _ | .renameFailed _ => .isFalse id
  | .closed n => inferInstanceAs (Decidable (Flushes d (.closed n)))
  | .killed => .isFalse id
  | .opened | .wrote _ | .renamed | .returns => .isTrue trivial

/-- The checkpoint that is being written and not yet in its place. -/
def pending (d : Disk) : List StampedCheckpoint := (d.call.filter fun call => call.stage ≠ .returning).toList.map Call.cp

/-- At most one write is without its rename. -/
theorem pending_length (d : Disk) : (pending d).length ≤ 1 := by
  rw [pending, List.length_map]
  cases d.call.filter fun call => call.stage ≠ .returning <;> simp

theorem pending_eq {call : Call} (h : d.call = some call) (hs : call.stage ≠ .returning) : pending d = [call.cp] := by
  simp [pending, h, hs]

theorem pending_of_returning {call : Call} (h : d.call = some call) (hs : call.stage = .returning) :
    pending d = [] := by
  simp [pending, h, hs]

/-- Each write but the last has its rename. -/
def InStep (d : Disk) : Prop := writes d.log = (replacements d.log).map Prod.fst ++ pending d

namespace InStep

variable {call : Call}

/-- The call goes on, and its rename is yet to come. -/
theorem put (h : InStep d) {name : String} {content : Option Bytes} {stage : Stage} (hcall : d.call = some call)
    (hs : call.stage ≠ .returning) (hs' : stage ≠ .returning) : InStep ((d.put name content).stand call stage) := by
  have hstand : pending ((d.put name content).stand call stage) = [call.cp] :=
    @pending_eq ((d.put name content).stand call stage) { call with stage := stage } rfl hs'
  rw [InStep, hstand]
  rw [InStep, pending_eq hcall hs] at h
  exact h

theorem of_did (h : InStep d) (hok : Healthy C d c) (hd : Did C path d c d') : InStep d' := by
  unfold InStep at h
  cases hd with
  | unserializable hcp => exact absurd hcp hok
  | @write cp bytes hcp hfree =>
    show writes (d.log ++ [.write cp]) = (replacements (d.log ++ [.write cp])).map Prod.fst ++ [cp]
    rw [pending, hfree] at h
    rw [writes_append, h, replacements_append, writes_write, replacements_write, List.append_nil]
    simp
  | opened hcall hs => exact put h hcall (by rw [hs]; exact nofun) nofun
  | openFailed => exact hok.elim
  | wrote hcall hs => exact put h hcall (by rw [hs]; exact nofun) nofun
  | writeFailed => exact hok.elim
  | closed hcall hs => exact put h hcall (by rw [hs]; exact nofun) nofun
  | @renamed call hcall hs =>
    show writes (d.log ++ [.replaced call.cp _]) = (replacements (d.log ++ [.replaced call.cp _])).map Prod.fst ++ []
    rw [pending_eq hcall (by rw [hs]; exact nofun)] at h
    rw [writes_append, h, replacements_append, writes_replaced, replacements_replaced, List.map_append,
      List.append_nil, List.append_nil]
    rfl
  | renameFailed => exact hok.elim
  | @returns call hcall hs =>
    show writes (d.log ++ [.returned call.cp (.ok ())]) =
      (replacements (d.log ++ [.returned call.cp (.ok ())])).map Prod.fst ++ []
    rw [pending_of_returning hcall hs] at h
    rw [writes_append, replacements_append, writes_returned, replacements_returned, List.append_nil,
      List.append_nil (replacements d.log)]
    exact h
  | killed => exact hok.elim

theorem of_run {d₀ : Disk} {cs : List Choice} (hr : Run (step C path) (Healthy C) d₀ cs d) (hcall : d₀.call = none)
    (hlog : d₀.log = []) : InStep d := by
  refine hr.invariant (fun _ _ _ hI hok hs => of_did hI hok (did_of_step hs)) ?_
  simp [InStep, hlog, pending, hcall, writes, replacements]

end InStep

end AgentFlow.Persist
