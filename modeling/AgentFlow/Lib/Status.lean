/-
# Statuses

The status an operation returns: nothing for OK, or an error with a code and
a message. An error never has the code OK.

Key definitions: `Code`, `Error`, `Status`.
-/
import Mathlib.Tactic

namespace Status

inductive Code
  | cancelled
  | unknown
  | invalidArgument
  | deadlineExceeded
  | notFound
  | alreadyExists
  | permissionDenied
  | resourceExhausted
  | failedPrecondition
  | aborted
  | outOfRange
  | unimplemented
  | internal
  | unavailable
  | dataLoss
  | unauthenticated
  deriving DecidableEq, Repr

structure Error where
  code : Code
  message : String
  deriving DecidableEq, Repr

end Status
