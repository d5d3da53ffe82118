/-
# The error codes of `utils.h`

Every entry point of the utilities answers with one of these codes; zero is the
only success, and the callers test it with `if (!retval)`.
-/

import Mathlib.Data.Nat.Notation

namespace BliveQueue.Utils

/-- `blive_errno_t`. -/
inductive BliveErrno
  | terminate
  | notExsit
  | resource
  | outOfMem
  | invalid
  | nullPtr
  | unknown
  | ok
  deriving DecidableEq, Repr

/-- The integer behind each code. -/
def BliveErrno.code : BliveErrno → Int
  | .terminate => -7
  | .notExsit => -6
  | .resource => -5
  | .outOfMem => -4
  | .invalid => -3
  | .nullPtr => -2
  | .unknown => -1
  | .ok => 0

end BliveQueue.Utils
