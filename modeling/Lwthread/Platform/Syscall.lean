import Mathlib.Data.PNat.Basic

/-!
# What a system call answers

A call that moves bytes or makes a socket answers with a count (or a descriptor), or with -1 and an
`errno`, which is positive. On Linux `EAGAIN` and `EWOULDBLOCK` are one number.
-/

namespace Lwthread.Platform

/-- `EAGAIN`. -/
def EAGAIN : ℕ+ := 11

/-- `EWOULDBLOCK`. -/
def EWOULDBLOCK : ℕ+ := 11

/-- `EINTR`. -/
def EINTR : ℕ+ := 4

/-- What a system call answers: a count, or -1 with an `errno`. -/
inductive Answer where
  | value (n : Nat)
  | error (errno : ℕ+)
  deriving DecidableEq

/-- The call failed with something else than `EAGAIN` or `EWOULDBLOCK`. -/
def Answer.Hard : Answer → Prop
  | .value _ => False
  | .error errno => errno ≠ EAGAIN ∧ errno ≠ EWOULDBLOCK

instance : DecidablePred Answer.Hard
  | .value _ => inferInstanceAs (Decidable False)
  | .error _ => inferInstanceAs (Decidable (_ ∧ _))

end Lwthread.Platform
