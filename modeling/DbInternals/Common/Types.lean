import Mathlib.Algebra.Group.Nat.Defs
import Mathlib.Order.Basic
import Mathlib.Tactic.Common

/-!
# Shared constants and failures

Page ids, slot ids and sizes are naturals; a place where the source's fixed
width decides the result takes the remainder modulo `2 ^ w` explicitly.
-/
namespace DbInternals

/-- mirrors src/common/config.h:4 -/
def PAGE_SIZE : Nat := 4096

/-- mirrors src/common/types.h:14 -/
def INVALID_PAGE_ID : Nat := 2 ^ 32 - 1

/-- How a call ends when it does not return. -/
inductive Fault where
  /-- a C++ exception that leaves the call, with its text -/
  | runtimeError (what : String)
  /-- `pread` / `pwrite` failed (`std::system_error`) -/
  | systemError (what : String)
  /-- a false `assert` -/
  | assertFailed (cond : String)
  /-- a read past the end of the object a pointer points into -/
  | outOfBounds
  /-- a read through a null pointer or a past-the-end iterator, or an end of an empty container -/
  | nullDeref
  /-- an integer division by zero -/
  | divideByZero
  /-- the process aborts through a `LogFatalStream`, with its text -/
  | aborted (what : String)
  /-- a loop that never ends -/
  | diverges
  /-- a lock that is taken has to be waited for -/
  | waits
  /-- an unlock of a latch that is not held -/
  | notHeld
  deriving DecidableEq, Repr

/-- A C++ exception; anything else ends the process or is undefined. -/
def Fault.isException : Fault → Bool
  | .runtimeError _ => true
  | .systemError _ => true
  | _ => false

end DbInternals
