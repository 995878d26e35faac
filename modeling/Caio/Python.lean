import Mathlib.Data.Nat.Notation

namespace Caio

abbrev CtxId := ℕ

/-- Identity of a callable passed to `set_callback`. -/
abbrev Callback := ℕ

/-- A bytes object, identified by the address of its storage. -/
abbrev BytesId := UInt64

inductive PyErr
  | runtimeError (msg : String)
  | overflowError (msg : String)
  | valueError (msg : String)
  | typeError (msg : String)
  | osError (msg : String)
  /-- `OSError(errno, strerror(errno))` -/
  | osErrno (errno : Int32)
  /-- `SystemError` with the text `strerror(errno)`. -/
  | systemError (errno : Int32)
  | systemErrorText (msg : String)
  | notImplementedError (msg : String)
  /-- `NULL` returned without an exception set. -/
  | noException
  | memoryError
  | cancelledError
deriving DecidableEq, Repr

/-- A descriptor that a system call has returned. -/
structure Fd where
  num : Int32
  nonneg : 0 ≤ num

abbrev FutureId := ℕ

inductive Future
  | pending
  | result
  | exception (e : PyErr)
  | cancelled
deriving DecidableEq, Repr

def Future.done (f : Future) : Bool := f != .pending

end Caio
