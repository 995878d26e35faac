import Caio.Python

namespace Caio.PythonAio

inductive OpCode
  | read
  | write
  | fsync
  | fdsync
  | noop
deriving DecidableEq, Repr

/-- A Python value that an Operation's result can be. -/
inductive Value
  | none
  | bytes (content : List UInt8)
  | int (n : Int)
deriving DecidableEq, Repr

structure Operation where
  callback : Option Callback := none
  inProgress : Bool := false
  buffer : List UInt8 := []
  opcode : OpCode
  fileno : Int
  offset : Int := 0
  nbytes : Int := 0
  exception : Option PyErr := none
  written : Value := .int 0
deriving DecidableEq, Repr

namespace Operation

def read (nbytes fd offset : Int) : Operation := { opcode := .read, fileno := fd, offset, nbytes }

def write (payloadBytes : List UInt8) (fd offset : Int) : Operation :=
  { opcode := .write, fileno := fd, offset, nbytes := payloadBytes.length, buffer := payloadBytes }

def fsync (fd : Int) : Operation := { opcode := .fsync, fileno := fd }

def fdsync (fd : Int) : Operation := { opcode := .fdsync, fileno := fd }

def getValue (op : Operation) : Except PyErr Value :=
  match op.exception with
  | some exc => .error exc
  | none =>
    if op.opcode = .write then .ok op.written
    else if op.opcode = .fsync ∨ op.opcode = .fdsync then .ok .none
    else .ok (.bytes op.buffer)

/-- What the function of `os` that a handler calls comes to. -/
inductive Returned
  | data (content : List UInt8)
  | count (n : ℕ)
  | nothing
deriving DecidableEq, Repr

/-- The handler of `_OP_MAP`: what it makes of the Operation, and its result or exception. -/
def handle (op : Operation) : Except PyErr Returned → Operation × Except PyErr Value
  | .error exc => (op, .error exc)
  | .ok (.data content) => ({ op with buffer := content }, .ok (.int content.length))
  | .ok (.count n) => (op, .ok (.int n))
  | .ok .nothing => (op, .ok .none)

def Returned.result : Returned → Value
  | .data content => .int content.length
  | .count n => .int n
  | .nothing => .none

theorem handle_result (op : Operation) (returned : Except PyErr Returned) :
    (op.handle returned).2 = returned.map Returned.result := by
  cases returned with
  | error exc => rfl
  | ok x => cases x <;> rfl

theorem handle_callback (op : Operation) (returned : Except PyErr Returned) :
    (op.handle returned).1.callback = op.callback := by
  cases returned with
  | error exc => rfl
  | ok x => cases x <;> rfl

/-- `on_success` and `on_error`, as far as the Operation goes. -/
def record (op : Operation) : Except PyErr Value → Operation
  | .ok result => { op with written := result }
  | .error exc => { op with exception := some exc, written := .int 0 }

def complete (op : Operation) (returned : Except PyErr Returned) : Operation :=
  (op.handle returned).1.record (op.handle returned).2

end Operation

end Caio.PythonAio
