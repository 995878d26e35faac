import Mathlib.Tactic.SplitIfs
import Caio.Python

namespace Caio.ThreadAio

abbrev OpPtr := ℕ

inductive OpCode
  | read
  | write
  | fsync
  | fdsync
  | noop
deriving DecidableEq, Repr

structure AIOOperation where
  /-- A memoryview of the read buffer, or the payload of a write. -/
  pyBuffer : Option BytesId := none
  callback : Option Callback := none
  opcode : OpCode
  fileno : UInt32
  offset : Int64 := 0
  result : Int32 := 0
  error : UInt8 := 0
  inProgress : Bool := false
  done : Bool := false
  /-- `Py_ssize_t` -/
  bufSize : Int := 0
  /-- The address of the data; 0 is `NULL`. -/
  buf : UInt64 := 0
  ctx : Option CtxId := none
  /-- `ob_refcnt` -/
  refcnt : ℕ := 1
deriving DecidableEq, Repr

namespace AIOOperation

/-- `AIOOperation_read`: `buf` is the zeroed allocation of `nbytes` bytes, `pyBuffer` its view. -/
def read (nbytes : ℕ) (fileno : UInt32) (offset : Int64) (buf : UInt64) (pyBuffer : BytesId) :
    AIOOperation :=
  { pyBuffer := some pyBuffer, buf, bufSize := nbytes, fileno, offset, opcode := .read }

/-- `AIOOperation_write`: the payload itself, of `size` bytes. -/
def write (payloadBytes : BytesId) (size : ℕ) (fileno : UInt32) (offset : Int64) : AIOOperation :=
  { pyBuffer := some payloadBytes, buf := payloadBytes, bufSize := size, fileno, offset
    opcode := .write }

def fsync (fileno : UInt32) : AIOOperation := { fileno, opcode := .fsync }

def fdsync (fileno : UInt32) : AIOOperation := { fileno, opcode := .fdsync }

/-- What `get_value()` hands back. -/
inductive Value
  | none
  | newBytes (content : List UInt8)
  | int (n : Int)
deriving DecidableEq, Repr

/-- `AIOOperation_get_value`; `memory` is what lies at an address. -/
def getValue (memory : UInt64 → List UInt8) (op : AIOOperation) : Except PyErr Value :=
  if op.inProgress && !op.done then
    .error (.runtimeError "get_value() is not available while the operation is in flight")
  else if op.error ≠ 0 then
    .error (.systemError op.error.toUInt32.toInt32)
  else
    match op.opcode with
    | .read =>
      if op.buf = 0 then .ok .none else .ok (.newBytes ((memory op.buf).take op.bufSize.toNat))
    | .write => .ok (.int op.result.toInt)
    | _ => .ok .none

/-- `get_value()` refuses exactly while the Operation is in flight. -/
theorem getValue_runtimeError_iff (memory : UInt64 → List UInt8) (op : AIOOperation) :
    (∃ msg, op.getValue memory = .error (.runtimeError msg)) ↔
      (op.inProgress && !op.done) = true := by
  constructor
  · rintro ⟨msg, h⟩
    unfold getValue at h
    split_ifs at h with hf he hbuf
    · exact hf
    · cases h
    all_goals
      cases hop : op.opcode <;> rw [hop] at h <;> cases h
  · intro h
    exact ⟨_, if_pos h⟩

/-- The system call of `worker`; `count` is its `int buf_size`. -/
inductive Syscall
  | pread (fd : UInt32) (buf : UInt64) (count : Int32) (offset : Int64)
  | pwrite (fd : UInt32) (buf : UInt64) (count : Int32) (offset : Int64)
  | fsync (fd : UInt32)
  | fdatasync (fd : UInt32)
deriving DecidableEq, Repr

def syscall (op : AIOOperation) : Option Syscall :=
  match op.opcode with
  | .write => some (.pwrite op.fileno op.buf (Int32.ofInt op.bufSize) op.offset)
  | .fsync => some (.fsync op.fileno)
  | .fdsync => some (.fdatasync op.fileno)
  | .read => some (.pread op.fileno op.buf (Int32.ofInt op.bufSize) op.offset)
  | .noop => none

/-- The stores before the system call; the Context is now `worker`'s own `ctx`. -/
def take (op : AIOOperation) : AIOOperation := { op with ctx := none, error := 0 }

/-- The stores after the system call, made without the GIL. -/
def record (op : AIOOperation) (result errno : Int32) : AIOOperation :=
  { op with
    ctx := none
    result
    error := if result < 0 then UInt8.ofInt errno.toInt else op.error
    bufSize := if op.opcode = .read then result.toInt else op.bufSize }

/-- The stores under the GIL, up to `done`. -/
def publish (op : AIOOperation) : AIOOperation :=
  { op with pyBuffer := if op.opcode = .write then none else op.pyBuffer, done := true }

/-- What `worker` makes of an Operation. -/
def complete (op : AIOOperation) (result errno : Int32) : AIOOperation :=
  ((op.take).record result errno).publish

end AIOOperation

end Caio.ThreadAio
