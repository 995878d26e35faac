import Mathlib.Tactic.SplitIfs
import Caio.Python

/-!
# linux_uring: Operation

`AIOOperation` of `linux_uring.c` with its constructors and accessors, and the
ring entries that carry an Operation's address. Memory exhaustion
(`PyErr_NoMemory`, a failing `PyLong_FromLong`) is outside the model.
-/

namespace Caio.Uring

/-- The address of an Operation, as `(uint64_t)(uintptr_t) op`. -/
abbrev OpPtr := UInt64

/-- `CANCEL_USER_DATA`, the sentinel that is no Operation's address. -/
def cancelUserData : OpPtr := 0xFFFFFFFFFFFFFFFF

/-- `URING_OP`; `noop` is any other value of the `opcode` byte. -/
inductive UringOp
  | read
  | write
  | fsync
  | fdsync
  | noop
deriving DecidableEq, Repr

structure AIOOperation where
  pyBuffer : Option BytesId := none
  callback : Option Callback := none
  context : Option CtxId := none
  opcode : UringOp
  fileno : UInt32
  offset : UInt64 := 0
  result : Int32 := 0
  error : Int32 := 0
  bufSize : Int := 0
  buf : UInt64 := 0
  inProgress : Bool := false
  done : Bool := false
  /-- `ob_refcnt` -/
  refcnt : ℕ := 1
deriving DecidableEq, Repr

namespace AIOOperation

/-- `AIOOperation_read`: `pyBuffer` is the zero-filled bytes object of `nbytes` bytes that the
constructor allocates. -/
def read (nbytes : ℕ) (fileno : UInt32) (offset : UInt64) (pyBuffer : BytesId) : AIOOperation :=
  { pyBuffer := some pyBuffer, buf := pyBuffer, bufSize := nbytes, fileno, offset, opcode := .read }

/-- `AIOOperation_write`: the payload itself, of `size` bytes. -/
def write (payloadBytes : BytesId) (size : ℕ) (fileno : UInt32) (offset : UInt64) :
    AIOOperation :=
  { pyBuffer := some payloadBytes, buf := payloadBytes, bufSize := size, fileno, offset
    opcode := .write }

def fsync (fileno : UInt32) : AIOOperation := { fileno, opcode := .fsync }

def fdsync (fileno : UInt32) : AIOOperation := { fileno, opcode := .fdsync }

/-- Between the claim in `submit` and the completion in `uring_drain_cq`. -/
def inFlight (op : AIOOperation) : Bool := op.inProgress && !op.done

/-- What `get_value()` and `payload` hand back. -/
inductive Value
  | none
  | bytes (id : BytesId)
  | newBytes (content : List UInt8)
  | int (n : Int)
deriving DecidableEq, Repr

/-- `AIOOperation_get_value`; `bytes` is the content of every bytes object. -/
def getValue (bytes : BytesId → List UInt8) (op : AIOOperation) : Except PyErr Value :=
  if op.inProgress && !op.done then
    .error (.runtimeError "get_value() is not available while the operation is in flight")
  else if op.error ≠ 0 then
    .error (.systemError op.error)
  else
    match op.opcode with
    | .read =>
      match op.pyBuffer with
      | none => .ok .none
      | some b =>
        -- full transfer: the buffer object itself; otherwise a copy of the part that was read
        if op.bufSize = (bytes b).length then .ok (.bytes b)
        else .ok (.newBytes ((bytes b).take op.bufSize.toNat))
    | .write => .ok (.int op.result.toInt)
    | _ => .ok .none

def payload (op : AIOOperation) : Except PyErr Value :=
  if op.inProgress && !op.done then
    .error (.runtimeError "payload is not available while the operation is in flight")
  else
    match op.pyBuffer with
    | none => .ok .none
    | some b => .ok (.bytes b)

def setCallback (op : AIOOperation) (callback : Callback) : AIOOperation :=
  { op with callback := some callback }

/-- Both accessors refuse exactly while the Operation is in flight. -/
theorem getValue_runtimeError_iff (bytes : BytesId → List UInt8) (op : AIOOperation) :
    (∃ msg, op.getValue bytes = .error (.runtimeError msg)) ↔ op.inFlight = true := by
  constructor
  · rintro ⟨msg, h⟩
    unfold getValue at h
    split_ifs at h with hf he
    · exact hf
    · cases h
    · cases hop : op.opcode <;> simp only [hop] at h
      case read =>
        cases hb : op.pyBuffer <;> simp only [hb] at h
        · cases h
        · split_ifs at h
      all_goals cases h
  · intro h
    exact ⟨_, if_pos h⟩

theorem payload_runtimeError_iff (op : AIOOperation) :
    (∃ msg, op.payload = .error (.runtimeError msg)) ↔ op.inFlight = true := by
  constructor
  · rintro ⟨msg, h⟩
    unfold payload at h
    split_ifs at h with hf
    · exact hf
    · split at h <;> cases h
  · intro h
    exact ⟨_, if_pos h⟩

end AIOOperation

/-- The `IORING_OP_*` codes that are used; `nop` is what `memset` leaves. -/
inductive SqeOp
  | nop
  | fsync
  | asyncCancel
  | read
  | write
deriving DecidableEq, Repr

/-- The fields of `struct io_uring_sqe` that are ever set. -/
structure Sqe where
  opcode : SqeOp := .nop
  fd : Int32 := 0
  off : UInt64 := 0
  addr : UInt64 := 0
  len : UInt32 := 0
  fsyncFlags : UInt32 := 0
  userData : OpPtr := 0
deriving DecidableEq, Repr

structure Cqe where
  userData : OpPtr
  res : Int32
deriving DecidableEq, Repr

def fsyncDatasync : UInt32 := 1

/-- The entry as `AIOContext_submit` leaves it before its `switch`. -/
def blankSqe (p : OpPtr) (op : AIOOperation) : Sqe :=
  { fd := op.fileno.toInt32, off := op.offset, userData := p }

/-- The `switch (op->opcode)` of `AIOContext_submit`; `none` is its `default` branch. -/
def submitSqe (p : OpPtr) (op : AIOOperation) : Option Sqe :=
  let sqe := blankSqe p op
  match op.opcode with
  | .read => some { sqe with opcode := .read, addr := op.buf, len := UInt32.ofInt op.bufSize }
  | .write => some { sqe with opcode := .write, addr := op.buf, len := UInt32.ofInt op.bufSize }
  | .fsync => some { sqe with opcode := .fsync }
  | .fdsync => some { sqe with opcode := .fsync, fsyncFlags := fsyncDatasync }
  | .noop => none

/-- The entry that `AIOContext_cancel` stages for the Operation at `p`. -/
def cancelSqe (p : OpPtr) : Sqe :=
  { opcode := .asyncCancel, addr := p, userData := cancelUserData }

theorem submitSqe_userData {p : OpPtr} {op : AIOOperation} {sqe : Sqe}
    (h : submitSqe p op = some sqe) : sqe.userData = p := by
  unfold submitSqe at h
  split at h <;> cases h <;> rfl

/-- What `uring_drain_cq` does to the Operation that a CQE names. -/
def AIOOperation.complete (op : AIOOperation) (res : Int32) : AIOOperation :=
  { op with
    result := res
    error := if res < 0 then -res else op.error
    bufSize := if res < 0 then op.bufSize
      else if op.opcode = .read then res.toInt else op.bufSize
    context := none
    done := true }

end Caio.Uring
