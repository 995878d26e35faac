import Mathlib.Tactic.SplitIfs
import Caio.LinuxAio.ProcessEvents

namespace Caio.LinuxAio.AIOOperation

/-- `AIOOperation_read`: `buffer` is the zeroed allocation of `nbytes` bytes. -/
def read (self : OpPtr) (nbytes : UInt64) (fd : UInt32) (offset : Int64) (buffer : UInt64) :
    AIOOperation :=
  { iocb := { aioData := self, aioLioOpcode := .pread, aioFildes := fd, aioOffset := offset
              aioBuf := buffer, aioNbytes := nbytes } }

/-- `AIOOperation_write`: the payload itself, of `nbytes` bytes. -/
def write (self : OpPtr) (payloadBytes : BytesId) (nbytes : UInt64) (fd : UInt32) (offset : Int64) :
    AIOOperation :=
  { iocb := { aioData := self, aioLioOpcode := .pwrite, aioFildes := fd, aioOffset := offset
              aioBuf := payloadBytes, aioNbytes := nbytes } }

def fsync (self : OpPtr) (fd : UInt32) : AIOOperation :=
  { iocb := { aioData := self, aioLioOpcode := .fsync, aioFildes := fd } }

def fdsync (self : OpPtr) (fd : UInt32) : AIOOperation :=
  { iocb := { aioData := self, aioLioOpcode := .fdsync, aioFildes := fd } }

/-- What `get_value()` hands back. -/
inductive Value
  | none
  | newBytes (content : List UInt8)
  | int (n : Int)
deriving DecidableEq, Repr

/-- `AIOOperation_get_value`; `buffer` is the content of `self->buffer`, unless it is `NULL`. -/
def getValue (buffer : Option (List UInt8)) (op : AIOOperation) : Except PyErr Value :=
  if op.inProgress && !op.done then
    .error (.runtimeError "get_value() is not available while the operation is in flight")
  else if op.error ≠ 0 then
    .error (.systemError op.error)
  else
    match op.iocb.aioLioOpcode with
    | .pread =>
      match buffer with
      | none => .ok .none
      | some content => .ok (.newBytes (content.take op.iocb.aioNbytes.toNat))
    | .pwrite => .ok (.int op.iocb.aioNbytes.toInt64.toInt)
    | _ => .ok .none

/-- `get_value()` refuses exactly while the Operation is in flight. -/
theorem getValue_runtimeError_iff (buffer : Option (List UInt8)) (op : AIOOperation) :
    (∃ msg, op.getValue buffer = .error (.runtimeError msg)) ↔
      (op.inProgress && !op.done) = true := by
  constructor
  · rintro ⟨msg, h⟩
    unfold getValue at h
    split_ifs at h with hf he
    · exact hf
    · cases h
    · cases hop : op.iocb.aioLioOpcode <;> simp only [hop] at h
      case pread =>
        cases hb : buffer <;> simp only [hb] at h
        all_goals cases h
      all_goals cases h
  · intro h
    exact ⟨_, if_pos h⟩

end Caio.LinuxAio.AIOOperation
