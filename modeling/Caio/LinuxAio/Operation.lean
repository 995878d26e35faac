import Mathlib.Logic.Function.Basic
import Caio.Python

namespace Caio.LinuxAio

/-- The address of an Operation, which is also its `aio_data`. -/
abbrev OpPtr := UInt64

/-- The `IOCB_CMD_*` codes that are used; `noop` is any other value. -/
inductive IocbCmd
  | pread
  | pwrite
  | fsync
  | fdsync
  | noop
deriving DecidableEq, Repr

/-- The fields of `struct iocb` that are ever set. -/
structure Iocb where
  aioData : OpPtr
  aioLioOpcode : IocbCmd
  aioReqprio : Int16 := 0
  aioFildes : UInt32 := 0
  aioBuf : UInt64 := 0
  aioNbytes : UInt64 := 0
  aioOffset : Int64 := 0
  aioFlags : UInt32 := 0
  aioResfd : UInt32 := 0
deriving DecidableEq, Repr

structure AIOOperation where
  context : Option CtxId := none
  callback : Option Callback := none
  error : Int32 := 0
  inProgress : Bool := false
  done : Bool := false
  iocb : Iocb
  /-- `ob_refcnt` -/
  refcnt : ℕ := 1
deriving DecidableEq, Repr

def iocbFlagResfd : UInt32 := 1

def evMaxRequestsDefault : UInt32 := 512

structure AIOContext where
  /-- The `aio_context_t`; 0 before `io_setup`. -/
  ctx : UInt64
  fileno : Int32

namespace AIOOperation

/-- The stores of `AIOContext_submit` to the iocb. -/
def notify (op : AIOOperation) (fileno : Int32) : AIOOperation :=
  { op with iocb := { op.iocb with
      aioFlags := op.iocb.aioFlags ||| iocbFlagResfd
      aioResfd := fileno.toUInt32 } }

/-- The stores of `AIOContext_process_events` for an event with result `res`. -/
def complete (op : AIOOperation) (res : Int64) : AIOOperation :=
  { op with
    iocb := if 0 ≤ res then { op.iocb with aioNbytes := res.toUInt64 } else op.iocb
    error := if 0 ≤ res then op.error else (-res).toInt32
    context := none
    done := true }

end AIOOperation

/-- The Operations by address and the reference count of every Context. -/
structure Heap where
  ops : OpPtr → AIOOperation
  ctxRefs : CtxId → ℕ

namespace Heap

def modify (h : Heap) (p : OpPtr) (f : AIOOperation → AIOOperation) : Heap :=
  { h with ops := Function.update h.ops p (f (h.ops p)) }

def increfCtx (h : Heap) (c : CtxId) : Heap :=
  { h with ctxRefs := Function.update h.ctxRefs c (h.ctxRefs c + 1) }

def xdecrefCtx (h : Heap) : Option CtxId → Heap
  | none => h
  | some c => { h with ctxRefs := Function.update h.ctxRefs c (h.ctxRefs c - 1) }

@[simp] theorem modify_ops_self (h : Heap) (p : OpPtr) (f : AIOOperation → AIOOperation) :
    (h.modify p f).ops p = f (h.ops p) := Function.update_self ..

theorem modify_ops_ne (h : Heap) {p q : OpPtr} (f : AIOOperation → AIOOperation) (hne : q ≠ p) :
    (h.modify p f).ops q = h.ops q := Function.update_of_ne hne ..

@[simp] theorem increfCtx_ops (h : Heap) (c : CtxId) : (h.increfCtx c).ops = h.ops := rfl

@[simp] theorem xdecrefCtx_ops (h : Heap) (c : Option CtxId) : (h.xdecrefCtx c).ops = h.ops := by
  cases c <;> rfl

end Heap

def eagain : Int32 := 11
def ebadf : Int32 := 9
def efault : Int32 := 14
def einval : Int32 := 22

def ioSubmitError (errno : Int32) : PyErr :=
  if errno = eagain then
    .overflowError "Insufficient resources are available to queue any iocbs [EAGAIN]"
  else if errno = ebadf then
    .valueError "The file descriptor specified in the first iocb is invalid [EBADF]"
  else if errno = efault then
    .valueError "One of the data structures points to invalid data [EFAULT]"
  else if errno = einval then
    .valueError ("The AIO context specified by ctx_id is invalid. nr is less " ++
      "than 0. The iocb at *iocbpp[0] is not properly initialized, " ++
      "the operation specified is invalid for the file descriptor in " ++
      "the iocb, or the value in the aio_reqprio field is invalid. " ++ "[EINVAL]")
  else .systemError errno

end Caio.LinuxAio
