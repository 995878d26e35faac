import Caio.Lib.Journal
import Caio.Lib.Transition
import Caio.ThreadAio.Submit

/-!
# thread_aio: a program at large

Any number of Contexts with their pools. A call of `submit` is one step; a worker takes a task from
the queue of its pool and goes through `worker` step by step. Which queued task comes next is left
open.
-/

namespace Caio.ThreadAio

/-- What the system call of a task comes to. -/
structure Outcome where
  call : AIOOperation.Syscall
  result : Int32
  /-- `errno` -/
  errno : Int32
deriving DecidableEq, Repr

/-- Where a task is in `worker`; `ctx` is the local variable. -/
inductive JobPc
  | queued
  | popped
  /-- After the first stores, before the system call. -/
  | taken (ctx : Option CtxId) (call : AIOOperation.Syscall)
  /-- Before the GIL is taken. -/
  | recorded (ctx : Option CtxId) (o : Outcome)
  | published (ctx : Option CtxId) (o : Outcome)
  | calling (ctx : Option CtxId) (o : Outcome) (callback : Callback)
  /-- Before `Py_DECREF(ctx)`; a `THAIO_NOOP` has no outcome. -/
  | called (ctx : Option CtxId) (o : Option Outcome) (callback : Option Callback)
  /-- Before `Py_DECREF(op)`. -/
  | leaving (ctx : CtxId) (o : Option Outcome) (callback : Option Callback)
  | finished (ctx : CtxId) (o : Option Outcome) (callback : Option Callback)
deriving DecidableEq

/-- A task that a pool has accepted. -/
structure Job where
  ctx : CtxId
  op : OpPtr
  pc : JobPc := .queued
deriving DecidableEq

/-- What a worker does for a task, apart from its stores before `done`. -/
inductive Effect
  | pop
  | syscall (call : AIOOperation.Syscall)
  /-- `done` becomes 1. -/
  | publish
  | invoke (callback : Callback) (result : Int32)
  | releaseCtx (k : CtxId)
  | releaseOp
deriving DecidableEq

structure Context where
  queueSize : ℕ
  /-- Whether `self->pool` is set. -/
  pool : Bool := true
  /-- `shutdown` of the pool. -/
  shutdown : Bool := false

structure World where
  heap : Heap
  ctxs : CtxId → Context
  /-- References that Python code holds. -/
  opUsers : OpPtr → ℕ
  ctxUsers : CtxId → ℕ
  jobs : List Job
  log : List (ℕ × Effect)

namespace World

def waits (k : CtxId) (b : Job) : Bool := b.ctx = k ∧ b.pc = .queued

/-- The pool of a Context as `threadpool_add` sees it. -/
def threadpool (s : World) (k : CtxId) : Threadpool :=
  ⟨(s.ctxs k).queueSize, s.jobs.countP (waits k), (s.ctxs k).shutdown⟩

def pool (s : World) (k : CtxId) : Option Threadpool :=
  if (s.ctxs k).pool then some (s.threadpool k) else none

def submitted (s : World) (k : CtxId) (args : List Arg) : Submitted :=
  submit s.heap k (s.pool k) args

def modifyCtx (s : World) (k : CtxId) (f : Context → Context) : World :=
  { s with ctxs := Function.update s.ctxs k (f (s.ctxs k)) }

/-- Job `j` goes on to `pc`, which has the effects `es`. -/
def setJob (s : World) (j : ℕ) (b : Job) (pc : JobPc) (es : List Effect) : World :=
  { s with jobs := s.jobs.set j { b with pc }, log := Journal.write s.log j es }

def withHeap (s : World) (heap : Heap) : World := { s with heap }

inductive Action
  | submit (k : CtxId) (args : List Arg)
  | setCallback (p : OpPtr) (callback : Callback)
  /-- From a reference, or from a weak reference to an Operation that is alive. -/
  | increfOp (p : OpPtr)
  | decrefOp (p : OpPtr)
  | increfCtx (k : CtxId)
  | decrefCtx (k : CtxId)
  /-- The pointer swap of `AIOContext_close_pool`. -/
  | close (k : CtxId)
  /-- `threadpool_destroy` sets `shutdown`. -/
  | destroy (k : CtxId)
  | pop (j : ℕ)
  | take (j : ℕ)
  | syscall (j : ℕ) (result errno : Int32)
  | publish (j : ℕ)
  | callback (j : ℕ)
  | callbackReturns (j : ℕ)
  | releaseCtx (j : ℕ)
  | releaseOp (j : ℕ)

def onJob (s : World) (j : ℕ) (f : Job → Option World) : Option World := s.jobs[j]?.bind f

def step (s : World) : Action → Option World
  | .submit k args =>
    let r := s.submitted k args
    some { s with heap := r.heap, jobs := s.jobs ++ r.queued.map fun p => { ctx := k, op := p } }
  | .setCallback p callback =>
    some (s.withHeap (s.heap.modify p fun op => { op with callback := some callback }))
  | .increfOp p =>
    if 0 < (s.heap.ops p).refcnt then
      some { s with
        heap := s.heap.modify p fun op => { op with refcnt := op.refcnt + 1 }
        opUsers := Function.update s.opUsers p (s.opUsers p + 1) }
    else none
  | .decrefOp p =>
    if 0 < s.opUsers p then
      some { s with
        heap := s.heap.modify p fun op => { op with refcnt := op.refcnt - 1 }
        opUsers := Function.update s.opUsers p (s.opUsers p - 1) }
    else none
  | .increfCtx k =>
    if 0 < s.heap.ctxRefs k then
      some { s with
        heap := s.heap.increfCtx k, ctxUsers := Function.update s.ctxUsers k (s.ctxUsers k + 1) }
    else none
  | .decrefCtx k =>
    if 0 < s.ctxUsers k then
      some { s with
        heap := s.heap.decrefCtx k, ctxUsers := Function.update s.ctxUsers k (s.ctxUsers k - 1) }
    else none
  | .close k => some (s.modifyCtx k fun ctx => { ctx with pool := false })
  | .destroy k =>
    if (s.ctxs k).pool then none
    else some (s.modifyCtx k fun ctx => { ctx with shutdown := true })
  | .pop j => s.onJob j fun b =>
    match b.pc with
    | .queued => some (s.setJob j b .popped [.pop])
    | _ => none
  | .take j => s.onJob j fun b =>
    match b.pc with
    | .popped =>
      let op := s.heap.ops b.op
      some ((s.withHeap (s.heap.modify b.op (·.take))).setJob j b
        (match op.take.syscall with
          | some call => .taken op.ctx call
          | none => .called op.ctx none none) [])
    | _ => none
  | .syscall j result errno => s.onJob j fun b =>
    match b.pc with
    | .taken ctx call =>
      some ((s.withHeap (s.heap.modify b.op (·.record result errno))).setJob j b
        (.recorded ctx ⟨call, result, errno⟩) [.syscall call])
    | _ => none
  | .publish j => s.onJob j fun b =>
    match b.pc with
    | .recorded ctx o =>
      some ((s.withHeap (s.heap.modify b.op (·.publish))).setJob j b (.published ctx o) [.publish])
    | _ => none
  | .callback j => s.onJob j fun b =>
    match b.pc with
    | .published ctx o =>
      match (s.heap.ops b.op).callback with
      | none => some (s.setJob j b (.called ctx (some o) none) [])
      | some callback =>
        some (s.setJob j b (.calling ctx o callback) [.invoke callback o.result])
    | _ => none
  | .callbackReturns j => s.onJob j fun b =>
    match b.pc with
    | .calling ctx o callback => some (s.setJob j b (.called ctx (some o) (some callback)) [])
    | _ => none
  | .releaseCtx j => s.onJob j fun b =>
    match b.pc with
    | .called (some k) o callback =>
      some ((s.withHeap (s.heap.decrefCtx k)).setJob j b (.leaving k o callback) [.releaseCtx k])
    | _ => none
  | .releaseOp j => s.onJob j fun b =>
    match b.pc with
    | .leaving k o callback =>
      some ((s.withHeap (s.heap.modify b.op fun op => { op with refcnt := op.refcnt - 1 })).setJob
        j b (.finished k o callback) [.releaseOp])
    | _ => none

/-- New Operations and open Contexts. -/
structure Init (s : World) : Prop where
  inProgress : ∀ p, (s.heap.ops p).inProgress = false
  done : ∀ p, (s.heap.ops p).done = false
  ctx : ∀ p, (s.heap.ops p).ctx = none
  opRefs : ∀ p, (s.heap.ops p).refcnt = s.opUsers p
  ctxRefs : ∀ k, s.heap.ctxRefs k = s.ctxUsers k
  shutdown : ∀ k, (s.ctxs k).shutdown = false
  jobs : s.jobs = []
  log : s.log = []

def system : TransitionSystem World Action := ⟨Init, step⟩

end World

end Caio.ThreadAio
