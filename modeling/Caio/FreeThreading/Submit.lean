import Caio.Lib.Counting
import Caio.Lib.Transition
import Caio.Python

/-!
# Free-threaded submission

`AIOContext_submit` of thread_aio and of linux_aio without the GIL, and what is done for an accepted
Operation. Each exchange or store of `in_progress`, each change of the context pointer with the
reference that goes with it, and each `threadpool_add` or `io_submit` is one step. Calls may
interleave freely, also on one Context.
-/

namespace Caio.FreeThreading

open Counting

inductive Backend
  | threadAio
  | linuxAio
deriving DecidableEq, Repr

abbrev OpPtr := ℕ

/-- Where a call of `AIOContext_submit` is. -/
inductive CallPc
  /-- Before the exchange on the next argument. -/
  | loop
  /-- Before the context pointer of `p` is set. -/
  | claiming (p : OpPtr)
  /-- Before `threadpool_add` or `io_submit`. -/
  | queueing
  /-- Before `in_progress` of `p` becomes 0; `ps` are rolled back after it. -/
  | refused (p : OpPtr) (ps : List OpPtr)
  /-- Before the context pointer of `p` is cleared. -/
  | unclaimed (p : OpPtr) (ps : List OpPtr)
  | returned
deriving DecidableEq

structure Call where
  ctx : CtxId
  /-- The arguments to come. -/
  args : List OpPtr
  /-- Claimed, with the context pointer set, and not queued yet. -/
  claimed : List OpPtr := []
  pc : CallPc := .loop
deriving DecidableEq

/-- Where an accepted Operation is; `ctx` is the local variable of `worker`. -/
inductive JobPc
  | queued
  /-- After the first `op->ctx = NULL`. -/
  | taken (ctx : Option CtxId)
  /-- After the second one. -/
  | recorded (ctx : Option CtxId)
  | completed
deriving DecidableEq

structure Job where
  ctx : CtxId
  op : OpPtr
  pc : JobPc := .queued
deriving DecidableEq

structure State where
  inProgress : OpPtr → Bool
  /-- `ctx` in thread_aio, `context` in linux_aio. -/
  ctx : OpPtr → Option CtxId
  ctxRefs : CtxId → ℕ
  /-- References that Python code holds. -/
  ctxUsers : CtxId → ℕ
  calls : List Call
  jobs : List Job

def xdecref (refs : CtxId → ℕ) : Option CtxId → CtxId → ℕ
  | none => refs
  | some k => drop refs k

def CallPc.rollback : List OpPtr → CallPc
  | [] => .returned
  | p :: ps => .refused p ps

namespace State

variable (s : State)

def setCtx (p : OpPtr) (ctx : Option CtxId) : State :=
  { s with ctx := Function.update s.ctx p ctx }

def setInProgress (p : OpPtr) (v : Bool) : State :=
  { s with inProgress := Function.update s.inProgress p v }

def setCall (c : ℕ) (d : Call) : State := { s with calls := s.calls.set c d }

def setJob (j : ℕ) (b : Job) : State := { s with jobs := s.jobs.set j b }

/-- The queue of a pool, or the kernel, has `ps`. -/
def accept (k : CtxId) (ps : List OpPtr) : State :=
  { s with jobs := s.jobs ++ ps.map fun p => { ctx := k, op := p } }

/-- `ops[i]->ctx = self` with `Py_INCREF(self)`; linux_aio has a `Py_XDECREF(op->context)` first. -/
def setContext (b : Backend) (self : CtxId) (p : OpPtr) : State :=
  { s.setCtx p (some self) with
    ctxRefs :=
      match b with
      | .threadAio => bump s.ctxRefs self
      | .linuxAio => bump (xdecref s.ctxRefs (s.ctx p)) self }

/-- `op->ctx = NULL` with `Py_DECREF(self)`, or `Py_CLEAR(op->context)`. -/
def clearContext (b : Backend) (self : CtxId) (p : OpPtr) : State :=
  { s.setCtx p none with
    ctxRefs :=
      match b with
      | .threadAio => drop s.ctxRefs self
      | .linuxAio => xdecref s.ctxRefs (s.ctx p) }

inductive Action
  | submit (k : CtxId) (args : List OpPtr)
  /-- The loop looks at the next argument, or ends. -/
  | next (c : ℕ)
  | setContext (c : ℕ)
  /-- The first `n` claimed Operations are taken, and the others refused. -/
  | queue (c n : ℕ)
  /-- `in_progress` becomes 0. -/
  | unclaim (c : ℕ)
  | clearContext (c : ℕ)
  /-- `worker` reads `op->ctx` and clears it. -/
  | take (j : ℕ)
  | record (j : ℕ)
  /-- `Py_DECREF(ctx)` of `worker`, or `Py_CLEAR(op->context)` at the completion event. -/
  | complete (j : ℕ)
  | incref (k : CtxId)
  | decref (k : CtxId)

def onCall (c : ℕ) (f : Call → Option State) : Option State := s.calls[c]?.bind f

def onJob (j : ℕ) (f : Job → Option State) : Option State := s.jobs[j]?.bind f

/-- After the answer of `threadpool_add` or `io_submit`: thread_aio goes on with the next argument.
-/
def afterQueue (b : Backend) (refused : List OpPtr) : CallPc :=
  if b = .threadAio ∧ refused = [] then .loop else .rollback refused

def step (b : Backend) : Action → Option State
  | .submit k args => some { s with calls := s.calls ++ [{ ctx := k, args }] }
  | .next c => s.onCall c fun d =>
    match d.pc, d.args with
    | .loop, p :: args =>
      if s.inProgress p then some (s.setCall c { d with args })
      else
        some ((s.setInProgress p true).setCall c { d with args, pc := .claiming p })
    | .loop, [] =>
      -- linux_aio hands over what it has claimed
      some (s.setCall c { d with pc := if d.claimed = [] then .returned else .queueing })
    | _, _ => none
  | .setContext c => s.onCall c fun d =>
    match d.pc with
    | .claiming p =>
      some ((s.setContext b d.ctx p).setCall c
        { d with
          claimed := d.claimed ++ [p]
          pc := match b with
            | .threadAio => .queueing
            | .linuxAio => .loop })
    | _ => none
  | .queue c n => s.onCall c fun d =>
    match d.pc with
    | .queueing =>
      some ((s.accept d.ctx (d.claimed.take n)).setCall c
        { d with claimed := [], pc := afterQueue b (d.claimed.drop n) })
    | _ => none
  | .unclaim c => s.onCall c fun d =>
    match d.pc with
    | .refused p ps =>
      some ((s.setInProgress p false).setCall c { d with pc := .unclaimed p ps })
    | _ => none
  | .clearContext c => s.onCall c fun d =>
    match d.pc with
    | .unclaimed p ps => some ((s.clearContext b d.ctx p).setCall c { d with pc := .rollback ps })
    | _ => none
  | .take j => s.onJob j fun e =>
    match b, e.pc with
    | .threadAio, .queued =>
      some ((s.setCtx e.op none).setJob j { e with pc := .taken (s.ctx e.op) })
    | _, _ => none
  | .record j => s.onJob j fun e =>
    match b, e.pc with
    | .threadAio, .taken ctx => some ((s.setCtx e.op none).setJob j { e with pc := .recorded ctx })
    | _, _ => none
  | .complete j => s.onJob j fun e =>
    match b, e.pc with
    | .threadAio, .recorded (some k) =>
      some ({ s with ctxRefs := drop s.ctxRefs k }.setJob j { e with pc := .completed })
    | .linuxAio, .queued =>
      some ((s.clearContext .linuxAio e.ctx e.op).setJob j { e with pc := .completed })
    | _, _ => none
  | .incref k =>
    if 0 < s.ctxRefs k then
      some { s with ctxRefs := bump s.ctxRefs k, ctxUsers := bump s.ctxUsers k }
    else none
  | .decref k =>
    if 0 < s.ctxUsers k then
      some { s with ctxRefs := drop s.ctxRefs k, ctxUsers := drop s.ctxUsers k }
    else none

/-- New Operations. -/
structure Init (s : State) : Prop where
  inProgress : ∀ p, s.inProgress p = false
  ctx : ∀ p, s.ctx p = none
  refs : s.ctxRefs = s.ctxUsers
  calls : s.calls = []
  jobs : s.jobs = []

def system (b : Backend) : TransitionSystem State Action := ⟨Init, fun s => s.step b⟩

end State

end Caio.FreeThreading
