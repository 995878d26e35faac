import Mathlib.Logic.Function.Basic
import Caio.Lib.Transition
import Caio.PythonAio.Operation

/-!
# python_aio: Context

`submit` calls in any number of threads, the jobs of the pools and `close`. A section under
`operation._lock` or `self._lock` is one step, and so is what a thread does between two of them.
-/

namespace Caio.PythonAio

abbrev OpId := ℕ

/-- `ContextState`; `close` passes `CLOSING` within one section. -/
inductive ContextState
  | open
  | closed
deriving DecidableEq, Repr

structure Context where
  maxRequests : Int
  /-- `_in_progress` -/
  inProgress : Int := 0
  state : ContextState := .open
  /-- Whether `self.pool` still takes jobs. -/
  poolOpen : Bool := true

/-- An argument of `submit`; `repr` is what `!r` prints of a wrong one. -/
inductive Arg
  | operation (p : OpId)
  | other (repr : String)

def Arg.operation? : Arg → Option OpId
  | .operation p => some p
  | .other _ => none

def Arg.other? : Arg → Option String
  | .operation _ => none
  | .other repr => some repr

/-- Where a call of `submit` is. -/
inductive CallPc
  /-- Before `_execute` of the next Operation. -/
  | loop
  /-- `p` is claimed and `apply_async` comes next. -/
  | claimed (p : OpId)
  /-- `apply_async` has raised and `_rollback_claim` comes next. -/
  | failed (p : OpId) (exc : PyErr)
  | returned (count : ℕ)
  | raised (exc : PyErr)

structure Call where
  ctx : CtxId
  rest : List OpId
  /-- The Operations counted so far. -/
  counted : List OpId := []
  pc : CallPc := .loop

/-- Where a job of a pool is, from `apply_async` to the end of `on_success` or `on_error`. -/
inductive JobPc
  | queued
  /-- The handler has run. -/
  | ran (result : Except PyErr Value)
  | released (result : Except PyErr Value)
  | recorded (result : Except PyErr Value)
  | done (result : Except PyErr Value) (callback : Option Callback)
deriving DecidableEq

structure Job where
  ctx : CtxId
  op : OpId
  pc : JobPc := .queued
deriving DecidableEq

/-- What a job does. -/
inductive Effect
  /-- The handler calls its function of `os`, which comes to `returned`. -/
  | run (returned : Except PyErr Operation.Returned)
  | releaseSlot
  | record (result : Except PyErr Value)
  /-- `_invoke_callback` with the callback it finds and the value it passes. -/
  | invokeCallback (callback : Option Callback) (value : Value)
deriving DecidableEq

structure World where
  ops : OpId → Operation
  ctxs : CtxId → Context
  calls : List Call
  jobs : List Job
  /-- The effects of the jobs, with the number of the job. -/
  log : List (ℕ × Effect)

namespace World

def setCall (s : World) (i : ℕ) (c : Call) : World := { s with calls := s.calls.set i c }

def setJob (s : World) (j : ℕ) (b : Job) : World := { s with jobs := s.jobs.set j b }

def modifyOp (s : World) (p : OpId) (f : Operation → Operation) : World :=
  { s with ops := Function.update s.ops p (f (s.ops p)) }

def modifyCtx (s : World) (k : CtxId) (f : Context → Context) : World :=
  { s with ctxs := Function.update s.ctxs k (f (s.ctxs k)) }

def claim (s : World) (k : CtxId) (p : OpId) : World :=
  (s.modifyOp p fun op => { op with inProgress := true }).modifyCtx k
    fun ctx => { ctx with inProgress := ctx.inProgress + 1 }

def rollbackClaim (s : World) (k : CtxId) (p : OpId) : World :=
  (s.modifyOp p fun op => { op with inProgress := false }).modifyCtx k
    fun ctx => { ctx with inProgress := ctx.inProgress - 1 }

def releaseSlot (s : World) (k : CtxId) : World :=
  s.modifyCtx k fun ctx => { ctx with inProgress := ctx.inProgress - 1 }

/-- The locked section of `_execute`, in call `i` on the Operation `p`. -/
def execute (s : World) (i : ℕ) (c : Call) (p : OpId) (ps : List OpId) : World :=
  if (s.ops p).inProgress then s.setCall i { c with rest := ps }
  else if (s.ctxs c.ctx).state ≠ .open then
    s.setCall i { c with pc := .raised (.runtimeError "Context is closed") }
  else if (s.ctxs c.ctx).maxRequests ≤ (s.ctxs c.ctx).inProgress then
    s.setCall i
      { c with pc := .raised (.runtimeError "Maximum simultaneous requests have been reached") }
  else (s.claim c.ctx p).setCall i { c with rest := ps, pc := .claimed p }

def close (s : World) (k : CtxId) : World :=
  if (s.ctxs k).state ≠ .open then s
  else s.modifyCtx k fun ctx => { ctx with state := .closed, poolOpen := false }

def callbackValue : Except PyErr Value → Value
  | .ok result => result
  | .error _ => .none

inductive Action
  | submit (k : CtxId) (args : List Arg)
  /-- Call `i` runs `_execute` on its next Operation, or returns. -/
  | execute (i : ℕ)
  /-- `apply_async` queues the job of call `i`, or raises. -/
  | applyAsync (i : ℕ) (exc : Option PyErr)
  | rollbackClaim (i : ℕ)
  /-- A worker runs the handler of job `j`. -/
  | run (j : ℕ) (returned : Except PyErr Operation.Returned)
  | releaseSlot (j : ℕ)
  | record (j : ℕ)
  | invokeCallback (j : ℕ)
  | setCallback (p : OpId) (callback : Callback)
  | close (k : CtxId)

def onCall (s : World) (i : ℕ) (f : Call → Option World) : Option World := s.calls[i]?.bind f

def onJob (s : World) (j : ℕ) (f : Job → Option World) : Option World := s.jobs[j]?.bind f

def step (s : World) : Action → Option World
  | .submit k args =>
    match args.findSome? Arg.other? with
    | some repr => some { s with calls := s.calls ++
        [{ ctx := k, rest := [], pc := .raised (.valueError ("Invalid Operation " ++ repr)) }] }
    | none => some { s with calls := s.calls ++
        [{ ctx := k, rest := args.filterMap Arg.operation? }] }
  | .execute i => s.onCall i fun c =>
    match c.pc, c.rest with
    | .loop, [] => some (s.setCall i { c with pc := .returned c.counted.length })
    | .loop, p :: ps => some (s.execute i c p ps)
    | _, _ => none
  | .applyAsync i exc => s.onCall i fun c =>
    match c.pc, exc with
    | .claimed p, none =>
      if (s.ctxs c.ctx).poolOpen then
        some { s.setCall i { c with counted := c.counted ++ [p], pc := .loop } with
          jobs := s.jobs ++ [{ ctx := c.ctx, op := p }] }
      else none
    | .claimed p, some exc => some (s.setCall i { c with pc := .failed p exc })
    | _, _ => none
  | .rollbackClaim i => s.onCall i fun c =>
    match c.pc with
    | .failed p exc => some ((s.rollbackClaim c.ctx p).setCall i { c with pc := .raised exc })
    | _ => none
  | .run j returned => s.onJob j fun b =>
    match b.pc with
    | .queued =>
      let (op, result) := (s.ops b.op).handle returned
      some { (s.modifyOp b.op fun _ => op).setJob j { b with pc := .ran result } with
        log := s.log ++ [(j, .run returned)] }
    | _ => none
  | .releaseSlot j => s.onJob j fun b =>
    match b.pc with
    | .ran result => some { (s.releaseSlot b.ctx).setJob j { b with pc := .released result } with
        log := s.log ++ [(j, .releaseSlot)] }
    | _ => none
  | .record j => s.onJob j fun b =>
    match b.pc with
    | .released result =>
      some { (s.modifyOp b.op (·.record result)).setJob j { b with pc := .recorded result } with
        log := s.log ++ [(j, .record result)] }
    | _ => none
  | .invokeCallback j => s.onJob j fun b =>
    match b.pc with
    | .recorded result =>
      let callback := (s.ops b.op).callback
      some { s.setJob j { b with pc := .done result callback } with
        log := s.log ++ [(j, .invokeCallback callback (callbackValue result))] }
    | _ => none
  | .setCallback p callback => some (s.modifyOp p fun op => { op with callback := some callback })
  | .close k => some (s.close k)

/-- New Operations and open Contexts, whose `max_requests` the constructor has checked. -/
structure Init (s : World) : Prop where
  ops : ∀ p, (s.ops p).inProgress = false
  inProgress : ∀ k, (s.ctxs k).inProgress = 0
  maxRequests : ∀ k, 0 < (s.ctxs k).maxRequests
  calls : s.calls = []
  jobs : s.jobs = []
  log : s.log = []

def system : TransitionSystem World Action := ⟨Init, step⟩

/-- New Contexts with one `max_requests`, before any call. -/
def new (ops : OpId → Operation) (maxRequests : Int) : World :=
  { ops, ctxs := fun _ => { maxRequests }, calls := [], jobs := [], log := [] }

theorem new_init {ops : OpId → Operation} {maxRequests : Int}
    (hops : ∀ p, (ops p).inProgress = false) (hmax : 0 < maxRequests) :
    Init (new ops maxRequests) :=
  ⟨hops, fun _ => rfl, fun _ => hmax, rfl, rfl, rfl⟩

end World

end Caio.PythonAio
