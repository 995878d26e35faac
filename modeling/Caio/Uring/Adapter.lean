import Caio.Uring.World

namespace Caio.Uring

def KernelStep.consumes : KernelStep → Bool
  | .consume => true
  | _ => false

def Syscall.taken (call : Syscall) : ℕ := call.kernel.countP KernelStep.consumes

def Syscall.fails (call : Syscall) : Bool :=
  match call.ret with
  | .error _ => true
  | .ok _ => false

/-- The count that a call returns, none when it fails. -/
def Syscall.returned (call : Syscall) : ℕ :=
  match call.ret with
  | .error _ => 0
  | .ok n => n

/-- `io_uring_enter` with `to_submit` outside SQPOLL mode: it returns how many SQEs it has taken,
and fails only if there are none. -/
def Syscall.Counts (call : Syscall) (toSubmit : ℕ) : Prop :=
  call.taken = call.returned ∧ call.taken ≤ toSubmit

instance (call : Syscall) (toSubmit : ℕ) : Decidable (call.Counts toSubmit) :=
  inferInstanceAs (Decidable (_ ∧ _))

/-- The answers to the loop of `flush`, from a value of `remaining` on. -/
def Answers : ℕ → List Syscall → Prop
  | remaining, [] => remaining = 0
  | remaining, call :: calls =>
    remaining ≠ 0 ∧ call.Counts remaining ∧
      if call.fails then calls = [] else Answers (remaining - call.taken) calls

instance Answers.decidable : ∀ remaining calls, Decidable (Answers remaining calls)
  | _, [] => inferInstanceAs (Decidable (_ = _))
  | remaining, call :: calls =>
    have := Answers.decidable (remaining - call.taken) calls
    have : Decidable (calls = []) := decidable_of_iff _ List.isEmpty_iff
    inferInstanceAs (Decidable (_ ∧ _ ∧ ite _ _ _))

/-- The number of SQEs that the kernel has not taken. -/
def Context.staged (k : Context) : ℕ := (k.sq.tail - k.sq.head).toNat

/-- Steps of other Python code and of the kernel that leave the submission side of a Context alone.
Outside SQPOLL mode the kernel takes SQEs in system calls only. -/
def World.Action.quiet (c : CtxId) : World.Action → Bool
  | .newContext d _ | .submit d _ | .cancel d _ | .flush d _ _ => d != c
  | .processEvents d _ minRequests _ _ => d != c || minRequests == 0
  | .kernel d a => d != c || !a.consumes
  | _ => true

structure Adapter where
  world : World
  deferred : Bool
  /-- `_flush_scheduled` -/
  flushScheduled : Bool := false
  /-- Calls of `_deferred_flush` that wait in the loop. -/
  scheduled : ℕ := 0

namespace Adapter

variable (c : CtxId)

def ctx (s : Adapter) : Context := s.world.ctxs c

def submitOp (s : Adapter) (p : OpPtr) : Adapter × Except PyErr Unit :=
  let r := s.world.submit c [.operation p]
  ({ s with world := r.1 },
    match r.2 with
    | .error e => .error e
    | .ok n => if n = 1 then .ok () else .error (.osError "Operation was not submitted"))

/-- `_on_submitted`; the answers of the kernel are for the `flush` it may call. -/
def onSubmitted (s : Adapter) (needWakeup : Bool) (calls : List Syscall) :
    Option (Adapter × Except PyErr Unit) :=
  if s.deferred = false ∨ (s.ctx c).sqpoll = true then
    (s.world.flush c needWakeup calls).map fun r =>
      ({ s with world := r.1 }, r.2.map fun _ => ())
  -- the flush that is scheduled already takes this SQE too
  else if s.flushScheduled then some (s, .ok ())
  else some ({ s with flushScheduled := true, scheduled := s.scheduled + 1 }, .ok ())

/-- `submit` up to `await future`: without a `slot` it is cancelled at the semaphore. -/
def submit (s : Adapter) (arg : Arg) (callback : Callback) (slot needWakeup : Bool)
    (calls : List Syscall) : Option (Adapter × Except PyErr Unit) :=
  match arg with
  | .other => some (s, .error (.valueError "Operation object expected"))
  | .operation p =>
    let heap := s.world.heap.modify p fun op => op.setCallback callback
    let s := { s with world := { s.world with heap } }
    if slot = false then some (s, .error .cancelledError)
    else
      match s.submitOp c p with
      | (s, .error e) => some (s, .error e)
      | (s, .ok ()) => s.onSubmitted c needWakeup calls

/-- `self.context.cancel(op)` with its `io_uring_enter`, whose answer is ignored. -/
def cancel (s : Adapter) (p : OpPtr) (call : Syscall) : Option (Adapter × Except PyErr ℕ) :=
  match s.world.cancel c p with
  | (_, .error e) => some (s, .error e)
  | (w, .ok n) => (w.kernelRun c call.kernel).map fun w => ({ s with world := w }, .ok n)

def deferredFlush (s : Adapter) (calls : List Syscall) : Option (Adapter × Except PyErr ℕ) :=
  (s.world.flush c false calls).map fun r =>
    ({ s with world := r.1, flushScheduled := false }, r.2)

/-- What happens on an adapter that leaves the flush to the loop. -/
inductive Action
  | submit (p : OpPtr) (callback : Callback) (slot : Bool)
  | cancel (p : OpPtr) (call : Syscall)
  /-- The loop runs a `_deferred_flush`. -/
  | deferredFlush (calls : List Syscall)
  | other (a : World.Action)

def step (s : Adapter) : Action → Option Adapter
  | .submit p callback slot =>
    if 0 < s.world.userRefs p then
      (s.submit c (.operation p) callback slot false []).map Prod.fst
    else none
  | .cancel p call =>
    if 0 < s.world.userRefs p ∧ call.Counts 1 then (s.cancel c p call).map Prod.fst else none
  | .deferredFlush calls =>
    if 0 < s.scheduled ∧ Answers (s.ctx c).staged calls then
      (s.deferredFlush c calls).map fun r => { r.1 with scheduled := s.scheduled - 1 }
    else none
  | .other a =>
    if a.quiet c then (s.world.step a).map fun world => { s with world } else none

/-- A new adapter with `deferred=True` over a ring that the kernel has set up without SQPOLL. -/
structure Init (s : Adapter) : Prop where
  deferred : s.deferred = true
  sqpoll : (s.ctx c).sqpoll = false
  uringFd : 0 ≤ (s.ctx c).uringFd
  staged : (s.ctx c).staged = 0
  flushScheduled : s.flushScheduled = false
  scheduled : s.scheduled = 0

def system : TransitionSystem Adapter Action := ⟨Init c, step c⟩

end Adapter

end Caio.Uring
