import Mathlib.Algebra.Group.Nat.Defs
import Mathlib.Logic.Function.Basic
import Caio.Lib.Transition
import Caio.Python

/-!
# AsyncioContextBase

The coroutines of `AsyncioContextBase.submit` on one adapter, between whose awaits
the loop's thread runs without interruption, with the backend's acceptances and
completions. What differs between the four backends is in `Config`.
-/

namespace Caio.Asyncio

abbrev OpId := ℕ

inductive Kind
  | pythonAio
  | threadAio
  | linuxUring
  | linuxAio
deriving DecidableEq, Repr

/-- `max_requests` as `thread_aio` parses it: `H` keeps 16 bits, and 0 stands for
`CTX_MAX_REQUESTS_DEFAULT`. -/
def threadQueueSize (maxRequests : ℕ) : ℕ :=
  let n := maxRequests % 2 ^ 16
  if n = 0 then 512 else n

def uringMaxRequests (maxRequests : ℕ) : UInt32 :=
  let n := UInt32.ofNat maxRequests
  if n = 0 then 32 else n

structure Config where
  kind : Kind
  deferred : Bool := false
  /-- Whether the kernel gave the ring `IORING_SETUP_SQPOLL`. -/
  sqpoll : Bool := false
  /-- The argument of the constructor. -/
  arg : Option ℕ
  /-- `*sq_ring_entries`; `io_uring_setup` rounds up what it is asked for. -/
  sqEntries : ℕ := 0
  sqEntries_ge : kind = .linuxUring →
    (uringMaxRequests (if arg.getD 0 = 0 then 512 else arg.getD 0) + 1).toNat ≤ sqEntries

def Config.maxRequests (cfg : Config) : ℕ := if cfg.arg.getD 0 = 0 then 512 else cfg.arg.getD 0

/-- Whether `_on_submitted` calls `flush` at once. -/
def Config.flushes (cfg : Config) : Bool :=
  cfg.kind = .linuxUring ∧ ¬(cfg.deferred = true ∧ cfg.sqpoll = false)

/-- What became of the Operation of a call that the backend has accepted. -/
inductive Stage
  | idle
  /-- In the queue of the pool, or staged in the SQ ring. -/
  | queued
  | running
  | completed
  /-- Its callback has been called. -/
  | delivered
deriving DecidableEq, Repr

namespace Stage

def outstanding : Stage → Bool
  | .queued | .running => true
  | _ => false

def undelivered : Stage → Bool
  | .queued | .running | .completed => true
  | _ => false

theorem undelivered_of_outstanding {stage : Stage} (h : stage.outstanding = true) :
    stage.undelivered = true := by
  cases stage with
  | queued | running => rfl
  | idle | completed | delivered => cases h

end Stage

/-- Where a coroutine is in `submit`. -/
inductive Phase
  /-- Before the semaphore. -/
  | waiting
  /-- It has a slot and will run up to `await future`. -/
  | granted
  | awaiting
  /-- `CancelledError` has been thrown into `await future`. -/
  | unwinding
  | left
deriving DecidableEq, Repr

/-- A coroutine in one of these phases has a slot of the semaphore. -/
def Phase.holds : Phase → Bool
  | .granted | .awaiting | .unwinding => true
  | _ => false

/-- The callback of an Operation: `partial(self._on_done, future)`, or one set by other code. -/
inductive OpCallback
  | onDone (future : FutureId)
  | other (callback : Callback)
deriving DecidableEq, Repr

structure Op where
  inProgress : Bool := false
  callback : Option OpCallback := none

/-- A call of `submit`; its future has the same number. -/
structure Call where
  op : OpId
  /-- The Operation's callback before the call. -/
  before : Option OpCallback
  phase : Phase := .waiting
  stage : Stage := .idle

structure Base where
  /-- `semaphore._value` -/
  slots : ℕ
  ops : OpId → Op
  calls : List Call
  futures : FutureId → Future
  /-- The futures of the lambdas given to `call_soon_threadsafe`. -/
  soon : List FutureId
  /-- `_pending` of the linux_aio adapter. -/
  pending : List ℕ
  /-- Cancel requests in the SQ ring. -/
  cancelSqes : ℕ

namespace Base

variable (cfg : Config)

def setCall (s : Base) (i : ℕ) (c : Call) : Base := { s with calls := s.calls.set i c }

def setFuture (s : Base) (f : FutureId) (x : Future) : Base :=
  { s with futures := Function.update s.futures f x }

/-- Operations the backend has accepted and not completed; `_in_progress` of `python_aio`. -/
def held (s : Base) : ℕ := s.calls.countP (·.stage.outstanding)

/-- Operations in the queue of the pool, or in the SQ ring. -/
def queued (s : Base) : ℕ := s.calls.countP (·.stage == .queued)

/-- The backend's own capacity check; what `io_submit` has no room for is a refusal. -/
def Full (s : Base) : Prop :=
  match cfg.kind with
  | .pythonAio => cfg.maxRequests ≤ s.held
  | .threadAio => s.queued = threadQueueSize cfg.maxRequests
  | .linuxUring => cfg.sqEntries ≤ s.queued + s.cancelSqes
  | .linuxAio => False

instance (s : Base) : Decidable (s.Full cfg) := by
  unfold Full
  cases cfg.kind <;> infer_instance

def leave (s : Base) (i : ℕ) (c : Call) : Base :=
  { s.setCall i { c with phase := .left } with slots := s.slots + 1 }

/-- The backend claims the Operation of call `i` for it. -/
def accept (s : Base) (i : ℕ) (c : Call) : Base :=
  { s.setCall i { c with stage := .queued } with
    ops := Function.update s.ops c.op { s.ops c.op with inProgress := true } }

/-- `_on_done`: the workers of `python_aio` and `thread_aio` leave the future to the loop. -/
def onDone (s : Base) (f : FutureId) : Base :=
  if (s.futures f).done then s
  else
    match cfg.kind with
    | .pythonAio | .threadAio => { s with soon := s.soon ++ [f] }
    | .linuxUring | .linuxAio => s.setFuture f .result

/-- The Operation of call `i` is completed and its callback is called. -/
def deliver (s : Base) (i : ℕ) (c : Call) : Base :=
  let s' := s.setCall i { c with stage := .delivered }
  match (s.ops c.op).callback with
  | some (.onDone f) => s'.onDone cfg f
  | _ => s'

/-- The answer of the backend to a call that passes its checks. -/
inductive Answer
  /-- Any other exception; the claim is given back. -/
  | refused
  /-- The Operation is accepted; `flush`, where `_on_submitted` calls it, raises unless `flushed`.
  -/
  | accepted (flushed : Bool)
deriving DecidableEq, Repr

/-- `_submit_op` and `_on_submitted`, up to `await future`. -/
def enter (s : Base) (i : ℕ) (c : Call) (answer : Answer) : Base :=
  if cfg.kind = .linuxAio ∧ cfg.deferred then
    { s.setCall i { c with phase := .awaiting } with pending := s.pending ++ [i] }
  -- `submit()` returns 0, which is an `OSError`
  else if (s.ops c.op).inProgress then s.leave i c
  else if s.Full cfg then s.leave i c
  else
    match answer with
    | .refused => s.leave i c
    | .accepted flushed =>
      if cfg.flushes = true ∧ flushed = false then
        (s.accept i c).leave i { c with stage := .queued }
      else s.accept i { c with phase := .awaiting }

def unwind (s : Base) (i : ℕ) (c : Call) (cancelled : Bool) : Base :=
  match cfg.kind with
  | .pythonAio | .threadAio => s.leave i c
  | .linuxUring =>
    if s.Full cfg then s.leave i c else { s.leave i c with cancelSqes := s.cancelSqes + 1 }
  | .linuxAio =>
    -- a successful `io_cancel` completes the Operation here
    if cancelled ∧ c.stage.outstanding then
      (s.deliver cfg i c).leave i { c with stage := .delivered }
    else s.leave i c

/-- The entries whose Operations `submit` claims. -/
def claimEntries : (OpId → Bool) → List (ℕ × OpId) → List ℕ
  | _, [] => []
  | busy, (i, p) :: es =>
    if busy p then claimEntries busy es
    else i :: claimEntries (Function.update busy p true) es

/-- The entries of `_pending` whose futures are not done. -/
def live (s : Base) : List ℕ := s.pending.filter fun i => !(s.futures i).done

def entries (s : Base) (is : List ℕ) : List (ℕ × OpId) :=
  is.filterMap fun i => s.calls[i]?.map fun c => (i, c.op)

def claimed (s : Base) : List ℕ :=
  claimEntries (fun p => (s.ops p).inProgress) (s.entries s.live)

def acceptAll (s : Base) : List ℕ → Base
  | [] => s
  | i :: is =>
    match s.calls[i]? with
    | none => acceptAll s is
    | some c => acceptAll (s.accept i c) is

def failAll (s : Base) (exc : PyErr) : List ℕ → Base
  | [] => s
  | i :: is => failAll (if (s.futures i).done then s else s.setFuture i (.exception exc)) exc is

/-- `_deferred_submit` for an answer of `io_submit`. -/
def deferredSubmit (s : Base) : Except PyErr ℕ → Base
  | .error exc => failAll { s with pending := [] } exc s.live
  | .ok accepted =>
    (acceptAll { s with pending := [] } (s.claimed.take accepted)).failAll
      (.osError "Operation was not submitted") (s.live.drop accepted)

inductive Action
  /-- A coroutine starts and installs its callback. -/
  | submit (p : OpId)
  /-- The semaphore gives it a slot. -/
  | acquire (i : ℕ)
  | enter (i : ℕ) (answer : Answer)
  /-- A worker or the kernel takes the Operation of call `i` from the queue. -/
  | start (i : ℕ)
  | complete (i : ℕ)
  | deliver (i : ℕ)
  /-- The loop runs the oldest lambda of `call_soon_threadsafe`. -/
  | runSoon
  /-- The coroutine goes on after `await future`. -/
  | resume (i : ℕ)
  | cancel (i : ℕ)
  | unwind (i : ℕ) (cancelled : Bool)
  | deferredSubmit (answer : Except PyErr ℕ)
  /-- The kernel consumes a cancel request. -/
  | consumeCancel

/-- A step of call `i`, if there is such a call. -/
def onCall (s : Base) (i : ℕ) (f : Call → Option Base) : Option Base := s.calls[i]?.bind f

def step (s : Base) : Action → Option Base
  | .submit p =>
    let op := s.ops p
    some { s with
      ops := Function.update s.ops p { op with callback := some (.onDone s.calls.length) }
      calls := s.calls ++ [{ op := p, before := op.callback }] }
  | .acquire i => s.onCall i fun c =>
    if c.phase = .waiting ∧ 0 < s.slots then
      some { s.setCall i { c with phase := .granted } with slots := s.slots - 1 }
    else none
  | .enter i answer => s.onCall i fun c =>
    if c.phase = .granted then some (s.enter cfg i c answer) else none
  | .start i => s.onCall i fun c =>
    if c.stage = .queued then some (s.setCall i { c with stage := .running }) else none
  | .complete i => s.onCall i fun c =>
    if c.stage = .running then some (s.setCall i { c with stage := .completed }) else none
  | .deliver i => s.onCall i fun c =>
    if c.stage = .completed then some (s.deliver cfg i c) else none
  | .runSoon =>
    match s.soon with
    | [] => none
    | f :: fs =>
      let s := { s with soon := fs }
      some (if (s.futures f).done then s else s.setFuture f .result)
  | .resume i => s.onCall i fun c =>
    if c.phase = .awaiting ∧ (s.futures i).done then some (s.leave i c) else none
  | .cancel i => s.onCall i fun c =>
    match c.phase with
    | .waiting => some (s.setCall i { c with phase := .left })
    | .granted => some (s.leave i c)
    | .awaiting =>
      let s' := s.setCall i { c with phase := .unwinding }
      some (if (s.futures i).done then s' else s'.setFuture i .cancelled)
    | _ => none
  | .unwind i cancelled => s.onCall i fun c =>
    if c.phase = .unwinding then some (s.unwind cfg i c cancelled) else none
  | .deferredSubmit answer =>
    match answer with
    | .error _ => some (s.deferredSubmit answer)
    | .ok accepted =>
      if accepted ≤ s.claimed.length then some (s.deferredSubmit answer) else none
  | .consumeCancel =>
    if 0 < s.cancelSqes then some { s with cancelSqes := s.cancelSqes - 1 } else none

/-- A new adapter. Other code may already have claimed Operations and set callbacks. -/
structure Init (s : Base) : Prop where
  slots : s.slots = cfg.maxRequests
  calls : s.calls = []
  futures : ∀ f, s.futures f = .pending
  soon : s.soon = []
  pending : s.pending = []
  cancelSqes : s.cancelSqes = 0
  callback : ∀ p f, (s.ops p).callback ≠ some (.onDone f)

def new : Base where
  slots := cfg.maxRequests
  ops := fun _ => {}
  calls := []
  futures := fun _ => .pending
  soon := []
  pending := []
  cancelSqes := 0

theorem new_init : Init cfg (new cfg) :=
  ⟨rfl, rfl, fun _ => rfl, rfl, rfl, rfl, fun _ _ => nofun⟩

def system : TransitionSystem Base Action := ⟨Init cfg, step cfg⟩

end Base

end Caio.Asyncio
