import Caio.PythonAio.Context

/-!
# python_aio: the threads of a process

Which thread runs the steps of the program at large, statement by statement with the locks:
threads of the program, and the threads of the pools that handle results. Callbacks and the
finalisers of callbacks that `set_callback` replaces are user code, which may call everything
again.
-/

namespace Caio.PythonAio

abbrev ThreadId := ℕ

/-- `operation._lock` and `context._lock`; neither is reentrant. -/
inductive Lock
  | operation (p : OpId)
  | context (k : CtxId)
deriving DecidableEq, Repr

/-- Where a call of `set_callback` is. -/
inductive SetCallbackPc
  | acquire
  /-- Before `self.callback = callback`. -/
  | store
  | release
deriving DecidableEq

/-- Where a call of `submit` is, apart from what `Call.pc` says. -/
inductive SubmitPc
  | next
  /-- In `with operation._lock, self._lock`, of `_execute` or of `_rollback_claim`. -/
  | acquireCtx (p : OpId)
  | body (p : OpId)
  | releaseCtx (p : OpId)
  | releaseOp (p : OpId)
deriving DecidableEq

/-- Where `on_success` or `on_error` is, with `_release_slot` and `_invoke_callback`. -/
inductive CompletionPc
  | acquireCtx
  | releaseSlot
  | releaseCtx
  | record
  | acquireOp
  | lookup
  | releaseOp (callback : Option Callback)
  | invoke (callback : Callback)
  | returns
deriving DecidableEq

/-- Where a call of `close` is. -/
inductive ClosePc
  /-- Before the look at `_state` without the lock. -/
  | check
  | acquire
  | body
  | release
deriving DecidableEq

/-- A call in progress on the stack of a thread. -/
inductive Frame
  /-- The program, a callback, or a finaliser. -/
  | user
  | setCallback (p : OpId) (callback : Callback) (pc : SetCallbackPc)
  /-- Call `i` of `submit` on the Context `k`. -/
  | submit (k : CtxId) (i : ℕ) (pc : SubmitPc)
  /-- The completion of job `j`, of the Operation `p` on the Context `k`. -/
  | completion (k : CtxId) (p : OpId) (j : ℕ) (pc : CompletionPc)
  | close (k : CtxId) (pc : ClosePc)
deriving DecidableEq

/-- The Operation whose lock a call of `submit` takes next. -/
def Call.section? (c : Call) : Option OpId :=
  match c.pc, c.rest with
  | .loop, p :: _ => some p
  | .failed p _, _ => some p
  | _, _ => none

namespace Frame

/-- The lock that a frame is about to take, and the frame once it has it. -/
def acquire (world : World) : Frame → Option (Lock × Frame)
  | .setCallback p callback .acquire => some (.operation p, .setCallback p callback .store)
  | .submit k i .next =>
    (world.calls[i]?.bind Call.section?).map fun p => (.operation p, .submit k i (.acquireCtx p))
  | .submit k i (.acquireCtx p) => some (.context k, .submit k i (.body p))
  | .completion k p j .acquireCtx => some (.context k, .completion k p j .releaseSlot)
  | .completion k p j .acquireOp => some (.operation p, .completion k p j .lookup)
  | .close k .acquire => some (.context k, .close k .body)
  | _ => none

/-- The lock that a frame is about to release, and what follows it; no frame when it returns. -/
def release : Frame → Option (Lock × Option Frame)
  | .setCallback p _ .release => some (.operation p, none)
  | .submit k i (.releaseCtx p) => some (.context k, some (.submit k i (.releaseOp p)))
  | .submit k i (.releaseOp p) => some (.operation p, some (.submit k i .next))
  | .completion k p j .releaseCtx => some (.context k, some (.completion k p j .record))
  | .completion k p j (.releaseOp callback) =>
    some (.operation p, callback.map fun callback => .completion k p j (.invoke callback))
  | .close k .release => some (.context k, none)
  | _ => none

def held : Frame → List Lock
  | .setCallback p _ .store | .setCallback p _ .release => [.operation p]
  | .submit _ _ (.acquireCtx p) | .submit _ _ (.releaseOp p) => [.operation p]
  | .submit k _ (.body p) | .submit k _ (.releaseCtx p) => [.context k, .operation p]
  | .completion k _ _ .releaseSlot | .completion k _ _ .releaseCtx => [.context k]
  | .completion _ p _ .lookup | .completion _ p _ (.releaseOp _) => [.operation p]
  | .close k .body | .close k .release => [.context k]
  | _ => []

/-- What the environment decides about a statement. -/
structure Outcome where
  /-- The exception that `apply_async` raises. -/
  exc : Option PyErr := none
  /-- Whether the store of `set_callback` drops the last reference to a callback with a
  finaliser. -/
  finalises : Bool := false
deriving DecidableEq

def sectionBody (world : World) (i : ℕ) : Option World :=
  world.calls[i]?.bind fun c =>
    match c.pc with
    | .failed _ _ => world.step (.rollbackClaim i)
    | _ => world.step (.execute i)

/-- A statement of call `i` of `submit` outside its sections. -/
def submitNext (world : World) (k : CtxId) (i : ℕ) (exc : Option PyErr) :
    Option (World × List Frame) :=
  world.calls[i]?.bind fun c =>
    match c.pc, c.rest with
    | .loop, [] => (world.step (.execute i)).map (·, [.submit k i .next])
    | .claimed _, _ => (world.step (.applyAsync i exc)).map (·, [.submit k i .next])
    | .returned _, _ | .raised _, _ => some (world, [])
    | _, _ => none

/-- A statement that neither takes nor releases a lock, and the frames in the place of its own. -/
def run (world : World) (o : Outcome) : Frame → Option (World × List Frame)
  | .setCallback p callback .store =>
    if o.finalises && (world.ops p).callback.isNone then none
    else
      (world.step (.setCallback p callback)).map fun world =>
        -- the old callback goes while the lock is held
        (world, if o.finalises then [.user, .setCallback p callback .release]
          else [.setCallback p callback .release])
  | .submit k i (.body p) => (sectionBody world i).map (·, [.submit k i (.releaseCtx p)])
  | .submit k i .next => submitNext world k i o.exc
  | .completion k p j .releaseSlot =>
    (world.step (.releaseSlot j)).map (·, [.completion k p j .releaseCtx])
  | .completion k p j .record => (world.step (.record j)).map (·, [.completion k p j .acquireOp])
  | .completion k p j .lookup =>
    (world.step (.invokeCallback j)).map
      (·, [.completion k p j (.releaseOp (world.ops p).callback)])
  | .completion k p j (.invoke _) => some (world, [.user, .completion k p j .returns])
  | .completion _ _ _ .returns => some (world, [])
  | .close k .check =>
    some (world, if (world.ctxs k).state ≠ .open then [] else [.close k .acquire])
  | .close k .body => (world.step (.close k)).map (·, [.close k .release])
  | _ => none

end Frame

structure Process where
  world : World
  owner : Lock → Option ThreadId
  /-- The innermost frame first. -/
  frames : ThreadId → List Frame
  /-- The jobs whose results a pool has taken. -/
  handled : List ℕ

namespace Process

/-- A call that user code makes. -/
inductive UserCall
  | setCallback (p : OpId) (callback : Callback)
  | submit (k : CtxId) (args : List Arg)
  | close (k : CtxId)

inductive Action
  /-- A thread that runs user code. -/
  | start (th : ThreadId)
  /-- A worker runs the handler of job `j`. -/
  | worker (j : ℕ) (returned : Except PyErr Operation.Returned)
  /-- The result of job `j` is handled. -/
  | complete (th : ThreadId) (j : ℕ)
  | call (th : ThreadId) (call : UserCall)
  /-- User code returns. -/
  | returns (th : ThreadId)
  | acquire (th : ThreadId)
  | release (th : ThreadId)
  | run (th : ThreadId) (o : Frame.Outcome)

def setFrames (s : Process) (th : ThreadId) (fs : List Frame) : Process :=
  { s with frames := Function.update s.frames th fs }

def setOwner (s : Process) (l : Lock) (th : Option ThreadId) : Process :=
  { s with owner := Function.update s.owner l th }

/-- The world after a call and the frame of the call. -/
def enter (world : World) : UserCall → Option (World × Frame)
  | .setCallback p callback => some (world, .setCallback p callback .acquire)
  | .submit k args =>
    (world.step (.submit k args)).map (·, .submit k world.calls.length .next)
  | .close k => some (world, .close k .check)

def step (s : Process) : Action → Option Process
  | .start th => if s.frames th = [] then some (s.setFrames th [.user]) else none
  | .worker j returned =>
    (s.world.step (.run j returned)).map fun world => { s with world }
  | .complete th j =>
    s.world.jobs[j]?.bind fun b =>
      match b.pc with
      | .ran _ =>
        -- a pool handles each result once, on a thread of its own
        if s.frames th = [] ∧ j ∉ s.handled then
          some { s.setFrames th [.completion b.ctx b.op j .acquireCtx] with
            handled := j :: s.handled }
        else none
      | _ => none
  | .call th call =>
    match s.frames th with
    | .user :: fs =>
      (enter s.world call).map fun (world, f) => { s.setFrames th (f :: .user :: fs) with world }
    | _ => none
  | .returns th =>
    match s.frames th with
    | .user :: fs => some (s.setFrames th fs)
    | _ => none
  | .acquire th =>
    match s.frames th with
    | f :: fs =>
      (f.acquire s.world).bind fun (l, f') =>
        if s.owner l = none then some ((s.setFrames th (f' :: fs)).setOwner l (some th)) else none
    | [] => none
  | .release th =>
    match s.frames th with
    | f :: fs =>
      f.release.map fun (l, f') => (s.setFrames th (f'.toList ++ fs)).setOwner l none
    | [] => none
  | .run th o =>
    match s.frames th with
    | f :: fs =>
      (f.run s.world o).map fun (world, fs') => { s.setFrames th (fs' ++ fs) with world }
    | [] => none

/-- New Operations and Contexts, free locks, and threads that have not started. -/
structure Init (s : Process) : Prop where
  world : World.Init s.world
  owner : ∀ l, s.owner l = none
  frames : ∀ th, s.frames th = []
  handled : s.handled = []

def system : TransitionSystem Process Action := ⟨Init, step⟩

def wants (s : Process) (th : ThreadId) : Option Lock :=
  (s.frames th).head?.bind fun f => (f.acquire s.world).map Prod.fst

def held (s : Process) (th : ThreadId) : List Lock := (s.frames th).flatMap Frame.held

end Process

end Caio.PythonAio
