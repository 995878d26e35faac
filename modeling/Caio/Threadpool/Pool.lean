import Caio.Lib.CircularQueue
import Caio.Lib.Transition
import Caio.ThreadAio.Submit

/-!
# threadpool: the pool and its threads

`threadpool.c` with its mutex and its condition variable: workers in `threadpool_thread`, and calls
of `threadpool_add` and `threadpool_destroy` from any threads, also from the tasks themselves. What
runs between two operations on the mutex is one step.
-/

namespace Caio.Threadpool

open ThreadAio (ThreadpoolError)

/-- `threadpool_shutdown_t` -/
inductive Shutdown
  | immediate
  | graceful
deriving DecidableEq, Repr

inductive ThreadId
  | main (i : ℕ)
  /-- `pool->threads[w]` -/
  | worker (w : ℕ)
deriving DecidableEq

/-- Where a worker is in `threadpool_thread`. -/
inductive WorkerPc (α : Type)
  /-- Before `pthread_mutex_lock`. -/
  | lock
  /-- With the lock, before the test of the inner loop. -/
  | locked
  /-- In `pthread_cond_wait`. -/
  | asleep
  /-- In `pthread_cond_wait`, woken but without the lock. -/
  | awake
  /-- With the lock and a task. -/
  | unlock (task : α)
  | running (task : α)
  /-- With the lock, after `pool->started--`. -/
  | leaving
  | exited
deriving DecidableEq

/-- Where a call of `threadpool_add` or `threadpool_destroy` is. -/
inductive CallPc (α : Type)
  | addLock (task : α)
  | addBody (task : α)
  | addUnlock (err : Option ThreadpoolError)
  | destroyLock (graceful : Bool)
  | destroyBody (graceful : Bool)
  | destroyUnlock
  /-- Before `pthread_join` on `threads[i]`, or after the loop. -/
  | join (i : ℕ) (err : Option ThreadpoolError)
  /-- In `threadpool_free`, before its `pthread_mutex_lock`. -/
  | free
  | returned (err : Option ThreadpoolError)
deriving DecidableEq

structure Call (α : Type) where
  thread : ThreadId
  pc : CallPc α
deriving DecidableEq

inductive Holder
  | worker (w : ℕ)
  | call (i : ℕ)
deriving DecidableEq

/-- `struct threadpool_t`, its threads, and the calls on it. -/
structure Pool (α : Type) where
  queue : CircularQueue α
  shutdown : Option Shutdown
  threadCount : ℕ
  started : ℕ
  /-- Who has `lock`. -/
  owner : Option Holder
  workers : List (WorkerPc α)
  calls : List (Call α)
  /-- The threads that `threadpool_create` has still to make. -/
  missing : ℕ
  /-- How often the pool has been freed. -/
  freed : ℕ
  /-- The tasks that `threadpool_add` has accepted, and those that each worker has taken and has
  brought to an end. -/
  added : List α
  taken : List (ℕ × α)
  finished : List (ℕ × α)

variable {α : Type}

def WorkerPc.wake : WorkerPc α → WorkerPc α
  | .asleep => .awake
  | pc => pc

def WorkerPc.isRunning : WorkerPc α → Bool
  | .running _ => true
  | _ => false

def CallPc.isReturned : CallPc α → Bool
  | .returned _ => true
  | _ => false

def CallPc.isDestroy : CallPc α → Bool
  | .destroyLock _ | .destroyBody _ | .destroyUnlock | .join _ _ | .free => true
  | _ => false

namespace Pool

def setWorker (s : Pool α) (w : ℕ) (pc : WorkerPc α) : Pool α :=
  { s with workers := s.workers.set w pc }

def setCall (s : Pool α) (i : ℕ) (c : Call α) (pc : CallPc α) : Pool α :=
  { s with calls := s.calls.set i { c with pc } }

def withOwner (s : Pool α) (owner : Option Holder) : Pool α := { s with owner }

def calling (s : Pool α) (th : ThreadId) : Bool :=
  s.calls.any fun c => c.thread = th ∧ c.pc.isReturned = false

/-- Whether a thread may call: a thread of the program at any time, a worker from its task. -/
def mayCall (s : Pool α) (th : ThreadId) : Bool :=
  s.missing = 0 && !s.calling th &&
    match th with
    | .main _ => true
    | .worker w => s.workers[w]?.any WorkerPc.isRunning

/-- `pthread_cond_signal`, which wakes a waiting worker if there is one. -/
def signal (s : Pool α) (woken : Option ℕ) : Option (Pool α) :=
  match woken with
  | some w => s.workers[w]?.bind fun
    | .asleep => some (s.setWorker w .awake)
    | _ => none
  | none => if s.workers.all (fun | .asleep => false | _ => true) then some s else none

def broadcast (s : Pool α) : Pool α := { s with workers := s.workers.map WorkerPc.wake }

/-- From the test of the inner loop to the next operation on the mutex. -/
def turn (s : Pool α) (w : ℕ) : Pool α :=
  match s.shutdown, s.queue.pop with
  | none, none => (s.setWorker w .asleep).withOwner none
  -- both ways out of the loop decrement `started` under the lock
  | some .immediate, _ | some .graceful, none =>
    { s.setWorker w .leaving with started := s.started - 1 }
  | _, some (task, queue) =>
    { s.setWorker w (.unlock task) with queue, taken := s.taken ++ [(w, task)] }

/-- The next step of a worker; a task that is in a call cannot return yet. -/
def stepWorker (s : Pool α) (w : ℕ) : WorkerPc α → Option (Pool α)
  | .lock | .awake =>
    if s.owner = none then some ((s.setWorker w .locked).withOwner (some (.worker w))) else none
  | .locked => some (s.turn w)
  | .unlock task => some ((s.setWorker w (.running task)).withOwner none)
  | .running task =>
    if s.calling (.worker w) then none
    else some { s.setWorker w .lock with finished := s.finished ++ [(w, task)] }
  | .leaving => some ((s.setWorker w .exited).withOwner none)
  | .asleep | .exited => none

/-- The statements of `threadpool_add` under the lock. -/
def addBody (s : Pool α) (i : ℕ) (c : Call α) (task : α) (woken : Option ℕ) : Option (Pool α) :=
  match s.queue.push task with
  | none => some (s.setCall i c (.addUnlock (some .queueFull)))
  | some queue =>
    if s.shutdown.isSome then some (s.setCall i c (.addUnlock (some .shutdown)))
    else
      (s.signal woken).map fun s =>
        { s.setCall i c (.addUnlock none) with queue, added := s.added ++ [task] }

/-- The statements of `threadpool_destroy` under the lock. -/
def destroyBody (s : Pool α) (i : ℕ) (c : Call α) (graceful : Bool) : Pool α :=
  if s.shutdown.isSome then
    -- this way out does not unlock
    s.setCall i c (.returned (some .shutdown))
  else
    { s.broadcast.setCall i c .destroyUnlock with
      shutdown := some (if graceful then .graceful else .immediate) }

/-- The loop over `pthread_join`, which waits for a worker or fails with `EDEADLK` on the calling
thread, and the way from it to `threadpool_free`. -/
def join (s : Pool α) (i : ℕ) (c : Call α) (w : ℕ) (err : Option ThreadpoolError) :
    Option (Pool α) :=
  if w < s.threadCount then
    -- pthread_join on the calling thread: EDEADLK, and the loop goes on
    if c.thread = .worker w then some (s.setCall i c (.join (w + 1) (some .threadFailure)))
    else
      s.workers[w]?.bind fun
        | .exited => some (s.setCall i c (.join (w + 1) err))
        | _ => none
  else
    match err with
    | some err => some (s.setCall i c (.returned (some err)))
    | none =>
      some (s.setCall i c (if 0 < s.started then .returned none else .free))

/-- The next step of a call; `woken` is the worker that a signal wakes. -/
def stepCall (s : Pool α) (i : ℕ) (c : Call α) (woken : Option ℕ) : Option (Pool α) :=
  match c.pc with
  | .addLock task =>
    if s.owner = none then some ((s.setCall i c (.addBody task)).withOwner (some (.call i)))
    else none
  | .addBody task => s.addBody i c task woken
  | .addUnlock err => some ((s.setCall i c (.returned err)).withOwner none)
  | .destroyLock graceful =>
    if s.owner = none then
      some ((s.setCall i c (.destroyBody graceful)).withOwner (some (.call i)))
    else none
  | .destroyBody graceful => some (s.destroyBody i c graceful)
  | .destroyUnlock => some ((s.setCall i c (.join 0 none)).withOwner none)
  | .join w err => s.join i c w err
  | .free =>
    if s.owner = none then
      some { s.setCall i c (.returned none) with freed := s.freed + 1 }
    else none
  | .returned _ => none

inductive Action (α : Type)
  /-- `threadpool_create` starts a thread, or fails to and destroys the pool. -/
  | create (ok : Bool)
  | add (th : ThreadId) (task : α)
  | destroy (th : ThreadId) (graceful : Bool)
  /-- A worker wakes up without a signal. -/
  | spurious (w : ℕ)
  | worker (w : ℕ)
  | call (i : ℕ) (woken : Option ℕ)

/-- Whether the code goes on by itself; the rest is up to its callers and to the system. -/
def Action.internal : Action α → Bool
  | .worker _ | .call _ _ => true
  | _ => false

def newCall (s : Pool α) (th : ThreadId) (pc : CallPc α) : Pool α :=
  { s with calls := s.calls ++ [⟨th, pc⟩] }

def step (s : Pool α) : Action α → Option (Pool α)
  | .create ok =>
    match s.missing with
    | 0 => none
    | n + 1 =>
      if ok then
        some { s with
          workers := s.workers ++ [.lock], threadCount := s.threadCount + 1
          started := s.started + 1, missing := n }
      else some ({ s with missing := 0 }.newCall (.main 0) (.destroyLock false))
  | .add th task => if s.mayCall th then some (s.newCall th (.addLock task)) else none
  | .destroy th graceful =>
    if s.mayCall th then some (s.newCall th (.destroyLock graceful)) else none
  | .spurious w => s.workers[w]?.bind fun
    | .asleep => some (s.setWorker w .awake)
    | _ => none
  | .worker w => s.workers[w]?.bind (s.stepWorker w)
  | .call i woken => s.calls[i]?.bind fun c => s.stepCall i c woken

/-- `threadpool_create` before the loop that starts the workers. -/
def create (slots : ℕ → α) (threadCount : ℕ) {queueSize : ℕ} (h : 0 < queueSize) : Pool α where
  queue := .empty slots queueSize h
  shutdown := none
  threadCount := 0
  started := 0
  owner := none
  workers := []
  calls := []
  missing := threadCount
  freed := 0
  added := []
  taken := []
  finished := []

/-- The counts have passed the checks of `threadpool_create`. -/
def Init (s : Pool α) : Prop :=
  ∃ (slots : ℕ → α) (threadCount queueSize : ℕ) (h : 0 < queueSize), 0 < threadCount ∧
    s = create slots threadCount h

def system : TransitionSystem (Pool α) (Action α) := ⟨Init, step⟩

def small : Pool ℕ := create (fun _ => 0) 1 Nat.one_pos

theorem small_init : Init small := ⟨fun _ => 0, 1, 1, Nat.one_pos, Nat.one_pos, rfl⟩

end Pool

end Caio.Threadpool
