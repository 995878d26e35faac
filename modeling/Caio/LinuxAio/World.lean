import Caio.Lib.Transition
import Caio.LinuxAio.ProcessEvents
import Caio.LinuxAio.Submit

/-!
# linux_aio: a program at large

Any number of Contexts and the kernel behind them. A call of `process_events` or `cancel` goes on
step by step, so callbacks may enter any method again and other threads may run in between.
-/

namespace Caio.LinuxAio

def enosys : Int32 := 38

def ioCancelError (errno : Int32) : PyErr :=
  if errno = eagain then .systemErrorText "Specified operation was not canceled [EAGAIN]"
  else if errno = efault then
    .runtimeError "One of the data structures points to invalid data [EFAULT]"
  else if errno = einval then .valueError "The AIO context specified by ctx_id is invalid [EINVAL]"
  else if errno = enosys then
    .notImplementedError "io_cancel() is not implemented on this architecture [ENOSYS]"
  else .systemError errno

/-- The checks of `process_events` before `io_getevents`, and the number of events it asks for. -/
def eventsRequest (maxRequests minRequests : UInt32) : Except PyErr UInt32 :=
  let max := if maxRequests = 0 then evMaxRequestsDefault else maxRequests
  if maxEventsRequest < max then
    .error (.overflowError ("max_requests (" ++ toString max ++
      ") exceeds the maximum allowed (" ++ toString maxEventsRequest ++ ")"))
  else if max < minRequests then
    -- `%d` prints the unsigned numbers as signed ones
    .error (.valueError ("min_requests \"" ++ toString minRequests.toInt32 ++
      "\" must be lower then max_requests \"" ++ toString max.toInt32 ++ "\""))
  else .ok max

inductive Method
  | processEvents
  | cancel
deriving DecidableEq, Repr

/-- Where a call is with the events that it has taken from the kernel; `left` are those after
the current one. -/
inductive CallPc
  /-- Before the stores for the first event. -/
  | next (left : List IoEvent)
  /-- Before `AIOOperation_callback_ref`. -/
  | settled (ev : IoEvent) (left : List IoEvent)
  | calling (callback : Callback) (ev : IoEvent) (left : List IoEvent)
  /-- Before `Py_DECREF(op)`. -/
  | called (exc : Option PyErr) (ev : IoEvent) (left : List IoEvent)
  | returned (value : Except PyErr Int)
deriving DecidableEq

structure Call where
  method : Method
  /-- The events that the kernel gave to the call. -/
  taken : List IoEvent
  pc : CallPc
deriving DecidableEq

def Call.leave (c : Call) : CallPc := .returned (.ok c.taken.length)

/-- After the callback: `process_events` goes on whatever it raised, `cancel` passes it on. -/
def Call.after (c : Call) (exc : Option PyErr) (ev : IoEvent) (left : List IoEvent) : CallPc :=
  match c.method, exc with
  | .processEvents, _ => .next left
  | .cancel, none => .returned (.ok ev.res.toInt)
  | .cancel, some exc => .returned (.error exc)

/-- The first `n` events of Context `k`, and what stays in the kernel. -/
def takeEvents (k : CtxId) : ℕ → List (CtxId × IoEvent) → List IoEvent × List (CtxId × IoEvent)
  | _, [] => ([], [])
  | 0, ring => ([], ring)
  | n + 1, e :: ring =>
    if e.1 = k then
      let r := takeEvents k n ring
      (e.2 :: r.1, r.2)
    else
      let r := takeEvents k (n + 1) ring
      (r.1, e :: r.2)

structure World where
  heap : Heap
  ctxs : CtxId → AIOContext
  /-- References to the Operations that Python code holds. -/
  users : OpPtr → ℕ
  /-- The iocbs in the kernel. -/
  inFlight : List (CtxId × OpPtr)
  /-- Events that wait for `io_getevents`. -/
  ring : List (CtxId × IoEvent)
  calls : List Call
  /-- The Operations that `io_submit` has accepted, one entry for each time. -/
  accepted : List OpPtr
  finalised : List (Method × IoEvent)
  invoked : List (OpPtr × Callback)
  /-- The Operations whose reference of `submit` was given back. -/
  released : List OpPtr

namespace World

def setCall (s : World) (i : ℕ) (c : Call) (pc : CallPc) : World :=
  { s with calls := s.calls.set i { c with pc } }

def finish (s : World) (method : Method) (value : Except PyErr Int) : World :=
  { s with calls := s.calls ++ [{ method, taken := [], pc := .returned value }] }

inductive Action
  | submit (k : CtxId) (args : List Arg) (answer : Except Int32 ℕ)
  | setCallback (p : OpPtr) (callback : Callback)
  | incref (p : OpPtr)
  | decref (p : OpPtr)
  /-- The kernel finishes an iocb. -/
  | complete (k : CtxId) (p : OpPtr) (res : Int64)
  | cancel (k : CtxId) (p : OpPtr) (answer : Except Int32 Int64)
  /-- `io_getevents` fails or returns `n` events, or as many as there are. -/
  | processEvents (k : CtxId) (maxRequests minRequests : UInt32) (answer : Except Int32 ℕ)
  | settle (i : ℕ)
  | callback (i : ℕ)
  | callbackReturns (i : ℕ) (exc : Option PyErr)
  | release (i : ℕ)

def onCall (s : World) (i : ℕ) (f : Call → Option World) : Option World := s.calls[i]?.bind f

def step (s : World) : Action → Option World
  | .submit k args answer =>
    let r := submit s.heap k (s.ctxs k) args answer
    some { s with
      heap := r.heap
      inFlight := s.inFlight ++ r.accepted.map (k, ·)
      accepted := s.accepted ++ r.accepted }
  | .setCallback p callback =>
    some { s with heap := s.heap.modify p fun op => { op with callback := some callback } }
  | .incref p =>
    if 0 < s.users p then
      some { s with
        heap := s.heap.incref p, users := Function.update s.users p (s.users p + 1) }
    else none
  | .decref p =>
    if 0 < s.users p then
      some { s with
        heap := s.heap.decref p, users := Function.update s.users p (s.users p - 1) }
    else none
  | .complete k p res =>
    if (k, p) ∈ s.inFlight then
      some { s with inFlight := s.inFlight.erase (k, p), ring := s.ring ++ [(k, ⟨p, res⟩)] }
    else none
  | .cancel k p answer =>
    if (s.ctxs k).ctx = 0 then
      some (s.finish .cancel (.error (.runtimeError "self->ctx is NULL")))
    else
      match answer with
      | .error errno => some (s.finish .cancel (.error (ioCancelError errno)))
      | .ok res =>
        if (k, p) ∈ s.inFlight then
          some { s with
            inFlight := s.inFlight.erase (k, p)
            calls := s.calls ++
              [{ method := .cancel, taken := [⟨p, res⟩], pc := .next [⟨p, res⟩] }] }
        else none
  | .processEvents k maxRequests minRequests answer =>
    if (s.ctxs k).ctx = 0 then some (s.finish .processEvents (.error (.runtimeError "")))
    else
      match eventsRequest maxRequests minRequests, answer with
      | .error exc, _ => some (s.finish .processEvents (.error exc))
      | .ok _, .error errno => some (s.finish .processEvents (.error (.systemError errno)))
      | .ok max, .ok n =>
        if n ≤ max.toNat then
          let r := takeEvents k n s.ring
          some { s with
            ring := r.2
            calls := s.calls ++ [{ method := .processEvents, taken := r.1, pc := .next r.1 }] }
        else none
  | .settle i => s.onCall i fun c =>
    match c.pc with
    | .next [] => some (s.setCall i c c.leave)
    | .next (ev :: left) =>
      some { s.setCall i c (.settled ev left) with
        heap := s.heap.settle ev, finalised := s.finalised ++ [(c.method, ev)] }
    | _ => none
  | .callback i => s.onCall i fun c =>
    match c.pc with
    | .settled ev left =>
      match (s.heap.ops ev.data).callback with
      | none => some (s.setCall i c (.called none ev left))
      | some callback =>
        some { s.setCall i c (.calling callback ev left) with
          invoked := s.invoked ++ [(ev.data, callback)] }
    | _ => none
  | .callbackReturns i exc => s.onCall i fun c =>
    match c.pc with
    | .calling _ ev left => some (s.setCall i c (.called exc ev left))
    | _ => none
  | .release i => s.onCall i fun c =>
    match c.pc with
    | .called exc ev left =>
      some { s.setCall i c (c.after exc ev left) with
        heap := s.heap.decref ev.data, released := s.released ++ [ev.data] }
    | _ => none

/-- New Operations, and nothing in the kernel. -/
structure Init (s : World) : Prop where
  inProgress : ∀ p, (s.heap.ops p).inProgress = false
  refcnt : ∀ p, (s.heap.ops p).refcnt = s.users p
  inFlight : s.inFlight = []
  ring : s.ring = []
  calls : s.calls = []
  accepted : s.accepted = []
  finalised : s.finalised = []
  invoked : s.invoked = []
  released : s.released = []

def system : TransitionSystem World Action := ⟨Init, step⟩

end World

end Caio.LinuxAio
