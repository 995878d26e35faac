import Caio.Agreement
import Caio.Asyncio.Base

namespace Caio.Asyncio

open Agreement (Request Outcome Value)

/-- Whether completions run on a worker thread; otherwise on the loop's own. -/
def Kind.threaded : Kind → Bool
  | .pythonAio | .threadAio => true
  | .linuxUring | .linuxAio => false

/-- An Operation of the backend. Its claim and its callback are those of `Base`. -/
inductive Operation
  | pythonAio (op : PythonAio.Operation)
  | threadAio (op : ThreadAio.AIOOperation)
  | linuxUring (op : Uring.AIOOperation)
  | linuxAio (op : LinuxAio.AIOOperation)

/-- Where a constructor puts the Operation, its buffer and the view of it. -/
structure Place where
  self : LinuxAio.OpPtr
  buf : Agreement.Allocation
  view : BytesId

namespace Operation

def construct (kind : Kind) (req : Request) (place : Place) : Operation :=
  match kind with
  | .pythonAio => .pythonAio (Agreement.pythonAioOp req)
  | .threadAio => .threadAio (Agreement.threadAioOp req place.buf place.view)
  | .linuxUring => .linuxUring (Agreement.uringOp req place.buf)
  | .linuxAio => .linuxAio (Agreement.linuxAioOp req place.self place.buf)

def claim (inProgress : Bool) : Operation → Operation
  | .pythonAio op => .pythonAio { op with inProgress }
  | .threadAio op => .threadAio { op with inProgress }
  | .linuxUring op => .linuxUring { op with inProgress }
  | .linuxAio op => .linuxAio { op with inProgress }

def complete (req : Request) (out : Outcome) : Operation → Operation
  | .pythonAio op => .pythonAio (op.complete (Agreement.pythonAioReturned req out))
  | .threadAio op =>
    .threadAio (op.complete (Agreement.threadAioRes out).1 (Agreement.threadAioRes out).2)
  | .linuxUring op => .linuxUring (op.complete (Agreement.uringRes out))
  | .linuxAio op => .linuxAio (op.complete (Agreement.linuxAioRes out))

def getValue (memory : UInt64 → List UInt8) : Operation → Except PyErr Value
  | .pythonAio op => Agreement.pythonAioGet op
  | .threadAio op => Agreement.threadAioGet memory op
  | .linuxUring op => Agreement.uringGet memory op
  | .linuxAio op => Agreement.linuxAioGet memory op

end Operation

/-- The exception of `get_value()` before the completion. -/
def inFlightError : PyErr :=
  .runtimeError "get_value() is not available while the operation is in flight"

/-- An Operation with its buffer. -/
structure Entry where
  request : Request
  place : Place
  operation : Operation
  buffer : List UInt8
  /-- What the system has made of the request. -/
  outcome : Option Outcome

namespace Entry

/-- The buffer of a read is zeroed; that of a write is the payload. -/
def new (kind : Kind) (request : Request) (place : Place) : Entry where
  request
  place
  operation := .construct kind request place
  buffer :=
    match request.kind with
    | .read nbytes => List.replicate nbytes 0
    | .write payload => payload
    | .fsync | .fdsync => []
  outcome := none

def transfer (e : Entry) (out : Outcome) : Entry :=
  { e with outcome := some out, buffer := Agreement.bufferOf e.request out }

def settle (e : Entry) : Entry :=
  match e.outcome with
  | none => e
  | some out => { e with operation := e.operation.complete e.request out }

def memory (e : Entry) : UInt64 → List UInt8 := Agreement.lying e.place.buf e.buffer

/-- What `get_value()` gives for the Operation once it has completed with an outcome. -/
def value (kind : Kind) (e : Entry) (out : Outcome) : Except PyErr Value :=
  (((Operation.construct kind e.request e.place).claim true).complete e.request out).getValue
    (Agreement.memory e.request out e.place.buf)

end Entry

structure World where
  base : Base
  entries : OpId → Option Entry
  /-- Worker threads in `_on_done`, after `future.done()` and before `call_soon_threadsafe`. -/
  notifying : List FutureId
  /-- What `return op.get_value()` has returned or raised in a coroutine. -/
  returned : ℕ → Option (Except PyErr Value)
  /-- Whether a future that was done has been resolved. -/
  invalidState : Bool

namespace World

variable (cfg : Config)

def modify (w : World) (p : OpId) (f : Entry → Entry) : World :=
  { w with entries := Function.update w.entries p ((w.entries p).map f) }

def resolve (w : World) (f : FutureId) (x : Future) : World :=
  if (w.base.futures f).done then { w with invalidState := true }
  else { w with base := w.base.setFuture f x }

def onDone (w : World) (f : FutureId) : World :=
  if (w.base.futures f).done then w
  else if cfg.kind.threaded then { w with notifying := f :: w.notifying }
  else w.resolve f .result

/-- The completion of call `i` on the thread that calls its callback. -/
def deliver (w : World) (i : ℕ) (c : Call) : World :=
  -- a worker has stored the outcome before, `process_events` and `io_cancel` do it here
  let w' := if cfg.kind.threaded then w else w.modify c.op Entry.settle
  let w' := { w' with base := w.base.setCall i { c with stage := .delivered } }
  match (w.base.ops c.op).callback with
  | some (.onDone f) => w'.onDone cfg f
  | _ => w'

def getValue (w : World) (p : OpId) : Option (Except PyErr Value) :=
  (w.entries p).map fun e => (e.operation.claim (w.base.ops p).inProgress).getValue e.memory

/-- The coroutine goes on after `await future`. -/
def resume (w : World) (i : ℕ) (c : Call) : World :=
  let w' := { w with base := w.base.leave i c }
  match w.base.futures i with
  | .result => { w' with returned := Function.update w.returned i (w.getValue c.op) }
  | _ => w'

/-- `self.context.cancel(op)` and the way out; a successful `io_cancel` has an outcome. -/
def unwind (w : World) (i : ℕ) (c : Call) (cancelled : Option Outcome) : World :=
  match cancelled with
  | none => { w with base := w.base.unwind cfg i c false }
  | some out =>
    if cfg.kind = .linuxAio ∧ c.stage.outstanding then
      let w' := (w.modify c.op (·.transfer out)).deliver cfg i c
      { w' with base := w'.base.leave i { c with stage := .delivered } }
    else { w with base := w.base.unwind cfg i c false }

def failAll (w : World) (exc : PyErr) : List ℕ → World
  | [] => w
  | i :: is =>
    failAll (if (w.base.futures i).done then w else w.resolve i (.exception exc)) exc is

/-- `_deferred_submit` for an answer of `io_submit`. -/
def deferredSubmit (w : World) : Except PyErr ℕ → World
  | .error exc => { w with base := { w.base with pending := [] } }.failAll exc w.base.live
  | .ok accepted =>
    let taken := ({ w.base with pending := [] } : Base).acceptAll (w.base.claimed.take accepted)
    { w with base := taken }.failAll (.osError "Operation was not submitted")
      (w.base.live.drop accepted)

inductive Action
  /-- A coroutine starts: it constructs an Operation and installs its callback. -/
  | call (p : OpId) (req : Request) (place : Place)
  | acquire (i : ℕ)
  | enter (i : ℕ) (answer : Base.Answer)
  | start (i : ℕ)
  | complete (i : ℕ) (out : Outcome)
  | deliver (i : ℕ)
  /-- A worker thread gives its lambda to `call_soon_threadsafe`. -/
  | callSoon (f : FutureId)
  | runSoon
  | resume (i : ℕ)
  | cancel (i : ℕ)
  | unwind (i : ℕ) (cancelled : Option Outcome)
  | deferredSubmit (answer : Except PyErr ℕ)
  | consumeCancel

def Action.call? : Action → Option ℕ
  | .acquire i | .enter i _ | .start i | .complete i _ | .deliver i | .callSoon i | .resume i
  | .cancel i | .unwind i _ => some i
  | .call .. | .runSoon | .deferredSubmit _ | .consumeCancel => none

def lift (w : World) (base : Option Base) : Option World := base.map fun base => { w with base }

def onCall (w : World) (i : ℕ) (f : Call → Option World) : Option World :=
  w.base.calls[i]?.bind f

def step (w : World) : Action → Option World
  | .call p req place =>
    -- a new object is none of those that other coroutines have constructed
    if ∀ c ∈ w.base.calls, c.op ≠ p then
      { w with entries := Function.update w.entries p (some (.new cfg.kind req place)) }.lift
        (({ w.base with ops := Function.update w.base.ops p {} } : Base).step cfg (.submit p))
    else none
  | .acquire i => w.lift (w.base.step cfg (.acquire i))
  | .enter i answer => w.lift (w.base.step cfg (.enter i answer))
  | .start i => w.lift (w.base.step cfg (.start i))
  | .complete i out => w.onCall i fun c =>
    (w.modify c.op fun e =>
      if cfg.kind.threaded then (e.transfer out).settle else e.transfer out).lift
        (w.base.step cfg (.complete i))
  | .deliver i => w.onCall i fun c =>
    if c.stage = .completed then some (w.deliver cfg i c) else none
  | .callSoon f =>
    if f ∈ w.notifying then
      some { w with
        notifying := w.notifying.erase f
        base := { w.base with soon := w.base.soon ++ [f] } }
    else none
  | .runSoon =>
    match w.base.soon with
    | [] => none
    | f :: fs =>
      let w' := { w with base := { w.base with soon := fs } }
      some (if (w.base.futures f).done then w' else w'.resolve f .result)
  | .resume i => w.onCall i fun c =>
    if c.phase = .awaiting ∧ (w.base.futures i).done then some (w.resume i c) else none
  | .cancel i => w.lift (w.base.step cfg (.cancel i))
  | .unwind i cancelled => w.onCall i fun c =>
    if c.phase = .unwinding then some (w.unwind cfg i c cancelled) else none
  | .deferredSubmit answer =>
    match answer with
    | .error _ => some (w.deferredSubmit answer)
    | .ok accepted =>
      if accepted ≤ w.base.claimed.length then some (w.deferredSubmit answer) else none
  | .consumeCancel => w.lift (w.base.step cfg .consumeCancel)

structure Init (w : World) : Prop where
  base : Base.Init cfg w.base
  notifying : w.notifying = []
  returned : ∀ i, w.returned i = none
  invalidState : w.invalidState = false

def new : World where
  base := .new cfg
  entries := fun _ => none
  notifying := []
  returned := fun _ => none
  invalidState := false

theorem new_init : Init cfg (new cfg) := ⟨Base.new_init cfg, rfl, fun _ => rfl, rfl⟩

def system : TransitionSystem World Action := ⟨Init cfg, step cfg⟩

end World

end Caio.Asyncio
