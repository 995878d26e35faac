import Caio.Lib.ObjectGraph
import Caio.Lib.Transition

/-!
# Read Operations in the object graph

The objects of a program that uses read Operations of thread_aio or linux_aio: which references
`tp_traverse` reports, which ones the kernel and the workers have, and when `AIOOperation_clear`
frees the read buffer. `payload` is a memoryview that does not own it.
-/

namespace Caio.Payload

open Counting ObjectGraph

inductive Backend
  | threadAio
  | linuxAio
deriving DecidableEq, Repr

abbrev ObjId := ℕ

structure Operation where
  callback : Option ObjId := none
  pyBuffer : Option ObjId := none
  /-- `ctx` in thread_aio, `context` in linux_aio. -/
  ctx : Option ObjId := none
  inProgress : Bool := false
  done : Bool := false
  /-- Whether the read buffer has been freed. -/
  freed : Bool := false
  /-- The kernel or a worker has the reference that `submit` took. -/
  inFlight : Bool := false
  /-- The local variable `ctx` of `worker`. -/
  workerCtx : Option ObjId := none
deriving DecidableEq

inductive Obj
  | operation (op : Operation)
  /-- The view over the read buffer of `op`, which is no reference. -/
  | memoryview (op : ObjId)
  | context
  /-- Any other object, with its references. -/
  | other (refs : List ObjId)
deriving DecidableEq

namespace Obj

def traverse : Obj → List ObjId
  | .operation op => op.callback.toList ++ op.pyBuffer.toList ++ op.ctx.toList
  | .memoryview _ | .context => []
  | .other refs => refs

/-- References of a worker apart from the one on the Operation. -/
def workerRefs : Obj → List ObjId
  | .operation op => op.workerCtx.toList
  | _ => []

def isInFlight : Obj → Bool
  | .operation op => op.inFlight
  | _ => false

/-- `tp_clear`; for an Operation `AIOOperation_clear`, which frees the read buffer. -/
def clear : Obj → Obj
  | .operation op =>
    .operation { op with callback := none, pyBuffer := none, ctx := none, freed := true }
  | .other _ => .other []
  | o => o

end Obj

structure State where
  objs : List Obj
  /-- `ob_refcnt` -/
  refcnt : ObjId → ℕ
  /-- References of Python code that runs. -/
  users : ObjId → ℕ

namespace State

variable (s : State)

def external (x : ObjId) : ℕ :=
  s.users x + (s.objs[x]?.any Obj.isInFlight).toNat + inEdges Obj.workerRefs s.objs x

/-- What Python code, the kernel and the workers can get at. -/
def Reachable (x : ObjId) : Prop := Reach Obj.traverse s.objs (fun x => 0 < s.external x) x

def setObj (p : ObjId) (o : Obj) : State := { s with objs := s.objs.set p o }

def acquire (x : ObjId) : State := { s with refcnt := bump s.refcnt x, users := bump s.users x }

def release (x : ObjId) : State := { s with refcnt := drop s.refcnt x, users := drop s.users x }

def incref (x : ObjId) : State := { s with refcnt := bump s.refcnt x }

def decref (x : ObjId) : State := { s with refcnt := drop s.refcnt x }

def xdecref : Option ObjId → State
  | none => s
  | some x => s.decref x

def append (os : List Obj) : State := { s with objs := s.objs ++ os }

def new (o : Obj) : State := (s.append [o]).acquire s.objs.length

/-- `tp_clear` with the `Py_CLEAR`s in it. -/
def tpClear (x : ObjId) (o : Obj) : State :=
  { s.setObj x o.clear with refcnt := fun y => s.refcnt y - o.traverse.count y }

inductive Action
  | newOther
  | newContext
  /-- `Operation.read` -/
  | read
  | incref (x : ObjId)
  | decref (x : ObjId)
  /-- Python code follows a reference of `y`, or stores one there, or deletes one. -/
  | load (y x : ObjId)
  | store (y x : ObjId)
  | delete (y x : ObjId)
  | setCallback (p f : ObjId)
  | payload (p : ObjId)
  /-- `submit` of context `k` accepts `p`. -/
  | submit (k p : ObjId)
  /-- The worker moves `ctx` to a local variable. -/
  | take (p : ObjId)
  /-- Up to the store of `done`. -/
  | complete (p : ObjId)
  | callback (p : ObjId)
  | releaseCtx (p : ObjId)
  | releaseOp (p : ObjId)
  /-- `tp_dealloc` -/
  | dealloc (x : ObjId)
  /-- The collector has found the garbage `S` and calls `tp_clear` on `x`. -/
  | collect (S : List ObjId) (x : ObjId)

def onOperation (p : ObjId) (f : Operation → Option State) : Option State :=
  match s.objs[p]? with
  | some (.operation op) => f op
  | _ => none

def onOther (y : ObjId) (f : List ObjId → Option State) : Option State :=
  match s.objs[y]? with
  | some (.other refs) => f refs
  | _ => none

/-- Steps of Python code need references to the objects they use. -/
def step (b : Backend) : Action → Option State
  | .newOther => some (s.new (.other []))
  | .newContext => some (s.new .context)
  | .read =>
    let n := s.objs.length
    some (((s.append [.operation { pyBuffer := some (n + 1) }, .memoryview n]).acquire n).incref
      (n + 1))
  | .incref x => if 0 < s.users x then some (s.acquire x) else none
  | .decref x => if 0 < s.users x then some (s.release x) else none
  | .load y x => s.onOther y fun refs =>
    if 0 < s.users y ∧ x ∈ refs then some (s.acquire x) else none
  | .store y x => s.onOther y fun refs =>
    if 0 < s.users y ∧ 0 < s.users x then
      some ((s.setObj y (.other (x :: refs))).incref x)
    else none
  | .delete y x => s.onOther y fun refs =>
    if 0 < s.users y ∧ x ∈ refs then some ((s.setObj y (.other (refs.erase x))).decref x) else none
  | .setCallback p f => s.onOperation p fun op =>
    if 0 < s.users p ∧ 0 < s.users f then
      some (((s.setObj p (.operation { op with callback := some f })).incref f).xdecref op.callback)
    else none
  | .payload p => s.onOperation p fun op =>
    if 0 < s.users p then
      if op.inProgress ∧ ¬ op.done then some s  -- RuntimeError
      else
        match op.pyBuffer with
        | none => some s
        | some v => some (s.acquire v)
    else none
  | .submit k p => s.onOperation p fun op =>
    if 0 < s.users p ∧ 0 < s.users k ∧ s.objs[k]? = some .context ∧ op.inProgress = false then
      let op' := { op with inProgress := true, ctx := some k, inFlight := true }
      let t := ((s.setObj p (.operation op')).incref k).incref p
      some (match b with
        | .threadAio => t
        | .linuxAio => t.xdecref op.ctx)
    else none
  | .take p => s.onOperation p fun op =>
    if b = .threadAio ∧ op.inFlight ∧ op.done = false ∧ op.workerCtx = none then
      some (s.setObj p (.operation { op with ctx := none, workerCtx := op.ctx }))
    else none
  | .complete p => s.onOperation p fun op =>
    if op.inFlight ∧ op.done = false then
      match b with
      | .threadAio =>
        if op.workerCtx = none then none
        else some (s.setObj p (.operation { op with done := true }))
      | .linuxAio =>
        some ((s.setObj p (.operation { op with ctx := none, done := true })).xdecref op.ctx)
    else none
  | .callback p => s.onOperation p fun op =>
    if op.inFlight ∧ op.done then op.callback.map s.acquire else none
  | .releaseCtx p => s.onOperation p fun op =>
    if op.inFlight ∧ op.done then
      op.workerCtx.map (s.setObj p (.operation { op with workerCtx := none })).decref
    else none
  | .releaseOp p => s.onOperation p fun op =>
    if op.inFlight ∧ op.done ∧ op.workerCtx = none then
      some ((s.setObj p (.operation { op with inFlight := false })).decref p)
    else none
  | .dealloc x => s.objs[x]?.bind fun o => if s.refcnt x = 0 then some (s.tpClear x o) else none
  | .collect S x => s.objs[x]?.bind fun o =>
    if x ∈ S ∧ Garbage Obj.traverse s.objs s.refcnt S then some (s.tpClear x o) else none

structure Init (s : State) : Prop where
  objs : s.objs = []
  refcnt : ∀ x, s.refcnt x = 0
  users : ∀ x, s.users x = 0

def system (b : Backend) : TransitionSystem State Action := ⟨Init, fun s => s.step b⟩

end State

end Caio.Payload
