import Caio.Lib.Transition
import Caio.Uring.Batch

/-!
# linux_uring: Contexts, Operations and the kernel

Python code calling the methods of any number of Contexts on any number of
Operations. A call is one action; the kernel acts between calls and inside their
system calls. A callback's own calls are the actions before the end of its turn.
-/

namespace Caio.Uring

def evMaxRequestsDefault : UInt32 := 512

def eintr : Int32 := 4

structure Context where
  uringFd : Int32
  sqpoll : Bool
  sq : SqRing
  cq : CqRing
  /-- Kernel side: requests taken from the ring and not completed yet. -/
  inKernel : List Sqe := []
  /-- Kernel side: CQEs that found the completion ring full. -/
  backlog : List Cqe := []

namespace Context

/-- No request anywhere, as after `io_uring_setup` and the mappings. -/
def Empty (k : Context) : Prop :=
  k.sq.head = k.sq.tail ∧ k.cq.head = k.cq.tail ∧ k.inKernel = [] ∧ k.backlog = []

instance (k : Context) : Decidable k.Empty := inferInstanceAs (Decidable (_ ∧ _ ∧ _ ∧ _))

/-- The kernel posts a CQE: into the ring if there is room, else into the backlog; while the
backlog is not empty it may also go there `late`. -/
def post (k : Context) (e : Cqe) (late : Bool) : Context :=
  if k.cq.Full ∨ late ∧ k.backlog ≠ [] then { k with backlog := k.backlog ++ [e] }
  else { k with cq := k.cq.post e }

/-- Backlog entries move to the ring while there is room. -/
def refill : CqRing → List Cqe → CqRing × List Cqe
  | r, [] => (r, [])
  | r, e :: es => if r.Full then (r, e :: es) else refill (r.post e) es

/-- What `IORING_ENTER_GETEVENTS` does to the backlog. -/
def moveBacklog (k : Context) : Context :=
  let r := refill k.cq k.backlog
  { k with cq := r.1, backlog := r.2 }

/-- The `user_data` of every SQE, in-kernel request and unconsumed CQE. -/
def carried (k : Context) : List OpPtr :=
  (k.sq.queue k.sq.tail).map Sqe.userData ++ k.inKernel.map Sqe.userData ++
    k.cq.queue.map Cqe.userData ++ k.backlog.map Cqe.userData

def requests (k : Context) : List OpPtr := k.carried.filter isOperation

end Context

inductive KernelStep
  /-- takes the oldest published SQE -/
  | consume
  /-- stores a part of what a read request asked for -/
  | transfer (i : ℕ) (data : List UInt8)
  | complete (i : ℕ) (res : Int32) (late : Bool)

/-- A system call: what the kernel does meanwhile, and the return value or `errno`. -/
structure Syscall where
  kernel : List KernelStep
  ret : Except Int32 ℕ

/-- A round of the wait loop of `process_events`: its `io_uring_enter`, what the kernel does after
it, whether the deadline has passed, and its `poll`. -/
structure Turn where
  enter : Syscall
  after : List KernelStep
  expired : Bool
  poll : Syscall

structure World where
  heap : Heap
  ctxs : CtxId → Context
  /-- The content of every bytes object. -/
  bytes : BytesId → List UInt8
  allocated : List BytesId
  /-- Bytes objects that Python code has created itself. -/
  own : List BytesId
  /-- Completions whose turn in a callback loop has not ended. -/
  deliveries : List (OpPtr × Int32)
  /-- References held by Python code. -/
  userRefs : OpPtr → ℕ
  userCtxRefs : CtxId → ℕ
  /-- Bytes objects that `payload` and `get_value()` have returned, with their content then. -/
  given : List (BytesId × List UInt8)

/-- An argument of `Context.submit`. -/
inductive Arg
  | operation (p : OpPtr)
  | other
deriving DecidableEq, Repr

/-! ## Deallocation -/

def Heap.dealloc (h : Heap) (p : OpPtr) : Heap :=
  (h.xdecrefCtx (h.ops p).context).modify p fun op =>
    { op with callback := none, context := none, pyBuffer := none }

def Heap.release (h : Heap) (p : OpPtr) : Heap :=
  if (h.ops p).refcnt = 1 then (h.decref p).dealloc p else h.decref p

namespace World

def setCtx (s : World) (c : CtxId) (k : Context) : World :=
  { s with ctxs := Function.update s.ctxs c k }

@[simp] theorem setCtx_ctxs_self (s : World) (c : CtxId) (k : Context) :
    (s.setCtx c k).ctxs c = k := Function.update_self ..

theorem setCtx_ctxs_ne (s : World) {c d : CtxId} (k : Context) (hne : d ≠ c) :
    (s.setCtx c k).ctxs d = s.ctxs d := Function.update_of_ne hne ..

/-! ## The kernel -/

/-- The kernel works on a ring as long as its file descriptor is open. -/
def kernelStep (s : World) (c : CtxId) (a : KernelStep) : Option World :=
  let k := s.ctxs c
  if s.heap.ctxRefs c = 0 then none
  else
    match a with
    | .consume => k.sq.consume.map fun (e, sq) =>
      s.setCtx c { k with sq, inKernel := k.inKernel ++ [e] }
    | .transfer i data =>
      match k.inKernel[i]? with
      | none => none
      | some e =>
        if e.opcode = .read ∧ data.length ≤ e.len.toNat then
          let old := s.bytes e.addr
          some { s with bytes := Function.update s.bytes e.addr (data ++ old.drop data.length) }
        else none
    | .complete i res late =>
      match k.inKernel[i]? with
      | none => none
      | some e =>
        some (s.setCtx c
          (({ k with inKernel := k.inKernel.eraseIdx i } : Context).post ⟨e.userData, res⟩ late))

def kernelRun (s : World) (c : CtxId) : List KernelStep → Option World
  | [] => some s
  | a :: as => (s.kernelStep c a).bind fun t => kernelRun t c as

def getevents (s : World) (c : CtxId) (call : Syscall) : Option World :=
  (s.kernelRun c call.kernel).map fun t => t.setCtx c (t.ctxs c).moveBacklog

/-! ## Calls -/

/-- `uring_drain_cq` with its caller's `return`; a negative count is `return NULL`. -/
def drain (s : World) (c : CtxId) (max : UInt32) : World × Except PyErr ℕ :=
  let k := s.ctxs c
  let r := drainCq s.heap k.cq max
  let count := r.2.2.count.toInt32
  ({ s.setCtx c { k with cq := r.2.1 } with
      heap := r.1
      deliveries := s.deliveries ++ r.2.2.batch },
    if count < 0 then .error .noException else .ok count.toInt.toNat)

/-- The Operations among the arguments of `submit`. -/
def operations (args : List Arg) : List OpPtr :=
  args.filterMap fun
    | .operation p => some p
    | .other => none

def submitOps (s : World) (c : CtxId) (ops : List OpPtr) : World × Except PyErr ℕ :=
  let r := Uring.submit c (s.ctxs c).sq s.heap ops
  ({ s.setCtx c { s.ctxs c with sq := r.1 } with heap := r.2.1 }, r.2.2)

def submit (s : World) (c : CtxId) (args : List Arg) : World × Except PyErr ℕ :=
  if (s.ctxs c).uringFd < 0 then (s, .error (.runtimeError "context not initialized"))
  else if args = [] then (s, .ok 0)
  else
    match args.findIdx? (· = .other) with
    | some i =>
      (s, .error (.typeError ("argument " ++ toString i ++ " is not an Operation")))
    | none => s.submitOps c (operations args)

/-- `AIOContext_cancel`; what its `io_uring_enter` makes the kernel do are kernel steps. -/
def cancel (s : World) (c : CtxId) (p : OpPtr) : World × Except PyErr ℕ :=
  match cancelStage (s.ctxs c).sq p with
  | .error e => (s, .error e)
  | .ok sq => (s.setCtx c { s.ctxs c with sq }, .ok 0)

/-- The loop of `AIOContext_flush` over `io_uring_enter`; each round needs an answer of the
kernel. -/
def enterAll (c : CtxId) : List Syscall → UInt32 → World → Option (World × Except PyErr Unit)
  | [], remaining, s => if remaining = 0 then some (s, .ok ()) else none
  | call :: calls, remaining, s =>
    if remaining = 0 then some (s, .ok ())
    else
      (s.kernelRun c call.kernel).bind fun s =>
        match call.ret with
        | .error errno => some (s, .error (.systemError errno))
        | .ok ret => enterAll c calls (remaining - UInt32.ofNat ret) s

def flush (s : World) (c : CtxId) (needWakeup : Bool) (calls : List Syscall) :
    Option (World × Except PyErr ℕ) :=
  let k := s.ctxs c
  if k.uringFd < 0 then some (s, .error (.runtimeError "context not initialized"))
  else if k.sqpoll then
    -- SQPOLL: the kernel thread takes the SQEs itself, and is only woken
    if needWakeup then
      match calls with
      | [] => none
      | call :: _ =>
        (s.kernelRun c call.kernel).map fun s =>
          match call.ret with
          | .error errno => (s, .error (.systemError errno))
          | .ok _ => s.drain c 0xFFFFFFFF
    else some (s.drain c 0xFFFFFFFF)
  else
    -- both counters are free running, so the difference survives their wrap
    let toSubmit := k.sq.tail - k.sq.head
    if toSubmit = 0 then some (s, .ok 0)
    else
      (enterAll c calls toSubmit s).map fun
        | (s, .error e) => (s, .error e)
        | (s, .ok ()) => s.drain c 0xFFFFFFFF

/-- How a round of the wait loop ends. -/
inductive Round
  | again
  | stop (errno : Option Int32)

def Ready (s : World) (c : CtxId) (minRequests : UInt32) : Prop :=
  minRequests ≤ (s.ctxs c).cq.tail - (s.ctxs c).cq.head

instance (s : World) (c : CtxId) (minRequests : UInt32) : Decidable (s.Ready c minRequests) :=
  inferInstanceAs (Decidable (_ ≤ _))

/-- A round of the wait loop after its first look at the ring. The eventfd and the clock are seen
through `poll` and `expired`. -/
def waitRound (s : World) (c : CtxId) (minRequests : UInt32) (hasDeadline : Bool) (turn : Turn) :
    Option (World × Round) :=
  (s.getevents c turn.enter).bind fun s =>
  (s.kernelRun c turn.after).bind fun s =>
    match turn.enter.ret with
    -- EINTR is no failure: the loop goes on as after a success
    | .error errno => if errno ≠ eintr then some (s, .stop (some errno)) else pollRound s
    | .ok _ => pollRound s
where
  pollRound (s : World) : Option (World × Round) :=
    if s.Ready c minRequests then some (s, .stop none)
    else if hasDeadline ∧ turn.expired then some (s, .stop none)
    else
      (s.kernelRun c turn.poll.kernel).map fun s =>
        match turn.poll.ret with
        | .error errno => (s, if errno ≠ eintr then .stop (some errno) else .again)
        | .ok _ => (s, .again)

/-- The wait loop of `AIOContext_process_events`, with the errno that ends it, if any. -/
def waitLoop (c : CtxId) (minRequests : UInt32) (hasDeadline : Bool) :
    List Turn → World → Option (World × Option Int32)
  | [], s => if s.Ready c minRequests then some (s, none) else none
  | turn :: turns, s =>
    if s.Ready c minRequests then some (s, none)
    else
      (s.waitRound c minRequests hasDeadline turn).bind fun
        | (s, .stop errno) => some (s, errno)
        | (s, .again) => waitLoop c minRequests hasDeadline turns s

def processEvents (s : World) (c : CtxId) (maxRequests minRequests : UInt32) (tvSec : Int32)
    (turns : List Turn) : Option (World × Except PyErr ℕ) :=
  let max := if maxRequests = 0 then evMaxRequestsDefault else maxRequests
  if max < minRequests then
    some (s, .error (.valueError ("min_requests (" ++ toString minRequests ++
      ") must be <= max_requests (" ++ toString max ++ ")")))
  else if 0 < minRequests ∧ tvSec = 0 then
    match turns with
    | [] => none
    | turn :: _ =>
      (s.getevents c turn.enter).bind fun s =>
      (s.kernelRun c turn.after).map fun s =>
        match turn.enter.ret with
        | .error errno => if errno ≠ eintr then (s, .error (.systemError errno)) else s.drain c max
        | .ok _ => s.drain c max
  else if 0 < minRequests then
    (waitLoop c minRequests (0 < tvSec) turns s).map fun
      | (s, some errno) => (s, .error (.systemError errno))
      | (s, none) => s.drain c max
  else some (s.drain c max)

def give (s : World) (b : BytesId) : World := { s with given := s.given ++ [(b, s.bytes b)] }

def payload (s : World) (p : OpPtr) : World × Except PyErr AIOOperation.Value :=
  match (s.heap.ops p).payload with
  | .ok (.bytes b) => (s.give b, .ok (.bytes b))
  | r => (s, r)

def allocate (s : World) (b : BytesId) (content : List UInt8) : World :=
  { s with bytes := Function.update s.bytes b content, allocated := b :: s.allocated }

/-- `Operation.get_value()`; a partial read is returned as the object `new`. -/
def getValue (s : World) (p : OpPtr) (new : BytesId) : World × Except PyErr AIOOperation.Value :=
  match (s.heap.ops p).getValue s.bytes with
  | .ok (.bytes b) => (s.give b, .ok (.bytes b))
  | .ok (.newBytes content) => ((s.allocate new content).give new, .ok (.bytes new))
  | r => (s, r)

/-! ## The system -/

inductive Action
  | newRead (p : OpPtr) (nbytes : ℕ) (fileno : UInt32) (offset : UInt64) (pyBuffer : BytesId)
  | newWrite (p : OpPtr) (payloadBytes : BytesId) (fileno : UInt32) (offset : UInt64)
  | newFsync (p : OpPtr) (fileno : UInt32)
  | newFdsync (p : OpPtr) (fileno : UInt32)
  | newBytes (b : BytesId) (content : List UInt8)
  | newContext (c : CtxId) (k : Context)
  | incref (p : OpPtr)
  | decref (p : OpPtr)
  | increfCtx (c : CtxId)
  | decrefCtx (c : CtxId)
  | setCallback (p : OpPtr) (callback : Callback)
  | payload (p : OpPtr)
  | getValue (p : OpPtr) (new : BytesId)
  | submit (c : CtxId) (args : List Arg)
  | cancel (c : CtxId) (p : OpPtr)
  | flush (c : CtxId) (needWakeup : Bool) (calls : List Syscall)
  | processEvents (c : CtxId) (maxRequests minRequests : UInt32) (tvSec : Int32)
      (turns : List Turn)
  /-- the end of a turn of a callback loop of `uring_drain_cq`: `Py_DECREF(op)` -/
  | endTurn (x : OpPtr × Int32)
  | kernel (c : CtxId) (a : KernelStep)

/-- Python code holds the Operation, and may pass it on. -/
def Holds (s : World) : Arg → Prop
  | .operation p => 0 < s.userRefs p
  | .other => True

instance (s : World) : DecidablePred s.Holds
  | .operation _ => inferInstanceAs (Decidable (_ < _))
  | .other => inferInstanceAs (Decidable True)

def newOp (s : World) (p : OpPtr) (op : AIOOperation) : Option World :=
  if p ≠ cancelUserData ∧ (s.heap.ops p).refcnt = 0 then
    some { s with
      heap := s.heap.modify p fun _ => op
      userRefs := Function.update s.userRefs p 1 }
  else none

def step (s : World) : Action → Option World
  | .newRead p nbytes fileno offset pyBuffer =>
    if pyBuffer ∈ s.allocated then none
    else (s.allocate pyBuffer (List.replicate nbytes 0)).newOp p
      (.read nbytes fileno offset pyBuffer)
  | .newWrite p payloadBytes fileno offset =>
    if payloadBytes ∈ s.own ∨ payloadBytes ∈ s.given.map Prod.fst then
      s.newOp p (.write payloadBytes (s.bytes payloadBytes).length fileno offset)
    else none
  | .newFsync p fileno => s.newOp p (.fsync fileno)
  | .newFdsync p fileno => s.newOp p (.fdsync fileno)
  | .newBytes b content =>
    if b ∈ s.allocated then none else some { s.allocate b content with own := b :: s.own }
  | .newContext c k =>
    if s.heap.ctxRefs c = 0 ∧ 0 ≤ k.uringFd ∧ k.Empty then
      some { s.setCtx c k with
        heap := { s.heap with ctxRefs := Function.update s.heap.ctxRefs c 1 }
        userCtxRefs := Function.update s.userCtxRefs c 1 }
    else none
  | .incref p =>
    if 0 < (s.heap.ops p).refcnt then
      some { s with
        heap := s.heap.incref p
        userRefs := Function.update s.userRefs p (s.userRefs p + 1) }
    else none
  | .decref p =>
    if 0 < s.userRefs p then
      some { s with
        heap := s.heap.release p
        userRefs := Function.update s.userRefs p (s.userRefs p - 1) }
    else none
  | .increfCtx c =>
    if 0 < s.heap.ctxRefs c then
      some { s with
        heap := s.heap.increfCtx c
        userCtxRefs := Function.update s.userCtxRefs c (s.userCtxRefs c + 1) }
    else none
  | .decrefCtx c =>
    if 0 < s.userCtxRefs c then
      some { s with
        heap := s.heap.xdecrefCtx (some c)
        userCtxRefs := Function.update s.userCtxRefs c (s.userCtxRefs c - 1) }
    else none
  | .setCallback p callback =>
    if 0 < s.userRefs p then
      some { s with heap := s.heap.modify p fun op => op.setCallback callback }
    else none
  | .payload p => if 0 < s.userRefs p then some (s.payload p).1 else none
  | .getValue p new =>
    if 0 < s.userRefs p ∧ new ∉ s.allocated then some (s.getValue p new).1 else none
  | .submit c args =>
    if 0 < s.userCtxRefs c ∧ ∀ a ∈ args, s.Holds a then some (s.submit c args).1 else none
  | .cancel c p =>
    if 0 < s.userCtxRefs c ∧ 0 < s.userRefs p then some (s.cancel c p).1 else none
  | .flush c needWakeup calls =>
    if 0 < s.userCtxRefs c then (s.flush c needWakeup calls).map Prod.fst else none
  | .processEvents c maxRequests minRequests tvSec turns =>
    if 0 < s.userCtxRefs c then
      (s.processEvents c maxRequests minRequests tvSec turns).map Prod.fst
    else none
  | .endTurn x =>
    if x ∈ s.deliveries then
      some { s with heap := s.heap.release x.1, deliveries := s.deliveries.erase x }
    else none
  | .kernel c a => s.kernelStep c a

/-- No object exists yet. -/
structure Init (s : World) : Prop where
  ops : ∀ p, (s.heap.ops p).refcnt = 0 ∧ (s.heap.ops p).inProgress = false ∧
    (s.heap.ops p).done = false ∧ (s.heap.ops p).context = none
  ctxRefs : ∀ c, s.heap.ctxRefs c = 0
  ctxs : ∀ c, (s.ctxs c).Empty
  userRefs : ∀ p, s.userRefs p = 0
  userCtxRefs : ∀ c, s.userCtxRefs c = 0
  deliveries : s.deliveries = []
  allocated : s.allocated = []
  own : s.own = []
  given : s.given = []

def initial : World :=
  { heap := ⟨fun _ => { fileno := 0, opcode := .noop, refcnt := 0 }, fun _ => 0⟩
    ctxs := fun _ =>
      { uringFd := -1, sqpoll := false
        sq := ⟨⟨0, by decide⟩, false, 0, 0, fun _ => 0, fun _ => {}⟩
        cq := ⟨⟨0, by decide⟩, 0, 0, fun _ => ⟨0, 0⟩⟩ }
    bytes := fun _ => [], allocated := [], own := [], deliveries := []
    userRefs := fun _ => 0, userCtxRefs := fun _ => 0, given := [] }

theorem initial_init : Init initial :=
  ⟨fun _ => ⟨rfl, rfl, rfl, rfl⟩, fun _ => rfl, fun _ => ⟨rfl, rfl, rfl, rfl⟩, fun _ => rfl,
    fun _ => rfl, rfl, rfl, rfl, rfl⟩

def system : TransitionSystem World Action where
  init := Init
  step := step

/-! ## A rule for calls -/

theorem kernelRun_invariant {s t : World} {c : CtxId} {P : World → Prop} {as : List KernelStep}
    (hstep : ∀ s a t, P s → s.kernelStep c a = some t → P t) (hs : P s)
    (hrun : s.kernelRun c as = some t) : P t := by
  induction as generalizing s with
  | nil =>
    cases hrun
    exact hs
  | cons a as ih =>
    obtain ⟨u, hu, ht⟩ := Option.bind_eq_some_iff.mp hrun
    exact ih (hstep s a u hs hu) ht

/-- What the pieces of `flush` and `process_events` keep, the whole calls keep. -/
structure Kept (c : CtxId) (P : World → Prop) : Prop where
  kernel : ∀ {s t : World} {a : KernelStep}, P s → s.kernelStep c a = some t → P t
  backlog : ∀ {s : World}, P s → P (s.setCtx c (s.ctxs c).moveBacklog)
  drain : ∀ {s : World} (max : UInt32), P s → P (s.drain c max).1

namespace Kept

variable {c : CtxId} {P : World → Prop} {s t : World}

theorem kernelRun (h : Kept c P) (hs : P s) {as : List KernelStep}
    (hrun : s.kernelRun c as = some t) : P t :=
  kernelRun_invariant (fun _ _ _ => h.kernel) hs hrun

theorem getevents (h : Kept c P) (hs : P s) {call : Syscall}
    (hrun : s.getevents c call = some t) : P t := by
  obtain ⟨u, hu, rfl⟩ := Option.map_eq_some_iff.mp hrun
  exact h.backlog (h.kernelRun hs hu)

theorem enterAll (h : Kept c P) {calls : List Syscall} {remaining : UInt32}
    {r : Except PyErr Unit} (hs : P s)
    (hrun : World.enterAll c calls remaining s = some (t, r)) : P t := by
  induction calls generalizing s remaining with
  | nil =>
    obtain ⟨-, heq⟩ := Option.ite_none_right_eq_some.mp hrun
    cases heq
    exact hs
  | cons call calls ih =>
    unfold World.enterAll at hrun
    split_ifs at hrun
    · cases hrun
      exact hs
    · obtain ⟨u, hu, hrun⟩ := Option.bind_eq_some_iff.mp hrun
      have hu := h.kernelRun hs hu
      split at hrun
      · cases hrun
        exact hu
      · exact ih hu hrun

theorem flush (h : Kept c P) {needWakeup : Bool} {calls : List Syscall} {r : Except PyErr ℕ}
    (hs : P s) (hrun : s.flush c needWakeup calls = some (t, r)) : P t := by
  have hdrain : ∀ {u : World} {max : UInt32}, P u → u.drain c max = (t, r) → P t := by
    intro u max hu heq
    have := h.drain max hu
    rwa [heq] at this
  unfold World.flush at hrun
  simp only at hrun
  split_ifs at hrun
  · cases hrun
    exact hs
  · split at hrun
    · cases hrun
    · obtain ⟨u, hu, hrun⟩ := Option.map_eq_some_iff.mp hrun
      have hu := h.kernelRun hs hu
      split at hrun
      · cases hrun
        exact hu
      · exact hdrain hu hrun
  · exact hdrain hs (Option.some.inj hrun)
  · cases hrun
    exact hs
  · obtain ⟨⟨u, e⟩, hu, hrun⟩ := Option.map_eq_some_iff.mp hrun
    have hP := h.enterAll hs hu
    cases e with
    | error e =>
      cases hrun
      exact hP
    | ok _ => exact hdrain hP hrun

theorem waitRound (h : Kept c P) {minRequests : UInt32} {hasDeadline : Bool} {turn : Turn}
    {r : Round} (hs : P s)
    (hrun : s.waitRound c minRequests hasDeadline turn = some (t, r)) : P t := by
  obtain ⟨u, hu, hrun⟩ := Option.bind_eq_some_iff.mp hrun
  obtain ⟨v, hv, hrun⟩ := Option.bind_eq_some_iff.mp hrun
  have hv := h.kernelRun (h.getevents hs hu) hv
  have hpoll : ∀ {r : Round},
      World.waitRound.pollRound c minRequests hasDeadline turn v = some (t, r) → P t := by
    intro r hrun
    unfold World.waitRound.pollRound at hrun
    split_ifs at hrun
    · cases hrun
      exact hv
    · cases hrun
      exact hv
    · obtain ⟨w, hw, hrun⟩ := Option.map_eq_some_iff.mp hrun
      have hw := h.kernelRun hv hw
      split at hrun <;> cases hrun <;> exact hw
  split at hrun
  · split_ifs at hrun
    · cases hrun
      exact hv
    · exact hpoll hrun
  · exact hpoll hrun

theorem waitLoop (h : Kept c P) {minRequests : UInt32} {hasDeadline : Bool} {turns : List Turn}
    {e : Option Int32} (hs : P s)
    (hrun : World.waitLoop c minRequests hasDeadline turns s = some (t, e)) : P t := by
  induction turns generalizing s with
  | nil =>
    obtain ⟨-, heq⟩ := Option.ite_none_right_eq_some.mp hrun
    cases heq
    exact hs
  | cons turn turns ih =>
    unfold World.waitLoop at hrun
    split_ifs at hrun
    · cases hrun
      exact hs
    · obtain ⟨⟨u, r⟩, hu, hrun⟩ := Option.bind_eq_some_iff.mp hrun
      have hP := h.waitRound hs hu
      cases r with
      | stop errno =>
        cases hrun
        exact hP
      | again => exact ih hP hrun

theorem processEvents (h : Kept c P) {maxRequests minRequests : UInt32} {tvSec : Int32}
    {turns : List Turn} {r : Except PyErr ℕ} (hs : P s)
    (hrun : s.processEvents c maxRequests minRequests tvSec turns = some (t, r)) : P t := by
  have hdrain : ∀ {u : World} {max : UInt32}, P u → u.drain c max = (t, r) → P t := by
    intro u max hu heq
    have := h.drain max hu
    rwa [heq] at this
  unfold World.processEvents at hrun
  simp only at hrun
  generalize (if maxRequests = 0 then evMaxRequestsDefault else maxRequests) = max at hrun
  split_ifs at hrun
  · cases hrun
    exact hs
  · split at hrun
    · cases hrun
    · obtain ⟨u, hu, hrun⟩ := Option.bind_eq_some_iff.mp hrun
      obtain ⟨v, hv, hrun⟩ := Option.map_eq_some_iff.mp hrun
      have hv := h.kernelRun (h.getevents hs hu) hv
      split at hrun
      · split_ifs at hrun
        · cases hrun
          exact hv
        · exact hdrain hv hrun
      · exact hdrain hv hrun
  · obtain ⟨⟨u, e⟩, hu, hrun⟩ := Option.map_eq_some_iff.mp hrun
    have hP := h.waitLoop hs hu
    cases e with
    | some errno =>
      cases hrun
      exact hP
    | none => exact hdrain hP hrun
  · exact hdrain hs (Option.some.inj hrun)

end Kept

end World

end Caio.Uring
