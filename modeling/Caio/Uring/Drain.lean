import Caio.Lib.Transition
import Caio.Uring.Complete

/-!
# linux_uring: draining with re-entrant callbacks

`uring_drain_cq` step by step. Its callbacks may call `process_events()` or
`flush()` again, so the calls in progress form a stack; the kernel posts CQEs at
any moment, also while a batch is being scanned.
-/

namespace Caio.Uring

/-- Where a call of `uring_drain_cq` is: in the scan, at `i` in the callback loop, or inside the
callback of `ops[i]`. -/
inductive Phase
  | scanning
  | delivering (i : ℕ)
  | calling (i : ℕ)
deriving DecidableEq, Repr

/-- One call of `uring_drain_cq` with its locals. -/
structure Frame where
  max : UInt32
  /-- The snapshot of `cq_tail`. -/
  tail : UInt32
  scan : Scan
  phase : Phase := .scanning
  /-- The CQEs this call has consumed. -/
  mine : List Cqe := []
  /-- How many callbacks this call has run. -/
  called : ℕ := 0

/-- A call that has returned. -/
structure Finished where
  max : UInt32
  mine : List Cqe
  called : ℕ
  ret : Int32

/-- A turn of the callback loop: the callback that was found set, if any, and its argument. -/
structure Delivery where
  op : OpPtr
  res : Int32
  callback : Option Callback

structure Drain where
  cq : CqRing
  heap : Heap
  /-- Calls in progress, innermost first. -/
  stack : List Frame
  /-- References held by Python code. -/
  userRefs : OpPtr → ℕ
  /-- Histories: CQEs in the ring at the start or posted since, CQEs consumed (with the Operation
  as it was), turns of callback loops, Operations whose submit-time reference was dropped, calls
  that returned. -/
  posted : List Cqe
  taken : List (Cqe × AIOOperation)
  delivered : List Delivery
  dropped : List OpPtr
  finished : List Finished

namespace Frame

/-- Completions of the batch whose turn in the callback loop is still to come. -/
def todo (f : Frame) : List (OpPtr × Int32) :=
  match f.phase with
  | .scanning => f.scan.batch
  | .delivering i => f.scan.batch.drop i
  | .calling i => f.scan.batch.drop (i + 1)

/-- Completions of the batch whose reference is still to be dropped. -/
def owed (f : Frame) : List (OpPtr × Int32) :=
  match f.phase with
  | .scanning => f.scan.batch
  | .delivering i => f.scan.batch.drop i
  | .calling i => f.scan.batch.drop i

end Frame

/-- What `uring_drain_cq` stores into an Operation, with the opcode that it goes by. -/
def AIOOperation.outcome (op : AIOOperation) :
    Int32 × Int32 × Int × Option CtxId × Bool × UringOp :=
  (op.result, op.error, op.bufSize, op.context, op.done, op.opcode)

/-- The Operation `before` has got the result `res` of its CQE. -/
structure AIOOperation.Shows (op before : AIOOperation) (res : Int32) : Prop where
  opcode : op.opcode = before.opcode
  result : op.result = res
  failed : res < 0 → op.error = -res ∧ op.bufSize = before.bufSize
  succeeded : 0 ≤ res → op.error = before.error ∧
    op.bufSize = if op.opcode = .read then res.toInt else before.bufSize
  context : op.context = none
  done : op.done = true

theorem complete_shows (op : AIOOperation) (res : Int32) : (op.complete res).Shows op res := by
  refine ⟨rfl, rfl, fun h => ⟨if_pos h, if_pos h⟩, fun h => ?_, rfl, rfl⟩
  have hres : ¬res < 0 := Int32.not_lt.mpr h
  exact ⟨if_neg hres, if_neg hres⟩

theorem AIOOperation.Shows.of_outcome {op op' before : AIOOperation} {res : Int32}
    (h : op.Shows before res) (heq : op'.outcome = op.outcome) : op'.Shows before res := by
  simp only [outcome, Prod.mk.injEq] at heq
  obtain ⟨hresult, herror, hsize, hcontext, hdone, hopcode⟩ := heq
  refine ⟨hopcode.trans h.opcode, hresult.trans h.result, ?_, ?_, hcontext.trans h.context,
    hdone.trans h.done⟩
  · rw [herror, hsize]
    exact h.failed
  · rw [herror, hsize, hopcode]
    exact h.succeeded

/-- A change that completes no Operation and touches none that is complete. -/
structure AIOOperation.Keeps (op op' : AIOOperation) : Prop where
  inFlight : op.inFlight = true → op'.inFlight = true
  outcome : op.done = true → op'.outcome = op.outcome
  claimed : (op.done = true → op.inProgress = true) → op'.done = true → op'.inProgress = true

def Heap.Keeps (h h' : Heap) : Prop := ∀ p, (h.ops p).Keeps (h'.ops p)

namespace Heap.Keeps

theorem refl (h : Heap) : h.Keeps h := fun _ => ⟨id, fun _ => rfl, id⟩

theorem modify (h : Heap) (p : OpPtr) (f : AIOOperation → AIOOperation)
    (hf : (h.ops p).Keeps (f (h.ops p))) : h.Keeps (h.modify p f) := by
  intro q
  by_cases hq : q = p
  · subst hq
    rwa [modify_ops_self]
  · rw [modify_ops_ne _ _ hq]
    exact ⟨id, fun _ => rfl, id⟩

theorem incref (h : Heap) (p : OpPtr) : h.Keeps (h.incref p) :=
  modify h p _ ⟨id, fun _ => rfl, id⟩

theorem decref (h : Heap) (p : OpPtr) : h.Keeps (h.decref p) :=
  modify h p _ ⟨id, fun _ => rfl, id⟩

theorem setCallback (h : Heap) (p : OpPtr) (callback : Callback) :
    h.Keeps (h.modify p fun op => op.setCallback callback) :=
  modify h p _ ⟨id, fun _ => rfl, id⟩

theorem take {h : Heap} (self : CtxId) {p : OpPtr} (hp : (h.ops p).inProgress = false)
    (hd : (h.ops p).done = true → (h.ops p).inProgress = true) :
    h.Keeps ((h.setInProgress p true).take self p) := by
  have hdone : (h.ops p).done = false := by
    cases hb : (h.ops p).done
    · rfl
    · rw [hd hb] at hp
      cases hp
  intro q
  by_cases hq : q = p
  · subst hq
    rw [take_ops_self, setInProgress, modify_ops_self]
    refine ⟨?_, ?_, ?_⟩
    · simp [AIOOperation.inFlight, hdone]
    · simp [hdone]
    · simp
  · rw [take_ops_ne _ _ hq, setInProgress, modify_ops_ne _ _ hq]
    exact ⟨id, fun _ => rfl, id⟩

end Heap.Keeps

/-- Callbacks run never exceed the turns taken, turns never exceed the batch. -/
def Frame.Turns (f : Frame) : Prop :=
  match f.phase with
  | .scanning => f.called = 0
  | .delivering i => f.called ≤ i ∧ i ≤ f.scan.batch.length
  | .calling i => f.called ≤ i + 1 ∧ i < f.scan.batch.length

/-- What holds of the locals of a call on a ring of `n` slots. -/
structure Frame.Ok (n : RingSize) (f : Frame) : Prop where
  batch : f.scan.batch = completions f.mine
  count : f.scan.count.toNat = f.scan.batch.length
  max : f.scan.batch.length ≤ f.max.toNat
  size : f.phase = .scanning → f.mine.length + (f.tail - f.scan.head).toNat ≤ 2 ^ n.log
  mine : f.mine.length ≤ 2 ^ n.log
  turns : f.Turns

/-- What holds of a call that has returned. -/
structure Finished.Ok (n : RingSize) (r : Finished) : Prop where
  max : (completions r.mine).length ≤ r.max.toNat
  called : r.called ≤ (completions r.mine).length
  mine : r.mine.length ≤ 2 ^ n.log
  ret : r.ret = (UInt32.ofNat (completions r.mine).length).toInt32

theorem Frame.Ok.scanned {n : RingSize} {f : Frame} (h : f.Ok n) (hf : f.phase = .scanning)
    (hm : f.scan.More f.tail f.max) (heap : Heap) (e : Cqe) :
    ({ f with scan := (scanOne heap f.scan e).2, mine := f.mine ++ [e] } : Frame).Ok n := by
  have hlive := RingBuffer.sub_succ_toNat hm.1
  have hsize := h.size hf
  have hlt : f.scan.count.toNat < f.max.toNat := UInt32.lt_iff_toNat_lt.mp hm.2
  have hmax := f.max.toNat_lt
  have hcount : (scanOne heap f.scan e).2.count.toNat =
      f.scan.count.toNat + (completions [e]).length ∧ (completions [e]).length ≤ 1 := by
    unfold scanOne
    split_ifs with he
    · simp [completions_cons_sentinel _ he]
    · rw [completions_cons_real _ he]
      simp only [UInt32.toNat_add, UInt32.toNat_one, completions_nil, List.length_singleton]
      omega
  have hlen : (scanOne heap f.scan e).2.batch.length =
      f.scan.batch.length + (completions [e]).length := by
    rw [scanOne_batch, List.length_append]
  have hc := h.count
  refine ⟨?_, ?_, ?_, ?_, ?_, ?_⟩
  · simp only [scanOne_batch, h.batch, completions_append]
  · simp only [hcount.1, hlen, h.count]
  · simp only [hlen]
    omega
  · intro _
    simp only [scanOne_head, List.length_append, List.length_singleton]
    omega
  · simp only [List.length_append, List.length_singleton]
    omega
  · simpa only [Turns, hf] using h.turns

theorem Frame.Ok.advance {n : RingSize} {f : Frame} (h : f.Ok n) {phase : Phase} {called : ℕ}
    (hph : phase ≠ .scanning) (ht : ({ f with phase, called } : Frame).Turns) :
    ({ f with phase, called } : Frame).Ok n :=
  ⟨h.batch, h.count, h.max, fun hs => absurd hs hph, h.mine, ht⟩

namespace Drain

/-- Python code runs: no call is in progress, or the innermost one is in a callback. -/
def InPython (s : Drain) : Prop := ∀ f ∈ s.stack.head?, ∃ i, f.phase = .calling i

/-- `cq_head` as the innermost scan sees it. -/
def scanHead (s : Drain) : UInt32 :=
  match s.stack with
  | [] => s.cq.head
  | f :: _ => if f.phase = .scanning then f.scan.head else s.cq.head

def remaining (s : Drain) : List Cqe :=
  RingBuffer.window s.cq.size s.cq.cqes s.scanHead s.cq.tail

inductive Action
  /-- `process_events()` or `flush()` calls `uring_drain_cq`. -/
  | enter (max : UInt32)
  | scan
  | commit
  | deliver
  | callbackReturns (raised : Bool)
  | leave
  | kernelPost (e : Cqe)
  | setCallback (p : OpPtr) (callback : Callback)
  /-- Some Context's `submit` stages the Operation. -/
  | claim (self : CtxId) (p : OpPtr)
  | incref (p : OpPtr)
  | decref (p : OpPtr)

/-- A CQE the kernel may post: a sentinel, or the completion of an Operation in flight that no
other CQE names. -/
def Postable (s : Drain) (e : Cqe) : Prop :=
  e.userData = cancelUserData ∨
    ((s.heap.ops e.userData).inFlight = true ∧ e.userData ∉ (completions s.remaining).map Prod.fst)

instance (s : Drain) (e : Cqe) : Decidable (s.Postable e) := inferInstanceAs (Decidable (_ ∨ _))

/-- The end of a turn of the callback loop: `Py_DECREF(op)`, `i++`. -/
def dropRef (s : Drain) (f : Frame) (fs : List Frame) (i : ℕ) (p : OpPtr) : Drain :=
  { s with
    heap := s.heap.decref p
    stack := { f with phase := .delivering (i + 1) } :: fs
    dropped := s.dropped ++ [p] }

def step (s : Drain) : Action → Option Drain
  | .enter max =>
    let frame : Frame := { max, tail := s.cq.tail, scan := { head := s.cq.head } }
    match s.stack with
    | [] => some { s with stack := [frame] }
    | f :: fs =>
      match f.phase with
      | .calling _ => some { s with stack := frame :: f :: fs }
      | _ => none
  | .scan =>
    match s.stack with
    | f :: fs =>
      if f.phase = .scanning ∧ f.scan.More f.tail f.max then
        let e := s.cq.cqes (s.cq.size.slot f.scan.head)
        let (heap, scan) := scanOne s.heap f.scan e
        some { s with
          heap
          stack := { f with scan, mine := f.mine ++ [e] } :: fs
          taken := s.taken ++ [(e, s.heap.ops e.userData)] }
      else none
    | [] => none
  | .commit =>
    match s.stack with
    | f :: fs =>
      if f.phase = .scanning ∧ ¬f.scan.More f.tail f.max then
        some { s with
          cq := s.cq.commit f.scan.head
          stack := { f with phase := .delivering 0 } :: fs }
      else none
    | [] => none
  | .deliver =>
    match s.stack with
    | f :: fs =>
      match f.phase with
      | .delivering i =>
        match f.scan.batch[i]? with
        | some (p, res) =>
          match (s.heap.ops p).callback with
          | none =>
            some { s.dropRef f fs i p with delivered := s.delivered ++ [⟨p, res, none⟩] }
          | some callback =>
            some { s with
              stack := { f with phase := .calling i, called := f.called + 1 } :: fs
              delivered := s.delivered ++ [⟨p, res, some callback⟩] }
        | none => none
      | _ => none
    | [] => none
  | .callbackReturns _ =>
    -- a raised exception is reported as unraisable; the loop goes on either way
    match s.stack with
    | f :: fs =>
      match f.phase with
      | .calling i => f.scan.batch[i]?.map fun x => s.dropRef f fs i x.1
      | _ => none
    | [] => none
  | .leave =>
    match s.stack with
    | f :: fs =>
      if f.phase = .delivering f.scan.batch.length then
        some { s with
          stack := fs
          finished := s.finished ++ [⟨f.max, f.mine, f.called, f.scan.count.toInt32⟩] }
      else none
    | [] => none
  | .kernelPost e =>
    if ¬s.cq.Full ∧ s.Postable e then
      some { s with cq := s.cq.post e, posted := s.posted ++ [e] }
    else none
  | .setCallback p callback =>
    some { s with heap := s.heap.modify p fun op => op.setCallback callback }
  | .claim self p =>
    if p ≠ cancelUserData ∧ (s.heap.ops p).inProgress = false then
      some { s with heap := (s.heap.setInProgress p true).take self p }
    else none
  | .incref p =>
    some { s with
      heap := s.heap.incref p
      userRefs := Function.update s.userRefs p (s.userRefs p + 1) }
  | .decref p =>
    if 0 < s.userRefs p then
      some { s with
        heap := s.heap.decref p
        userRefs := Function.update s.userRefs p (s.userRefs p - 1) }
    else none

/-- Any ring at any head and tail whose CQEs are sentinels or name distinct Operations in
flight, each of them with one reference held for its submission. -/
structure Init (s : Drain) : Prop where
  room : (s.cq.tail - s.cq.head).toNat ≤ 2 ^ s.cq.size.log
  inFlight : ∀ x ∈ completions s.cq.queue, (s.heap.ops x.1).inFlight = true
  distinct : ((completions s.cq.queue).map Prod.fst).Nodup
  claimed : ∀ p, (s.heap.ops p).done = true → (s.heap.ops p).inProgress = true
  refs : ∀ p, (s.heap.ops p).refcnt = s.userRefs p + (s.heap.ops p).inFlight.toNat
  stack : s.stack = []
  posted : s.posted = s.cq.queue
  taken : s.taken = []
  delivered : s.delivered = []
  dropped : s.dropped = []
  finished : s.finished = []

def system : TransitionSystem Drain Action where
  init := Init
  step := step

def scanned (s : Drain) (f : Frame) (fs : List Frame) : Drain :=
  let e := s.cq.cqes (s.cq.size.slot f.scan.head)
  { s with
    heap := (scanOne s.heap f.scan e).1
    stack := { f with scan := (scanOne s.heap f.scan e).2, mine := f.mine ++ [e] } :: fs
    taken := s.taken ++ [(e, s.heap.ops e.userData)] }

inductive Moves (s : Drain) : Action → Drain → Prop
  | enter {max : UInt32} (h : s.InPython) : Moves s (.enter max)
      { s with stack := { max, tail := s.cq.tail, scan := { head := s.cq.head } } :: s.stack }
  | scan {f : Frame} {fs : List Frame} (hs : s.stack = f :: fs) (hf : f.phase = .scanning)
      (hm : f.scan.More f.tail f.max) : Moves s .scan (s.scanned f fs)
  | commit {f : Frame} {fs : List Frame} (hs : s.stack = f :: fs) (hf : f.phase = .scanning)
      (hm : ¬f.scan.More f.tail f.max) : Moves s .commit
      { s with
        cq := s.cq.commit f.scan.head
        stack := { f with phase := .delivering 0 } :: fs }
  | skip {f : Frame} {fs : List Frame} {i : ℕ} {p : OpPtr} {res : Int32}
      (hs : s.stack = f :: fs) (hf : f.phase = .delivering i)
      (hx : f.scan.batch[i]? = some (p, res)) (hc : (s.heap.ops p).callback = none) :
      Moves s .deliver { s.dropRef f fs i p with delivered := s.delivered ++ [⟨p, res, none⟩] }
  | call {f : Frame} {fs : List Frame} {i : ℕ} {p : OpPtr} {res : Int32} {callback : Callback}
      (hs : s.stack = f :: fs) (hf : f.phase = .delivering i)
      (hx : f.scan.batch[i]? = some (p, res)) (hc : (s.heap.ops p).callback = some callback) :
      Moves s .deliver
      { s with
        stack := { f with phase := .calling i, called := f.called + 1 } :: fs
        delivered := s.delivered ++ [⟨p, res, some callback⟩] }
  | callbackReturns {f : Frame} {fs : List Frame} {i : ℕ} {p : OpPtr} {res : Int32}
      {raised : Bool} (hs : s.stack = f :: fs) (hf : f.phase = .calling i)
      (hx : f.scan.batch[i]? = some (p, res)) :
      Moves s (.callbackReturns raised) (s.dropRef f fs i p)
  | leave {f : Frame} {fs : List Frame} (hs : s.stack = f :: fs)
      (hf : f.phase = .delivering f.scan.batch.length) : Moves s .leave
      { s with
        stack := fs
        finished := s.finished ++ [⟨f.max, f.mine, f.called, f.scan.count.toInt32⟩] }
  | kernelPost {e : Cqe} (hfull : ¬s.cq.Full) (he : s.Postable e) : Moves s (.kernelPost e)
      { s with cq := s.cq.post e, posted := s.posted ++ [e] }
  | setCallback {p : OpPtr} {callback : Callback} : Moves s (.setCallback p callback)
      { s with heap := s.heap.modify p fun op => op.setCallback callback }
  | claim {self : CtxId} {p : OpPtr} (hp : p ≠ cancelUserData)
      (h : (s.heap.ops p).inProgress = false) : Moves s (.claim self p)
      { s with heap := (s.heap.setInProgress p true).take self p }
  | incref {p : OpPtr} : Moves s (.incref p)
      { s with
        heap := s.heap.incref p
        userRefs := Function.update s.userRefs p (s.userRefs p + 1) }
  | decref {p : OpPtr} (h : 0 < s.userRefs p) : Moves s (.decref p)
      { s with
        heap := s.heap.decref p
        userRefs := Function.update s.userRefs p (s.userRefs p - 1) }

theorem step_moves {s t : Drain} {a : Action} (h : s.step a = some t) : s.Moves a t := by
  cases a with
  | enter max =>
    simp only [step] at h
    split at h
    case h_1 hs =>
      cases h
      have : s.Moves (.enter max) _ := .enter (by simp [InPython, hs])
      rwa [hs] at this
    case h_2 f fs hs =>
      split at h <;> cases h
      case h_1 i hf =>
        have : s.Moves (.enter max) _ := .enter (by simp [InPython, hs, hf])
        rwa [hs] at this
  | scan =>
    simp only [step] at h
    split at h
    case h_1 f fs hs =>
      split_ifs at h with hc
      cases h
      exact .scan hs hc.1 hc.2
    case h_2 => cases h
  | commit =>
    simp only [step] at h
    split at h
    case h_1 f fs hs =>
      split_ifs at h with hc
      cases h
      exact .commit hs hc.1 hc.2
    case h_2 => cases h
  | deliver =>
    simp only [step] at h
    split at h
    case h_1 f fs hs =>
      split at h
      case h_1 i hf =>
        split at h
        case h_1 p res hx =>
          split at h <;> cases h
          case h_1 hc => exact .skip hs hf hx hc
          case h_2 callback hc => exact .call hs hf hx hc
        case h_2 => cases h
      case h_2 => cases h
    case h_2 => cases h
  | callbackReturns raised =>
    simp only [step] at h
    split at h
    case h_1 f fs hs =>
      split at h
      case h_1 i hf =>
        obtain ⟨⟨p, res⟩, hx, rfl⟩ := Option.map_eq_some_iff.mp h
        exact .callbackReturns hs hf hx
      case h_2 => cases h
    case h_2 => cases h
  | leave =>
    simp only [step] at h
    split at h
    case h_1 f fs hs =>
      split_ifs at h with hf
      cases h
      exact .leave hs hf
    case h_2 => cases h
  | kernelPost e =>
    obtain ⟨hc, h⟩ := Option.ite_none_right_eq_some.mp h
    cases h
    exact .kernelPost hc.1 hc.2
  | setCallback p callback =>
    cases h
    exact .setCallback
  | claim self p =>
    obtain ⟨hc, h⟩ := Option.ite_none_right_eq_some.mp h
    cases h
    exact .claim hc.1 hc.2
  | incref p =>
    cases h
    exact .incref
  | decref p =>
    obtain ⟨hc, h⟩ := Option.ite_none_right_eq_some.mp h
    cases h
    exact .decref hc

structure RingInv (s : Drain) : Prop where
  room : (s.cq.tail - s.cq.head).toNat ≤ 2 ^ s.cq.size.log
  /-- Every call but the innermost waits for a callback. -/
  below : ∀ f ∈ s.stack.tail, ∃ i, f.phase = .calling i
  /-- A scan runs from `cq_head` to its snapshot, which the kernel may have passed. -/
  scan : ∀ f ∈ s.stack.head?, f.phase = .scanning →
    (s.cq.tail - f.scan.head).toNat ≤ (s.cq.tail - s.cq.head).toNat ∧
    (f.tail - f.scan.head).toNat ≤ (s.cq.tail - f.scan.head).toNat

variable {s t : Drain}

theorem InPython.scanHead (h : s.InPython) : s.scanHead = s.cq.head := by
  unfold Drain.scanHead
  split
  case h_1 => rfl
  case h_2 f fs hs =>
    obtain ⟨i, hi⟩ := h f (by simp [hs])
    simp [hi]

theorem scanHead_scanning {f : Frame} {fs : List Frame} (hs : s.stack = f :: fs)
    (hf : f.phase = .scanning) : s.scanHead = f.scan.head := by
  simp [Drain.scanHead, hs, hf]

theorem scanHead_cons {f : Frame} {fs : List Frame} (hs : s.stack = f :: fs)
    (hf : f.phase ≠ .scanning) : s.scanHead = s.cq.head := by
  simp [Drain.scanHead, hs, hf]

theorem RingInv.inPython_tail (h : RingInv s) {f : Frame} {fs : List Frame}
    (hs : s.stack = f :: fs) : ∀ g ∈ fs.head?, ∃ i, g.phase = .calling i := by
  intro g hg
  have := h.below
  rw [hs] at this
  exact this g (List.mem_of_mem_head? hg)

theorem RingInv.ne_tail (h : RingInv s) {f : Frame} {fs : List Frame} (hs : s.stack = f :: fs)
    (hf : f.phase = .scanning) (hm : f.scan.More f.tail f.max) : f.scan.head ≠ s.cq.tail := by
  intro heq
  have hle := (h.scan f (by simp [hs]) hf).2
  rw [← heq, UInt32.sub_self] at hle
  exact hm.1 (RingBuffer.sub_toNat_eq_zero.mp (Nat.le_zero.mp hle)).symm

theorem RingInv.step (h : RingInv s) {a : Action} (hm : s.Moves a t) : RingInv t := by
  cases hm with
  | enter hpy =>
    refine ⟨h.room, ?_, ?_⟩
    · intro f hf
      cases hst : s.stack with
      | nil => simp [hst] at hf
      | cons g gs =>
        rw [List.tail_cons, hst] at hf
        rcases List.mem_cons.mp hf with rfl | hf
        · exact hpy f (by simp [hst])
        · exact h.below f (by simpa [hst] using hf)
    · rintro f ⟨⟩ -
      exact ⟨le_rfl, le_rfl⟩
  | @scan f fs hs hf hmore =>
    refine ⟨h.room, ?_, ?_⟩
    · have := h.below
      rwa [hs] at this
    · rintro g ⟨⟩ -
      have hne := h.ne_tail hs hf hmore
      obtain ⟨hle, hsnap⟩ := h.scan f (by simp [hs]) hf
      have h1 := RingBuffer.sub_succ_toNat hne
      have h2 := RingBuffer.sub_succ_toNat hmore.1
      simp only [scanned, scanOne_head]
      omega
  | @commit f fs hs hf hmore =>
    obtain ⟨hle, -⟩ := h.scan f (by simp [hs]) hf
    refine ⟨hle.trans h.room, ?_, ?_⟩
    · have := h.below
      rwa [hs] at this
    · rintro g ⟨⟩ hg
      cases hg
  | skip hs hf | call hs hf | callbackReturns hs hf =>
    refine ⟨h.room, ?_, ?_⟩
    · have := h.below
      rwa [hs] at this
    · rintro g ⟨⟩ hg
      cases hg
  | @leave f fs hs hf =>
    refine ⟨h.room, ?_, ?_⟩
    · intro g hg
      have := h.below
      rw [hs] at this
      exact this g (List.mem_of_mem_tail hg)
    · intro g hg hscan
      obtain ⟨i, hi⟩ := h.inPython_tail hs g hg
      rw [hi] at hscan
      cases hscan
  | kernelPost hfull he =>
    have hlt := CqRing.lt_of_not_full hfull
    have hpow := s.cq.size.pow_le
    have hgrow : (s.cq.tail + 1 - s.cq.head).toNat = (s.cq.tail - s.cq.head).toNat + 1 :=
      RingBuffer.sub_toNat_succ (by omega)
    refine ⟨?_, h.below, ?_⟩
    · change (s.cq.tail + 1 - s.cq.head).toNat ≤ _
      rw [hgrow]
      exact hlt
    · intro g hg hscan
      obtain ⟨hle, hsnap⟩ := h.scan g hg hscan
      change (s.cq.tail + 1 - g.scan.head).toNat ≤ (s.cq.tail + 1 - s.cq.head).toNat ∧
        (g.tail - g.scan.head).toNat ≤ (s.cq.tail + 1 - g.scan.head).toNat
      rw [hgrow, RingBuffer.sub_toNat_succ (by omega)]
      omega
  | setCallback | claim | incref | decref => exact ⟨h.room, h.below, h.scan⟩

theorem RingInv.remaining_step (h : RingInv s) {a : Action} (hm : s.Moves a t) :
    match a with
    | .scan => ∃ f fs, s.stack = f :: fs ∧ t = s.scanned f fs ∧
        s.remaining = s.cq.cqes (s.cq.size.slot f.scan.head) :: t.remaining
    | .kernelPost e => t.remaining = s.remaining ++ [e]
    | _ => t.remaining = s.remaining := by
  cases hm with
  | enter hpy =>
    simp only [remaining, hpy.scanHead]
    rfl
  | @scan f fs hs hf hmore =>
    refine ⟨f, fs, hs, rfl, ?_⟩
    have ht : (s.scanned f fs).scanHead = f.scan.head + 1 := by
      rw [scanHead_scanning (s := s.scanned f fs) rfl hf, scanOne_head]
    rw [remaining, remaining, scanHead_scanning hs hf, ht]
    exact RingBuffer.window_pop _ (h.ne_tail hs hf hmore)
  | @commit f fs hs hf hmore =>
    simp only [remaining, scanHead_scanning hs hf]
    rfl
  | skip hs hf | call hs hf | callbackReturns hs hf =>
    have hne := scanHead_cons hs (by rw [hf]; simp)
    simp only [remaining, hne]
    rfl
  | @leave f fs hs hf =>
    have hne := scanHead_cons hs (by rw [hf]; simp)
    have ht : ({ s with stack := fs } : Drain).InPython := h.inPython_tail hs
    have := ht.scanHead
    simp only [remaining, hne]
    simp only [Drain.scanHead] at this ⊢
    rw [this]
  | kernelPost hfull he =>
    have hle : (s.cq.tail - s.scanHead).toNat ≤ (s.cq.tail - s.cq.head).toNat := by
      unfold Drain.scanHead
      split
      case h_1 => exact le_rfl
      case h_2 f fs hs =>
        split_ifs with hf
        · exact (h.scan f (by simp [hs]) hf).1
        · exact le_rfl
    exact CqRing.window_post _ hfull hle
  | setCallback | claim | incref | decref => rfl

structure FrameInv (s : Drain) : Prop where
  frames : ∀ f ∈ s.stack, f.Ok s.cq.size
  finished : ∀ r ∈ s.finished, r.Ok s.cq.size

theorem FrameInv.step (h : FrameInv s) (hring : RingInv s) {a : Action} (hm : s.Moves a t) :
    FrameInv t := by
  have hrep : ∀ {f g : Frame} {fs : List Frame}, s.stack = f :: fs → g.Ok s.cq.size →
      ∀ x ∈ g :: fs, x.Ok s.cq.size := by
    intro f g fs hs hg x hx
    rcases List.mem_cons.mp hx with rfl | hx
    · exact hg
    · exact h.frames x (by simp [hs, hx])
  cases hm with
  | @enter max hpy =>
    refine ⟨fun g hg => ?_, h.finished⟩
    rcases List.mem_cons.mp hg with rfl | hg
    · exact ⟨rfl, rfl, Nat.zero_le _, fun _ => by simpa using hring.room, Nat.zero_le _, rfl⟩
    · exact h.frames g hg
  | @scan f fs hs hf hmore =>
    exact ⟨hrep hs ((h.frames f (by simp [hs])).scanned hf hmore _ _), h.finished⟩
  | @commit f fs hs hf hmore =>
    refine ⟨hrep hs ((h.frames f (by simp [hs])).advance (by simp) ?_), h.finished⟩
    have := (h.frames f (by simp [hs])).turns
    simp only [Frame.Turns, hf] at this
    exact ⟨this.le, Nat.zero_le _⟩
  | @skip f fs i p res hs hf hx hc =>
    refine ⟨hrep hs ((h.frames f (by simp [hs])).advance (by simp) ?_), h.finished⟩
    have := (h.frames f (by simp [hs])).turns
    simp only [Frame.Turns, hf] at this
    exact ⟨this.1.trans (Nat.le_succ _), (List.getElem?_eq_some_iff.mp hx).1⟩
  | @call f fs i p res callback hs hf hx hc =>
    refine ⟨hrep hs ((h.frames f (by simp [hs])).advance (by simp) ?_), h.finished⟩
    have := (h.frames f (by simp [hs])).turns
    simp only [Frame.Turns, hf] at this
    exact ⟨Nat.succ_le_succ this.1, (List.getElem?_eq_some_iff.mp hx).1⟩
  | @callbackReturns f fs i p res raised hs hf hx =>
    refine ⟨hrep hs ((h.frames f (by simp [hs])).advance (by simp) ?_), h.finished⟩
    have := (h.frames f (by simp [hs])).turns
    simp only [Frame.Turns, hf] at this
    exact ⟨this.1, this.2⟩
  | @leave f fs hs hf =>
    have hok := h.frames f (by simp [hs])
    have hturns := hok.turns
    simp only [Frame.Turns, hf] at hturns
    refine ⟨fun g hg => h.frames g (by simp [hs, hg]), fun r hr => ?_⟩
    rcases List.mem_append.mp hr with hr | hr
    · exact h.finished r hr
    · rw [List.mem_singleton] at hr
      subst hr
      refine ⟨?_, ?_, hok.mine, ?_⟩
      · exact hok.batch ▸ hok.max
      · exact hok.batch ▸ hturns.1
      · rw [← hok.batch, ← hok.count, UInt32.ofNat_toNat]
  | kernelPost hfull he => exact ⟨h.frames, h.finished⟩
  | setCallback | claim | incref | decref => exact ⟨h.frames, h.finished⟩

structure LogInv (s : Drain) : Prop where
  consumed : s.taken.map Prod.fst ++ s.remaining = s.posted
  inFlight : ∀ x ∈ completions s.remaining, (s.heap.ops x.1).inFlight = true
  distinct : ((completions s.remaining).map Prod.fst).Nodup
  claimed : ∀ p, (s.heap.ops p).done = true → (s.heap.ops p).inProgress = true
  /-- A consumed CQE's Operation has its result, from the scan on and for ever. -/
  settled : ∀ x ∈ s.taken, x.1.userData ≠ cancelUserData →
    (s.heap.ops x.1.userData).Shows x.2 x.1.res
  takenDistinct : ((completions (s.taken.map Prod.fst)).map Prod.fst).Nodup

theorem LogInv.done (h : LogInv s) {x : OpPtr × Int32}
    (hx : x ∈ completions (s.taken.map Prod.fst)) : (s.heap.ops x.1).done = true := by
  obtain ⟨e, he, hc⟩ := List.mem_filterMap.mp hx
  obtain ⟨y, hy, rfl⟩ := List.mem_map.mp he
  obtain ⟨hne, hc⟩ := Option.ite_none_left_eq_some.mp hc
  cases hc
  exact (h.settled y hy hne).done

/-- Steps other than a scan leave finished Operations and those in flight as they are. -/
theorem LogInv.frame (h : LogInv s) (hk : s.heap.Keeps t.heap) (hrem : t.remaining = s.remaining)
    (hposted : t.posted = s.posted) (htaken : t.taken = s.taken) : LogInv t := by
  refine ⟨?_, ?_, ?_, ?_, ?_, ?_⟩
  · rw [htaken, hrem, hposted, h.consumed]
  · intro x hx
    rw [hrem] at hx
    exact (hk x.1).inFlight (h.inFlight x hx)
  · rw [hrem]
    exact h.distinct
  · exact fun p => (hk p).claimed (h.claimed p)
  · intro x hx hne
    rw [htaken] at hx
    have hshows := h.settled x hx hne
    exact hshows.of_outcome ((hk _).outcome hshows.done)
  · rw [htaken]
    exact h.takenDistinct

theorem LogInv.scanned (h : LogInv s) {f : Frame} {fs : List Frame}
    (hrem : s.remaining = s.cq.cqes (s.cq.size.slot f.scan.head) :: (s.scanned f fs).remaining) :
    LogInv (s.scanned f fs) := by
  generalize he : s.cq.cqes (s.cq.size.slot f.scan.head) = e at hrem
  have hcons : (s.scanned f fs).taken = s.taken ++ [(e, s.heap.ops e.userData)] := by
    simp only [Drain.scanned, he]
  have hheap : (s.scanned f fs).heap = (scanOne s.heap f.scan e).1 := by
    simp only [Drain.scanned, he]
  have hconsumed : (s.scanned f fs).taken.map Prod.fst ++ (s.scanned f fs).remaining =
      (s.scanned f fs).posted := by
    rw [hcons, List.map_append, List.append_assoc]
    change _ = s.posted
    rw [← h.consumed, hrem]
    rfl
  by_cases hsent : e.userData = cancelUserData
  · -- a sentinel: the heap is untouched
    have hsame : (s.scanned f fs).heap = s.heap := by
      rw [hheap, scanOne, if_pos hsent]
    have hin := h.inFlight
    have hdist := h.distinct
    rw [hrem, completions_cons_sentinel _ hsent] at hin hdist
    refine ⟨hconsumed, ?_, hdist, ?_, ?_, ?_⟩
    · rwa [hsame]
    · rw [hsame]
      exact h.claimed
    · intro x hx hne
      rw [hsame]
      rw [hcons] at hx
      rcases List.mem_append.mp hx with hx | hx
      · exact h.settled x hx hne
      · rw [List.mem_singleton] at hx
        subst hx
        exact absurd hsent hne
    · rw [hcons, List.map_append, completions_append]
      simpa [completions_cons_sentinel [] hsent] using h.takenDistinct
  · have hfin : (s.scanned f fs).heap = s.heap.finalise e.userData e.res := by
      rw [hheap, scanOne, if_neg hsent]
    have hin := h.inFlight
    have hdist := h.distinct
    rw [hrem, completions_cons_real _ hsent] at hin hdist
    obtain ⟨hfresh, hdist⟩ := List.nodup_cons.mp hdist
    have hfly : (s.heap.ops e.userData).inFlight = true := hin _ List.mem_cons_self
    have hother : ∀ x ∈ completions (s.taken.map Prod.fst), x.1 ≠ e.userData := by
      intro x hx heq
      have hd := h.done hx
      rw [heq] at hd
      simp [AIOOperation.inFlight, hd] at hfly
    refine ⟨hconsumed, ?_, hdist, ?_, ?_, ?_⟩
    · intro x hx
      have hne : x.1 ≠ e.userData := fun heq => hfresh (List.mem_map.mpr ⟨x, hx, heq⟩)
      rw [hfin, finalise_ops_ne _ _ hne]
      exact hin x (List.mem_cons_of_mem _ hx)
    · intro p hp
      by_cases hpe : p = e.userData
      · subst hpe
        rw [hfin, finalise_ops_self]
        exact (Bool.and_eq_true_iff.mp hfly).1
      · rw [hfin, finalise_ops_ne _ _ hpe] at hp ⊢
        exact h.claimed p hp
    · intro x hx hne
      rw [hcons] at hx
      rcases List.mem_append.mp hx with hx | hx
      · have hxe : x.1.userData ≠ e.userData :=
          hother (x.1.userData, x.1.res) (List.mem_filterMap.mpr
            ⟨x.1, List.mem_map_of_mem hx, if_neg hne⟩)
        rw [hfin, finalise_ops_ne _ _ hxe]
        exact h.settled x hx hne
      · rw [List.mem_singleton] at hx
        subst hx
        rw [hfin, finalise_ops_self]
        exact complete_shows _ _
    · rw [hcons, List.map_append, completions_append, List.map_append]
      refine List.nodup_append.mpr ⟨h.takenDistinct, ?_, ?_⟩
      · simp [completions_cons_real [] hsent]
      · intro p hp q hq
        obtain ⟨x, hx, rfl⟩ := List.mem_map.mp hp
        simp only [List.map_cons, List.map_nil, completions_cons_real [] hsent, completions_nil,
          List.mem_singleton] at hq
        exact hq ▸ hother x hx

theorem LogInv.step (h : LogInv s) (hring : RingInv s) {a : Action} (hm : s.Moves a t) :
    LogInv t := by
  have hrem := hring.remaining_step hm
  cases hm with
  | scan hs hf hmore =>
    obtain ⟨f, fs, hs', hscan, hrem⟩ := hrem
    rw [hscan] at hrem ⊢
    exact h.scanned hrem
  | @kernelPost e hfull he =>
    have hrem : _ = s.remaining ++ [e] := hrem
    refine ⟨?_, ?_, ?_, h.claimed, h.settled, h.takenDistinct⟩
    · rw [hrem, ← List.append_assoc, h.consumed]
    all_goals
      rw [hrem, completions_append]
      by_cases hsent : e.userData = cancelUserData
      · rw [completions_cons_sentinel [] hsent, completions_nil, List.append_nil]
        first | exact h.inFlight | exact h.distinct
      obtain ⟨hfly, hnew⟩ := he.resolve_left hsent
      rw [completions_cons_real [] hsent, completions_nil]
    · intro x hx
      rcases List.mem_append.mp hx with hx | hx
      · exact h.inFlight x hx
      · rw [List.mem_singleton] at hx
        subst hx
        exact hfly
    · rw [List.map_append]
      refine List.nodup_append.mpr ⟨h.distinct, by simp, ?_⟩
      intro p hp q hq
      rw [List.map_singleton, List.mem_singleton] at hq
      intro heq
      rw [heq, hq] at hp
      exact hnew hp
  | enter | commit | leave => exact h.frame (.refl _) hrem rfl rfl
  | skip hs hf hx hc => exact h.frame (.decref _ _) hrem rfl rfl
  | call hs hf hx hc => exact h.frame (.refl _) hrem rfl rfl
  | callbackReturns hs hf hx => exact h.frame (.decref _ _) hrem rfl rfl
  | setCallback => exact h.frame (.setCallback _ _ _) hrem rfl rfl
  | claim hp hc => exact h.frame (.take _ hc (h.claimed _)) hrem rfl rfl
  | incref => exact h.frame (.incref _ _) hrem rfl rfl
  | decref hp => exact h.frame (.decref _ _) hrem rfl rfl

end Drain

end Caio.Uring
