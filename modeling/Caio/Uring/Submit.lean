import Caio.Lib.RingBuffer
import Caio.Uring.Operation

namespace Caio.Uring

/-- The Operations by address and the reference count of every Context. A Context whose count
has dropped to zero is deallocated: its rings are unmapped. -/
structure Heap where
  ops : OpPtr → AIOOperation
  ctxRefs : CtxId → ℕ

namespace Heap

def modify (h : Heap) (p : OpPtr) (f : AIOOperation → AIOOperation) : Heap :=
  { h with ops := Function.update h.ops p (f (h.ops p)) }

/-- The plain store to `in_progress`; the exchange in `submit` is this after a load. -/
def setInProgress (h : Heap) (p : OpPtr) (b : Bool) : Heap :=
  h.modify p fun op => { op with inProgress := b }

def incref (h : Heap) (p : OpPtr) : Heap := h.modify p fun op => { op with refcnt := op.refcnt + 1 }

def decref (h : Heap) (p : OpPtr) : Heap := h.modify p fun op => { op with refcnt := op.refcnt - 1 }

def increfCtx (h : Heap) (c : CtxId) : Heap :=
  { h with ctxRefs := Function.update h.ctxRefs c (h.ctxRefs c + 1) }

def xdecrefCtx (h : Heap) : Option CtxId → Heap
  | none => h
  | some c => { h with ctxRefs := Function.update h.ctxRefs c (h.ctxRefs c - 1) }

@[simp] theorem modify_ops_self (h : Heap) (p : OpPtr) (f : AIOOperation → AIOOperation) :
    (h.modify p f).ops p = f (h.ops p) := Function.update_self ..

theorem modify_ops_ne (h : Heap) {p q : OpPtr} (f : AIOOperation → AIOOperation) (hne : q ≠ p) :
    (h.modify p f).ops q = h.ops q := Function.update_of_ne hne ..

@[simp] theorem modify_ctxRefs (h : Heap) (p : OpPtr) (f : AIOOperation → AIOOperation) :
    (h.modify p f).ctxRefs = h.ctxRefs := rfl

@[simp] theorem increfCtx_ops (h : Heap) (c : CtxId) : (h.increfCtx c).ops = h.ops := rfl

@[simp] theorem xdecrefCtx_ops (h : Heap) (c : Option CtxId) : (h.xdecrefCtx c).ops = h.ops := by
  cases c <;> rfl

theorem setInProgress_undo {h : Heap} {p : OpPtr} (hp : (h.ops p).inProgress = false) :
    (h.setInProgress p true).setInProgress p false = h := by
  have hop : ({ h.ops p with inProgress := false } : AIOOperation) = h.ops p := by
    rw [← hp]
  simp only [setInProgress, modify, Function.update_self, Function.update_idem]
  rw [hop, Function.update_eq_self]

end Heap

structure SqRing where
  size : RingSize
  noSqarray : Bool
  /-- `*sq_head`, advanced by the kernel only -/
  head : UInt32
  /-- `*sq_tail` -/
  tail : UInt32
  array : UInt32 → UInt32
  sqes : UInt32 → Sqe

namespace SqRing

def view (r : SqRing) (index : UInt32) : Sqe :=
  if r.noSqarray then r.sqes index else r.sqes (r.array index)

/-- The entries from `sq_head` up to a tail, as the kernel would read them. -/
def queue (r : SqRing) (tail : UInt32) : List Sqe := RingBuffer.window r.size r.view r.head tail

/-- `memset` and the field stores into `sqes[tail & mask]`. -/
def write (r : SqRing) (tail : UInt32) (sqe : Sqe) : SqRing :=
  { r with sqes := Function.update r.sqes (r.size.slot tail) sqe }

/-- The stores of one staged entry: the slot, and the indirection when it is in use. -/
def put (r : SqRing) (tail : UInt32) (sqe : Sqe) : SqRing :=
  let index := r.size.slot tail
  let r := r.write tail sqe
  if r.noSqarray then r else { r with array := Function.update r.array index index }

def publish (r : SqRing) (tail : UInt32) : SqRing := { r with tail }

/-- The kernel copies the entry at `sq_head`, then advances `sq_head`. -/
def consume (r : SqRing) : Option (Sqe × SqRing) :=
  if r.head = r.tail then none
  else some (r.view (r.size.slot r.head), { r with head := r.head + 1 })

@[simp] theorem publish_tail (r : SqRing) (t : UInt32) : (r.publish t).tail = t := rfl

@[simp] theorem publish_queue (r : SqRing) (t u : UInt32) :
    (r.publish t).queue u = r.queue u := rfl

@[simp] theorem write_size (r : SqRing) (t : UInt32) (e : Sqe) : (r.write t e).size = r.size := rfl
@[simp] theorem write_head (r : SqRing) (t : UInt32) (e : Sqe) : (r.write t e).head = r.head := rfl
@[simp] theorem write_tail (r : SqRing) (t : UInt32) (e : Sqe) : (r.write t e).tail = r.tail := rfl

@[simp] theorem put_size (r : SqRing) (t : UInt32) (e : Sqe) : (r.put t e).size = r.size := by
  simp only [put]; split <;> rfl

@[simp] theorem put_head (r : SqRing) (t : UInt32) (e : Sqe) : (r.put t e).head = r.head := by
  simp only [put]; split <;> rfl

@[simp] theorem put_tail (r : SqRing) (t : UInt32) (e : Sqe) : (r.put t e).tail = r.tail := by
  simp only [put]; split <;> rfl

@[simp] theorem put_noSqarray (r : SqRing) (t : UInt32) (e : Sqe) :
    (r.put t e).noSqarray = r.noSqarray := by
  simp only [put]; split <;> rfl

/-- Below `tail` the indirection, where it is in use, is the identity. -/
def Direct (r : SqRing) (tail : UInt32) : Prop :=
  r.noSqarray = false → ∀ i, (i - r.head).toNat < (tail - r.head).toNat →
    r.array (r.size.slot i) = r.size.slot i

/-- `index` is the slot of an entry between `sq_head` and `tail`. -/
def Live (r : SqRing) (tail i : UInt32) : Prop := (i - r.head).toNat < (tail - r.head).toNat

theorem Live.slot_ne {r : SqRing} {tail i : UInt32} (h : r.Live tail i)
    (hfree : (tail - r.head).toNat < 2 ^ r.size.log) : r.size.slot i ≠ r.size.slot tail := by
  intro hs
  unfold Live at h
  have := r.size.slot_injective (h := r.head) (by omega) hfree hs
  subst this
  omega

theorem view_write {r : SqRing} {tail i : UInt32} (e : Sqe) (hd : r.Direct tail)
    (hfree : (tail - r.head).toNat < 2 ^ r.size.log) (hi : r.Live tail i) :
    (r.write tail e).view (r.size.slot i) = r.view (r.size.slot i) := by
  have hne := hi.slot_ne hfree
  cases hn : r.noSqarray with
  | true => simp [view, write, hn, hne]
  | false => simp [view, write, hn, hd hn i hi, hne]

theorem view_put {r : SqRing} {tail i : UInt32} (e : Sqe) (hd : r.Direct tail)
    (hfree : (tail - r.head).toNat < 2 ^ r.size.log) (hi : r.Live tail i) :
    (r.put tail e).view (r.size.slot i) = r.view (r.size.slot i) := by
  have hne := hi.slot_ne hfree
  cases hn : r.noSqarray with
  | true => simp [view, put, write, hn, hne]
  | false => simp [view, put, write, hn, hd hn i hi, hne]

theorem view_put_self (r : SqRing) (tail : UInt32) (e : Sqe) :
    (r.put tail e).view (r.size.slot tail) = e := by
  cases hn : r.noSqarray <;> simp [view, put, write, hn]

theorem queue_write {r : SqRing} {tail : UInt32} (e : Sqe) (hd : r.Direct tail)
    (hfree : (tail - r.head).toNat < 2 ^ r.size.log) :
    (r.write tail e).queue tail = r.queue tail :=
  RingBuffer.window_congr _ fun _ hi => view_write e hd hfree hi

theorem queue_put {r : SqRing} {tail : UInt32} (e : Sqe) (hd : r.Direct tail)
    (hfree : (tail - r.head).toNat < 2 ^ r.size.log) :
    (r.put tail e).queue (tail + 1) = r.queue tail ++ [e] := by
  have hlt := r.size.pow_le
  have hold : (r.put tail e).queue tail = r.queue tail := by
    rw [queue, queue, put_size, put_head]
    exact RingBuffer.window_congr _ fun _ hi => view_put e hd hfree hi
  rw [queue, put_size, put_head, RingBuffer.window_succ _ (by omega), view_put_self, ← hold,
    queue, put_size, put_head]

theorem Direct.write {r : SqRing} {tail t : UInt32} {e : Sqe} (hd : r.Direct tail) :
    (r.write t e).Direct tail := hd

theorem Direct.put {r : SqRing} {tail : UInt32} {e : Sqe} (hd : r.Direct tail)
    (hfree : (tail - r.head).toNat < 2 ^ r.size.log) : (r.put tail e).Direct (tail + 1) := by
  intro hn i hi
  rw [put_noSqarray] at hn
  have hlt := r.size.pow_le
  rw [put_head, RingBuffer.sub_toNat_succ (by omega)] at hi
  rw [put_size]
  by_cases hs : r.size.slot i = r.size.slot tail
  · simp [SqRing.put, SqRing.write, hn, hs]
  · have hi' : r.Live tail i := by
      by_contra hlive
      unfold Live at hlive
      have hti : (i - r.head).toNat = (tail - r.head).toNat := by omega
      exact hs (by rw [(UInt32.sub_left_inj _).mp (UInt32.toNat_inj.mp hti)])
    simp [SqRing.put, SqRing.write, hn, hs, hd hn i hi']

theorem queue_consume {r r' : SqRing} {e : Sqe} {tail : UInt32} (hne : r.head ≠ tail)
    (h : r.consume = some (e, r')) : r.queue tail = e :: r'.queue tail := by
  obtain ⟨-, h⟩ := Option.ite_none_left_eq_some.mp h
  cases h
  exact RingBuffer.window_pop _ hne

end SqRing

/-- The shared state and the locals of `AIOContext_submit` in its batch loop. -/
structure SubmitLoop where
  ring : SqRing
  heap : Heap
  tail : UInt32
  /-- The snapshot of `sq_head` that the capacity check uses. -/
  head : UInt32
  submitted : UInt32

inductive Outcome
  | next
  | overflow
deriving DecidableEq, Repr

/-- What a staged Operation holds from then on: the claim, a reference for the kernel and its
Context. -/
def Heap.take (h : Heap) (self : CtxId) (p : OpPtr) : Heap :=
  (((h.incref p).xdecrefCtx (h.ops p).context).modify p fun op =>
    { op with context := some self }).increfCtx self

@[simp] theorem Heap.take_ops_self (h : Heap) (self : CtxId) (p : OpPtr) :
    (h.take self p).ops p =
      { h.ops p with context := some self, refcnt := (h.ops p).refcnt + 1 } := by
  simp [Heap.take, Heap.incref]

theorem Heap.take_ops_ne (h : Heap) (self : CtxId) {p q : OpPtr} (hne : q ≠ p) :
    (h.take self p).ops q = h.ops q := by
  rw [Heap.take, Heap.increfCtx_ops, Heap.modify_ops_ne _ _ hne, Heap.xdecrefCtx_ops, Heap.incref,
    Heap.modify_ops_ne _ _ hne]

def SubmitLoop.stage (self : CtxId) (s : SubmitLoop) (p : OpPtr) (sqe : Sqe) : SubmitLoop :=
  { ring := s.ring.put s.tail sqe
    heap := (s.heap.setInProgress p true).take self p
    tail := s.tail + 1
    head := s.head
    submitted := s.submitted + 1 }

def submitOne (self : CtxId) (s : SubmitLoop) (p : OpPtr) : SubmitLoop × Outcome :=
  let op := s.heap.ops p
  if op.inProgress then (s, .next)
  else
    let claimed := s.heap.setInProgress p true
    if s.ring.size.entries ≤ s.tail - s.head then
      ({ s with heap := claimed.setInProgress p false }, .overflow)
    else
      match submitSqe p op with
      | none =>
        -- the slot has been written, but `tail` stays and the claim is given back
        ({ s with ring := s.ring.write s.tail (blankSqe p op),
                  heap := claimed.setInProgress p false }, .next)
      | some sqe => (s.stage self p sqe, .next)

/-- The loop: it stops at the first Operation that finds the ring full. -/
def submitLoop (self : CtxId) : SubmitLoop → List OpPtr → SubmitLoop × Outcome
  | s, [] => (s, .next)
  | s, p :: ps =>
    match submitOne self s p with
    | (s', .overflow) => (s', .overflow)
    | (s', .next) => submitLoop self s' ps

/-- `AIOContext_submit` from its critical section on; both exits publish `sq_tail`. -/
def submit (self : CtxId) (ring : SqRing) (heap : Heap) (args : List OpPtr) :
    SqRing × Heap × Except PyErr ℕ :=
  match submitLoop self ⟨ring, heap, ring.tail, ring.head, 0⟩ args with
  | (s, .next) => (s.ring.publish s.tail, s.heap, .ok s.submitted.toNat)
  | (s, .overflow) =>
    (s.ring.publish s.tail, s.heap, .error (.overflowError "io_uring SQ ring full"))

def cancelStage (ring : SqRing) (p : OpPtr) : Except PyErr SqRing :=
  if ring.size.entries ≤ ring.tail - ring.head then
    .error (.overflowError "io_uring SQ ring full")
  else .ok ((ring.put ring.tail (cancelSqe p)).publish (ring.tail + 1))

theorem submitOne_cases (self : CtxId) (s : SubmitLoop) (p : OpPtr) :
    ((s.heap.ops p).inProgress = true ∧ submitOne self s p = (s, .next)) ∨
    ((s.heap.ops p).inProgress = false ∧ s.ring.size.entries ≤ s.tail - s.head ∧
      submitOne self s p = (s, .overflow)) ∨
    ((s.heap.ops p).inProgress = false ∧ s.tail - s.head < s.ring.size.entries ∧
      submitSqe p (s.heap.ops p) = none ∧ submitOne self s p =
        ({ s with ring := s.ring.write s.tail (blankSqe p (s.heap.ops p)) }, .next)) ∨
    ((s.heap.ops p).inProgress = false ∧ s.tail - s.head < s.ring.size.entries ∧
      ∃ sqe, submitSqe p (s.heap.ops p) = some sqe ∧
        submitOne self s p = (s.stage self p sqe, .next)) := by
  cases hp : (s.heap.ops p).inProgress with
  | true => exact .inl ⟨rfl, by simp [submitOne, hp]⟩
  | false =>
    have hundo := Heap.setInProgress_undo hp
    by_cases hfull : s.ring.size.entries ≤ s.tail - s.head
    · exact .inr (.inl ⟨rfl, hfull, by simp [submitOne, hp, hfull, hundo]⟩)
    · have hfree := UInt32.not_le.mp hfull
      cases hsqe : submitSqe p (s.heap.ops p) with
      | none =>
        exact .inr (.inr (.inl ⟨rfl, hfree, rfl, by simp [submitOne, hp, hfull, hundo, hsqe]⟩))
      | some sqe =>
        exact .inr (.inr (.inr ⟨rfl, hfree, sqe, rfl, by simp [submitOne, hp, hfull, hsqe]⟩))

end Caio.Uring
