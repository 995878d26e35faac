import Mathlib.Data.List.Forall2
import Caio.Lib.Fifo
import Caio.Uring.Submit

/-!
# linux_uring: the submission ring as a channel to the kernel

Critical sections of `submit` and `cancel` on one Context, iteration by
iteration, interleaved with a kernel that may take published entries at any
moment. The ring refines a bounded FIFO channel.
-/

namespace Caio.Uring

/-- A request as the Python caller made it. -/
inductive Request
  | submit (p : OpPtr) (op : AIOOperation)
  | cancel (p : OpPtr)

/-- The entry asks the kernel for the request, with the fields of its Operation. -/
def Request.Asks (e : Sqe) : Request → Prop
  | .submit p op =>
    e.userData = p ∧ e.fd = op.fileno.toInt32 ∧ e.off = op.offset ∧
      match op.opcode with
      | .read => e.opcode = .read ∧ e.addr = op.buf ∧ e.len = UInt32.ofInt op.bufSize ∧
        e.fsyncFlags = 0
      | .write => e.opcode = .write ∧ e.addr = op.buf ∧ e.len = UInt32.ofInt op.bufSize ∧
        e.fsyncFlags = 0
      | .fsync => e.opcode = .fsync ∧ e.addr = 0 ∧ e.len = 0 ∧ e.fsyncFlags = 0
      | .fdsync => e.opcode = .fsync ∧ e.addr = 0 ∧ e.len = 0 ∧ e.fsyncFlags = fsyncDatasync
      | .noop => False
  | .cancel p =>
    e.userData = cancelUserData ∧ e.opcode = .asyncCancel ∧ e.addr = p ∧ e.fd = 0 ∧ e.off = 0 ∧
      e.len = 0 ∧ e.fsyncFlags = 0

theorem submitSqe_asks {p : OpPtr} {op : AIOOperation} {e : Sqe} (h : submitSqe p op = some e) :
    (Request.submit p op).Asks e := by
  unfold submitSqe at h
  cases hop : op.opcode with
  | read | write | fsync | fdsync =>
    rw [hop] at h
    cases h
    refine ⟨rfl, rfl, rfl, ?_⟩
    rw [hop]
    exact ⟨rfl, rfl, rfl, rfl⟩
  | noop =>
    rw [hop] at h
    cases h

theorem cancelSqe_asks (p : OpPtr) : (Request.cancel p).Asks (cancelSqe p) :=
  ⟨rfl, rfl, rfl, rfl, rfl, rfl, rfl⟩

/-- The critical section that is running, with its locals. -/
inductive Section
  | submit (self : CtxId) (todo : List OpPtr) (tail head submitted : UInt32)
  | cancel (p : OpPtr) (tail head : UInt32)
  /-- `cancel` between its stores to the slot and its store to `sq_tail`. -/
  | cancelStaged (tail : UInt32)

def Section.tail : Section → UInt32
  | .submit _ _ tail _ _ => tail
  | .cancel _ tail _ => tail
  | .cancelStaged tail => tail + 1

structure Submission where
  ring : SqRing
  heap : Heap
  active : Option Section
  /-- Entries that were waiting in the ring at the start. -/
  before : List Sqe
  /-- Requests accepted since, in order. -/
  requests : List Request
  /-- Entries the kernel has read, in order. -/
  read : List Sqe

namespace Submission

def localTail (s : Submission) : UInt32 := (s.active.map Section.tail).getD s.ring.tail

/-- Entries that have been written and that the kernel has not consumed. -/
def unread (s : Submission) : List Sqe := s.ring.queue s.localTail

inductive Action
  | beginSubmit (self : CtxId) (args : List OpPtr)
  | submitOne
  | endSubmit
  | beginCancel (p : OpPtr)
  | stageCancel
  | endCancel
  | kernelRead
  /-- Other threads and Contexts change Operations and references in any way. -/
  | others (heap : Heap)

def step (s : Submission) : Action → Option Submission
  | .beginSubmit self args =>
    match s.active with
    | none => some { s with active := some (.submit self args s.ring.tail s.ring.head 0) }
    | some _ => none
  | .submitOne =>
    match s.active with
    | some (.submit self (p :: todo) tail head submitted) =>
      match Uring.submitOne self ⟨s.ring, s.heap, tail, head, submitted⟩ p with
      | (l, .overflow) =>
        some { s with ring := l.ring.publish l.tail, heap := l.heap, active := none }
      | (l, .next) =>
        some { s with
          ring := l.ring
          heap := l.heap
          active := some (.submit self todo l.tail l.head l.submitted)
          requests := s.requests ++
            if l.submitted = submitted then [] else [.submit p (s.heap.ops p)] }
    | _ => none
  | .endSubmit =>
    match s.active with
    | some (.submit _ [] tail _ _) => some { s with ring := s.ring.publish tail, active := none }
    | _ => none
  | .beginCancel p =>
    match s.active with
    | none => some { s with active := some (.cancel p s.ring.tail s.ring.head) }
    | some _ => none
  | .stageCancel =>
    match s.active with
    | some (.cancel p tail head) =>
      if s.ring.size.entries ≤ tail - head then some { s with active := none }
      else
        some { s with
          ring := s.ring.put tail (cancelSqe p)
          active := some (.cancelStaged tail)
          requests := s.requests ++ [.cancel p] }
    | _ => none
  | .endCancel =>
    match s.active with
    | some (.cancelStaged tail) =>
      some { s with ring := s.ring.publish (tail + 1), active := none }
    | _ => none
  | .kernelRead =>
    s.ring.consume.map fun (e, ring) => { s with ring, read := s.read ++ [e] }
  | .others heap => some { s with heap }

/-- Any ring of `n` slots with at most `n` entries waiting, at any head and tail. -/
def system (n : RingSize) : TransitionSystem Submission Action where
  init s := s.ring.size = n ∧ (s.ring.tail - s.ring.head).toNat ≤ 2 ^ n.log ∧
    s.ring.Direct s.ring.tail ∧ s.active = none ∧ s.requests = [] ∧ s.read = [] ∧
    s.before = s.ring.queue s.ring.tail
  step := step

/-- The value of `sq_head` that the running section checks its capacity against. -/
def snapshot (s : Submission) : Option UInt32 :=
  match s.active with
  | some (.submit _ _ _ head _) => some head
  | some (.cancel _ _ head) => some head
  | _ => none

structure Inv (n : RingSize) (s : Submission) : Prop where
  size : s.ring.size = n
  direct : s.ring.Direct s.localTail
  published : (s.ring.tail - s.ring.head).toNat ≤ (s.localTail - s.ring.head).toNat
  bounded : (s.localTail - s.ring.head).toNat ≤ 2 ^ n.log
  /-- A stale head only makes the section see the ring fuller than it is. -/
  stale : ∀ head ∈ s.snapshot,
    (s.localTail - s.ring.head).toNat ≤ (s.localTail - head).toNat
  /-- `cancel` publishes only after it has staged. -/
  unstaged : ∀ p tail head, s.active = some (.cancel p tail head) → tail = s.ring.tail

/-- The channel that a state stands for. -/
structure Rel (n : RingSize) (s : Submission) (f : Fifo Sqe) : Prop where
  inv : Inv n s
  queue : f.queue = s.unread
  sent : ∃ staged, f.sent = s.before ++ staged ∧
    List.Forall₂ (fun r e => Request.Asks e r) s.requests staged
  received : f.received = s.read

variable {n : RingSize} {s t : Submission} {f : Fifo Sqe}

/-- A section that sees a free slot has one, whatever the kernel has consumed meanwhile. -/
theorem Inv.free {head : UInt32} (h : Inv n s) (hs : s.snapshot = some head)
    (hroom : s.localTail - head < s.ring.size.entries) :
    (s.localTail - s.ring.head).toNat < 2 ^ s.ring.size.log :=
  (h.stale head hs).trans_lt ((RingBuffer.lt_entries_iff _).mp hroom)

theorem unread_length (s : Submission) :
    s.unread.length = (s.localTail - s.ring.head).toNat := RingBuffer.window_length ..

/-- Writing an entry at the local tail and moving the tail past it sends it. -/
theorem Rel.send {r : Request} {e : Sqe} (h : Rel n s f) (hasks : r.Asks e)
    (hfree : (s.localTail - s.ring.head).toNat < 2 ^ s.ring.size.log)
    (hring : t.ring = s.ring.put s.localTail e) (htail : t.localTail = s.localTail + 1)
    (hsnap : ∀ head ∈ t.snapshot, head ∈ s.snapshot ∧
      (s.localTail - head).toNat < 2 ^ s.ring.size.log)
    (hactive : ∀ p tail head, t.active ≠ some (.cancel p tail head))
    (hbefore : t.before = s.before)
    (hreq : t.requests = s.requests ++ [r])
    (hread : t.read = s.read) :
    ∃ bs g, (Fifo.system (2 ^ n.log)).exec f bs = some g ∧ Rel n t g := by
  have hpow := s.ring.size.pow_le
  have hsize := h.inv.size
  have hone := RingBuffer.sub_toNat_succ (h := s.ring.head) (t := s.localTail) (by omega)
  refine ⟨[.send e], _, TransitionSystem.exec_singleton (Fifo.step_send ?_), ?_⟩
  · rw [h.queue, unread_length, ← hsize]
    exact hfree
  · refine ⟨⟨?_, ?_, ?_, ?_, ?_, fun p tail head hc => absurd hc (hactive p tail head)⟩, ?_, ?_, ?_⟩
    · rw [hring, SqRing.put_size, hsize]
    · rw [hring, htail]
      exact h.inv.direct.put hfree
    · rw [hring, htail, SqRing.put_head, SqRing.put_tail, hone]
      exact h.inv.published.trans (Nat.le_succ _)
    · rw [hring, htail, SqRing.put_head, hone, ← hsize]
      exact hfree
    · intro head hhead
      -- room as the stale head shows it, so the tail does not run past it
      obtain ⟨hs, hlt⟩ := hsnap head hhead
      rw [hring, htail, SqRing.put_head, hone, RingBuffer.sub_toNat_succ (by omega)]
      exact Nat.succ_le_succ (h.inv.stale head hs)
    · rw [unread, hring, htail, SqRing.queue_put e h.inv.direct hfree, ← unread, ← h.queue]
    · obtain ⟨staged, hsent, hall⟩ := h.sent
      refine ⟨staged ++ [e], ?_, ?_⟩
      · rw [hbefore, hsent, List.append_assoc]
      · rw [hreq]
        exact List.rel_append hall (.cons hasks .nil)
    · rw [hread, h.received]

theorem Rel.stutter (h : Rel n s f) (hinv : Inv n t) (hunread : t.unread = s.unread)
    (hbefore : t.before = s.before) (hreq : t.requests = s.requests) (hread : t.read = s.read) :
    ∃ bs g, (Fifo.system (2 ^ n.log)).exec f bs = some g ∧ Rel n t g :=
  ⟨[], f, rfl, hinv, by rw [h.queue, hunread], by rw [hbefore, hreq]; exact h.sent,
    by rw [h.received, hread]⟩

/-- Publishing moves `sq_tail` to the local tail and keeps everything else. -/
theorem Inv.publish (h : Inv n s) (hactive : t.active = none)
    (hring : t.ring = s.ring.publish s.localTail) : Inv n t ∧ t.unread = s.unread := by
  have htail : t.localTail = s.localTail := by
    rw [localTail, hactive, hring]
    rfl
  have hsnap : t.snapshot = none := by
    rw [snapshot, hactive]
  refine ⟨⟨?_, ?_, ?_, ?_, ?_, ?_⟩, ?_⟩
  · rw [hring]
    exact h.size
  · rw [htail, hring]
    exact h.direct
  · rw [htail, hring]
    exact le_rfl
  · rw [htail, hring]
    exact h.bounded
  · simp [hsnap]
  · simp [hactive]
  · rw [unread, htail, hring]
    rfl

theorem Rel.receive (h : Rel n s f) (hs : s.step .kernelRead = some t) :
    ∃ bs g, (Fifo.system (2 ^ n.log)).exec f bs = some g ∧ Rel n t g := by
  obtain ⟨⟨e, ring⟩, hc, rfl⟩ := Option.map_eq_some_iff.mp hs
  have hne : s.ring.head ≠ s.localTail := by
    intro heq
    -- the local tail is never behind sq_tail: were it at sq_head, nothing would be published
    have hp := h.inv.published
    obtain ⟨hht, -⟩ := Option.ite_none_left_eq_some.mp hc
    rw [← heq, UInt32.sub_self] at hp
    exact hht (RingBuffer.sub_toNat_eq_zero.mp (Nat.le_zero.mp hp)).symm
  have hq := SqRing.queue_consume hne hc
  obtain ⟨hht, hcs⟩ := Option.ite_none_left_eq_some.mp hc
  cases hcs
  have hlive := RingBuffer.sub_succ_toNat hne
  have hpub := RingBuffer.sub_succ_toNat hht
  refine ⟨[.receive], _, TransitionSystem.exec_singleton (Fifo.step_receive (h.queue.trans hq)),
    ⟨h.inv.size, ?_, ?_, ?_, ?_, h.inv.unstaged⟩, rfl, h.sent, ?_⟩
  · intro hn i hi
    refine h.inv.direct hn i ?_
    have hi' : (i - (s.ring.head + 1)).toNat < (s.localTail - (s.ring.head + 1)).toNat := hi
    by_cases hih : s.ring.head = i
    · rw [hih, UInt32.sub_self, ← hih, hlive]
      exact Nat.succ_pos _
    · rw [RingBuffer.sub_succ_toNat hih, hlive]
      exact Nat.succ_lt_succ hi'
  · have := h.inv.published
    rw [hlive, hpub] at this
    exact Nat.le_of_succ_le_succ this
  · have := h.inv.bounded
    rw [hlive] at this
    exact Nat.le_of_succ_le this
  · intro head hhead
    have := h.inv.stale head hhead
    rw [hlive] at this
    exact Nat.le_of_succ_le this
  · rw [h.received]

theorem Inv.begin (h : Inv n s) (hidle : s.active = none) {sec : Section}
    (htail : sec.tail = s.ring.tail)
    (hsnap : ∀ head ∈ ({ s with active := some sec } : Submission).snapshot, head = s.ring.head) :
    Inv n { s with active := some sec } := by
  have hs : s.localTail = s.ring.tail := by
    rw [localTail, hidle]
    rfl
  have ht : ({ s with active := some sec } : Submission).localTail = s.localTail := by
    rw [hs, ← htail]
    rfl
  refine ⟨h.size, ?_, ?_, ?_, ?_, ?_⟩
  · rw [ht]
    exact h.direct
  · rw [ht]
    exact h.published
  · rw [ht]
    exact h.bounded
  · intro head hhead
    rw [ht, hsnap head hhead]
  · rintro p tail head ⟨⟩
    exact htail

theorem submitOne_refines {self : CtxId} {p : OpPtr} {todo : List OpPtr}
    {tail head submitted : UInt32} (h : Rel n s f)
    (hactive : s.active = some (.submit self (p :: todo) tail head submitted))
    (hs : s.step .submitOne = some t) :
    ∃ bs g, (Fifo.system (2 ^ n.log)).exec f bs = some g ∧ Rel n t g := by
  have htail : s.localTail = tail := by
    rw [localTail, hactive]
    rfl
  have hsnap : s.snapshot = some head := by
    rw [snapshot, hactive]
  obtain ⟨-, hone⟩ | ⟨-, -, hone⟩ | ⟨-, hroom, -, hone⟩ | ⟨-, hroom, sqe, hsqe, hone⟩ :=
    submitOne_cases self ⟨s.ring, s.heap, tail, head, submitted⟩ p
  · -- already claimed: only the loop advances
    simp only [step, hactive, hone, Option.some.injEq] at hs
    subst hs
    refine h.stutter ⟨h.inv.size, ?_, ?_, ?_, ?_, by simp⟩ ?_ rfl (by simp) rfl
    · exact htail ▸ h.inv.direct
    · exact htail ▸ h.inv.published
    · exact htail ▸ h.inv.bounded
    · exact fun _ hh => htail ▸ h.inv.stale _ (hsnap ▸ hh)
    · rw [unread, unread, htail]
      rfl
  · -- ring full: what was staged before is published
    simp only [step, hactive, hone, Option.some.injEq] at hs
    subst hs
    have hring : s.ring.publish tail = s.ring.publish s.localTail := by rw [htail]
    exact h.stutter (h.inv.publish rfl hring).1 (h.inv.publish rfl hring).2 rfl rfl rfl
  · -- the slot of the local tail is written, but the tail stays
    simp only [step, hactive, hone, Option.some.injEq] at hs
    subst hs
    have hfree := h.inv.free hsnap (htail ▸ hroom)
    rw [htail] at hfree
    refine h.stutter ⟨h.inv.size, ?_, ?_, ?_, ?_, by simp⟩ ?_ rfl (by simp) rfl
    · exact htail ▸ h.inv.direct
    · exact htail ▸ h.inv.published
    · exact htail ▸ h.inv.bounded
    · exact fun _ hh => htail ▸ h.inv.stale _ (hsnap ▸ hh)
    · rw [unread, unread, htail]
      exact SqRing.queue_write _ (htail ▸ h.inv.direct) hfree
  · simp only [step, hactive, hone, Option.some.injEq] at hs
    subst hs
    have hfree := h.inv.free hsnap (htail ▸ hroom)
    have hne : submitted + 1 ≠ submitted := by grind
    refine h.send (submitSqe_asks hsqe) hfree ?_ ?_ ?_ ?_ rfl ?_ rfl
    · rw [htail]
      rfl
    · rw [htail]
      rfl
    · rintro _ ⟨⟩
      exact ⟨hsnap, (RingBuffer.lt_entries_iff _).mp (htail ▸ hroom)⟩
    · simp
    · simp [SubmitLoop.stage, hne]

theorem stageCancel_refines {p : OpPtr} {tail head : UInt32} (h : Rel n s f)
    (hactive : s.active = some (.cancel p tail head)) (hs : s.step .stageCancel = some t) :
    ∃ bs g, (Fifo.system (2 ^ n.log)).exec f bs = some g ∧ Rel n t g := by
  have htail : s.localTail = tail := by
    rw [localTail, hactive]
    rfl
  have hsnap : s.snapshot = some head := by
    rw [snapshot, hactive]
  by_cases hfull : s.ring.size.entries ≤ tail - head
  · simp only [step, hactive, hfull, if_pos, Option.some.injEq] at hs
    subst hs
    have hring : s.ring = s.ring.publish s.localTail := by
      rw [htail, h.inv.unstaged p tail head hactive]
      rfl
    have hpub := h.inv.publish (t := { s with active := none }) rfl hring
    exact h.stutter hpub.1 hpub.2 rfl rfl rfl
  · simp only [step, hactive, hfull, if_false, Option.some.injEq] at hs
    subst hs
    have hroom := UInt32.not_le.mp hfull
    refine h.send (cancelSqe_asks p) (h.inv.free hsnap (htail ▸ hroom)) ?_ ?_ ?_ ?_ rfl rfl rfl
    · rw [htail]
    · rw [htail]
      rfl
    · rintro _ ⟨⟩
    · simp

/-- The ring with its critical sections and the kernel is a FIFO channel of `n` entries. -/
theorem refines_fifo (n : RingSize) :
    TransitionSystem.Refines (system n) (Fifo.system (2 ^ n.log)) (Rel n) where
  init s hs := by
    obtain ⟨hsize, hle, hdirect, hactive, hreq, hread, hbefore⟩ := hs
    have htail : s.localTail = s.ring.tail := by
      rw [localTail, hactive]
      rfl
    have hunread : s.unread = s.before := by
      rw [unread, htail, hbefore]
    refine ⟨⟨s.before, s.unread, []⟩, ⟨rfl, hunread, ?_⟩, ⟨hsize, ?_, ?_, ?_, ?_, ?_⟩, rfl,
      ⟨[], (List.append_nil _).symm, ?_⟩, hread.symm⟩
    · rw [unread_length, htail]
      exact hle
    · rw [htail]
      exact hdirect
    · rw [htail]
    · rw [htail]
      exact hle
    · simp [snapshot, hactive]
    · simp [hactive]
    · rw [hreq]
      exact .nil
  step s a t f h hs := by
    have hstutter : ∀ {sec : Section}, s.active = none → sec.tail = s.ring.tail →
        (∀ head ∈ ({ s with active := some sec } : Submission).snapshot, head = s.ring.head) →
        t = { s with active := some sec } →
        ∃ bs g, (Fifo.system (2 ^ n.log)).exec f bs = some g ∧ Rel n t g := by
      rintro sec hidle htail hsnap rfl
      refine h.stutter (h.inv.begin hidle htail hsnap) ?_ rfl rfl rfl
      simp only [unread, localTail, hidle, Option.map_some, Option.map_none, Option.getD_some,
        Option.getD_none, htail]
    change s.step a = some t at hs
    cases a with
    | beginSubmit self args =>
      simp only [step] at hs
      split at hs
      case h_1 hidle =>
        cases hs
        exact hstutter hidle rfl (by rintro _ ⟨⟩; rfl) rfl
      case h_2 => cases hs
    | submitOne =>
      have hs' := hs
      simp only [step] at hs'
      split at hs'
      case h_1 self p todo tail head submitted hactive => exact submitOne_refines h hactive hs
      case h_2 => cases hs'
    | endSubmit =>
      simp only [step] at hs
      split at hs
      case h_1 self tail head submitted hactive =>
        cases hs
        have hring : s.ring.publish tail = s.ring.publish s.localTail := by
          simp [localTail, hactive, Section.tail]
        exact h.stutter (h.inv.publish rfl hring).1 (h.inv.publish rfl hring).2 rfl rfl rfl
      case h_2 => cases hs
    | beginCancel p =>
      simp only [step] at hs
      split at hs
      case h_1 hidle =>
        cases hs
        exact hstutter hidle rfl (by rintro _ ⟨⟩; rfl) rfl
      case h_2 => cases hs
    | stageCancel =>
      have hs' := hs
      simp only [step] at hs'
      split at hs'
      case h_1 p tail head hactive => exact stageCancel_refines h hactive hs
      case h_2 => cases hs'
    | endCancel =>
      simp only [step] at hs
      split at hs
      case h_1 tail hactive =>
        cases hs
        have hring : s.ring.publish (tail + 1) = s.ring.publish s.localTail := by
          simp [localTail, hactive, Section.tail]
        exact h.stutter (h.inv.publish rfl hring).1 (h.inv.publish rfl hring).2 rfl rfl rfl
      case h_2 => cases hs
    | kernelRead => exact h.receive hs
    | others heap =>
      cases hs
      exact h.stutter ⟨h.inv.size, h.inv.direct, h.inv.published, h.inv.bounded, h.inv.stale,
        h.inv.unstaged⟩ rfl rfl rfl rfl

/-- The producer writes only into the slot at the local tail, the kernel into none. -/
theorem Inv.view_step (h : Inv n s) {a : Action} (hs : s.step a = some t) {i : UInt32}
    (hi : s.ring.Live s.localTail i) :
    t.ring.view (s.ring.size.slot i) = s.ring.view (s.ring.size.slot i) := by
  cases a with
  | submitOne =>
    simp only [step] at hs
    split at hs
    case h_2 => cases hs
    case h_1 self p todo tail head submitted hactive =>
      have htail : s.localTail = tail := by
        rw [localTail, hactive]
        rfl
      have hsnap : s.snapshot = some head := by
        rw [snapshot, hactive]
      obtain ⟨-, hone⟩ | ⟨-, -, hone⟩ | ⟨-, hroom, -, hone⟩ | ⟨-, hroom, sqe, -, hone⟩ :=
        submitOne_cases self ⟨s.ring, s.heap, tail, head, submitted⟩ p <;>
      simp only [hone, Option.some.injEq] at hs <;> subst hs
      · rfl
      · rfl
      · have hfree := h.free hsnap (htail ▸ hroom)
        exact SqRing.view_write _ (htail ▸ h.direct) (htail ▸ hfree) (htail ▸ hi)
      · have hfree := h.free hsnap (htail ▸ hroom)
        exact SqRing.view_put _ (htail ▸ h.direct) (htail ▸ hfree) (htail ▸ hi)
  | stageCancel =>
    simp only [step] at hs
    split at hs
    case h_2 => cases hs
    case h_1 p tail head hactive =>
      have htail : s.localTail = tail := by
        rw [localTail, hactive]
        rfl
      have hsnap : s.snapshot = some head := by
        rw [snapshot, hactive]
      split_ifs at hs with hfull <;> cases hs
      · rfl
      · have hfree := h.free hsnap (htail ▸ UInt32.not_le.mp hfull)
        exact SqRing.view_put _ (htail ▸ h.direct) (htail ▸ hfree) (htail ▸ hi)
  | kernelRead =>
    obtain ⟨⟨e, ring⟩, hc, rfl⟩ := Option.map_eq_some_iff.mp hs
    obtain ⟨-, hc⟩ := Option.ite_none_left_eq_some.mp hc
    cases hc
    rfl
  | others heap =>
    cases hs
    rfl
  | beginSubmit | beginCancel | endSubmit | endCancel =>
    simp only [step] at hs
    split at hs <;> cases hs
    rfl

theorem submitOne_accepts (hs : s.step .submitOne = some t) (p : OpPtr) :
    t.requests = s.requests ++ [.submit p (s.heap.ops p)] ↔
      (s.heap.ops p).inProgress = false ∧ (t.heap.ops p).inProgress = true := by
  have hnone (hreq : t.requests = s.requests) (hheap : t.heap = s.heap) :
      t.requests = s.requests ++ [.submit p (s.heap.ops p)] ↔
        (s.heap.ops p).inProgress = false ∧ (t.heap.ops p).inProgress = true := by
    rw [hreq, hheap]
    refine iff_of_false (fun heq => ?_) fun h => ?_
    · cases List.self_eq_append_right.mp heq
    · cases h.1.symm.trans h.2
  simp only [step] at hs
  split at hs
  case h_2 => cases hs
  case h_1 self q todo tail head submitted hactive =>
    obtain ⟨-, hone⟩ | ⟨-, -, hone⟩ | ⟨-, -, -, hone⟩ | ⟨hfree, -, sqe, -, hone⟩ :=
      submitOne_cases self ⟨s.ring, s.heap, tail, head, submitted⟩ q
    · simp only [hone, Option.some.injEq] at hs
      subst hs
      exact hnone (by simp) rfl
    · simp only [hone, Option.some.injEq] at hs
      subst hs
      exact hnone rfl rfl
    · simp only [hone, Option.some.injEq] at hs
      subst hs
      exact hnone (by simp) rfl
    · simp only [hone, Option.some.injEq] at hs
      subst hs
      have hne : submitted + 1 ≠ submitted := by grind
      change s.requests ++
        (if submitted + 1 = submitted then [] else [.submit q (s.heap.ops q)]) = _ ↔
          _ ∧ (((s.heap.setInProgress q true).take self q).ops p).inProgress = true
      rw [if_neg hne, List.append_cancel_left_eq, List.singleton_inj, Request.submit.injEq]
      by_cases hp : p = q
      · subst hp
        refine iff_of_true ⟨rfl, rfl⟩ ⟨hfree, ?_⟩
        rw [Heap.take_ops_self, Heap.setInProgress, Heap.modify_ops_self]
      · refine iff_of_false (fun heq => hp heq.1.symm) ?_
        rintro ⟨hfree, hbusy⟩
        rw [Heap.take_ops_ne _ _ hp, Heap.setInProgress, Heap.modify_ops_ne _ _ hp] at hbusy
        cases hfree.symm.trans hbusy

/-- The submission ring never holds more than its size, no entry the kernel has not consumed is
overwritten, and what the kernel reads is what was staged, in order and unmodified: an entry for
each Operation that was claimed and for each cancel. -/
theorem delivers_in_order (h : (system n).Reachable s) :
    (s.ring.tail - s.ring.head).toNat ≤ 2 ^ n.log ∧
    (s.localTail - s.ring.head).toNat ≤ 2 ^ n.log ∧
    (∀ a t, (system n).step s a = some t → ∀ i, s.ring.Live s.localTail i →
      t.ring.view (n.slot i) = s.ring.view (n.slot i)) ∧
    (∀ t, (system n).step s .submitOne = some t → ∀ p,
      t.requests = s.requests ++ [.submit p (s.heap.ops p)] ↔
        (s.heap.ops p).inProgress = false ∧ (t.heap.ops p).inProgress = true) ∧
    ∃ staged, s.read ++ s.unread = s.before ++ staged ∧
      List.Forall₂ (fun r e => Request.Asks e r) s.requests staged := by
  obtain ⟨f, hf, hrel⟩ := (refines_fifo n).reachable h
  refine ⟨hrel.inv.published.trans hrel.inv.bounded, hrel.inv.bounded, ?_,
    fun t hs => submitOne_accepts hs, ?_⟩
  · intro a t hs i hi
    have := hrel.inv.view_step hs hi
    rwa [hrel.inv.size] at this
  · obtain ⟨staged, hsent, hall⟩ := hrel.sent
    refine ⟨staged, ?_, hall⟩
    rw [← hrel.received, ← hrel.queue, ← hsent]
    exact Fifo.received_append_queue hf

/-- A ring of two slots that is about to wrap around 2^32, and two Operations. -/
def wrapping : Submission :=
  { ring := ⟨.two, false, 0xFFFFFFFF, 0xFFFFFFFF, fun _ => 0, fun _ => {}⟩
    heap := ⟨fun p => if p = 32 then .fdsync 3 else .read 8 4 512 p, fun _ => 1⟩
    active := none, before := [], requests := [], read := [] }

/-- Two Operations fill the ring, the batch overflows at the third; `cancel` follows. -/
def wrappingRun : List Action :=
  [.beginSubmit 0 [16, 16, 32, 48], .submitOne, .submitOne, .submitOne, .submitOne, .kernelRead,
    .beginCancel 32, .stageCancel, .endCancel, .kernelRead, .kernelRead]

theorem delivers_in_order_wrapping :
    ∃ s, (system ⟨1, by decide⟩).exec wrapping wrappingRun = some s ∧
      s.read = [{ opcode := .read, fd := 4, off := 512, addr := 16, len := 8, userData := 16 },
        { opcode := .fsync, fd := 3, fsyncFlags := 1, userData := 32 },
        { opcode := .asyncCancel, addr := 32, userData := cancelUserData }] ∧
      ∃ staged, s.read ++ s.unread = s.before ++ staged ∧
        List.Forall₂ (fun r e => Request.Asks e r) s.requests staged := by
  have hrun : ((system ⟨1, by decide⟩).exec wrapping wrappingRun).map read = some
      [{ opcode := .read, fd := 4, off := 512, addr := 16, len := 8, userData := 16 },
        { opcode := .fsync, fd := 3, fsyncFlags := 1, userData := 32 },
        { opcode := .asyncCancel, addr := 32, userData := cancelUserData }] := rfl
  obtain ⟨s, hs, hread⟩ := Option.map_eq_some_iff.mp hrun
  have hinit : (system ⟨1, by decide⟩).init wrapping :=
    ⟨rfl, by decide, fun _ i hi => absurd hi (Nat.not_lt_zero _), rfl, rfl, rfl, rfl⟩
  exact ⟨s, hs, hread, (delivers_in_order (.exec (.init hinit) hs)).2.2.2.2⟩

end Submission

end Caio.Uring
