import Caio.Asyncio.BeforeAwait
import Caio.Uring.Stranded

namespace Caio.Uring

open Asyncio

/-- A call of the loop of `flush` over `io_uring_enter` fails. -/
def enterFails : List Syscall → UInt32 → Bool
  | [], _ => false
  | call :: calls, remaining =>
    remaining != 0 &&
      match call.ret with
      | .error _ => true
      | .ok ret => enterFails calls (remaining - UInt32.ofNat ret)

/-- An `io_uring_enter` of a `flush` with `toSubmit` staged entries fails. -/
def Context.flushFails (k : Context) (toSubmit : UInt32) (needWakeup : Bool)
    (calls : List Syscall) : Bool :=
  if k.sqpoll then needWakeup && calls.head?.any Syscall.fails else enterFails calls toSubmit

/-- `submit` takes an Operation that nobody has claimed. -/
structure Context.Accepts (k : Context) (p : OpPtr) (op : AIOOperation) : Prop where
  uringFd : 0 ≤ k.uringFd
  room : k.sq.tail - k.sq.head < k.sq.size.entries
  opcode : (submitSqe p op).isSome

namespace World

variable {c : CtxId} {p : OpPtr} {s t : World}

theorem submit_single_ops (hfd : 0 ≤ (s.ctxs c).uringFd) :
    s.submit c [.operation p] = s.submitOps c [p] := by
  unfold World.submit
  rw [if_neg (Int32.not_lt.mpr hfd), if_neg (by simp)]
  rfl

theorem submit_accepts (hfree : (s.heap.ops p).inProgress = false)
    (hacc : (s.ctxs c).Accepts p (s.heap.ops p)) :
    (s.submit c [.operation p]).2 = .ok 1 ∧
      ((s.submit c [.operation p]).1.heap.ops p).inProgress = true ∧
      ((s.submit c [.operation p]).1.ctxs c).sqpoll = (s.ctxs c).sqpoll ∧
      ((s.submit c [.operation p]).1.ctxs c).uringFd = (s.ctxs c).uringFd ∧
      ((s.submit c [.operation p]).1.ctxs c).cq = (s.ctxs c).cq ∧
      ((s.submit c [.operation p]).1.ctxs c).sq.tail -
        ((s.submit c [.operation p]).1.ctxs c).sq.head =
        (s.ctxs c).sq.tail + 1 - (s.ctxs c).sq.head := by
  rw [submit_single_ops hacc.uringFd, submitOps]
  unfold Uring.submit
  obtain ⟨hp, -⟩ | ⟨-, hfull, -⟩ | ⟨-, -, hsqe, -⟩ | ⟨-, -, sqe, -, hone⟩ :=
    submitOne_cases c ⟨(s.ctxs c).sq, s.heap, (s.ctxs c).sq.tail, (s.ctxs c).sq.head, 0⟩ p
  · rw [show (s.heap.ops p).inProgress = true from hp] at hfree
    cases hfree
  · exact absurd hacc.room (UInt32.not_lt.mpr hfull)
  · have hsome := hacc.opcode
    rw [show submitSqe p (s.heap.ops p) = none from hsqe] at hsome
    cases hsome
  · simp [submitLoop, hone, SubmitLoop.stage, SqRing.publish, Heap.setInProgress]

theorem submit_rejects (hfree : (s.heap.ops p).inProgress = false)
    (hrej : ¬(s.ctxs c).Accepts p (s.heap.ops p)) :
    (s.submit c [.operation p]).2 ≠ .ok 1 ∧
      ((s.submit c [.operation p]).1.heap.ops p).inProgress = false := by
  by_cases hfd : 0 ≤ (s.ctxs c).uringFd
  · rw [submit_single_ops hfd, submitOps]
    unfold Uring.submit
    obtain ⟨hp, -⟩ | ⟨-, -, hone⟩ | ⟨-, -, -, hone⟩ | ⟨-, hroom, sqe, hsqe, -⟩ :=
      submitOne_cases c ⟨(s.ctxs c).sq, s.heap, (s.ctxs c).sq.tail, (s.ctxs c).sq.head, 0⟩ p
    · rw [show (s.heap.ops p).inProgress = true from hp] at hfree
      cases hfree
    · simp [submitLoop, hone, hfree]
    · simp [submitLoop, hone, hfree]
    · refine absurd ⟨hfd, hroom, ?_⟩ hrej
      rw [show submitSqe p (s.heap.ops p) = some sqe from hsqe]
      rfl
  · unfold World.submit
    rw [if_pos (Int32.not_le.mp hfd)]
    exact ⟨by simp, hfree⟩

theorem refill_size (r : CqRing) (es : List Cqe) : (Context.refill r es).1.size = r.size := by
  induction es generalizing r with
  | nil => rfl
  | cons e es ih =>
    unfold Context.refill
    split_ifs
    · rfl
    · exact ih (r.post e)

theorem cqSize_kept (c : CtxId) (n : RingSize) : Kept c fun s => (s.ctxs c).cq.size = n where
  kernel {s t a} hn hs := by
    obtain ⟨-, hs⟩ := Option.ite_none_left_eq_some.mp hs
    cases a with
    | consume =>
      obtain ⟨_, -, rfl⟩ := Option.map_eq_some_iff.mp hs
      rwa [setCtx_ctxs_self]
    | transfer i data =>
      simp only at hs
      split at hs
      · cases hs
      · split_ifs at hs
        cases hs
        exact hn
    | complete i res late =>
      simp only at hs
      split at hs
      · cases hs
      · cases hs
        rw [setCtx_ctxs_self]
        unfold Context.post
        split_ifs <;> exact hn
  backlog {s} hn := by
    rw [setCtx_ctxs_self]
    exact (refill_size (s.ctxs c).cq (s.ctxs c).backlog).trans hn
  drain {s} max hn := by
    obtain ⟨heap, cq, scan, es, hrun, hd⟩ := drainCq_spec s.heap (s.ctxs c).cq max
    simp only [World.drain, hrun, setCtx_ctxs_self]
    exact hd.size.trans hn

theorem drain_ok (h : Inv s) (hsmall : (s.ctxs c).cq.size.log < 31) (max : UInt32) :
    ∃ n, (s.drain c max).2 = .ok n := by
  apply drain_returns
  have hroom := (h.rings c).cqRoom
  have hreal : (completions (s.ctxs c).cq.queue).length ≤ (s.ctxs c).cq.queue.length :=
    List.length_filterMap_le ..
  have hpow : 2 ^ (s.ctxs c).cq.size.log ≤ 2 ^ 30 := Nat.pow_le_pow_right (by decide) (by omega)
  rw [CqRing.queue, RingBuffer.window_length] at hreal
  rw [CqRing.queue]
  omega

theorem kernelRun_heap {as : List KernelStep} (hs : s.kernelRun c as = some t) :
    t.heap = s.heap := by
  apply kernelRun_invariant (P := fun u => u.heap = s.heap) ?_ rfl hs
  intro u a v hu hv
  exact (kernelStep_heap hv).trans hu

/-- The loop raises exactly if one of its calls fails. -/
theorem enterAll_raises {calls : List Syscall} {remaining : UInt32} {r : Except PyErr Unit}
    (hrun : enterAll c calls remaining s = some (t, r)) : t.heap = s.heap ∧
      if enterFails calls remaining then ∃ e, r = .error e else r = .ok () := by
  induction calls generalizing s remaining with
  | nil =>
    obtain ⟨-, heq⟩ := Option.ite_none_right_eq_some.mp hrun
    cases heq
    exact ⟨rfl, rfl⟩
  | cons call calls ih =>
    unfold enterAll at hrun
    unfold enterFails
    split_ifs at hrun with hzero
    · cases hrun
      rw [hzero]
      exact ⟨rfl, rfl⟩
    · obtain ⟨u, hu, hrun⟩ := Option.bind_eq_some_iff.mp hrun
      have hheap := kernelRun_heap hu
      rw [bne_iff_ne.mpr hzero, Bool.true_and]
      cases hcall : call.ret with
      | error errno =>
        rw [hcall] at hrun
        cases hrun
        exact ⟨hheap, _, rfl⟩
      | ok n =>
        rw [hcall] at hrun
        obtain ⟨hsame, hiff⟩ := ih hrun
        exact ⟨hsame.trans hheap, hiff⟩

/-- `flush` raises exactly if one of its calls fails, and then it has not drained. -/
theorem flush_raises (h : Inv s) (hfd : 0 ≤ (s.ctxs c).uringFd)
    (hsmall : (s.ctxs c).cq.size.log < 31) {needWakeup : Bool} {calls : List Syscall}
    {r : Except PyErr ℕ} (hrun : s.flush c needWakeup calls = some (t, r)) :
    if (s.ctxs c).flushFails ((s.ctxs c).sq.tail - (s.ctxs c).sq.head) needWakeup calls then
      (∃ e, r = .error e) ∧ t.heap = s.heap
    else ∃ n, r = .ok n := by
  have hok : ∀ {u : World} {max : UInt32}, Inv u → (u.ctxs c).cq.size = (s.ctxs c).cq.size →
      u.drain c max = (t, r) → ∃ n, r = .ok n := by
    intro u max hu hsize heq
    have := drain_ok hu (hsize ▸ hsmall) max
    rwa [heq] at this
  unfold World.flush at hrun
  simp only at hrun
  rw [if_neg (Int32.not_lt.mpr hfd)] at hrun
  unfold Context.flushFails
  split_ifs at hrun with hpoll hwake hzero
  · rw [if_pos hpoll, hwake, Bool.true_and]
    cases calls with
    | nil => cases hrun
    | cons call calls =>
      obtain ⟨u, hu, hrun⟩ := Option.map_eq_some_iff.mp hrun
      have hinv := (Inv.kept c).kernelRun h hu
      have hsize := (cqSize_kept c _).kernelRun rfl hu
      cases hcall : call.ret with
      | error errno =>
        rw [hcall] at hrun
        cases hrun
        rw [List.head?_cons, Option.any_some, Syscall.fails, hcall]
        exact ⟨⟨_, rfl⟩, kernelRun_heap hu⟩
      | ok n =>
        rw [hcall] at hrun
        rw [List.head?_cons, Option.any_some, Syscall.fails, hcall]
        exact hok hinv hsize hrun
  · rw [Bool.not_eq_true] at hwake
    rw [if_pos hpoll, hwake, Bool.false_and]
    exact hok h rfl (Option.some.inj hrun)
  · cases hrun
    rw [if_neg hpoll, hzero]
    cases calls <;> exact ⟨0, rfl⟩
  · obtain ⟨⟨u, e⟩, hu, hrun⟩ := Option.map_eq_some_iff.mp hrun
    rw [if_neg hpoll]
    obtain ⟨hheap, hiff⟩ := enterAll_raises hu
    have hinv := (Inv.kept c).enterAll h hu
    have hsize := (cqSize_kept c _).enterAll rfl hu
    split_ifs at hiff ⊢
    · obtain ⟨e, rfl⟩ := hiff
      cases hrun
      exact ⟨⟨e, rfl⟩, hheap⟩
    · subst hiff
      exact hok hinv hsize hrun

/-- The Operation is unclaimed, and in no ring and not in the kernel. -/
def Untouched (s : World) (p : OpPtr) : Prop :=
  (s.heap.ops p).inProgress = false ∧ ∀ d, p ∉ (s.ctxs d).carried

theorem Inv.untouched (h : Inv s) (hp : p ≠ cancelUserData)
    (hfree : (s.heap.ops p).inProgress = false) : s.Untouched p := by
  refine ⟨hfree, fun d hmem => ?_⟩
  have hreq : p ∈ (s.ctxs d).requests := List.mem_filter.mpr ⟨hmem, by simp [isOperation, hp]⟩
  have hfly := ((h.owner.carries p d).mp hreq).1
  simp [AIOOperation.inFlight, hfree] at hfly

end World

namespace Adapter

variable {c : CtxId} {p : OpPtr} {s t : Adapter} {callback : Callback} {slot needWakeup : Bool}
  {calls : List Syscall}

def hooks (c : CtxId) (p : OpPtr) (callback : Callback) (needWakeup : Bool)
    (calls : List Syscall) : Hooks Adapter where
  setCallback s := { s with world := { s.world with
    heap := s.world.heap.modify p fun op => op.setCallback callback } }
  submit s := some ({ s with world := (s.world.submit c [.operation p]).1 },
    (s.world.submit c [.operation p]).2)
  onSubmitted s := s.onSubmitted c needWakeup calls

theorem submit_eq : s.submit c (.operation p) callback slot needWakeup calls =
    (hooks c p callback needWakeup calls).beforeAwait slot s := by
  unfold Adapter.submit Hooks.beforeAwait Hooks.submitOp Adapter.submitOp
  cases slot with
  | false => rfl
  | true =>
    simp only [hooks, Bool.true_eq_false, if_false, Option.map_some, Option.bind_some]
    generalize World.submit _ c [.operation p] = r
    obtain ⟨w, d⟩ := r
    cases d with
    | error e => rfl
    | ok n =>
      by_cases hone : n = 1
      · simp only [if_pos hone]
      · simp only [if_neg hone]

/-- An eager adapter in a program, and an Operation that the program may submit. -/
structure Ready (c : CtxId) (p : OpPtr) (s : Adapter) : Prop where
  reachable : World.system.Reachable s.world
  eager : s.deferred = false
  held : 0 < s.world.userRefs p
  free : (s.world.heap.ops p).inProgress = false
  /-- The kernel makes no ring of `2^31` entries. -/
  small : (s.ctx c).cq.size.log < 31

/-- The Operation is staged and an `io_uring_enter` of the flush fails. -/
def Strands (c : CtxId) (p : OpPtr) (slot needWakeup : Bool) (calls : List Syscall)
    (s : Adapter) : Prop :=
  slot = true ∧ (s.ctx c).Accepts p (s.world.heap.ops p) ∧
    (s.ctx c).flushFails ((s.ctx c).sq.tail + 1 - (s.ctx c).sq.head) needWakeup calls = true

theorem Ready.setCallback (h : Ready c p s) (callback : Callback) (needWakeup : Bool)
    (calls : List Syscall) :
    let u := (hooks c p callback needWakeup calls).setCallback s
    u.world.Inv ∧ (u.world.heap.ops p).inProgress = false ∧
      ((u.ctx c).Accepts p (u.world.heap.ops p) ↔ (s.ctx c).Accepts p (s.world.heap.ops p)) := by
  have hreach : World.system.Reachable
    ((hooks c p callback needWakeup calls).setCallback s).world :=
    .step (a := .setCallback p callback) h.reachable trivial (if_pos h.held)
  have hop : ((hooks c p callback needWakeup calls).setCallback s).world.heap.ops p =
      (s.world.heap.ops p).setCallback callback :=
    Heap.modify_ops_self s.world.heap p fun op => op.setCallback callback
  refine ⟨World.inv_of_reachable hreach, ?_, ?_⟩
  · rw [hop]
    exact h.free
  · rw [hop]
    exact ⟨fun ha => ⟨ha.uringFd, ha.room, ha.opcode⟩, fun ha => ⟨ha.uringFd, ha.room, ha.opcode⟩⟩

theorem untouched_iff (h : Ready c p s) {r : Except PyErr Unit}
    (hrun : (hooks c p callback needWakeup calls).beforeAwait slot s = some (t, r)) :
    ((∃ e, r = .error e) → t.world.Untouched p) ↔ ¬s.Strands c p slot needWakeup calls := by
  have hne : p ≠ cancelUserData := by
    have hinv := World.inv_of_reachable h.reachable
    exact hinv.ne_cancel (hinv.refcnt_pos h.held)
  obtain ⟨hinv, hfree, haccepts⟩ := h.setCallback callback needWakeup calls
  have hargs : ∀ a ∈ [Arg.operation p],
      ((hooks c p callback needWakeup calls).setCallback s).world.Holds a := by
    intro a ha
    rw [List.mem_singleton.mp ha]
    exact h.held
  have hsubmitted := hinv.submit (c := c) hargs
  obtain ⟨hslot, rfl, rfl⟩ | ⟨-, n, hsub, hn, -⟩ | ⟨hslot, u, hsub, hflush⟩ :=
    Hooks.beforeAwait_cases hrun
  -- cancelled at the semaphore: only the callback has been installed
  · refine iff_of_true (fun _ => hinv.untouched hne hfree) fun hst => ?_
    rw [hst.1] at hslot
    cases hslot
  -- the backend has not taken the Operation
  · cases hsub
    by_cases hacc : (s.ctx c).Accepts p (s.world.heap.ops p)
    · exact absurd (World.submit_accepts hfree (haccepts.mpr hacc)).1 hn
    · obtain ⟨-, hleft⟩ := World.submit_rejects hfree (haccepts.not.mpr hacc)
      exact iff_of_true (fun _ => hsubmitted.untouched hne hleft) fun hst => hacc hst.2.1
  -- it is staged, and what the flush comes to decides
  · obtain ⟨rfl, hone⟩ := Prod.mk.inj (Option.some.inj hsub)
    have hacc : (s.ctx c).Accepts p (s.world.heap.ops p) := by
      by_contra hrej
      exact (World.submit_rejects hfree (haccepts.not.mpr hrej)).1 hone
    obtain ⟨-, hclaimed, hpoll, hfd, hcq, htail⟩ :=
      World.submit_accepts hfree (haccepts.mpr hacc)
    simp only [hooks, Adapter.onSubmitted] at hflush
    rw [if_pos (.inl h.eager)] at hflush
    obtain ⟨⟨w, d⟩, hw, heq⟩ := Option.map_eq_some_iff.mp hflush
    cases heq
    have hraises := World.flush_raises hsubmitted (hfd ▸ hacc.uringFd)
      (by rw [hcq]; exact h.small) hw
    rw [htail, show Context.flushFails _ _ _ _ = (s.ctx c).flushFails
      ((s.ctx c).sq.tail + 1 - (s.ctx c).sq.head) needWakeup calls by
        rw [Context.flushFails, hpoll]; rfl] at hraises
    split_ifs at hraises with hfails
    -- a failing call ends the flush before the drain, so the claim stands
    · obtain ⟨⟨e, rfl⟩, hheap⟩ := hraises
      refine iff_of_false (fun hleft => ?_) fun hno => hno ⟨hslot, hacc, hfails⟩
      have hfree := (hleft ⟨e, rfl⟩).1
      rw [hheap, hclaimed] at hfree
      cases hfree
    · obtain ⟨n, rfl⟩ := hraises
      refine iff_of_true (fun ⟨e, he⟩ => by cases he) fun hst => hfails hst.2.2

end Adapter

end Caio.Uring

namespace Caio.Asyncio

/-- A `submit` that raises before its await leaves its Operation unclaimed and to nobody: always on
`python_aio`, `thread_aio` and `linux_aio`, and on `linux_uring` exactly when it does not raise for
an `io_uring_enter` of the flush that follows the submission. -/
theorem failed_submit_untouched_iff (callback : Callback) (slot : Bool) :
    (∀ (s t : PythonAio.World) (k : CtxId) (p : PythonAio.OpId)
      (as : List PythonAio.World.Action) (e : PyErr),
      PythonAio.World.system.Reachable s → (s.ops p).inProgress = false →
      (PythonAio.World.hooks k p callback as).beforeAwait slot s = some (t, .error e) →
      t.Unshared s.calls.length p → t.Untouched p) ∧
    (∀ (s t : ThreadAio.World) (k : CtxId) (p : ThreadAio.OpPtr) (e : PyErr),
      ThreadAio.World.system.Reachable s → (s.heap.ops p).inProgress = false →
      (ThreadAio.World.hooks k p callback).beforeAwait slot s = some (t, .error e) →
      t.Untouched p) ∧
    (∀ (s t : LinuxAio.World) (c : CtxId) (p : LinuxAio.OpPtr) (answer : Except Int32 ℕ)
      (e : PyErr),
      LinuxAio.World.system.Reachable s → (s.heap.ops p).inProgress = false →
      (∀ n, answer = .ok n → n ≤ 1) →
      (LinuxAio.World.hooks c p callback answer).beforeAwait slot s = some (t, .error e) →
      t.Untouched p) ∧
    ∀ (s t : Uring.Adapter) (c : CtxId) (p : Uring.OpPtr) (needWakeup : Bool)
      (calls : List Uring.Syscall) (r : Except PyErr Unit),
      s.Ready c p →
      (Uring.Adapter.hooks c p callback needWakeup calls).beforeAwait slot s = some (t, r) →
      (((∃ e, r = .error e) → t.world.Untouched p) ↔ ¬s.Strands c p slot needWakeup calls) :=
  ⟨fun _ _ _ _ _ _ hs hfree hrun => PythonAio.World.untouched_of_raised hs hfree hrun,
    fun _ _ _ _ _ hs hfree hrun => ThreadAio.World.untouched_of_raised hs hfree hrun,
    fun _ _ _ _ _ _ hs hfree hanswer hrun =>
      LinuxAio.World.untouched_of_raised hs hfree hanswer hrun,
    fun _ _ _ _ _ _ _ hready hrun => Uring.Adapter.untouched_iff hready hrun⟩

/-- An eager adapter over a ring of two slots, after some steps of the program. -/
def eagerAfter (as : List Uring.World.Action) : Uring.Adapter :=
  { world := (Uring.World.system.exec Uring.World.initial
      (.newContext 0 Uring.World.fourSlots :: as)).getD Uring.World.initial
    deferred := false }

theorem eagerAfter_ready {as : List Uring.World.Action} {p : Uring.OpPtr}
    (hrun : ((Uring.World.system.exec Uring.World.initial
      (.newContext 0 Uring.World.fourSlots :: as)).any fun s =>
        decide (0 < s.userRefs p) && !(s.heap.ops p).inProgress &&
          decide ((s.ctxs 0).cq.size.log < 31)) = true) : (eagerAfter as).Ready 0 p := by
  obtain ⟨s, hs, hp⟩ := (Option.any_eq_true _ _).mp hrun
  have hworld : (eagerAfter as).world = s := by
    show Option.getD _ _ = s
    rw [hs]
    rfl
  simp only [Bool.and_eq_true, decide_eq_true_eq, Bool.not_eq_true'] at hp
  obtain ⟨⟨hheld, hfree⟩, hsmall⟩ := hp
  refine ⟨?_, rfl, ?_, ?_, ?_⟩
  · rw [hworld]
    exact .exec (.init Uring.World.initial_init) hs
  · rw [hworld]
    exact hheld
  · rw [hworld]
    exact hfree
  · rw [Uring.Adapter.ctx, hworld]
    exact hsmall

def fullRing : List Uring.World.Action :=
  [.newFsync 16 5, .newFsync 32 5, .newFsync 48 5, .submit 0 [.operation 16, .operation 32]]

theorem failed_submit_untouched_full :
    ∃ t, (Uring.Adapter.hooks 0 48 7 false []).beforeAwait true (eagerAfter fullRing) =
      some (t, .error (.overflowError "io_uring SQ ring full")) ∧ t.world.Untouched 48 := by
  have hrun : (((Uring.Adapter.hooks 0 48 7 false []).beforeAwait true (eagerAfter fullRing)).any
      fun r => decide (r.2 = .error (.overflowError "io_uring SQ ring full"))) = true := by
    decide +kernel
  obtain ⟨⟨t, r⟩, ht, hr⟩ := (Option.any_eq_true _ _).mp hrun
  obtain rfl : r = .error (.overflowError "io_uring SQ ring full") := of_decide_eq_true hr
  refine ⟨t, ht, ?_⟩
  refine ((failed_submit_untouched_iff 7 true).2.2.2 _ t 0 48 false [] _
    (eagerAfter_ready (by decide +kernel)) ht).mpr ?_ ⟨_, rfl⟩
  rintro ⟨-, -, hfails⟩
  revert hfails
  decide +kernel

/-- The flush fails with `EAGAIN`: the caller of `submit` has got the exception, and a later `flush`
executes the Operation. -/
theorem failed_submit_executes :
    (eagerAfter [.newFsync 16 5]).Ready 0 16 ∧
      ∃ t, (Uring.Adapter.hooks 0 16 7 false [⟨[], .error 11⟩]).beforeAwait true
          (eagerAfter [.newFsync 16 5]) = some (t, .error (.systemError 11)) ∧
        ¬t.world.Untouched 16 ∧
        ∃ u, t.world.flush 0 false [⟨[.consume, .complete 0 0 false], .ok 1⟩] = some (u, .ok 1) ∧
          u.deliveries = [(16, 0)] := by
  refine ⟨eagerAfter_ready (by decide +kernel), ?_⟩
  have hrun : (((Uring.Adapter.hooks 0 16 7 false [⟨[], .error 11⟩]).beforeAwait true
      (eagerAfter [.newFsync 16 5])).any fun r =>
        decide (r.2 = .error (.systemError 11)) && (r.1.world.heap.ops 16).inProgress &&
          (r.1.world.flush 0 false [⟨[.consume, .complete 0 0 false], .ok 1⟩]).any fun u =>
            decide (u.2 = .ok 1) && decide (u.1.deliveries = [(16, 0)])) = true := by
    decide +kernel
  obtain ⟨⟨t, r⟩, ht, hr⟩ := (Option.any_eq_true _ _).mp hrun
  simp only [Bool.and_eq_true, decide_eq_true_eq] at hr
  obtain ⟨⟨rfl, hclaimed⟩, hlater⟩ := hr
  obtain ⟨⟨u, n⟩, hu, hdone⟩ := (Option.any_eq_true _ _).mp hlater
  simp only [Bool.and_eq_true, decide_eq_true_eq] at hdone
  obtain ⟨rfl, hdeliveries⟩ := hdone
  refine ⟨t, ht, fun hleft => ?_, u, hu, hdeliveries⟩
  rw [hleft.1] at hclaimed
  cases hclaimed

end Caio.Asyncio
