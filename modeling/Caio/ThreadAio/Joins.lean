import Mathlib.Algebra.Order.BigOperators.Group.List
import Mathlib.Algebra.Order.Ring.Nat
import Mathlib.Data.Prod.Lex
import Mathlib.Order.WellFounded
import Caio.Lib.Progress
import Caio.ThreadAio.Teardown

namespace Caio.ThreadAio

open Counting Relation

/-- An upper bound on the steps that a task still takes. -/
def JobPc.left : JobPc → ℕ
  | .queued => 8
  | .popped => 7
  | .taken _ _ => 6
  | .recorded _ _ => 5
  | .published _ _ => 4
  | .calling _ _ _ => 3
  | .called _ _ _ => 2
  | .leaving _ _ _ => 1
  | .finished _ _ _ => 0

/-- The steps of `threadpool_destroy` on `threadCount` workers that are left. -/
def DestroyPc.left (threadCount : ℕ) : DestroyPc → ℕ
  | .start => threadCount + 2
  | .join n => threadCount - n + 1
  | .returned => 0

namespace World

variable {s t : World} {j : ℕ} {b : Job}

theorem Inv.next_step (h : Inv s) (hb : s.jobs[j]? = some b) (hqueued : b.pc ≠ .queued) :
    (∃ k o callback, b.pc = .finished k o callback) ∨
      (∃ o callback, b.pc = .called (some b.ctx) o callback) ∨
        ∃ a heap pc es, a.task? = some j ∧
          s.step a = some ((s.withHeap heap).setJob j b pc es) ∧ pc.left < b.pc.left := by
  have hok := h.job j b hb
  rw [Job.Ok] at hok
  cases hpc : b.pc with
  | queued => exact absurd hpc hqueued
  | popped =>
    cases hcall : (s.heap.ops b.op).take.syscall with
    | none =>
      refine .inr (.inr ⟨.take j, s.heap.modify b.op (·.take),
        .called (s.heap.ops b.op).ctx none none, [], rfl, ?_, (by decide : 2 < 7)⟩)
      simp only [World.step, onJob_eq hb, hpc, hcall]
    | some call =>
      refine .inr (.inr ⟨.take j, s.heap.modify b.op (·.take),
        .taken (s.heap.ops b.op).ctx call, [], rfl, ?_, Nat.lt_succ_self 6⟩)
      simp only [World.step, onJob_eq hb, hpc, hcall]
  | taken ctx call =>
    refine .inr (.inr ⟨.syscall j 0 0, s.heap.modify b.op (·.record 0 0),
      .recorded ctx ⟨call, 0, 0⟩, [.syscall call], rfl, ?_, Nat.lt_succ_self 5⟩)
    simp only [World.step, onJob_eq hb, hpc]
  | recorded ctx o =>
    refine .inr (.inr ⟨.publish j, s.heap.modify b.op (·.publish), .published ctx o, [.publish],
      rfl, ?_, Nat.lt_succ_self 4⟩)
    simp only [World.step, onJob_eq hb, hpc]
  | published ctx o =>
    cases hcallback : (s.heap.ops b.op).callback with
    | none =>
      refine .inr (.inr ⟨.callback j, s.heap, .called ctx (some o) none, [], rfl, ?_,
        (by decide : 2 < 4)⟩)
      simp only [World.step, onJob_eq hb, hpc, hcallback]
      rfl
    | some callback =>
      refine .inr (.inr ⟨.callback j, s.heap, .calling ctx o callback,
        [.invoke callback o.result], rfl, ?_, Nat.lt_succ_self 3⟩)
      simp only [World.step, onJob_eq hb, hpc, hcallback]
      rfl
  | calling ctx o callback =>
    refine .inr (.inr ⟨.callbackReturns j, s.heap, .called ctx (some o) (some callback), [], rfl,
      ?_, Nat.lt_succ_self 2⟩)
    simp only [World.step, onJob_eq hb, hpc]
    rfl
  | called ctx o callback =>
    rw [hpc] at hok
    exact .inr (.inl ⟨o, callback, by rw [hok.1]⟩)
  | leaving k o callback =>
    refine .inr (.inr ⟨.releaseOp j,
      s.heap.modify b.op fun op => { op with refcnt := op.refcnt - 1 }, .finished k o callback,
      [.releaseOp], rfl, ?_, Nat.lt_succ_self 0⟩)
    simp only [World.step, onJob_eq hb, hpc]
  | finished k o callback => exact .inl ⟨k, o, callback, rfl⟩

end World

namespace Process

variable {s t : Process} {a : Action} {d : Destroy} {w : WorkerId} {k : CtxId} {i j : ℕ}

def jobsLeft (s : Process) : ℕ := (s.world.jobs.map fun b => b.pc.left).sum

def workerLeft (s : Process) (w : WorkerId) : ℕ :=
  (!s.exited w).toNat + (s.running w).isSome.toNat

/-- What is left for a call of `threadpool_destroy` and for the workers that it joins. -/
def destroyLeft (s : Process) (d : Destroy) : ℕ :=
  d.pc.left (s.threadCount d.ctx) +
    ((List.range (s.threadCount d.ctx)).map fun n => s.workerLeft ⟨d.ctx, n⟩).sum

def left (s : Process) : ℕ ×ₗ ℕ := toLex (s.jobsLeft, (s.destroys.map s.destroyLeft).sum)

theorem left_lt_of_jobs (h : t.jobsLeft < s.jobsLeft) : t.left < s.left := Prod.Lex.left _ _ h

theorem left_lt_of_destroys (hjobs : t.jobsLeft = s.jobsLeft)
    (h : (t.destroys.map t.destroyLeft).sum < (s.destroys.map s.destroyLeft).sum) :
    t.left < s.left := by
  rw [left, left, hjobs]
  exact Prod.Lex.right _ h

theorem jobsLeft_set {b : Job} {pc : JobPc} (hb : s.world.jobs[j]? = some b)
    (hjobs : t.world.jobs = s.world.jobs.set j { b with pc }) (hpc : pc.left < b.pc.left) :
    t.jobsLeft < s.jobsLeft := by
  have hsum := sum_map_set hb { b with pc } fun b => b.pc.left
  rw [jobsLeft, jobsLeft, hjobs]
  change _ + b.pc.left = _ + pc.left at hsum
  omega

theorem left_lt_of_worker (hjobs : t.world.jobs = s.world.jobs)
    (hdestroys : t.destroys = s.destroys) (hcount : t.threadCount = s.threadCount)
    (hmem : d ∈ s.destroys) (hctx : w.ctx = d.ctx)
    (hindex : w.index < s.threadCount w.ctx) (hle : ∀ v, t.workerLeft v ≤ s.workerLeft v)
    (hlt : t.workerLeft w < s.workerLeft w) : t.left < s.left := by
  apply left_lt_of_destroys
  · rw [jobsLeft, jobsLeft, hjobs]
  · rw [hdestroys]
    apply List.sum_lt_sum
    · intro e _
      rw [destroyLeft, destroyLeft, hcount]
      exact Nat.add_le_add_left (List.sum_le_sum fun n _ => hle _) _
    · refine ⟨d, hmem, ?_⟩
      rw [destroyLeft, destroyLeft, hcount]
      apply Nat.add_lt_add_left
      apply List.sum_lt_sum
      · exact fun n _ => hle _
      · refine ⟨w.index, List.mem_range.mpr (hctx ▸ hindex), ?_⟩
        rw [← hctx]
        exact hlt

theorem threadpoolFree_rest (s : Process) (d : Destroy) :
    let u := if d.err = none then s.threadpoolFree d.ctx else s
    u.destroys = s.destroys ∧ u.world = s.world ∧ u.running = s.running ∧
      u.exited = s.exited ∧ u.threadCount = s.threadCount := by
  unfold threadpoolFree
  split_ifs <;> exact ⟨rfl, rfl, rfl, rfl, rfl⟩

theorem threadpoolDestroy_lowers (hd : s.destroys[i]? = some d) (hpc : d.pc ≠ .returned)
    (hs : s.threadpoolDestroy i d = some t) : t.left < s.left := by
  suffices hset : ∃ e : Destroy, t.destroys = s.destroys.set i e ∧ e.ctx = d.ctx ∧
      e.pc.left (s.threadCount d.ctx) < d.pc.left (s.threadCount d.ctx) ∧
      t.world.jobs = s.world.jobs ∧ t.running = s.running ∧ t.exited = s.exited ∧
      t.threadCount = s.threadCount by
    obtain ⟨e, hdestroys, hctx, hlt, hjobs, hrunning, hexited, hcount⟩ := hset
    apply left_lt_of_destroys
    · rw [jobsLeft, jobsLeft, hjobs]
    · have hsame : t.destroyLeft = s.destroyLeft := by
        funext e
        simp only [destroyLeft, workerLeft, hrunning, hexited, hcount]
      rw [hdestroys, hsame]
      have hsum := sum_map_set hd e s.destroyLeft
      have hless : s.destroyLeft e < s.destroyLeft d := by
        rw [destroyLeft, destroyLeft, hctx]
        exact Nat.add_lt_add_right hlt _
      omega
  unfold threadpoolDestroy at hs
  split at hs
  case h_1 hstart =>
    split at hs
    · cases hs
      refine ⟨_, rfl, rfl, ?_, rfl, rfl, rfl, rfl⟩
      rw [hstart]
      exact Nat.succ_pos _
    · obtain ⟨world, hworld, rfl⟩ := Option.map_eq_some_iff.mp hs
      obtain ⟨-, heq⟩ := Option.ite_none_left_eq_some.mp hworld
      cases heq
      refine ⟨_, rfl, rfl, ?_, rfl, rfl, rfl, rfl⟩
      rw [hstart]
      exact Nat.lt_succ_self _
  case h_2 n hjoin =>
    have hnext : n < s.threadCount d.ctx → (DestroyPc.join (n + 1)).left (s.threadCount d.ctx) <
        d.pc.left (s.threadCount d.ctx) := by
      intro hlt
      rw [hjoin]
      show s.threadCount d.ctx - (n + 1) + 1 < s.threadCount d.ctx - n + 1
      omega
    split at hs
    case isTrue hlt =>
      split at hs
      · cases hs
        exact ⟨_, rfl, rfl, hnext hlt, rfl, rfl, rfl, rfl⟩
      · obtain ⟨-, hs⟩ := Option.ite_none_right_eq_some.mp hs
        cases hs
        exact ⟨_, rfl, rfl, hnext hlt, rfl, rfl, rfl, rfl⟩
    case isFalse =>
      cases hs
      refine ⟨{ d with pc := .returned }, ?_, rfl, ?_, ?_, ?_, ?_, ?_⟩
      · rw [setDestroy, (threadpoolFree_rest s d).1]
      · rw [hjoin]
        exact Nat.succ_pos _
      · exact congrArg World.jobs (threadpoolFree_rest s d).2.1
      · exact (threadpoolFree_rest s d).2.2.1
      · exact (threadpoolFree_rest s d).2.2.2.1
      · exact (threadpoolFree_rest s d).2.2.2.2
  case h_3 hreturned => exact absurd hreturned hpc

theorem Inv.destroy_progress (h : Inv s) (hd : s.destroys[i]? = some d) :
    d.pc = .returned ∨ (∃ t, s.step (.destroy i) = some t) ∨
      ∃ n < s.threadCount d.ctx, d.pc = .join n ∧ s.exited ⟨d.ctx, n⟩ = false := by
  have hmem : d ∈ s.destroys := List.mem_of_getElem? hd
  have hstep : s.step (.destroy i) = s.threadpoolDestroy i d := by
    rw [Process.step, hd]
    rfl
  cases hpc : d.pc with
  | returned => exact .inl rfl
  | start =>
    have hcall := h.calls d hmem
    rw [DestroyOk, hpc] at hcall
    refine .inr (.inl ?_)
    rw [hstep, Process.threadpoolDestroy, hpc, World.step, h.pool_closed hmem]
    simp only [hcall]
    exact ⟨_, rfl⟩
  | join n =>
    by_cases hlt : n < s.threadCount d.ctx
    · cases hexited : s.exited ⟨d.ctx, n⟩ with
      | false => exact .inr (.inr ⟨n, hlt, rfl, hexited⟩)
      | true =>
        refine .inr (.inl ?_)
        rw [hstep, Process.threadpoolDestroy, hpc]
        simp only [if_pos hlt, hexited]
        split
        · exact ⟨_, rfl⟩
        · exact ⟨_, rfl⟩
    · refine .inr (.inl ?_)
      rw [hstep, Process.threadpoolDestroy, hpc]
      simp only [if_neg hlt]
      exact ⟨_, rfl⟩

/-- A worker that is joined has something to do, unless it waits for another pool. -/
theorem Inv.worker_lowers {n : ℕ} (h : Inv s) (hmem : d ∈ s.destroys) (hjoin : d.pc = .join n)
    (hlt : n < s.threadCount d.ctx) (hexited : s.exited ⟨d.ctx, n⟩ = false)
    (hfree : s.destroying (.worker ⟨d.ctx, n⟩) = false) :
    ∃ a t, Careful s a ∧ s.step a = some t ∧ t.left < s.left := by
  have hcall := h.calls d hmem
  rw [DestroyOk, hjoin] at hcall
  cases hrun : s.running ⟨d.ctx, n⟩ with
  | none =>
    by_cases hcount : (s.world.threadpool d.ctx).count = 0
    · refine ⟨.exit ⟨d.ctx, n⟩,
        { s with exited := Function.update s.exited ⟨d.ctx, n⟩ true }, trivial,
        if_pos ⟨hlt, hrun, hcall.1, hcount⟩, ?_⟩
      apply left_lt_of_worker (s := s) (w := ⟨d.ctx, n⟩)
        (t := { s with exited := Function.update s.exited ⟨d.ctx, n⟩ true })
        rfl rfl rfl hmem rfl hlt
      · intro v
        show (!Function.update s.exited _ true v).toNat + _ ≤ _
        by_cases hv : v = ⟨d.ctx, n⟩
        · rw [hv, Function.update_self, workerLeft, hexited]
          exact Nat.add_le_add_right (Nat.zero_le _) _
        · rw [Function.update_of_ne hv]
          exact Nat.le_refl _
      · show (!Function.update s.exited _ true _).toNat + _ < _
        rw [Function.update_self, workerLeft, hexited]
        exact Nat.add_lt_add_right Nat.one_pos _
    · obtain ⟨b, hb, hwaits⟩ := List.countP_pos_iff.mp (Nat.pos_of_ne_zero hcount)
      obtain ⟨hctx, hpc⟩ := of_decide_eq_true hwaits
      obtain ⟨j, hj⟩ := List.mem_iff_getElem?.mp hb
      have hpop : s.world.step (.pop j) = some (s.world.setJob j b .popped [.pop]) := by
        simp only [World.step, World.onJob_eq hj, hpc]
      have hany : s.world.jobs[j]?.any (fun b : Job => b.ctx = d.ctx) = true := by
        rw [hj]
        exact decide_eq_true hctx
      have hs : s.step (.pop ⟨d.ctx, n⟩ j) = some _ :=
        (if_pos ⟨hlt, hrun, hexited, hany⟩).trans (congrArg _ hpop)
      refine ⟨.pop ⟨d.ctx, n⟩ j, _, trivial, hs, left_lt_of_jobs (jobsLeft_set hj rfl ?_)⟩
      rw [hpc]
      exact Nat.lt_succ_self 7
  | some j =>
    obtain ⟨b, hb, hctx, hqueued⟩ := h.running _ j hrun
    have htask : s.task ⟨d.ctx, n⟩ = some b := by
      rw [task, hrun]
      exact hb
    rcases h.world.next_step hb hqueued with ⟨k, o, callback, hpc⟩ | ⟨o, callback, hpc⟩ |
      ⟨a, heap, pc, es, ha, hstep, hless⟩
    · refine ⟨.leave ⟨d.ctx, n⟩,
        { s with running := Function.update s.running ⟨d.ctx, n⟩ none }, trivial, ?_, ?_⟩
      · simp only [Process.step, hfree, htask, Option.bind_some, hpc]
        rfl
      · have hset : ∀ v, Function.update s.running ⟨d.ctx, n⟩ none v =
            if v = ⟨d.ctx, n⟩ then none else s.running v := fun v => Function.update_apply ..
        apply left_lt_of_worker (s := s) (w := ⟨d.ctx, n⟩)
          (t := { s with running := Function.update s.running ⟨d.ctx, n⟩ none })
          rfl rfl rfl hmem rfl hlt
        · intro v
          show _ + (Function.update s.running _ none v).isSome.toNat ≤ _
          rw [hset]
          split_ifs
          · exact Nat.add_le_add_left (Nat.zero_le _) _
          · exact Nat.le_refl _
        · show _ + (Function.update s.running _ none _).isSome.toNat < _
          rw [hset, if_pos rfl, workerLeft, hrun]
          exact Nat.add_lt_add_left Nat.one_pos _
    · -- the Context is closed already
      have hclosed := h.pool_closed hmem
      have hctx : b.ctx = d.ctx := hctx
      have hrelease : s.world.step (.releaseCtx j) = some
          ((s.world.withHeap (s.world.heap.decrefCtx b.ctx)).setJob j b
            (.leaving b.ctx o callback) [.releaseCtx b.ctx]) := by
        simp only [World.step, World.onJob_eq hb, hpc]
      have hs : s.step (.releaseCtx ⟨d.ctx, n⟩) = some ((s.withWorld
          ((s.world.withHeap (s.world.heap.decrefCtx b.ctx)).setJob j b
            (.leaving b.ctx o callback) [.releaseCtx b.ctx])).deallocCtx
              (.worker ⟨d.ctx, n⟩) b.ctx) := by
        simp only [Process.step, hfree, hrun, Option.bind_some, hb, hpc, hrelease]
        rfl
      refine ⟨.releaseCtx ⟨d.ctx, n⟩, _, fun _ hopen => ?_, hs, ?_⟩
      · rw [hclosed] at hopen
        cases hopen
      · apply left_lt_of_jobs
        have hless : (JobPc.leaving b.ctx o callback).left < b.pc.left := by
          rw [hpc]
          exact Nat.lt_succ_self 1
        refine jobsLeft_set hb ?_ hless
        unfold Process.deallocCtx
        split_ifs <;> rfl
    · have hguard : a.task?.isSome = true ∧ a.task? = s.running ⟨d.ctx, n⟩ :=
        ⟨by rw [ha]; rfl, ha.trans hrun.symm⟩
      have hs : s.step (.work ⟨d.ctx, n⟩ a) = some _ :=
        (if_pos ⟨hfree, hguard⟩).trans (congrArg _ hstep)
      exact ⟨.work ⟨d.ctx, n⟩ a, _, trivial, hs, left_lt_of_jobs (jobsLeft_set hb rfl hless)⟩

/-- Every call of `threadpool_destroy` has returned. -/
def Settled (s : Process) : Prop := ∀ d ∈ s.destroys, d.pc = .returned

theorem Inv.lowers (h : Inv s) (hleft : ¬s.Settled) :
    ∃ a t, Careful s a ∧ s.step a = some t ∧ t.left < s.left := by
  simp only [Settled, not_forall] at hleft
  obtain ⟨d₀, hd₀, hpc₀⟩ := hleft
  -- a pool none of whose workers waits for another
  obtain ⟨k, ⟨d, hmem, hpc, rfl⟩, hlast⟩ := h.ranked.exists_last
    (p := fun k => ∃ d ∈ s.destroys, d.pc ≠ .returned ∧ d.ctx = k) ⟨d₀.ctx, d₀, hd₀, hpc₀, rfl⟩
  have hfree : ∀ n, s.destroying (.worker ⟨d.ctx, n⟩) = false := by
    intro n
    rw [destroying, List.any_eq_false]
    intro e he hthread
    obtain ⟨hthread, hgoing⟩ := of_decide_eq_true hthread
    exact hlast e.ctx ⟨e, he, hgoing, rfl⟩ ⟨e, he, hgoing, rfl, _, hthread, rfl⟩
  obtain ⟨i, hd⟩ := List.mem_iff_getElem?.mp hmem
  rcases h.destroy_progress hd with hreturned | ⟨t, hs⟩ | ⟨n, hlt, hjoin, hexited⟩
  · exact absurd hreturned hpc
  · refine ⟨.destroy i, t, trivial, hs, ?_⟩
    obtain ⟨e, he, hs⟩ := Option.bind_eq_some_iff.mp hs
    cases he.symm.trans hd
    exact threadpoolDestroy_lowers hd hpc hs
  · exact h.worker_lowers hmem hjoin hlt hexited (hfree n)

theorem Joins.closePool {x y : CtxId} {th : ThreadId} (h : s.Joins x y) :
    (s.closePool th k).Joins x y := by
  obtain ⟨d, hd, hrest⟩ := h
  refine ⟨d, ?_, hrest⟩
  unfold Process.closePool
  split_ifs
  · exact List.mem_append_left _ hd
  · exact hd

theorem not_mayClose (hclose : ¬s.MayClose w k) :
    TransGen (s.closePool (.worker w) k).Joins k k := by
  obtain ⟨hopen, hreach⟩ := Classical.not_imp.mp hclose
  apply WaitFor.transGen_of_edge (Classical.not_not.mp hreach) (fun _ _ => .closePool)
  refine ⟨⟨.worker w, k, .start, none⟩, ?_, nofun, rfl, w, rfl, rfl⟩
  rw [Process.closePool, if_pos hopen]
  exact List.mem_append_right _ List.mem_cons_self

theorem not_mayClose_last (hclose : ¬s.MayClose w k) (hzero : s.world.heap.ctxRefs k = 0) :
    TransGen (s.deallocCtx (.worker w) k).Joins k k := by
  rw [deallocCtx, if_pos hzero]
  exact not_mayClose hclose

theorem Inv.not_careful (h : Inv s) (hcareful : ¬Careful s a) (hs : s.step a = some t) :
    ∃ k, TransGen t.Joins k k := by
  unfold Careful at hcareful
  split at hcareful
  case h_1 w k =>
    obtain ⟨-, hs⟩ := Option.ite_none_right_eq_some.mp hs
    cases hs
    exact ⟨k, not_mayClose hcareful⟩
  case h_2 w k =>
    obtain ⟨hone, hclose⟩ := Classical.not_imp.mp hcareful
    obtain ⟨-, hs⟩ := Option.ite_none_right_eq_some.mp hs
    obtain ⟨world, hworld, rfl⟩ := Option.map_eq_some_iff.mp hs
    obtain ⟨-, heq⟩ := Option.ite_none_right_eq_some.mp hworld
    cases heq
    refine ⟨k, not_mayClose_last hclose ?_⟩
    show Function.update s.world.heap.ctxRefs k _ k = 0
    rw [Function.update_self, hone]
  case h_3 w =>
    obtain ⟨hone, hclose⟩ := Classical.not_imp.mp hcareful
    obtain ⟨-, hs⟩ := Option.ite_none_left_eq_some.mp hs
    obtain ⟨j, hj, hs⟩ := Option.bind_eq_some_iff.mp hs
    obtain ⟨b, hb, hs⟩ := Option.bind_eq_some_iff.mp hs
    split at hs
    case h_1 k o callback hpc =>
      obtain ⟨world, hworld, rfl⟩ := Option.map_eq_some_iff.mp hs
      obtain ⟨rfl, hctxs, hrefs⟩ := h.releaseCtx hj hb hpc hworld
      refine ⟨w.ctx, not_mayClose_last (fun hworld => hclose ?_) (?_ : world.heap.ctxRefs _ = 0)⟩
      · intro hopen
        apply hworld
        rw [← hctxs] at hopen
        exact hopen
      · omega
    case h_2 => cases hs
  case h_4 => exact absurd trivial hcareful

theorem step_threadCount (hs : s.step a = some t) : t.threadCount = s.threadCount := by
  have hmap : ∀ {u : Option World} {f : World → Process}, u.map f = some t →
      (∀ world, (f world).threadCount = s.threadCount) → t.threadCount = s.threadCount := by
    intro u f hu hf
    obtain ⟨world, -, rfl⟩ := Option.map_eq_some_iff.mp hu
    exact hf world
  have hdealloc : ∀ (th : ThreadId) (k : CtxId) (world : World),
      ((s.withWorld world).deallocCtx th k).threadCount = s.threadCount := by
    intro th k world
    unfold deallocCtx
    split_ifs <;> rfl
  cases a with
  | python th b =>
    obtain ⟨-, hs⟩ := Option.ite_none_right_eq_some.mp hs
    exact hmap hs fun _ => rfl
  | close th k =>
    obtain ⟨-, hs⟩ := Option.ite_none_right_eq_some.mp hs
    cases hs
    rfl
  | decrefCtx th k =>
    obtain ⟨-, hs⟩ := Option.ite_none_right_eq_some.mp hs
    exact hmap hs (hdealloc th k)
  | pop w j =>
    obtain ⟨-, hs⟩ := Option.ite_none_right_eq_some.mp hs
    exact hmap hs fun _ => rfl
  | work w b =>
    obtain ⟨-, hs⟩ := Option.ite_none_right_eq_some.mp hs
    exact hmap hs fun _ => rfl
  | releaseCtx w =>
    obtain ⟨-, hs⟩ := Option.ite_none_left_eq_some.mp hs
    obtain ⟨j, -, hs⟩ := Option.bind_eq_some_iff.mp hs
    obtain ⟨b, -, hs⟩ := Option.bind_eq_some_iff.mp hs
    split at hs
    case h_1 k _ _ _ => exact hmap hs (hdealloc (.worker w) k)
    case h_2 => cases hs
  | leave w =>
    obtain ⟨-, hs⟩ := Option.ite_none_left_eq_some.mp hs
    obtain ⟨b, -, hs⟩ := Option.bind_eq_some_iff.mp hs
    split at hs
    case h_1 =>
      cases hs
      rfl
    case h_2 => cases hs
  | exit w =>
    obtain ⟨-, hs⟩ := Option.ite_none_right_eq_some.mp hs
    cases hs
    rfl
  | destroy i =>
    obtain ⟨d, -, hs⟩ := Option.bind_eq_some_iff.mp hs
    unfold threadpoolDestroy at hs
    split at hs
    case h_1 =>
      split at hs
      · cases hs
        rfl
      · exact hmap hs fun _ => rfl
    case h_2 n _ =>
      split at hs
      · split at hs
        · cases hs
          rfl
        · obtain ⟨-, hs⟩ := Option.ite_none_right_eq_some.mp hs
          cases hs
          rfl
      · cases hs
        exact (threadpoolFree_rest s d).2.2.2.2
    case h_3 => cases hs

theorem can_settle (h : system.ReachableBy Careful s) : ∃ as t, system.exec s as = some t ∧
    (system.ReachableBy Careful t ∧ t.threadCount = s.threadCount ∧
      ∀ k, (s.world.ctxs k).pool = false → (t.world.ctxs k).pool = false) ∧ t.Settled := by
  apply TransitionSystem.exists_run (S := system) (μ := left) ?_ ⟨h, rfl, fun _ hk => hk⟩
  rintro u ⟨hu, hcount, hpool⟩ hleft
  obtain ⟨a, v, ha, hs, hlt⟩ := (inv hu).lowers hleft
  obtain ⟨bs, hworld⟩ := step_world hs
  exact ⟨a, v, hs, ⟨.step hu ha hs, (step_threadCount hs).trans hcount,
    fun k hk => World.exec_closed hworld (hpool k hk)⟩, hlt⟩

theorem TornDown.freed_eq_one (h : s.TornDown) (hsettled : s.Settled)
    (hclosed : (s.world.ctxs k).pool = false) (hcount : 0 < s.threadCount k) : s.freed k = 1 := by
  have honce := h.once k
  have hreturned : s.destroys.countP (·.hasReturned k) = s.destroys.countP (·.isOn k) := by
    apply List.countP_congr
    intro d hd
    rw [Destroy.hasReturned, hsettled d hd, decide_eq_true rfl, Bool.and_true, Destroy.isOn]
  rw [hclosed, decide_eq_true hcount] at honce
  rw [h.freed, hreturned]
  exact honce

/-- In runs whose steps are all careful, every pool is destroyed at most once, by a thread that
joins all its workers and frees it. No pool waits for itself, and every call can be brought to its
end, with every closed pool freed exactly once. A step keeps to that exactly if it is careful. -/
theorem pool_destroyed_by_others {s : Process} (h : system.ReachableBy Careful s) :
    s.TornDown ∧ (∀ k, ¬TransGen s.Joins k k) ∧
    (∀ (i : ℕ) (d : Destroy), s.destroys[i]? = some d →
      d.pc = .returned ∨ (∃ t, s.step (.destroy i) = some t) ∨
        ∃ n < s.threadCount d.ctx, d.pc = .join n ∧ s.exited ⟨d.ctx, n⟩ = false) ∧
    (∃ as t, system.exec s as = some t ∧ system.ReachableBy Careful t ∧ t.TornDown ∧ t.Settled ∧
      ∀ k, (s.world.ctxs k).pool = false → 0 < s.threadCount k → t.freed k = 1) ∧
    ∀ (a : Action) (t : Process), s.step a = some t →
      (Careful s a ↔ t.TornDown ∧ ∀ k, ¬TransGen t.Joins k k) := by
  have hinv := inv h
  refine ⟨hinv.tornDown, hinv.ranked.not_transGen, fun i d => hinv.destroy_progress, ?_,
    fun a t hs => ⟨fun ha => ?_, fun ⟨_, hcircle⟩ => ?_⟩⟩
  · obtain ⟨as, t, hexec, ⟨ht, hcount, hpool⟩, hsettled⟩ := can_settle h
    refine ⟨as, t, hexec, ht, (inv ht).tornDown, hsettled, fun k hk hpos => ?_⟩
    exact (inv ht).tornDown.freed_eq_one hsettled (hpool k hk) (hcount ▸ hpos)
  · have ht := hinv.step ha hs
    exact ⟨ht.tornDown, ht.ranked.not_transGen⟩
  · by_contra ha
    obtain ⟨k, hk⟩ := hinv.not_careful ha hs
    exact hcircle k hk

/-- One Operation from `submit` to the release of the Context, on the worker of Context 0. -/
def taskRun : List Action :=
  [.pop ⟨0, 0⟩ 0, .work ⟨0, 0⟩ (.take 0), .work ⟨0, 0⟩ (.syscall 0 0 0), .work ⟨0, 0⟩ (.publish 0),
    .work ⟨0, 0⟩ (.callback 0), .releaseCtx ⟨0, 0⟩]

/-- The program closes the Context while the Operation is in the queue. -/
def closedRun : List Action :=
  [.python (.main 0) (.submit 0 [.operation 7]), .close (.main 0) 0, .destroy 0] ++ taskRun ++
    [.work ⟨0, 0⟩ (.releaseOp 0), .leave ⟨0, 0⟩, .exit ⟨0, 0⟩, .destroy 0, .destroy 0]

/-- No worker closes a Context or drops the last reference to one. -/
def keepsOpen (s : Process) : Action → Bool
  | .close (.worker _) _ | .decrefCtx (.worker _) _ => false
  | .releaseCtx w => s.world.heap.ctxRefs w.ctx ≠ 1
  | _ => true

theorem careful_of_keepsOpen (h : s.keepsOpen a = true) : Careful s a := by
  unfold keepsOpen at h
  split at h
  case h_1 => cases h
  case h_2 => cases h
  case h_3 w => exact fun hone => absurd hone (of_decide_eq_true h)
  case h_4 hclose hdecref hrelease =>
    unfold Careful
    split
    · exact absurd rfl (hclose _ _)
    · exact absurd rfl (hdecref _ _)
    · exact absurd rfl (hrelease _)
    · trivial

theorem pool_destroyed_by_others_closed : ∃ s, system.exec new closedRun = some s ∧
    s.destroys = [⟨.main 0, 0, .returned, none⟩] ∧ s.freed 0 = 1 := by
  have hmeets : system.Meets (fun s a => s.keepsOpen a = true) new closedRun := by decide +kernel
  have hrun : ((system.exec new closedRun).any fun s =>
      decide (s.destroys = [⟨.main 0, 0, .returned, none⟩])) = true := by decide +kernel
  obtain ⟨s, hexec, hs⟩ := (Option.any_eq_true _ _).mp hrun
  have hdestroys := of_decide_eq_true hs
  obtain ⟨htorn, -⟩ := pool_destroyed_by_others
    (.exec (.init new_init) (hmeets.mono fun _ _ => careful_of_keepsOpen) hexec)
  refine ⟨s, hexec, hdestroys, ?_⟩
  rw [htorn.freed, hdestroys]
  rfl

/-- The program drops the Context instead, and the worker has the last reference. -/
def droppedRun : List Action :=
  [.python (.main 0) (.submit 0 [.operation 7]), .decrefCtx (.main 0) 0] ++ taskRun ++
    [.destroy 0, .destroy 0, .destroy 0]

/-- The worker joins itself, and the pool is not freed. -/
theorem pool_destroyed_by_worker :
    (∃ s, system.Reachable s ∧
      s.destroys = [⟨.worker ⟨0, 0⟩, 0, .returned, some .threadFailure⟩] ∧ s.freed 0 = 0) ∧
    ¬ ∀ s, system.Reachable s → s.TornDown := by
  have hrun : ((system.exec new droppedRun).any fun s => decide (
      s.destroys = [⟨.worker ⟨0, 0⟩, 0, .returned, some .threadFailure⟩] ∧ s.freed 0 = 0)) =
        true := by
    decide +kernel
  obtain ⟨s, hexec, hs⟩ := (Option.any_eq_true _ _).mp hrun
  obtain ⟨hdestroys, hfreed⟩ := of_decide_eq_true hs
  have hreach : system.Reachable s := .exec (.init new_init) hexec
  refine ⟨⟨s, hreach, hdestroys, hfreed⟩, fun hall => ?_⟩
  have hmem : (⟨.worker ⟨0, 0⟩, 0, .returned, some .threadFailure⟩ : Destroy) ∈ s.destroys := by
    rw [hdestroys]
    exact List.mem_cons_self
  exact (hall s hreach).thread _ hmem ⟨0, 0⟩ rfl rfl

end Process

end Caio.ThreadAio
