import Mathlib.Tactic.SplitIfs
import Caio.Uring.Adapter
import Caio.Uring.Backlog

namespace Caio.Uring

/-- The kernel has taken `n` SQEs between two states of a Context. -/
structure Context.Took (k k' : Context) (n : ℕ) : Prop where
  uringFd : k'.uringFd = k.uringFd
  sqpoll : k'.sqpoll = k.sqpoll
  staged : k'.staged + n = k.staged

namespace Context.Took

variable {k k' k'' : Context} {m n : ℕ}

theorem refl (k : Context) : k.Took k 0 := ⟨rfl, rfl, rfl⟩

theorem of_sq (huring : k'.uringFd = k.uringFd) (hpoll : k'.sqpoll = k.sqpoll)
    (hsq : k'.sq = k.sq) : k.Took k' 0 :=
  ⟨huring, hpoll, by rw [Nat.add_zero, Context.staged, Context.staged, hsq]⟩

theorem trans (h : k.Took k' m) (h' : k'.Took k'' n) : k.Took k'' (m + n) := by
  refine ⟨h'.uringFd.trans h.uringFd, h'.sqpoll.trans h.sqpoll, ?_⟩
  rw [← h.staged, ← h'.staged]
  omega

end Context.Took

namespace World

variable {c : CtxId} {s t : World}

theorem consume_staged {r r' : SqRing} {e : Sqe} (h : r.consume = some (e, r')) :
    (r'.tail - r'.head).toNat + 1 = (r.tail - r.head).toNat := by
  obtain ⟨hne, h⟩ := Option.ite_none_left_eq_some.mp h
  cases h
  exact (RingBuffer.sub_succ_toNat hne).symm

theorem kernelStep_took {a : KernelStep} (hs : s.kernelStep c a = some t) :
    (s.ctxs c).Took (t.ctxs c) (if a.consumes then 1 else 0) := by
  obtain ⟨-, hs⟩ := Option.ite_none_left_eq_some.mp hs
  cases a with
  | consume =>
    obtain ⟨⟨e, sq⟩, he, rfl⟩ := Option.map_eq_some_iff.mp hs
    rw [setCtx_ctxs_self]
    exact ⟨rfl, rfl, consume_staged he⟩
  | transfer i data =>
    simp only at hs
    split at hs
    · cases hs
    · split_ifs at hs
      cases hs
      exact .refl _
  | complete i res late =>
    simp only at hs
    split at hs
    · cases hs
    · cases hs
      rw [setCtx_ctxs_self]
      show Context.Took _ (Context.post _ _ late) 0
      unfold Context.post
      split_ifs <;> exact ⟨rfl, rfl, rfl⟩

theorem kernelRun_took {as : List KernelStep} (hs : s.kernelRun c as = some t) :
    (s.ctxs c).Took (t.ctxs c) (as.countP KernelStep.consumes) := by
  induction as generalizing s with
  | nil =>
    cases hs
    exact .refl _
  | cons a as ih =>
    obtain ⟨u, hu, ht⟩ := Option.bind_eq_some_iff.mp hs
    have h := (kernelStep_took hu).trans (ih ht)
    rwa [List.countP_cons, Nat.add_comm]

theorem cancel_full {r : SqRing} {p : OpPtr} {e : PyErr} (h : cancelStage r p = .error e) :
    2 ^ r.size.log ≤ (r.tail - r.head).toNat := by
  unfold cancelStage at h
  split_ifs at h with hfull
  rwa [UInt32.le_iff_toNat_le, RingSize.entries_toNat] at hfull

theorem cancel_staged {r r' : SqRing} {p : OpPtr} (h : cancelStage r p = .ok r') :
    (r'.tail - r'.head).toNat = (r.tail - r.head).toNat + 1 := by
  obtain ⟨hfree, rfl⟩ := cancel_sq h
  have hpow := r.size.pow_le
  show (r.tail + 1 - (r.put r.tail (cancelSqe p)).head).toNat = _
  rw [SqRing.put_head, RingBuffer.sub_toNat_succ (by omega)]

theorem drain_took (s : World) (max : UInt32) : (s.ctxs c).Took ((s.drain c max).1.ctxs c) 0 := by
  rw [show (s.drain c max).1.ctxs c = { s.ctxs c with cq := (drainCq s.heap (s.ctxs c).cq max).2.1 }
    from Function.update_self ..]
  exact .of_sq rfl rfl rfl

/-- The loop of `flush` ends with an empty ring, or at a call that fails. -/
theorem enterAll_staged {calls : List Syscall} {remaining : UInt32} {r : Except PyErr Unit}
    (hrem : remaining.toNat = (s.ctxs c).staged) (hans : Answers remaining.toNat calls)
    (hrun : enterAll c calls remaining s = some (t, r)) :
    (t.ctxs c).uringFd = (s.ctxs c).uringFd ∧ (t.ctxs c).sqpoll = (s.ctxs c).sqpoll ∧
      ((t.ctxs c).staged = 0 ↔ ∀ call ∈ calls, call.fails = false) := by
  induction calls generalizing s remaining with
  | nil =>
    obtain ⟨hzero, heq⟩ := Option.ite_none_right_eq_some.mp hrun
    cases heq
    subst hzero
    exact ⟨rfl, rfl, by simp [← hrem]⟩
  | cons call calls ih =>
    obtain ⟨hpos, ⟨hret, hle⟩, hrest⟩ := hans
    unfold enterAll at hrun
    rw [if_neg fun h => hpos (by rw [h]; rfl)] at hrun
    obtain ⟨u, hu, hrun⟩ := Option.bind_eq_some_iff.mp hrun
    have htook := kernelRun_took hu
    have hstaged : (u.ctxs c).staged + call.taken = (s.ctxs c).staged := htook.staged
    cases hcall : call.ret with
    | error errno =>
      rw [hcall] at hrun
      cases hrun
      have hnone : call.taken = 0 := by rw [hret, Syscall.returned, hcall]
      have hfails : call.fails = true := by rw [Syscall.fails, hcall]
      refine ⟨htook.uringFd, htook.sqpoll, ?_⟩
      constructor
      · intro h
        omega
      · intro h
        rw [h call List.mem_cons_self] at hfails
        cases hfails
    | ok n =>
      rw [hcall] at hrun
      have hn : call.taken = n := by rw [hret, Syscall.returned, hcall]
      have hfails : call.fails = false := by rw [Syscall.fails, hcall]
      rw [hfails, if_neg (by decide)] at hrest
      have hlt := remaining.toNat_lt
      have hsub : (remaining - UInt32.ofNat n).toNat = remaining.toNat - call.taken := by
        have hof : (UInt32.ofNat n).toNat = n := by
          rw [UInt32.toNat_ofNat', Nat.mod_eq_of_lt (by omega)]
        rw [UInt32.toNat_sub_of_le _ _ (UInt32.le_iff_toNat_le.mpr (by omega)), hof, hn]
      obtain ⟨hfd, hpoll, hiff⟩ := ih (s := u) (by omega) (hsub ▸ hrest) hrun
      refine ⟨hfd.trans htook.uringFd, hpoll.trans htook.sqpoll, hiff.trans ?_⟩
      simp only [List.forall_mem_cons, hfails, true_and]

theorem flush_staged {calls : List Syscall} {needWakeup : Bool} {r : Except PyErr ℕ}
    (hfd : 0 ≤ (s.ctxs c).uringFd) (hpoll : (s.ctxs c).sqpoll = false)
    (hans : Answers (s.ctxs c).staged calls)
    (hrun : s.flush c needWakeup calls = some (t, r)) :
    (t.ctxs c).uringFd = (s.ctxs c).uringFd ∧ (t.ctxs c).sqpoll = (s.ctxs c).sqpoll ∧
      ((t.ctxs c).staged = 0 ↔ ∀ call ∈ calls, call.fails = false) := by
  unfold flush at hrun
  simp only [hpoll] at hrun
  rw [if_neg (Int32.not_lt.mpr hfd), if_neg (by decide)] at hrun
  split_ifs at hrun with hzero
  · cases hrun
    have hnone : (s.ctxs c).staged = 0 := by
      rw [Context.staged, hzero]
      rfl
    rw [hnone] at hans
    cases calls with
    | nil => exact ⟨rfl, rfl, by simp [hnone]⟩
    | cons call calls => exact absurd rfl hans.1
  · obtain ⟨⟨u, e⟩, hu, hrun⟩ := Option.map_eq_some_iff.mp hrun
    obtain ⟨hfd', hpoll', hiff⟩ := enterAll_staged rfl hans hu
    cases e with
    | error e =>
      cases hrun
      exact ⟨hfd', hpoll', hiff⟩
    | ok _ =>
      have hdrain := drain_took (c := c) u 0xFFFFFFFF
      rw [show u.drain c 0xFFFFFFFF = (t, r) from hrun] at hdrain
      have hsame : (t.ctxs c).staged = (u.ctxs c).staged := hdrain.staged
      exact ⟨hdrain.uringFd.trans hfd', hdrain.sqpoll.trans hpoll', by rw [hsame]; exact hiff⟩

theorem submit_single (s : World) (c : CtxId) (p : OpPtr) :
    ((s.submit c [.operation p]).1.ctxs c).uringFd = (s.ctxs c).uringFd ∧
    ((s.submit c [.operation p]).1.ctxs c).sqpoll = (s.ctxs c).sqpoll ∧
    ((s.submit c [.operation p]).2 ≠ .ok 1 →
      ((s.submit c [.operation p]).1.ctxs c).staged = (s.ctxs c).staged) := by
  obtain ⟨_, hres, -⟩ | hops := submit_cases s c [.operation p]
  · rw [hres]
    exact ⟨rfl, rfl, fun _ => rfl⟩
  · have hargs : operations [.operation p] = [p] := rfl
    rw [hops, hargs, submitOps]
    refine ⟨by simp, by simp, ?_⟩
    simp only [setCtx_ctxs_self, Context.staged]
    unfold Uring.submit
    obtain ⟨-, hone⟩ | ⟨-, -, hone⟩ | ⟨-, -, -, hone⟩ | ⟨-, -, sqe, -, hone⟩ :=
      submitOne_cases c ⟨(s.ctxs c).sq, s.heap, (s.ctxs c).sq.tail, (s.ctxs c).sq.head, 0⟩ p
    · simp [submitLoop, hone, SqRing.publish]
    · simp [submitLoop, hone, SqRing.publish]
    · simp [submitLoop, hone, SqRing.publish, SqRing.write]
    · simp [submitLoop, hone, SubmitLoop.stage]

theorem kept_ne {d : CtxId} (hne : c ≠ d) (k : Context) : Kept d fun s => s.ctxs c = k where
  kernel {s t a} hk hs := by
    obtain ⟨-, hs⟩ := Option.ite_none_left_eq_some.mp hs
    cases a with
    | consume =>
      obtain ⟨_, -, rfl⟩ := Option.map_eq_some_iff.mp hs
      rwa [setCtx_ctxs_ne _ _ hne]
    | transfer i data =>
      simp only at hs
      split at hs
      · cases hs
      · split_ifs at hs
        cases hs
        exact hk
    | complete i res late =>
      simp only at hs
      split at hs
      · cases hs
      · cases hs
        rwa [setCtx_ctxs_ne _ _ hne]
  backlog {s} hk := by rwa [setCtx_ctxs_ne _ _ hne]
  drain {s} max hk := by
    show (s.setCtx d _).ctxs c = k
    rwa [setCtx_ctxs_ne _ _ hne]

theorem processEvents_check (s : World) (c : CtxId) (maxRequests : UInt32) (tvSec : Int32)
    (turns : List Turn) : s.processEvents c maxRequests 0 tvSec turns =
      some (s.drain c (if maxRequests = 0 then evMaxRequestsDefault else maxRequests)) := by
  unfold processEvents
  simp

theorem step_quiet {a : Action} (hq : a.quiet c = true) (hs : s.step a = some t) :
    (s.ctxs c).Took (t.ctxs c) 0 := by
  have hsame : t.ctxs c = s.ctxs c → (s.ctxs c).Took (t.ctxs c) 0 := by
    intro h
    rw [h]
    exact .refl _
  have hother : a.ofCtx = false → (s.ctxs c).Took (t.ctxs c) 0 :=
    fun ha => hsame (by rw [step_ctxs ha hs])
  cases a with
  | newRead | newWrite | newFsync | newFdsync | newBytes | incref | decref | increfCtx | decrefCtx
  | setCallback | payload | getValue | endTurn => exact hother rfl
  | newContext d k =>
    obtain ⟨-, hs⟩ := Option.ite_none_right_eq_some.mp hs
    cases hs
    have hne : d ≠ c := by simpa [Action.quiet] using hq
    exact hsame (setCtx_ctxs_ne _ _ hne.symm)
  | submit d args =>
    obtain ⟨-, hs⟩ := Option.ite_none_right_eq_some.mp hs
    cases hs
    have hne : d ≠ c := by simpa [Action.quiet] using hq
    obtain ⟨_, hres, -⟩ | hops := submit_cases s d args
    · exact hsame (by rw [hres])
    · rw [hops] at hsame ⊢
      exact hsame (setCtx_ctxs_ne _ _ hne.symm)
  | cancel d p =>
    obtain ⟨-, hs⟩ := Option.ite_none_right_eq_some.mp hs
    cases hs
    have hne : d ≠ c := by simpa [Action.quiet] using hq
    unfold World.cancel at hsame ⊢
    split at hsame
    · exact hsame rfl
    · exact hsame (setCtx_ctxs_ne _ _ hne.symm)
  | flush d needWakeup calls =>
    obtain ⟨-, hs⟩ := Option.ite_none_right_eq_some.mp hs
    obtain ⟨⟨u, r⟩, hu, rfl⟩ := Option.map_eq_some_iff.mp hs
    have hne : d ≠ c := by simpa [Action.quiet] using hq
    exact hsame ((kept_ne hne.symm _).flush rfl hu)
  | processEvents d maxRequests minRequests tvSec turns =>
    obtain ⟨-, hs⟩ := Option.ite_none_right_eq_some.mp hs
    obtain ⟨⟨u, r⟩, hu, rfl⟩ := Option.map_eq_some_iff.mp hs
    by_cases hne : d = c
    · subst hne
      have hmin : minRequests = 0 := by simpa [Action.quiet] using hq
      subst hmin
      have hdrain := drain_took (c := d) s
        (if maxRequests = 0 then evMaxRequestsDefault else maxRequests)
      rw [processEvents_check] at hu
      cases hu
      exact hdrain
    · exact hsame ((kept_ne (Ne.symm hne) _).processEvents rfl hu)
  | kernel d a =>
    by_cases hne : d = c
    · subst hne
      have hnone : a.consumes = false := by simpa [Action.quiet] using hq
      have htook := kernelStep_took hs
      rwa [hnone] at htook
    · exact hsame ((kept_ne (Ne.symm hne) _).kernel rfl hs)

end World

namespace Adapter

variable {c : CtxId} {s t : Adapter}

/-- An SQE waits in the ring only while a `_deferred_flush` is scheduled. -/
def NoneStranded (s : Adapter) : Prop := (s.ctx c).staged ≠ 0 → 0 < s.scheduled

/-- The kernel takes all that a deferred flush hands it, and the request of a `cancel()` for which
no flush is scheduled. -/
def HandsOver (s : Adapter) : Action → Prop
  | .cancel _ call => s.scheduled = 0 → call.returned = 1
  | .deferredFlush calls => ∀ call ∈ calls, call.fails = false
  | _ => True

structure Inv (s : Adapter) : Prop where
  deferred : s.deferred = true
  sqpoll : (s.ctx c).sqpoll = false
  uringFd : 0 ≤ (s.ctx c).uringFd
  /-- The flag says whether the loop has a `_deferred_flush` to run. -/
  flag : s.flushScheduled = true ↔ 0 < s.scheduled
  once : s.scheduled ≤ 1

theorem Inv.init (h : Init c s) : Inv (c := c) s := by
  refine ⟨h.deferred, h.sqpoll, h.uringFd, ?_, ?_⟩
  · rw [h.flushScheduled, h.scheduled]
    decide
  · rw [h.scheduled]
    decide

theorem NoneStranded.init (h : Init c s) : NoneStranded (c := c) s := fun hne => absurd h.staged hne

theorem Inv.world (h : Inv (c := c) s) {world : World} {n : ℕ}
    (htook : (s.ctx c).Took (world.ctxs c) n) : Inv (c := c) { s with world } :=
  ⟨h.deferred, htook.sqpoll.trans h.sqpoll, by rw [ctx, htook.uringFd]; exact h.uringFd, h.flag,
    h.once⟩

theorem Inv.submitOp (h : Inv (c := c) s) {p : OpPtr} {r : Except PyErr Unit}
    (hrun : s.submitOp c p = (t, r)) : Inv (c := c) t ∧
      (r ≠ .ok () → NoneStranded (c := c) s → NoneStranded (c := c) t) := by
  obtain ⟨hfd, hpoll, hstaged⟩ := World.submit_single s.world c p
  unfold Adapter.submitOp at hrun
  generalize s.world.submit c [.operation p] = res at hrun hfd hpoll hstaged
  cases hrun
  refine ⟨⟨h.deferred, hpoll.trans h.sqpoll, hfd ▸ h.uringFd, h.flag, h.once⟩, ?_⟩
  intro hne hs hst
  have hone : res.2 ≠ .ok 1 := by
    intro hone
    rw [hone] at hne
    exact hne rfl
  rw [ctx, hstaged hone] at hst
  exact hs hst

theorem Inv.onSubmitted (h : Inv (c := c) s) {r : Except PyErr Unit}
    (hrun : s.onSubmitted c false [] = some (t, r)) : Inv (c := c) t ∧ 0 < t.scheduled := by
  unfold Adapter.onSubmitted at hrun
  have hlater : ¬(s.deferred = false ∨ (s.ctx c).sqpoll = true) := by
    rw [h.deferred, h.sqpoll]
    decide
  rw [if_neg hlater] at hrun
  have hflag := h.flag
  split_ifs at hrun with hf
  · cases hrun
    exact ⟨h, hflag.mp hf⟩
  · cases hrun
    have hzero : s.scheduled = 0 := by
      by_contra hne
      exact hf (hflag.mpr (Nat.pos_of_ne_zero hne))
    refine ⟨⟨h.deferred, h.sqpoll, h.uringFd, ?_, ?_⟩, Nat.succ_pos _⟩
    · exact ⟨fun _ => Nat.succ_pos _, fun _ => rfl⟩
    · show s.scheduled + 1 ≤ 1
      omega

theorem Inv.submit (h : Inv (c := c) s) {p : OpPtr} {callback : Callback} {slot : Bool}
    {r : Except PyErr Unit}
    (hrun : s.submit c (.operation p) callback slot false [] = some (t, r)) :
    Inv (c := c) t ∧ (NoneStranded (c := c) s → NoneStranded (c := c) t) := by
  unfold Adapter.submit at hrun
  simp only at hrun
  split_ifs at hrun
  · cases hrun
    exact ⟨h.world (.refl _), id⟩
  · have hset : Inv (c := c) { s with world := { s.world with
        heap := s.world.heap.modify p fun op => op.setCallback callback } } := h.world (.refl _)
    split at hrun
    case h_1 u e hop =>
      cases hrun
      obtain ⟨hinv, hkeep⟩ := hset.submitOp hop
      exact ⟨hinv, hkeep (by simp)⟩
    case h_2 u hop =>
      obtain ⟨hinv, hpos⟩ := (hset.submitOp hop).1.onSubmitted hrun
      exact ⟨hinv, fun _ _ => hpos⟩

/-- A cancel request waits for the flush that is scheduled, or has to be taken at once. -/
theorem Inv.cancel (h : Inv (c := c) s) (hs : NoneStranded (c := c) s) {p : OpPtr}
    {call : Syscall} {r : Except PyErr ℕ} (hcount : call.Counts 1)
    (hrun : s.cancel c p call = some (t, r)) :
    Inv (c := c) t ∧ (NoneStranded (c := c) t ↔ HandsOver s (.cancel p call)) := by
  unfold Adapter.cancel World.cancel at hrun
  cases hstage : cancelStage (s.world.ctxs c).sq p with
  | error e =>
    rw [hstage] at hrun
    cases hrun
    have hfull : (s.ctx c).staged ≠ 0 := by
      have hle := World.cancel_full hstage
      have hpow := Nat.two_pow_pos (s.world.ctxs c).sq.size.log
      rw [ctx, Context.staged]
      omega
    refine ⟨h, fun _ hzero => ?_, fun _ => hs⟩
    have := hs hfull
    omega
  | ok sq =>
    rw [hstage] at hrun
    obtain ⟨w, hw, heq⟩ := Option.map_eq_some_iff.mp hrun
    cases heq
    have htook := World.kernelRun_took hw
    have hadd := World.cancel_staged hstage
    simp only [World.setCtx_ctxs_self] at htook
    have hstaged : (w.ctxs c).staged + call.taken = (s.ctx c).staged + 1 :=
      htook.staged.trans hadd
    refine ⟨⟨h.deferred, htook.sqpoll.trans h.sqpoll, ?_, h.flag, h.once⟩, ?_⟩
    · exact htook.uringFd ▸ h.uringFd
    · -- one more entry is staged, and the kernel takes at most one
      obtain ⟨hret, hle⟩ := hcount
      rw [HandsOver, NoneStranded]
      show ((w.ctxs c).staged ≠ 0 → 0 < s.scheduled) ↔ _
      unfold NoneStranded at hs
      omega

theorem Inv.deferredFlush (h : Inv (c := c) s) {calls : List Syscall} {r : Except PyErr ℕ}
    (hpos : 0 < s.scheduled) (hans : Answers (s.ctx c).staged calls)
    (hrun : s.deferredFlush c calls = some (t, r)) :
    Inv (c := c) { t with scheduled := s.scheduled - 1 } ∧
      (NoneStranded (c := c) { t with scheduled := s.scheduled - 1 } ↔
        HandsOver s (.deferredFlush calls)) := by
  obtain ⟨⟨w, res⟩, hw, heq⟩ := Option.map_eq_some_iff.mp hrun
  cases heq
  obtain ⟨hfd, hpoll, hiff⟩ := World.flush_staged h.uringFd h.sqpoll hans hw
  have hone : s.scheduled = 1 := by
    have := h.once
    omega
  refine ⟨⟨h.deferred, hpoll.trans h.sqpoll, hfd ▸ h.uringFd, ?_, ?_⟩, ?_⟩
  · show false = true ↔ 0 < s.scheduled - 1
    rw [hone]
    decide
  · show s.scheduled - 1 ≤ 1
    omega
  · rw [HandsOver, ← hiff, NoneStranded, hone]
    show ((w.ctxs c).staged ≠ 0 → 0 < 1 - 1) ↔ _
    omega

/-- A step keeps the law exactly when the kernel takes what the step hands it. -/
theorem step_noneStranded (h : Inv (c := c) s) (hs : NoneStranded (c := c) s) {a : Action}
    (hstep : s.step c a = some t) :
    Inv (c := c) t ∧ (NoneStranded (c := c) t ↔ HandsOver s a) := by
  cases a with
  | submit p callback slot =>
    obtain ⟨-, hstep⟩ := Option.ite_none_right_eq_some.mp hstep
    obtain ⟨⟨u, r⟩, hu, rfl⟩ := Option.map_eq_some_iff.mp hstep
    obtain ⟨hinv, hkeep⟩ := h.submit hu
    exact ⟨hinv, fun _ => trivial, fun _ => hkeep hs⟩
  | cancel p call =>
    obtain ⟨⟨-, hcount⟩, hstep⟩ := Option.ite_none_right_eq_some.mp hstep
    obtain ⟨⟨u, r⟩, hu, rfl⟩ := Option.map_eq_some_iff.mp hstep
    exact h.cancel hs hcount hu
  | deferredFlush calls =>
    obtain ⟨⟨hpos, hans⟩, hstep⟩ := Option.ite_none_right_eq_some.mp hstep
    obtain ⟨⟨u, r⟩, hu, rfl⟩ := Option.map_eq_some_iff.mp hstep
    exact h.deferredFlush hpos hans hu
  | other a =>
    obtain ⟨hquiet, hstep⟩ := Option.ite_none_right_eq_some.mp hstep
    obtain ⟨w, hw, rfl⟩ := Option.map_eq_some_iff.mp hstep
    have htook := World.step_quiet hquiet hw
    refine ⟨h.world htook, fun _ => trivial, fun _ hst => hs ?_⟩
    rw [ctx, ← htook.staged]
    exact hst

/-- Between the callbacks of the loop no SQE waits without a scheduled `_deferred_flush`, in a run
in which no `io_uring_enter` of a deferred flush fails and a `cancel()` for which no flush is
scheduled gets its request taken; in every other run there is a state where one does. -/
theorem nothing_stranded_iff (h : Init c s) {as : List Action}
    (hrun : (system c).exec s as = some t) :
    (system c).Visits (NoneStranded (c := c)) s as ↔ (system c).Meets HandsOver s as :=
  TransitionSystem.visits_iff_meets (I := Inv (c := c))
    (fun _ _ _ hinv hs hstep => step_noneStranded hinv hs hstep) (.init h) (.init h) hrun

def fresh : Adapter :=
  { world := { World.initial with
      heap := { World.initial.heap with ctxRefs := fun _ => 1 }
      ctxs := fun _ => World.fourSlots }
    deferred := true }

theorem fresh_init : Init 0 fresh := by
  refine ⟨rfl, rfl, ?_, rfl, rfl, rfl⟩
  decide

/-- One fsync, staged by a coroutine, and the flush of the loop. -/
def fsyncRun (call : Syscall) : List Action :=
  [.other (.newFsync 16 5), .submit 16 7 true, .deferredFlush [call]]

instance (s : Adapter) : Decidable (NoneStranded (c := c) s) :=
  inferInstanceAs (Decidable (_ → _))

instance (s : Adapter) : DecidablePred (HandsOver s)
  | .cancel _ _ => inferInstanceAs (Decidable (_ → _))
  | .deferredFlush _ => inferInstanceAs (Decidable (∀ _ ∈ _, _))
  | .submit .. | .other _ => isTrue trivial

theorem nothing_stranded_after_flush :
    (system 0).Visits (NoneStranded (c := 0)) fresh (fsyncRun ⟨[.consume], .ok 1⟩) := by
  have hrun : ((system 0).exec fresh (fsyncRun ⟨[.consume], .ok 1⟩)).isSome = true := by
    decide +kernel
  obtain ⟨t, ht⟩ := Option.isSome_iff_exists.mp hrun
  exact (nothing_stranded_iff fresh_init ht).mpr (by decide +kernel)

/-- The flush fails with `EAGAIN`: the SQE waits in the ring and no callback will flush it. -/
theorem failing_flush_strands :
    ¬∀ (s : Adapter) (as : List Action), Init 0 s → ((system 0).exec s as).isSome = true →
      (system 0).Visits (NoneStranded (c := 0)) s as := by
  intro h
  have := h fresh (fsyncRun ⟨[], .error 11⟩) fresh_init (by decide +kernel)
  revert this
  decide +kernel

end Adapter

end Caio.Uring
