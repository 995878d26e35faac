import Caio.Lib.WaitFor
import Caio.ThreadAio.Execute
import Caio.ThreadAio.Threads

namespace Caio.ThreadAio

open Counting Relation

def Destroy.isOn (k : CtxId) (d : Destroy) : Bool := d.ctx = k

def Destroy.hasReturned (k : CtxId) (d : Destroy) : Bool := d.ctx = k && d.pc = .returned

namespace Process

variable {s t : Process} {a : Action} {d : Destroy} {w : WorkerId} {th : ThreadId}
  {k : CtxId} {i j : ℕ}

/-- The calls of `threadpool_destroy` so far. -/
structure TornDown (s : Process) : Prop where
  /-- None is made by a worker of the pool. -/
  thread : ∀ d ∈ s.destroys, ∀ w, d.thread = .worker w → w.ctx ≠ d.ctx
  /-- Every join has succeeded. -/
  joins : ∀ d ∈ s.destroys, d.err = none
  /-- One call for each pool that is not open any more. -/
  once : ∀ k, s.destroys.countP (·.isOn k) + (s.world.ctxs k).pool.toNat =
    (decide (0 < s.threadCount k)).toNat
  /-- A call that returns has freed the pool. -/
  freed : ∀ k, s.freed k = s.destroys.countP (·.hasReturned k)

theorem TornDown.congr (h : s.TornDown) (hdestroys : t.destroys = s.destroys)
    (hctxs : t.world.ctxs = s.world.ctxs) (hcount : t.threadCount = s.threadCount)
    (hfreed : t.freed = s.freed) : t.TornDown := by
  refine ⟨?_, ?_, ?_, ?_⟩
  · rw [hdestroys]
    exact h.thread
  · rw [hdestroys]
    exact h.joins
  · rw [hdestroys, hctxs, hcount]
    exact h.once
  · rw [hdestroys, hfreed]
    exact h.freed

/-- A worker of the pool of `k` is in a `threadpool_destroy` that joins the workers of `k'`. -/
def Joins (s : Process) (k k' : CtxId) : Prop :=
  ∃ d ∈ s.destroys, d.pc ≠ .returned ∧ d.ctx = k' ∧ ∃ w, d.thread = .worker w ∧ w.ctx = k

/-- No worker of the pool of `k` waits, itself or through the workers that it joins, for `w`. -/
def MayClose (s : Process) (w : WorkerId) (k : CtxId) : Prop :=
  (s.world.ctxs k).pool = true → ¬ReflTransGen s.Joins k w.ctx

/-- No worker closes a Context, or drops the last reference to one, whose pool is open and has a
worker that waits for it: its own Context, above all. -/
def Careful (s : Process) : Action → Prop
  | .close (.worker w) k => s.MayClose w k
  | .decrefCtx (.worker w) k => s.world.heap.ctxRefs k = 1 → s.MayClose w k
  | .releaseCtx w => s.world.heap.ctxRefs w.ctx = 1 → s.MayClose w w.ctx
  | _ => True

theorem MayClose.pool_closed (h : s.MayClose w w.ctx) : (s.world.ctxs w.ctx).pool = false := by
  cases hpool : (s.world.ctxs w.ctx).pool with
  | false => rfl
  | true => exact absurd .refl (h hpool)

/-- How far a call of `threadpool_destroy` is. -/
def DestroyOk (s : Process) (d : Destroy) : Prop :=
  match d.pc with
  | .start => (s.world.ctxs d.ctx).shutdown = false
  | .join n => (s.world.ctxs d.ctx).shutdown = true ∧ ∀ m < n, s.exited ⟨d.ctx, m⟩ = true
  | .returned => True

structure Inv (s : Process) : Prop where
  world : s.world.Inv
  running : ∀ w j, s.running w = some j →
    ∃ b, s.world.jobs[j]? = some b ∧ b.ctx = w.ctx ∧ b.pc ≠ .queued
  ranked : WaitFor.Ranked s.Joins
  tornDown : s.TornDown
  calls : ∀ d ∈ s.destroys, s.DestroyOk d

theorem Init.inv (h : Init s) : Inv s := by
  have hnone : ∀ d, d ∉ s.destroys := fun d hd => by
    rw [h.destroys] at hd
    cases hd
  refine ⟨h.world.inv, fun w j hj => ?_, ⟨fun _ => 0, ?_⟩, ⟨fun d hd => absurd hd (hnone d),
    fun d hd => absurd hd (hnone d), fun k => ?_, fun k => ?_⟩, fun d hd => absurd hd (hnone d)⟩
  · rw [h.running] at hj
    cases hj
  · rintro x y ⟨d, hd, -⟩
    exact absurd hd (hnone d)
  · rw [h.destroys, h.pool]
    exact Nat.zero_add _
  · rw [h.destroys, h.freed]
    rfl

theorem Inv.goOn (h : Inv s) {world : World} {b : World.Action}
    (hs : s.world.step b = some world) (hctxs : world.ctxs = s.world.ctxs)
    {running : WorkerId → Option ℕ} (hrunning : ∀ w j, running w = some j →
      s.running w = some j ∨ ∃ b, world.jobs[j]? = some b ∧ b.ctx = w.ctx ∧ b.pc ≠ .queued) :
    Inv { s with world, running } := by
  refine ⟨h.world.step hs, fun w j hj => ?_, h.ranked, ?_, fun d hd => ?_⟩
  · rcases hrunning w j hj with hj | hnew
    · obtain ⟨b, hb, hctx, hpc⟩ := h.running w j hj
      obtain ⟨e, he, hctx', hpc'⟩ := World.step_job hs hb
      exact ⟨e, he, hctx'.trans hctx, hpc' hpc⟩
    · exact hnew
  · refine ⟨h.tornDown.thread, h.tornDown.joins, fun k => ?_, h.tornDown.freed⟩
    show _ + (world.ctxs k).pool.toNat = _
    rw [hctxs]
    exact h.tornDown.once k
  · have hcall := h.calls d hd
    unfold DestroyOk at hcall ⊢
    show match d.pc with
      | .start => (world.ctxs d.ctx).shutdown = false
      | .join n => (world.ctxs d.ctx).shutdown = true ∧ ∀ m < n, s.exited ⟨d.ctx, m⟩ = true
      | .returned => True
    rw [hctxs]
    exact hcall

theorem Inv.withWorld (h : Inv s) {world : World} {b : World.Action}
    (hs : s.world.step b = some world) (hctxs : world.ctxs = s.world.ctxs) :
    Inv (s.withWorld world) := h.goOn hs hctxs fun _ _ hj => .inl hj

/-- A thread that no worker of the pool waits for takes it, unless it is gone already. -/
theorem Inv.closePool (h : Inv s) (hth : ∀ w, th = .worker w → s.MayClose w k) :
    Inv (s.closePool th k) := by
  have hshutdown : ∀ k', ((s.closePool th k).world.ctxs k').shutdown =
      (s.world.ctxs k').shutdown := by
    intro k'
    show (Function.update s.world.ctxs k _ k').shutdown = _
    by_cases hk : k' = k
    · rw [hk, Function.update_self]
    · rw [Function.update_of_ne hk]
  have hpool : ∀ k', ((s.closePool th k).world.ctxs k').pool =
      if k' = k then false else (s.world.ctxs k').pool := by
    intro k'
    show (Function.update s.world.ctxs k _ k').pool = _
    by_cases hk : k' = k
    · rw [hk, Function.update_self, if_pos rfl]
    · rw [Function.update_of_ne hk, if_neg hk]
  have hmem : ∀ d ∈ (s.closePool th k).destroys,
      d ∈ s.destroys ∨ (s.world.ctxs k).pool = true ∧ d = { thread := th, ctx := k } := by
    intro d hd
    unfold Process.closePool at hd
    split_ifs at hd with hopen
    · rcases List.mem_append.mp hd with hd | hd
      · exact .inl hd
      · exact .inr ⟨hopen, List.mem_singleton.mp hd⟩
    · exact .inl hd
  refine ⟨h.world.step (a := .close k) rfl, h.running, ?_,
    ⟨fun d hd => ?_, fun d hd => ?_, fun k' => ?_,
    fun k' => ?_⟩, fun d hd => ?_⟩
  · -- the new call is the only new edge
    have hedge : ∀ x y, (s.closePool th k).Joins x y → s.Joins x y ∨
        (s.world.ctxs k).pool = true ∧ y = k ∧ ∃ w, th = .worker w ∧ w.ctx = x := by
      rintro x y ⟨d, hd, hpc, hctx, hw⟩
      rcases hmem d hd with hd | ⟨hopen, rfl⟩
      · exact .inl ⟨d, hd, hpc, hctx, hw⟩
      · exact .inr ⟨hopen, hctx.symm, hw⟩
    cases th with
    | main i =>
      refine h.ranked.mono fun x y hxy => (hedge x y hxy).resolve_right ?_
      rintro ⟨-, -, w, hw, -⟩
      cases hw
    | worker w =>
      cases hopen : (s.world.ctxs k).pool with
      | true =>
        refine h.ranked.insert (hth w rfl hopen) fun x y hxy => (hedge x y hxy).imp_right ?_
        rintro ⟨-, rfl, w', hw', rfl⟩
        cases hw'
        exact ⟨rfl, rfl⟩
      | false =>
        refine h.ranked.mono fun x y hxy => (hedge x y hxy).resolve_right ?_
        rintro ⟨hpool, -⟩
        rw [hopen] at hpool
        cases hpool
  · rcases hmem d hd with hd | ⟨hopen, rfl⟩
    · exact h.tornDown.thread d hd
    · rintro w hw rfl
      rw [(hth w hw).pool_closed] at hopen
      cases hopen
  · rcases hmem d hd with hd | ⟨-, rfl⟩
    · exact h.tornDown.joins d hd
    · rfl
  · have honce := h.tornDown.once k'
    rw [hpool]
    unfold Process.closePool
    by_cases hk : k' = k
    · subst hk
      rw [if_pos rfl]
      cases hopen : (s.world.ctxs k').pool with
      | false =>
        rw [hopen] at honce
        exact honce
      | true =>
        rw [if_pos rfl, countP_append_one, Destroy.isOn, decide_eq_true rfl]
        rw [hopen] at honce
        exact honce
    · rw [if_neg hk]
      split_ifs
      · rw [countP_append_one, Destroy.isOn, decide_eq_false (Ne.symm hk)]
        exact honce
      · exact honce
  · have hfreed := h.tornDown.freed k'
    unfold Process.closePool
    split_ifs
    · show s.freed k' = (s.destroys ++ _).countP _
      have hnew : Destroy.hasReturned k' { thread := th, ctx := k } = false := Bool.and_false _
      rw [countP_append_one, hnew]
      exact hfreed
    · exact hfreed
  · unfold DestroyOk
    rcases hmem d hd with hd | ⟨hopen, rfl⟩
    · rw [hshutdown]
      exact h.calls d hd
    · show ((s.closePool th k).world.ctxs k).shutdown = false
      rw [hshutdown]
      cases hs : (s.world.ctxs k).shutdown with
      | false => rfl
      | true =>
        rw [h.world.closed k hs] at hopen
        cases hopen

theorem Inv.deallocCtx (h : Inv s)
    (hth : ∀ w, th = .worker w → s.world.heap.ctxRefs k = 0 → s.MayClose w k) :
    Inv (s.deallocCtx th k) := by
  unfold Process.deallocCtx
  split_ifs with hzero
  · exact h.closePool fun w hw => hth w hw hzero
  · exact h

theorem Inv.ctx_ne (h : Inv s) {e : Destroy} (hd : s.destroys[i]? = some d)
    (he : s.destroys[j]? = some e) (hij : j ≠ i) : e.ctx ≠ d.ctx := by
  intro heq
  have hle : s.destroys.countP (·.isOn d.ctx) ≤ 1 := by
    have honce := h.tornDown.once d.ctx
    have := Bool.toNat_le (decide (0 < s.threadCount d.ctx))
    omega
  exact hij (eq_of_countP_le_one hle he hd (decide_eq_true heq) (decide_eq_true rfl))

theorem Inv.pool_closed (h : Inv s) (hd : d ∈ s.destroys) : (s.world.ctxs d.ctx).pool = false := by
  have honce := h.tornDown.once d.ctx
  have hpos : 0 < s.destroys.countP (·.isOn d.ctx) :=
    List.countP_pos_iff.mpr ⟨d, hd, decide_eq_true rfl⟩
  have hle := Bool.toNat_le (decide (0 < s.threadCount d.ctx))
  cases hpool : (s.world.ctxs d.ctx).pool with
  | false => rfl
  | true =>
    rw [hpool, Bool.toNat_true] at honce
    omega

theorem Inv.setDestroy (h : Inv s) (hd : s.destroys[i]? = some d) {world : World}
    {b : World.Action} (hs : s.world.step b = some world ∨ world = s.world)
    (hpool : ∀ k, (world.ctxs k).pool = (s.world.ctxs k).pool)
    (hshutdown : ∀ k, k ≠ d.ctx → (world.ctxs k).shutdown = (s.world.ctxs k).shutdown)
    (hgoing : d.pc ≠ .returned) (pc : DestroyPc) {freed : CtxId → ℕ}
    (hcall : Process.DestroyOk { s with world } { d with pc })
    (hfreed : ∀ k, freed k + (d.hasReturned k).toNat =
      s.freed k + ({ d with pc : Destroy }.hasReturned k).toNat) :
    Inv ({ s with world, freed : Process }.setDestroy i { d with pc }) := by
  have hmem : d ∈ s.destroys := List.mem_of_getElem? hd
  refine ⟨?_, fun w j hj => ?_, ?_, ⟨fun e he => ?_, fun e he => ?_, fun k => ?_, fun k => ?_⟩,
    fun e he => ?_⟩
  · rcases hs with hs | rfl
    · exact h.world.step hs
    · exact h.world
  · obtain ⟨b, hb, hctx, hrun⟩ := h.running w j hj
    rcases hs with hs | rfl
    · obtain ⟨e, he, hctx', hrun'⟩ := World.step_job hs hb
      exact ⟨e, he, hctx'.trans hctx, hrun' hrun⟩
    · exact ⟨b, hb, hctx, hrun⟩
  · refine h.ranked.mono ?_
    rintro x y ⟨e, he, hpc, hctx, hw⟩
    rcases Table.mem_set_cases he with rfl | ⟨j, -, he⟩
    · exact ⟨d, hmem, hgoing, hctx, hw⟩
    · exact ⟨e, List.mem_of_getElem? he, hpc, hctx, hw⟩
  · rcases Table.mem_set_cases he with rfl | ⟨j, -, he⟩
    · exact h.tornDown.thread d hmem
    · exact h.tornDown.thread e (List.mem_of_getElem? he)
  · rcases Table.mem_set_cases he with rfl | ⟨j, -, he⟩
    · exact h.tornDown.joins d hmem
    · exact h.tornDown.joins e (List.mem_of_getElem? he)
  · have hsame : (s.destroys.set i { d with pc }).countP (·.isOn k) =
        s.destroys.countP (·.isOn k) := countP_set_of_eq hd rfl
    show (s.destroys.set i _).countP _ + (world.ctxs k).pool.toNat = _
    rw [hsame, hpool]
    exact h.tornDown.once k
  · show freed k = (s.destroys.set i _).countP _
    have hset := countP_set hd { d with pc } (·.hasReturned k)
    have hold := h.tornDown.freed k
    have hnew := hfreed k
    omega
  · rcases Table.mem_set_cases he with rfl | ⟨j, hij, he⟩
    · exact hcall
    · have hcall := h.calls e (List.mem_of_getElem? he)
      unfold DestroyOk at hcall ⊢
      show match e.pc with
        | .start => (world.ctxs e.ctx).shutdown = false
        | .join n => (world.ctxs e.ctx).shutdown = true ∧ ∀ m < n, s.exited ⟨e.ctx, m⟩ = true
        | .returned => True
      rw [hshutdown e.ctx (h.ctx_ne hd he hij)]
      exact hcall

theorem started_eq_zero (hexited : ∀ m < s.threadCount k, s.exited ⟨k, m⟩ = true) :
    s.started k = 0 := by
  apply List.countP_eq_zero.mpr
  intro m hm
  rw [hexited m (List.mem_range.mp hm)]
  exact Bool.false_ne_true

theorem Inv.threadpoolDestroy (h : Inv s) (hd : s.destroys[i]? = some d)
    (hs : s.threadpoolDestroy i d = some t) : Inv t := by
  have hmem : d ∈ s.destroys := List.mem_of_getElem? hd
  have hcall := h.calls d hmem
  have herr := h.tornDown.joins d hmem
  have hstay : ∀ pc : DestroyPc, d.pc ≠ .returned → pc ≠ .returned → ∀ k,
      s.freed k + (d.hasReturned k).toNat =
        s.freed k + ({ d with pc : Destroy }.hasReturned k).toNat := by
    intro pc hold hnew k
    rw [Destroy.hasReturned, Destroy.hasReturned, decide_eq_false hold, decide_eq_false hnew]
  unfold Process.threadpoolDestroy at hs
  unfold DestroyOk at hcall
  split at hs
  case h_1 hpc =>
    rw [hpc] at hcall hstay
    rw [if_neg (by rw [hcall]; exact Bool.false_ne_true)] at hs
    obtain ⟨world, hworld, rfl⟩ := Option.map_eq_some_iff.mp hs
    have hctxs : ∀ k, (world.ctxs k).pool = (s.world.ctxs k).pool ∧
        (k ≠ d.ctx → (world.ctxs k).shutdown = (s.world.ctxs k).shutdown) ∧
        (world.ctxs d.ctx).shutdown = true := by
      intro k
      obtain ⟨-, heq⟩ := Option.ite_none_left_eq_some.mp hworld
      cases heq
      show (Function.update s.world.ctxs d.ctx _ k).pool = _ ∧
        (_ → (Function.update s.world.ctxs d.ctx _ k).shutdown = _) ∧
        (Function.update s.world.ctxs d.ctx _ d.ctx).shutdown = true
      refine ⟨?_, fun hk => ?_, by rw [Function.update_self]⟩
      · by_cases hk : k = d.ctx
        · rw [hk, Function.update_self]
        · rw [Function.update_of_ne hk]
      · rw [Function.update_of_ne hk]
    refine h.setDestroy hd (.inl hworld) (fun k => (hctxs k).1) (fun k => (hctxs k).2.1)
      (by rw [hpc]; exact fun heq => by cases heq) (.join 0)
      ⟨(hctxs d.ctx).2.2, fun m hm => absurd hm (Nat.not_lt_zero m)⟩ (hstay _ ?_ ?_)
    · exact fun heq => by cases heq
    · exact fun heq => by cases heq
  case h_2 n hpc =>
    rw [hpc] at hcall hstay
    have hjoin : DestroyPc.join n ≠ .returned := fun heq => by cases heq
    split at hs
    case isTrue hlt =>
      split at hs
      case isTrue hself => exact absurd rfl (h.tornDown.thread d hmem _ hself)
      case isFalse =>
        obtain ⟨hexited, heq⟩ := Option.ite_none_right_eq_some.mp hs
        cases heq
        refine h.setDestroy hd (b := .pop 0) (.inr rfl) (fun _ => rfl) (fun _ _ => rfl)
          (hpc ▸ hjoin) (.join (n + 1)) ⟨hcall.1, fun m hm => ?_⟩ (hstay _ hjoin ?_)
        · rcases Nat.lt_succ_iff_lt_or_eq.mp hm with hm | rfl
          · exact hcall.2 m hm
          · exact hexited
        · exact fun heq => by cases heq
    case isFalse hge =>
      have hzero : s.started d.ctx = 0 :=
        started_eq_zero fun m hm => hcall.2 m (Nat.lt_of_lt_of_le hm (Nat.le_of_not_lt hge))
      rw [Process.threadpoolFree, hzero, if_neg (Nat.lt_irrefl 0)] at hs
      cases hs
      refine h.setDestroy hd (b := .pop 0) (.inr rfl) (fun _ => rfl) (fun _ _ => rfl)
        (hpc ▸ hjoin) .returned trivial fun k => ?_
      rw [Destroy.hasReturned, Destroy.hasReturned, hpc, decide_eq_false hjoin, Bool.and_false,
        decide_eq_true rfl, Bool.and_true]
      by_cases hk : d.ctx = k
      · rw [hk, Function.update_self, decide_eq_true rfl]
        rfl
      · rw [Function.update_of_ne (Ne.symm hk), decide_eq_false hk]
  case h_3 => cases hs

theorem step_ctxs_eq {b : World.Action} {u v : World} (hs : u.step b = some v)
    (hb : b.isPython = true ∨ b.task?.isSome = true) : v.ctxs = u.ctxs := by
  rcases World.step_ctxs hs with heq | ⟨k, rfl, -⟩ | ⟨k, rfl, -, -⟩
  · exact heq
  · rcases hb with hb | hb
    · cases hb
    · cases hb
  · rcases hb with hb | hb
    · cases hb
    · cases hb

theorem Inv.releaseCtx (h : Inv s) {b : Job} {k : CtxId} {o : Option Outcome}
    {callback : Option Callback} {world : World} (hj : s.running w = some j)
    (hb : s.world.jobs[j]? = some b) (hpc : b.pc = .called (some k) o callback)
    (hs : s.world.step (.releaseCtx j) = some world) :
    k = w.ctx ∧ world.ctxs = s.world.ctxs ∧
      world.heap.ctxRefs w.ctx + 1 = s.world.heap.ctxRefs w.ctx := by
  obtain ⟨b', hb', hctx, -⟩ := h.running w j hj
  cases hb.symm.trans hb'
  have hok := h.world.job j b hb
  rw [Job.Ok, hpc] at hok
  have hk : k = w.ctx := (Option.some.inj hok.1).trans hctx
  have hcount : 0 < s.world.jobs.countP (·.holdsCtx w.ctx) := countP_pos_of_getElem? hb (by
    rw [Job.holdsCtx, hpc, decide_eq_true hctx]
    rfl)
  have hrefs := h.world.ctxRefs w.ctx
  rw [World.step, World.onJob_eq hb, hpc] at hs
  cases hs
  refine ⟨hk, rfl, ?_⟩
  show Function.update s.world.heap.ctxRefs k _ w.ctx + 1 = _
  rw [hk, Function.update_self]
  omega

theorem Inv.step (h : Inv s) (hcareful : Careful s a) (hs : s.step a = some t) : Inv t := by
  cases a with
  | python th b =>
    obtain ⟨⟨-, hpython⟩, hs⟩ := Option.ite_none_right_eq_some.mp hs
    obtain ⟨world, hworld, rfl⟩ := Option.map_eq_some_iff.mp hs
    exact h.withWorld hworld (step_ctxs_eq hworld (.inl hpython))
  | close th k =>
    obtain ⟨-, hs⟩ := Option.ite_none_right_eq_some.mp hs
    cases hs
    apply h.closePool
    rintro w rfl
    exact hcareful
  | decrefCtx th k =>
    obtain ⟨-, hs⟩ := Option.ite_none_right_eq_some.mp hs
    obtain ⟨world, hworld, rfl⟩ := Option.map_eq_some_iff.mp hs
    have hstep := hworld
    obtain ⟨huser, heq⟩ := Option.ite_none_right_eq_some.mp hworld
    cases heq
    apply (h.withWorld hstep rfl).deallocCtx
    rintro w rfl hzero
    change Function.update s.world.heap.ctxRefs k _ k = 0 at hzero
    rw [Function.update_self] at hzero
    have hrefs := h.world.ctxRefs k
    exact hcareful (by omega)
  | pop w j =>
    obtain ⟨⟨-, -, -, hj⟩, hs⟩ := Option.ite_none_right_eq_some.mp hs
    obtain ⟨world, hworld, rfl⟩ := Option.map_eq_some_iff.mp hs
    have hctxs : world.ctxs = s.world.ctxs := by
      rcases World.step_ctxs hworld with heq | ⟨k, heq, -⟩ | ⟨k, heq, -⟩
      · exact heq
      · cases heq
      · cases heq
    apply h.goOn hworld hctxs
    intro w' j' hj'
    by_cases hw : w' = w
    · rw [hw, Function.update_self] at hj'
      cases hj'
      obtain ⟨b, hb, hctx⟩ := (Option.any_eq_true _ _).mp hj
      rw [hw]
      exact .inr ⟨_, World.step_pop hworld hb, of_decide_eq_true hctx, nofun⟩
    · rw [Function.update_of_ne hw] at hj'
      exact .inl hj'
  | work w b =>
    obtain ⟨⟨-, htask, -⟩, hs⟩ := Option.ite_none_right_eq_some.mp hs
    obtain ⟨world, hworld, rfl⟩ := Option.map_eq_some_iff.mp hs
    exact h.withWorld hworld (step_ctxs_eq hworld (.inr htask))
  | releaseCtx w =>
    obtain ⟨-, hs⟩ := Option.ite_none_left_eq_some.mp hs
    obtain ⟨j, hj, hs⟩ := Option.bind_eq_some_iff.mp hs
    obtain ⟨b, hb, hs⟩ := Option.bind_eq_some_iff.mp hs
    split at hs
    case h_1 k o callback hpc =>
      obtain ⟨world, hworld, rfl⟩ := Option.map_eq_some_iff.mp hs
      obtain ⟨rfl, hctxs, hrefs⟩ := h.releaseCtx hj hb hpc hworld
      apply (h.withWorld hworld hctxs).deallocCtx
      intro w' hw hzero
      cases hw
      change world.heap.ctxRefs w.ctx = 0 at hzero
      have hclose := hcareful (by omega)
      intro hopen
      apply hclose
      rw [← hctxs]
      exact hopen
    case h_2 => cases hs
  | leave w =>
    obtain ⟨-, hs⟩ := Option.ite_none_left_eq_some.mp hs
    obtain ⟨b, -, hs⟩ := Option.bind_eq_some_iff.mp hs
    split at hs
    case h_1 =>
      cases hs
      refine ⟨h.world, fun w' j hj => ?_, h.ranked, h.tornDown.congr rfl rfl rfl rfl, h.calls⟩
      by_cases hw : w' = w
      · change Function.update s.running w none w' = some j at hj
        rw [hw, Function.update_self] at hj
        cases hj
      · exact h.running w' j ((Function.update_of_ne hw _ _).symm.trans hj)
    case h_2 => cases hs
  | exit w =>
    obtain ⟨-, hs⟩ := Option.ite_none_right_eq_some.mp hs
    cases hs
    have hexited : ∀ w', s.exited w' = true → Function.update s.exited w true w' = true := by
      intro w' hw'
      by_cases hw : w' = w
      · rw [hw, Function.update_self]
      · rw [Function.update_of_ne hw]
        exact hw'
    refine ⟨h.world, h.running, h.ranked, h.tornDown.congr rfl rfl rfl rfl, fun d hd => ?_⟩
    have hcall := h.calls d hd
    unfold DestroyOk at hcall ⊢
    cases hpc : d.pc with
    | start =>
      rw [hpc] at hcall
      exact hcall
    | join n =>
      rw [hpc] at hcall
      exact ⟨hcall.1, fun m hm => hexited _ (hcall.2 m hm)⟩
    | returned => trivial
  | destroy i =>
    obtain ⟨d, hd, hs⟩ := Option.bind_eq_some_iff.mp hs
    exact h.threadpoolDestroy hd hs

theorem inv (h : system.ReachableBy Careful s) : Inv s :=
  h.invariant (fun _ => Init.inv) fun _ _ _ h hcareful hs => h.step hcareful hs

def new : Process where
  world := World.new 4
  threadCount := fun _ => 1
  running := fun _ => none
  exited := fun _ => false
  destroys := []
  freed := fun _ => 0

theorem new_init : Init new :=
  ⟨World.new_init 4, fun _ => rfl, fun _ => rfl, fun _ => rfl, rfl, fun _ => rfl⟩

end Process

end Caio.ThreadAio
