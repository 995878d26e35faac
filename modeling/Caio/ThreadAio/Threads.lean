import Caio.ThreadAio.World

/-!
# thread_aio: the threads of a process

Which thread runs the steps of a program at large: the threads of the program itself, and the
workers of the pools. A thread that calls `close`, or that drops the last reference of a Context,
runs `threadpool_destroy`.
-/

namespace Caio.ThreadAio

/-- `pool->threads[index]` for the pool of `ctx`. -/
structure WorkerId where
  ctx : CtxId
  index : ℕ
deriving DecidableEq

inductive ThreadId
  | main (i : ℕ)
  | worker (w : WorkerId)
deriving DecidableEq

/-- Where a call of `threadpool_destroy` is. -/
inductive DestroyPc
  | start
  /-- Before `pthread_join` on `threads[i]`, or after the loop. -/
  | join (i : ℕ)
  | returned
deriving DecidableEq

/-- A call of `threadpool_destroy`. -/
structure Destroy where
  thread : ThreadId
  ctx : CtxId
  pc : DestroyPc := .start
  err : Option ThreadpoolError := none
deriving DecidableEq

structure Process where
  world : World
  /-- `pool->thread_count` -/
  threadCount : CtxId → ℕ
  /-- The task that a worker has taken, until `worker` returns. -/
  running : WorkerId → Option ℕ
  exited : WorkerId → Bool
  destroys : List Destroy
  /-- How often the pool of a Context has been freed. -/
  freed : CtxId → ℕ

/-- A worker may run Python code once it has the GIL: the callback, and what the objects that it
releases run. -/
def JobPc.hasGil : JobPc → Bool
  | .queued | .popped | .taken _ _ => false
  | _ => true

namespace World.Action

/-- What Python code does, apart from `close` and the dropping of a Context. -/
def isPython : Action → Bool
  | .submit _ _ | .setCallback _ _ | .increfOp _ | .decrefOp _ | .increfCtx _ => true
  | _ => false

/-- The task that goes on, apart from `Py_DECREF(ctx)`. -/
def task? : Action → Option ℕ
  | .take j | .syscall j _ _ | .publish j | .callback j | .callbackReturns j | .releaseOp j =>
    some j
  | _ => none

end World.Action

namespace Process

def withWorld (s : Process) (world : World) : Process := { s with world }

def setDestroy (s : Process) (i : ℕ) (d : Destroy) : Process :=
  { s with destroys := s.destroys.set i d }

def task (s : Process) (w : WorkerId) : Option Job := (s.running w).bind (s.world.jobs[·]?)

def destroying (s : Process) (th : ThreadId) : Bool :=
  s.destroys.any fun d => d.thread = th ∧ d.pc ≠ .returned

def runsPython (s : Process) : ThreadId → Bool
  | .main i => !s.destroying (.main i)
  | .worker w => !s.destroying (.worker w) && (s.task w).any (·.pc.hasGil)

def started (s : Process) (k : CtxId) : ℕ :=
  (List.range (s.threadCount k)).countP fun i => !s.exited ⟨k, i⟩

/-- `AIOContext_close_pool`, up to the call of `threadpool_destroy`. -/
def closePool (s : Process) (th : ThreadId) (k : CtxId) : Process :=
  { s with
    world := s.world.modifyCtx k fun ctx => { ctx with pool := false }
    destroys :=
      if (s.world.ctxs k).pool then s.destroys ++ [{ thread := th, ctx := k }] else s.destroys }

/-- What follows a `Py_DECREF` of a Context: `AIOContext_dealloc` if it was the last one. -/
def deallocCtx (s : Process) (th : ThreadId) (k : CtxId) : Process :=
  if s.world.heap.ctxRefs k = 0 then s.closePool th k else s

def threadpoolFree (s : Process) (k : CtxId) : Process :=
  if 0 < s.started k then s else { s with freed := Function.update s.freed k (s.freed k + 1) }

/-- A step of `threadpool_destroy`; a join waits for the worker, except for a join on the calling
thread, which fails with `EDEADLK`. -/
def threadpoolDestroy (s : Process) (i : ℕ) (d : Destroy) : Option Process :=
  match d.pc with
  | .start =>
    if (s.world.ctxs d.ctx).shutdown then
      some (s.setDestroy i { d with pc := .returned, err := some .shutdown })
    else
      (s.world.step (.destroy d.ctx)).map fun world =>
        (s.withWorld world).setDestroy i { d with pc := .join 0 }
  | .join n =>
    if n < s.threadCount d.ctx then
      if d.thread = .worker ⟨d.ctx, n⟩ then
        some (s.setDestroy i { d with pc := .join (n + 1), err := some .threadFailure })
      else if s.exited ⟨d.ctx, n⟩ then some (s.setDestroy i { d with pc := .join (n + 1) })
      else none
    else
      some ((if d.err = none then s.threadpoolFree d.ctx else s).setDestroy i
        { d with pc := .returned })
  | .returned => none

inductive Action
  | python (th : ThreadId) (a : World.Action)
  | close (th : ThreadId) (k : CtxId)
  | decrefCtx (th : ThreadId) (k : CtxId)
  | pop (w : WorkerId) (j : ℕ)
  | work (w : WorkerId) (a : World.Action)
  | releaseCtx (w : WorkerId)
  /-- `worker` returns to `threadpool_thread`. -/
  | leave (w : WorkerId)
  /-- `threadpool_thread` leaves its loop. -/
  | exit (w : WorkerId)
  | destroy (i : ℕ)

def step (s : Process) : Action → Option Process
  | .python th a =>
    if s.runsPython th ∧ a.isPython then (s.world.step a).map s.withWorld else none
  | .close th k => if s.runsPython th then some (s.closePool th k) else none
  | .decrefCtx th k =>
    if s.runsPython th then
      (s.world.step (.decrefCtx k)).map fun world => (s.withWorld world).deallocCtx th k
    else none
  | .pop w j =>
    if w.index < s.threadCount w.ctx ∧ s.running w = none ∧ s.exited w = false ∧
        s.world.jobs[j]?.any (fun b : Job => b.ctx = w.ctx) then
      (s.world.step (.pop j)).map fun world =>
        { s with world, running := Function.update s.running w (some j) }
    else none
  | .work w a =>
    if s.destroying (.worker w) = false ∧ a.task?.isSome ∧ a.task? = s.running w then
      (s.world.step a).map s.withWorld
    else none
  | .releaseCtx w =>
    if s.destroying (.worker w) then none
    else
      (s.running w).bind fun j => s.world.jobs[j]?.bind fun b =>
        match b.pc with
        | .called (some k) _ _ =>
          (s.world.step (.releaseCtx j)).map fun world =>
            (s.withWorld world).deallocCtx (.worker w) k
        | _ => none
  | .leave w =>
    if s.destroying (.worker w) then none
    else
      (s.task w).bind fun b =>
        match b.pc with
        | .finished _ _ _ => some { s with running := Function.update s.running w none }
        | _ => none
  | .exit w =>
    if w.index < s.threadCount w.ctx ∧ s.running w = none ∧
        (s.world.ctxs w.ctx).shutdown ∧ (s.world.threadpool w.ctx).count = 0 then
      some { s with exited := Function.update s.exited w true }
    else none
  | .destroy i => s.destroys[i]?.bind (s.threadpoolDestroy i)

/-- A Context has a pool, with at least one worker, unless its `__init__` has failed. -/
structure Init (s : Process) : Prop where
  world : s.world.Init
  pool : ∀ k, (s.world.ctxs k).pool = decide (0 < s.threadCount k)
  running : ∀ w, s.running w = none
  exited : ∀ w, s.exited w = false
  destroys : s.destroys = []
  freed : ∀ k, s.freed k = 0

def system : TransitionSystem Process Action := ⟨Init, step⟩

variable {s t : Process} {a : Action}

/-- A step is one step of the program at large, a step and a `close`, or none. -/
theorem step_world (hs : s.step a = some t) :
    ∃ as, World.system.exec s.world as = some t.world := by
  have hmap : ∀ {b : World.Action} {f : World → Process}, (s.world.step b).map f = some t →
      (∀ world, (f world).world = world ∨ ∃ k, (f world).world =
        world.modifyCtx k fun ctx => { ctx with pool := false }) →
      ∃ as, World.system.exec s.world as = some t.world := by
    intro b f hb hf
    obtain ⟨world, hworld, rfl⟩ := Option.map_eq_some_iff.mp hb
    rcases hf world with heq | ⟨k, heq⟩
    · rw [heq]
      exact ⟨[b], TransitionSystem.exec_singleton (S := World.system) hworld⟩
    · rw [heq]
      exact ⟨[b, .close k], TransitionSystem.exec_cons (S := World.system) hworld⟩
  have hdealloc : ∀ (th : ThreadId) (k : CtxId) (world : World),
      ((s.withWorld world).deallocCtx th k).world = world ∨ ∃ k',
        ((s.withWorld world).deallocCtx th k).world =
          world.modifyCtx k' fun ctx => { ctx with pool := false } := by
    intro th k world
    unfold deallocCtx
    split
    · exact .inr ⟨k, rfl⟩
    · exact .inl rfl
  cases a with
  | python th a =>
    obtain ⟨-, hs⟩ := Option.ite_none_right_eq_some.mp hs
    exact hmap hs fun _ => .inl rfl
  | close th k =>
    obtain ⟨-, hs⟩ := Option.ite_none_right_eq_some.mp hs
    cases hs
    exact ⟨[.close k], rfl⟩
  | decrefCtx th k =>
    obtain ⟨-, hs⟩ := Option.ite_none_right_eq_some.mp hs
    exact hmap hs (hdealloc th k)
  | pop w j =>
    obtain ⟨-, hs⟩ := Option.ite_none_right_eq_some.mp hs
    exact hmap hs fun _ => .inl rfl
  | work w a =>
    obtain ⟨-, hs⟩ := Option.ite_none_right_eq_some.mp hs
    exact hmap hs fun _ => .inl rfl
  | releaseCtx w =>
    obtain ⟨-, hs⟩ := Option.ite_none_left_eq_some.mp hs
    obtain ⟨j, -, hs⟩ := Option.bind_eq_some_iff.mp hs
    obtain ⟨b, -, hs⟩ := Option.bind_eq_some_iff.mp hs
    split at hs
    case h_1 k _ _ _ => exact hmap hs (hdealloc (.worker w) k)
    case h_2 => cases hs
  | leave w =>
    obtain ⟨-, hs⟩ := Option.ite_none_left_eq_some.mp hs
    obtain ⟨b, -, hs⟩ := Option.bind_eq_some_iff.mp hs
    split at hs
    case h_1 =>
      cases hs
      exact ⟨[], rfl⟩
    case h_2 => cases hs
  | exit w =>
    obtain ⟨-, hs⟩ := Option.ite_none_right_eq_some.mp hs
    cases hs
    exact ⟨[], rfl⟩
  | destroy i =>
    obtain ⟨d, -, hs⟩ := Option.bind_eq_some_iff.mp hs
    unfold threadpoolDestroy at hs
    split at hs
    case h_1 =>
      split at hs
      · cases hs
        exact ⟨[], rfl⟩
      · exact hmap hs fun _ => .inl rfl
    case h_2 n _ =>
      split at hs
      · split at hs
        · cases hs
          exact ⟨[], rfl⟩
        · obtain ⟨-, hs⟩ := Option.ite_none_right_eq_some.mp hs
          cases hs
          exact ⟨[], rfl⟩
      · cases hs
        refine ⟨[], congrArg some ?_⟩
        unfold threadpoolFree
        split_ifs
        · rfl
        · rfl
        · rfl
    case h_3 => cases hs

theorem reachable_world {C : Process → Action → Prop} (h : system.ReachableBy C s) :
    World.system.Reachable s.world := by
  induction h with
  | init h => exact .init h.world
  | step _ _ hs ih =>
    obtain ⟨as, hexec⟩ := step_world hs
    exact ih.exec hexec

end Process

end Caio.ThreadAio
