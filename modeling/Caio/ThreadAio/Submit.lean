import Mathlib.Data.List.Nodup
import Mathlib.Logic.Function.Basic
import Mathlib.Tactic.SplitIfs
import Caio.ThreadAio.Operation

namespace Caio.ThreadAio

/-- The Operations by address and the reference count of every Context. -/
structure Heap where
  ops : OpPtr → AIOOperation
  ctxRefs : CtxId → ℕ

namespace Heap

def modify (h : Heap) (p : OpPtr) (f : AIOOperation → AIOOperation) : Heap :=
  { h with ops := Function.update h.ops p (f (h.ops p)) }

def increfCtx (h : Heap) (k : CtxId) : Heap :=
  { h with ctxRefs := Function.update h.ctxRefs k (h.ctxRefs k + 1) }

def decrefCtx (h : Heap) (k : CtxId) : Heap :=
  { h with ctxRefs := Function.update h.ctxRefs k (h.ctxRefs k - 1) }

theorem modify_ops (h : Heap) (q p : OpPtr) (f : AIOOperation → AIOOperation) :
    (h.modify q f).ops p = if p = q then f (h.ops p) else h.ops p := by
  by_cases hp : p = q
  · rw [if_pos hp, hp]
    exact Function.update_self ..
  · rw [if_neg hp]
    exact Function.update_of_ne hp ..

end Heap

/-- `threadpool_error_t` -/
inductive ThreadpoolError
  | invalid
  | lockFailure
  | queueFull
  | shutdown
  | threadFailure
deriving DecidableEq, Repr

/-- What `threadpool_add` looks at. -/
structure Threadpool where
  queueSize : ℕ
  /-- Tasks that no worker has taken yet. -/
  count : ℕ
  shutdown : Bool

/-- `threadpool_add`: the error, if the task is refused. -/
def threadpoolAdd (pool : Threadpool) : Option ThreadpoolError :=
  if pool.count = pool.queueSize then some .queueFull
  else if pool.shutdown then some .shutdown
  else none

theorem threadpoolAdd_eq_none {pool : Threadpool} :
    threadpoolAdd pool = none ↔ pool.count ≠ pool.queueSize ∧ pool.shutdown = false := by
  unfold threadpoolAdd
  by_cases hfull : pool.count = pool.queueSize
  · rw [if_pos hfull]
    exact iff_of_false (Option.some_ne_none _) fun h => h.1 hfull
  · rw [if_neg hfull]
    cases hshut : pool.shutdown with
    | true => exact iff_of_false (Option.some_ne_none _) fun h => Bool.noConfusion h.2
    | false => exact iff_of_true rfl ⟨hfull, rfl⟩

def processPoolError : ThreadpoolError → PyErr
  | .invalid => .runtimeError "Thread pool pointer is invalid"
  | .lockFailure => .runtimeError "Failed to lock thread pool"
  | .queueFull => .runtimeError "Thread pool queue full"
  | .shutdown => .runtimeError "Thread pool is shutdown"
  | .threadFailure => .runtimeError "Thread failure"

/-- An argument of `Context.submit`. -/
inductive Arg
  | operation (p : OpPtr)
  | other
deriving DecidableEq, Repr

def Arg.operation? : Arg → Option OpPtr
  | .operation p => some p
  | .other => none

/-- The exchange, `ctx` and the two references. -/
def Heap.claim (h : Heap) (self : CtxId) (p : OpPtr) : Heap :=
  (h.modify p fun op =>
    { op with inProgress := true, ctx := some self, refcnt := op.refcnt + 1 }).increfCtx self

def Heap.unclaim (h : Heap) (self : CtxId) (p : OpPtr) : Heap :=
  (h.modify p fun op =>
    { op with inProgress := false, ctx := none, refcnt := op.refcnt - 1 }).decrefCtx self

/-- What a call of `submit` leaves: the objects, the Operations in the queue, and what it returns.
-/
structure Submitted where
  heap : Heap
  queued : List OpPtr
  ret : Except PyErr ℕ

/-- The loop of `AIOContext_submit`; the error is that of the pool. -/
def submitLoop (self : CtxId) (pool : Threadpool) :
    List OpPtr → Heap → Heap × List OpPtr × Option ThreadpoolError
  | [], h => (h, [], none)
  | p :: ps, h =>
    if (h.ops p).inProgress then submitLoop self pool ps h
    else
      match threadpoolAdd pool with
      | some err => ((h.claim self p).unclaim self p, [], some err)
      | none =>
        let r := submitLoop self { pool with count := pool.count + 1 } ps (h.claim self p)
        (r.1, p :: r.2.1, r.2.2)

def submit (h : Heap) (self : CtxId) (pool : Option Threadpool) (args : List Arg) : Submitted :=
  match args.idxOf? .other with
  | some i => ⟨h, [], .error (.typeError ("Wrong type for argument " ++ toString i))⟩
  | none =>
    match pool with
    | none => ⟨h, [], .error (.runtimeError "self->pool is NULL")⟩
    | some pool =>
      let r := submitLoop self pool (args.filterMap Arg.operation?) h
      ⟨r.1, r.2.1,
        match r.2.2 with
        | some err => .error (processPoolError err)
        | none => .ok r.2.1.length⟩

def AIOOperation.claimed (op : AIOOperation) (self : CtxId) : AIOOperation :=
  { op with inProgress := true, ctx := some self, refcnt := op.refcnt + 1 }

theorem claim_ops (h : Heap) (self : CtxId) (q p : OpPtr) :
    (h.claim self q).ops p = if p = q then (h.ops p).claimed self else h.ops p :=
  Heap.modify_ops h q p (·.claimed self)

/-- A claim that is taken back leaves nothing behind, as long as `ctx` was `NULL` before. -/
theorem unclaim_claim {h : Heap} {p : OpPtr} (self : CtxId) (hfree : (h.ops p).inProgress = false)
    (hctx : (h.ops p).ctx = none) : (h.claim self p).unclaim self p = h := by
  have hop : ∀ op : AIOOperation, op.inProgress = false → op.ctx = none →
      { op with inProgress := false, ctx := none } = op := by
    intro op hprogress hctx
    cases op
    cases hprogress
    cases hctx
    rfl
  simp only [Heap.unclaim, Heap.claim, Heap.modify, Heap.increfCtx, Heap.decrefCtx,
    Function.update_self, Function.update_idem, Nat.add_sub_cancel, Function.update_eq_self]
  show Heap.mk (Function.update h.ops p { h.ops p with inProgress := false, ctx := none }) _ = h
  rw [hop _ hfree hctx, Function.update_eq_self]

def Heap.Clean (h : Heap) : Prop := ∀ p, (h.ops p).inProgress = false → (h.ops p).ctx = none

theorem Heap.Clean.claim {h : Heap} (hclean : h.Clean) (self : CtxId) (q : OpPtr) :
    (h.claim self q).Clean := by
  intro p hp
  rw [claim_ops] at hp ⊢
  split_ifs at hp ⊢
  · cases hp
  · exact hclean p hp

theorem submitLoop_spec (self : CtxId) (ops : List OpPtr) (pool : Threadpool) {h : Heap}
    (hclean : h.Clean) :
    (submitLoop self pool ops h).2.1.Nodup ∧
    (∀ p ∈ (submitLoop self pool ops h).2.1, p ∈ ops ∧ (h.ops p).inProgress = false) ∧
    (∀ p, (submitLoop self pool ops h).1.ops p =
      if p ∈ (submitLoop self pool ops h).2.1 then (h.ops p).claimed self else h.ops p) ∧
    ∀ k, (submitLoop self pool ops h).1.ctxRefs k =
      h.ctxRefs k + if k = self then (submitLoop self pool ops h).2.1.length else 0 := by
  induction ops generalizing h pool with
  | nil => exact ⟨List.nodup_nil, nofun, fun _ => rfl, fun k => by split <;> rfl⟩
  | cons q qs ih =>
    by_cases hq : (h.ops q).inProgress = true
    · rw [submitLoop, if_pos hq]
      obtain ⟨hnodup, hmem, hops, hrefs⟩ := ih pool hclean
      exact ⟨hnodup, fun p hp => ⟨List.mem_cons_of_mem _ (hmem p hp).1, (hmem p hp).2⟩, hops, hrefs⟩
    · have hfree : (h.ops q).inProgress = false := Bool.not_eq_true _ ▸ hq
      rw [submitLoop, if_neg hq]
      split
      case h_1 err _ =>
        rw [unclaim_claim self hfree (hclean q hfree)]
        exact ⟨List.nodup_nil, nofun, fun _ => rfl, fun k => by split <;> rfl⟩
      case h_2 _ =>
        obtain ⟨hnodup, hmem, hops, hrefs⟩ :=
          ih { pool with count := pool.count + 1 } (hclean.claim self q)
        generalize submitLoop self { pool with count := pool.count + 1 } qs (h.claim self q) = r
          at hnodup hmem hops hrefs
        have hskip : q ∉ r.2.1 := by
          intro hqr
          have := (hmem q hqr).2
          rw [claim_ops, if_pos rfl] at this
          cases this
        refine ⟨List.nodup_cons.mpr ⟨hskip, hnodup⟩, fun p hp => ?_, fun p => ?_, fun k => ?_⟩
        · rcases List.mem_cons.mp hp with rfl | hp
          · exact ⟨List.mem_cons_self, hfree⟩
          · obtain ⟨hqs, hprogress⟩ := hmem p hp
            have hne : p ≠ q := fun heq => hskip (heq ▸ hp)
            rw [claim_ops, if_neg hne] at hprogress
            exact ⟨List.mem_cons_of_mem _ hqs, hprogress⟩
        · rw [hops, claim_ops]
          by_cases hpq : p = q
          · rw [if_pos hpq, if_neg (hpq ▸ hskip), if_pos (hpq ▸ List.mem_cons_self)]
          · rw [if_neg hpq]
            simp only [List.mem_cons, hpq, false_or]
        · rw [hrefs]
          show Function.update h.ctxRefs self _ k + _ = _
          by_cases hk : k = self
          · rw [hk, Function.update_self, if_pos rfl, if_pos rfl, List.length_cons]
            show h.ctxRefs self + 1 + _ = _
            omega
          · rw [Function.update_of_ne hk, if_neg hk, if_neg hk]

theorem submit_spec (self : CtxId) (pool : Option Threadpool) (args : List Arg) {h : Heap}
    (hclean : h.Clean) :
    (submit h self pool args).queued.Nodup ∧
    (∀ p ∈ (submit h self pool args).queued, (h.ops p).inProgress = false) ∧
    (∀ p, (submit h self pool args).heap.ops p =
      if p ∈ (submit h self pool args).queued then (h.ops p).claimed self else h.ops p) ∧
    ∀ k, (submit h self pool args).heap.ctxRefs k =
      h.ctxRefs k + if k = self then (submit h self pool args).queued.length else 0 := by
  have hnone : ∀ ret : Except PyErr ℕ, (Submitted.mk h [] ret).queued.Nodup ∧
      (∀ p ∈ (Submitted.mk h [] ret).queued, (h.ops p).inProgress = false) ∧
      (∀ p, h.ops p = if p ∈ (Submitted.mk h [] ret).queued then (h.ops p).claimed self
        else h.ops p) ∧
      ∀ k, h.ctxRefs k = h.ctxRefs k + if k = self then 0 else 0 :=
    fun _ => ⟨List.nodup_nil, nofun, fun _ => rfl, fun k => by split <;> rfl⟩
  unfold submit
  split
  · exact hnone _
  · split
    · exact hnone _
    · rename_i pool
      obtain ⟨hnodup, hmem, hops, hrefs⟩ :=
        submitLoop_spec self (args.filterMap Arg.operation?) pool hclean
      exact ⟨hnodup, fun p hp => (hmem p hp).2, hops, hrefs⟩

theorem submit_accepts {h : Heap} {p : OpPtr} (self : CtxId) {pool : Threadpool}
    (hfree : (h.ops p).inProgress = false) (hroom : pool.count ≠ pool.queueSize)
    (hopen : pool.shutdown = false) :
    (submit h self (some pool) [.operation p]).queued = [p] ∧
      (submit h self (some pool) [.operation p]).ret = .ok 1 := by
  have hadd : threadpoolAdd pool = none := by
    rw [threadpoolAdd, if_neg hroom, hopen]
    rfl
  have hloop : submitLoop self pool [p] h = (h.claim self p, [p], none) := by
    rw [submitLoop, hfree, if_neg Bool.false_ne_true, hadd]
    rfl
  simp only [submit, List.filterMap_cons, Arg.operation?, List.filterMap_nil, hloop]
  exact ⟨rfl, rfl⟩

end Caio.ThreadAio
