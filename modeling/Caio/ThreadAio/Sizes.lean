import Mathlib.Tactic.SplitIfs
import Caio.Asyncio.Backpressure
import Caio.Lib.LittleEndian

namespace Caio.ThreadAio

open LittleEndian

def maxThreads : ℕ := 128

def maxQueue : ℕ := 65536

/-- What `threadpool_create` asks of the system. -/
structure PoolSupport where
  /-- Whether the allocations, the mutex and the condition are made. -/
  resources : Bool
  /-- Whether the `i`-th `pthread_create` succeeds. -/
  thread : ℕ → Bool

/-- The sizes in a `threadpool_t`. -/
structure PoolSizes where
  threadCount : ℕ
  queueSize : ℕ
  started : ℕ
deriving DecidableEq, Repr

/-- The loop that starts the `n` workers that are left. -/
def startThreads (thread : ℕ → Bool) : ℕ → PoolSizes → Option PoolSizes
  | 0, pool => some pool
  | n + 1, pool =>
    if thread pool.started then
      startThreads thread n
        { pool with threadCount := pool.threadCount + 1, started := pool.started + 1 }
    else none

/-- `threadpool_create`; a failure destroys the pool. -/
def threadpoolCreate (os : PoolSupport) (threadCount queueSize : ℕ) : Option PoolSizes :=
  if threadCount ≤ 0 ∨ threadCount > maxThreads ∨ queueSize ≤ 0 ∨ queueSize > maxQueue then none
  else if os.resources then
    startThreads os.thread threadCount { threadCount := 0, queueSize, started := 0 }
  else none

theorem startThreads_eq {thread : ℕ → Bool} {n : ℕ} {pool pool' : PoolSizes}
    (h : startThreads thread n pool = some pool') :
    pool'.threadCount = pool.threadCount + n ∧ pool'.queueSize = pool.queueSize := by
  induction n generalizing pool with
  | zero =>
    cases h
    exact ⟨rfl, rfl⟩
  | succ n ih =>
    obtain ⟨-, h⟩ := Option.ite_none_right_eq_some.mp h
    obtain ⟨hcount, hsize⟩ := ih h
    refine ⟨?_, hsize⟩
    rw [hcount, Nat.add_assoc, Nat.add_comm 1 n]

theorem startThreads_succeeds {thread : ℕ → Bool} (hthread : ∀ i, thread i = true) (n : ℕ)
    (pool : PoolSizes) : ∃ pool', startThreads thread n pool = some pool' := by
  induction n generalizing pool with
  | zero => exact ⟨pool, rfl⟩
  | succ n ih =>
    rw [startThreads, if_pos (hthread _)]
    exact ih _

theorem threadpoolCreate_sizes {os : PoolSupport} {threads size : ℕ} {pool : PoolSizes}
    (h : threadpoolCreate os threads size = some pool) :
    pool.threadCount = threads ∧ pool.queueSize = size := by
  unfold threadpoolCreate at h
  split_ifs at h
  obtain ⟨hcount, hsize⟩ := startThreads_eq h
  exact ⟨hcount.trans (Nat.zero_add _), hsize⟩

def ctxPoolSizeDefault : ℕ := 8

def ctxMaxRequestsDefault : ℕ := 512

def maxRequestsAt : ℕ := 24

/-- `offsetof(AIOContext, pool_size)`, a `uint8_t`; five bytes of padding follow. -/
def poolSizeAt : ℕ := 26

/-- The format `H`: two bytes, whatever the field. -/
def storeH (object : Memory) (addr : ℕ) : Option ℕ → Memory
  | none => object
  | some n => store object addr 2 n

def parsed (object : Memory) (maxRequests poolSize : Option ℕ) : Memory :=
  storeH (storeH (store object maxRequestsAt 2 0) maxRequestsAt maxRequests) poolSizeAt poolSize

/-- `AIOContext_init` on the object at the bytes of `object`. -/
def AIOContext.init (os : PoolSupport) (object : Memory) (maxRequests poolSize : Option ℕ) :
    Except PyErr PoolSizes :=
  let object := parsed object maxRequests poolSize
  let maxRequests :=
    -- a default replaces what is 0 after the reduction
    if load object maxRequestsAt 2 ≤ 0 then ctxMaxRequestsDefault else load object maxRequestsAt 2
  let poolSize :=
    if load object poolSizeAt 1 ≤ 0 then ctxPoolSizeDefault else load object poolSizeAt 1
  if poolSize > maxThreads then
    .error (.valueError ("pool_size too large. Allowed lower then " ++ toString maxThreads))
  else if maxRequests ≥ maxQueue - 1 then
    .error (.valueError ("max_requests too large. Allowed lower then " ++ toString (maxQueue - 1)))
  else
    match threadpoolCreate os poolSize maxRequests with
    | none => .error (.runtimeError ("Pool initialization failed size=" ++ toString poolSize ++
        " max_requests=" ++ toString maxRequests))
    | some pool => .ok pool

section

variable (object : Memory) (m p : ℕ)

theorem parsed_maxRequests :
    load (parsed object (some m) (some p)) maxRequestsAt 2 = m % 65536 := by
  show load (store (store _ maxRequestsAt 2 m) poolSizeAt 2 p) maxRequestsAt 2 = _
  rw [load_store_of_disjoint (.inl (by decide))]
  exact load_store_of_le (Nat.le_refl 2)

theorem parsed_poolSize : load (parsed object (some m) (some p)) poolSizeAt 1 = p % 256 := by
  show load (store (store _ maxRequestsAt 2 m) poolSizeAt 2 p) poolSizeAt 1 = _
  rw [load_store_of_le (Nat.le_succ 1), Nat.pow_one]

end

/-- The number of workers that the checks see for an argument. -/
def storedPoolSize (p : ℕ) : ℕ := if p % 256 = 0 then ctxPoolSizeDefault else p % 256

theorem init_eq (os : PoolSupport) (object : Memory) (m p : ℕ) :
    AIOContext.init os object (some m) (some p) =
      if storedPoolSize p > maxThreads then
        .error (.valueError ("pool_size too large. Allowed lower then " ++ toString maxThreads))
      else if Asyncio.threadQueueSize m ≥ maxQueue - 1 then
        .error (.valueError
          ("max_requests too large. Allowed lower then " ++ toString (maxQueue - 1)))
      else
        match threadpoolCreate os (storedPoolSize p) (Asyncio.threadQueueSize m) with
        | none => .error (.runtimeError ("Pool initialization failed size=" ++
            toString (storedPoolSize p) ++ " max_requests=" ++
            toString (Asyncio.threadQueueSize m)))
        | some pool => .ok pool := by
  unfold AIOContext.init
  simp only [parsed_maxRequests, parsed_poolSize, Nat.le_zero]
  rfl

theorem init_ok {os : PoolSupport} {object : Memory} {m p : ℕ} {pool : PoolSizes}
    (h : AIOContext.init os object (some m) (some p) = .ok pool) :
    storedPoolSize p ≤ maxThreads ∧ Asyncio.threadQueueSize m < maxQueue - 1 ∧
      pool.threadCount = storedPoolSize p ∧ pool.queueSize = Asyncio.threadQueueSize m := by
  rw [init_eq] at h
  split_ifs at h with hthreads hqueue
  split at h
  · cases h
  · rename_i hcreate
    cases h
    obtain ⟨hcount, hsize⟩ := threadpoolCreate_sizes hcreate
    exact ⟨Nat.le_of_not_lt hthreads, Nat.lt_of_not_le hqueue, hcount, hsize⟩

theorem threadpoolCreate_succeeds (os : PoolSupport) (hresources : os.resources = true)
    (hthread : ∀ i, os.thread i = true) {threads size : ℕ} (hpos : 0 < threads)
    (hthreads : threads ≤ maxThreads) (hpos' : 0 < size) (hsize : size ≤ maxQueue) :
    ∃ pool, threadpoolCreate os threads size = some pool := by
  unfold threadpoolCreate
  rw [if_neg (by omega), if_pos hresources]
  exact startThreads_succeeds hthread _ _

/-- The sizes asked for, with the documented defaults for 0. -/
def PoolSizes.Requested (pool : PoolSizes) (m p : ℕ) : Prop :=
  pool.queueSize = (if m = 0 then ctxMaxRequestsDefault else m) ∧
    pool.threadCount = (if p = 0 then ctxPoolSizeDefault else p)

/-- `Context(max_requests=m, pool_size=p)` fails with an exception or has the sizes asked for, and
the semaphore of an adapter that has made it has no more slots than the queue. -/
def SizesAsRequested (m p : ℕ) : Prop :=
  ∀ (os : PoolSupport) (object : Memory) (pool : PoolSizes),
    AIOContext.init os object (some m) (some p) = .ok pool →
      pool.Requested m p ∧ ∀ (cfg : Asyncio.Config) (s : Asyncio.Base), cfg.kind = .threadAio →
        cfg.maxRequests = m → s.Init cfg → s.slots ≤ pool.queueSize

theorem threadQueueSize_eq (m : ℕ) :
    Asyncio.threadQueueSize m = if m % 65536 = 0 then 512 else m % 65536 := rfl

theorem storedPoolSize_eq (p : ℕ) : storedPoolSize p = if p % 256 = 0 then 8 else p % 256 := rfl

theorem storedPoolSize_le_iff (p : ℕ) : storedPoolSize p ≤ maxThreads ↔ p % 256 ≤ 128 := by
  rw [storedPoolSize_eq, maxThreads]
  split_ifs <;> omega

theorem threadQueueSize_lt_iff (m : ℕ) :
    Asyncio.threadQueueSize m < maxQueue - 1 ↔ m % 65536 ≠ 65535 := by
  rw [threadQueueSize_eq, maxQueue]
  split_ifs <;> omega

theorem init_succeeds (object : Memory) {m p : ℕ} (hp : p % 256 ≤ 128) (hm : m % 65536 ≠ 65535) :
    ∃ pool, AIOContext.init ⟨true, fun _ => true⟩ object (some m) (some p) = .ok pool := by
  have hthreads := (storedPoolSize_le_iff p).mpr hp
  have hqueue := (threadQueueSize_lt_iff m).mpr hm
  have hpos : 0 < storedPoolSize p := by
    rw [storedPoolSize_eq]
    split_ifs <;> omega
  have hpos' : 0 < Asyncio.threadQueueSize m := by
    rw [threadQueueSize_eq]
    split_ifs <;> omega
  obtain ⟨pool, hpool⟩ := threadpoolCreate_succeeds ⟨true, fun _ => true⟩ rfl
    (fun _ => rfl) hpos hthreads hpos' (by omega)
  refine ⟨pool, ?_⟩
  rw [init_eq, if_neg (Nat.not_lt_of_le hthreads), if_neg (Nat.not_le_of_lt hqueue), hpool]

theorem requested_iff {m p : ℕ} {pool : PoolSizes} (hp : p % 256 ≤ 128)
    (hcount : pool.threadCount = storedPoolSize p)
    (hsize : pool.queueSize = Asyncio.threadQueueSize m) :
    pool.Requested m p ↔ m < 65536 ∧ p < 256 := by
  unfold PoolSizes.Requested ctxMaxRequestsDefault ctxPoolSizeDefault
  rw [hcount, hsize, threadQueueSize_eq, storedPoolSize_eq]
  constructor
  · rintro ⟨hm, hp⟩
    constructor
    · split_ifs at hm <;> omega
    · split_ifs at hp <;> omega
  · rintro ⟨hm, hp⟩
    rw [Nat.mod_eq_of_lt hm, Nat.mod_eq_of_lt hp]
    exact ⟨rfl, rfl⟩

/-- A Context has the sizes asked for exactly when the fields can hold both numbers, or what they
hold of one is refused. -/
theorem sizes_as_requested_iff (m p : ℕ) :
    SizesAsRequested m p ↔ (m < 65536 ∧ p < 256) ∨ 128 < p % 256 ∨ m % 65536 = 65535 := by
  constructor
  · intro h
    by_cases hrefused : 128 < p % 256 ∨ m % 65536 = 65535
    · exact .inr hrefused
    · obtain ⟨hp, hm⟩ := not_or.mp hrefused
      have hp := Nat.le_of_not_lt hp
      obtain ⟨pool, hok⟩ := init_succeeds (fun _ => 0) hp hm
      obtain ⟨-, -, hcount, hsize⟩ := init_ok hok
      exact .inl ((requested_iff hp hcount hsize).mp (h _ _ pool hok).1)
  · intro h os object pool hok
    obtain ⟨hthreads, hqueue, hcount, hsize⟩ := init_ok hok
    have hp := (storedPoolSize_le_iff p).mp hthreads
    have hm := (threadQueueSize_lt_iff m).mp hqueue
    have hfit := h.resolve_right (not_or.mpr ⟨Nat.not_lt_of_le hp, hm⟩)
    have hrequested := (requested_iff hp hcount hsize).mpr hfit
    refine ⟨hrequested, ?_⟩
    intro cfg s _ hcfg hinit
    have hpos := cfg.maxRequests_pos
    have hslots := hinit.slots
    rw [hrequested.1, if_neg (by omega)]
    omega

/-- `Context(max_requests=65537, pool_size=257)` has one worker and a queue of one. -/
theorem sizes_wrap : ¬∀ m p, SizesAsRequested m p := by
  intro h
  have hok : AIOContext.init ⟨true, fun _ => true⟩ (fun _ => 0) (some 65537) (some 257) =
      .ok ⟨1, 1, 1⟩ := by decide
  obtain ⟨⟨hqueue, -⟩, -⟩ := h 65537 257 _ _ _ hok
  cases hqueue

end Caio.ThreadAio
