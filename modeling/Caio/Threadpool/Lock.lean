import Caio.Lib.Mutex
import Caio.Threadpool.Steps

namespace Caio.Threadpool

variable {α : Type}

namespace Pool

/-- Whether a party is between its `pthread_mutex_lock` and its `pthread_mutex_unlock`. -/
def inside (s : Pool α) : Holder → Bool
  | .worker w => s.workers[w]?.any WorkerPc.holdsLock
  | .call i => s.calls[i]?.any fun c => c.pc.holdsLock

def mutex (s : Pool α) : Mutex Holder := ⟨s.owner, s.inside⟩

variable {s t u : Pool α} {w i : ℕ} {pc pc' : WorkerPc α} {c c' : Call α} {a : Action α}

theorem inside_congr (hworkers : ∀ w : ℕ, t.workers[w]?.any WorkerPc.holdsLock =
      s.workers[w]?.any WorkerPc.holdsLock)
    (hcalls : ∀ i : ℕ, (t.calls[i]?.any fun c => c.pc.holdsLock) =
      s.calls[i]?.any fun c => c.pc.holdsLock) : t.inside = s.inside := by
  funext x
  cases x with
  | worker w => exact hworkers w
  | call i => exact hcalls i

theorem inside_setWorker (hw : s.workers[w]? = some pc) (pc' : WorkerPc α) :
    (s.setWorker w pc').inside = Function.update s.inside (.worker w) pc'.holdsLock := by
  have hset := Table.lookup_set (Option.any WorkerPc.holdsLock) hw pc'
  funext x
  cases x with
  | worker v =>
    refine (congrFun hset v).trans ?_
    by_cases hv : v = w
    · rw [hv, Function.update_self, Function.update_self]
      rfl
    · rw [Function.update_of_ne hv, Function.update_of_ne fun h => hv (Holder.worker.inj h)]
      rfl
  | call i => exact (Function.update_of_ne Holder.noConfusion ..).symm

theorem inside_setCall (hc : s.calls[i]? = some c) (pc : CallPc α) :
    (s.setCall i c pc).inside = Function.update s.inside (.call i) pc.holdsLock := by
  have hset := Table.lookup_set (Option.any fun c : Call α => c.pc.holdsLock) hc { c with pc }
  funext x
  cases x with
  | worker v => exact (Function.update_of_ne Holder.noConfusion ..).symm
  | call j =>
    refine (congrFun hset j).trans ?_
    by_cases hj : j = i
    · rw [hj, Function.update_self, Function.update_self]
      rfl
    · rw [Function.update_of_ne hj, Function.update_of_ne fun h => hj (Holder.call.inj h)]
      rfl

theorem inside_worker (hw : s.workers[w]? = some pc) : s.inside (.worker w) = pc.holdsLock :=
  congrArg (Option.any WorkerPc.holdsLock) hw

theorem inside_call (hc : s.calls[i]? = some c) : s.inside (.call i) = c.pc.holdsLock :=
  congrArg (Option.any fun c : Call α => c.pc.holdsLock) hc

theorem inside_setWorker_of_eq (hw : s.workers[w]? = some pc) (pc' : WorkerPc α)
    (h : pc'.holdsLock = pc.holdsLock) : (s.setWorker w pc').inside = s.inside := by
  rw [inside_setWorker hw, h, ← inside_worker hw, Function.update_eq_self]

theorem inside_setCall_of_eq (hc : s.calls[i]? = some c) (pc : CallPc α)
    (h : pc.holdsLock = c.pc.holdsLock) : (s.setCall i c pc).inside = s.inside := by
  rw [inside_setCall hc, h, ← inside_call hc, Function.update_eq_self]

theorem inside_newCall (s : Pool α) (th : ThreadId) {pc : CallPc α} (h : pc.holdsLock = false) :
    (s.newCall th pc).inside = s.inside :=
  inside_congr (fun _ => rfl)
    (congrFun (Table.lookup_append_of_eq (Option.any fun c : Call α => c.pc.holdsLock) s.calls h))

theorem Roused.mutex {workers : List (WorkerPc α)} (h : Roused s.workers workers) :
    { s with workers }.mutex = s.mutex :=
  Mutex.ext rfl (inside_congr (congrFun (h.lookup (Option.any WorkerPc.holdsLock) rfl))
    fun _ => rfl)

/-- What a step does to the lock; `tidy` says whether it leaves it with the unlock. -/
inductive LockStep (m : Mutex Holder) (tidy : Prop) (n : Mutex Holder) : Prop
  | keep (h : n = m)
  | acquire (x : Holder) (h : m.step (.acquire x) = some n)
  | release (x : Holder) (h : m.step (.release x) = some n)
  | abandon (x : Holder) (h : m.step (.abandon x) = some n) (huntidy : ¬tidy)

theorem LockStep.of_acquire {m n : Mutex Holder} {tidy : Prop} (x : Holder) (hfree : m.owner = none)
    (howner : n.owner = some x) (hinside : n.inside = Function.update m.inside x true) :
    LockStep m tidy n :=
  .acquire x ((if_pos hfree).trans (congrArg some (Mutex.ext howner.symm hinside.symm)))

theorem LockStep.of_release {m n : Mutex Holder} {tidy : Prop} (x : Holder)
    (hin : m.inside x = true) (howner : n.owner = none)
    (hinside : n.inside = Function.update m.inside x false) : LockStep m tidy n :=
  .release x ((if_pos hin).trans (congrArg some (Mutex.ext howner.symm hinside.symm)))

theorem WorkerStep.lockStep (hw : s.workers[w]? = some pc) (h : WorkerStep s w pc t) {tidy : Prop} :
    LockStep s.mutex tidy t.mutex := by
  have hin := inside_worker hw
  cases h with
  | acquire hpc hfree => exact .of_acquire (.worker w) hfree rfl (inside_setWorker hw .locked)
  | sleep => exact .of_release (.worker w) hin rfl (inside_setWorker hw .asleep)
  | leave => exact .keep (Mutex.ext rfl (inside_setWorker_of_eq hw .leaving rfl))
  | take =>
    rename_i task queue hpop h
    exact .keep (Mutex.ext rfl (inside_setWorker_of_eq hw (.unlock task) rfl))
  | unlock task => exact .of_release (.worker w) hin rfl (inside_setWorker hw (.running task))
  | finish => exact .keep (Mutex.ext rfl (inside_setWorker_of_eq hw .lock rfl))
  | exit => exact .of_release (.worker w) hin rfl (inside_setWorker hw .exited)

/-- The call is not a second one of `threadpool_destroy`. -/
def Tidy (s : Pool α) (c : Call α) : Prop :=
  match c.pc with
  | .destroyBody _ => s.shutdown = none
  | _ => True

theorem CallStep.lockStep (hc : s.calls[i]? = some c) (h : CallStep s i c t) :
    LockStep s.mutex (s.Tidy c) t.mutex := by
  have hin := inside_call hc
  have hkeep (pc : CallPc α) (hpc : pc.holdsLock = c.pc.holdsLock) :
      (s.setCall i c pc).inside = s.inside := inside_setCall_of_eq hc pc hpc
  have hset := inside_setCall hc
  cases h with
  | addLock hpc hfree | destroyLock hpc hfree => exact .of_acquire (.call i) hfree rfl (hset _)
  | addUnlock hpc | destroyUnlock hpc =>
    rw [hpc] at hin
    exact .of_release (.call i) hin rfl (hset _)
  | full hpc | refuse hpc => exact .keep (Mutex.ext rfl (hkeep _ (hpc ▸ rfl)))
  | accept hpc hpush hopen hsignal =>
    rename_i task queue u woken
    obtain ⟨hu, hroused⟩ := signal_roused hsignal
    have hset : (u.setCall i c (.addUnlock none)).inside = s.inside := by
      rw [hu]
      exact (inside_setCall_of_eq (s := { s with workers := u.workers }) hc _ (hpc ▸ rfl)).trans
        (congrArg Mutex.inside hroused.mutex)
    refine .keep (Mutex.ext ?_ hset)
    show u.owner = s.owner
    rw [hu]
  | destroyAgain hpc h =>
    -- this return of threadpool_destroy leaves out the pthread_mutex_unlock
    rename_i graceful
    rw [hpc] at hin
    refine .abandon (.call i) ((if_pos hin).trans (congrArg some (Mutex.ext rfl ?_))) ?_
    · exact (hset (.returned (some .shutdown))).symm
    · rw [Tidy, hpc]
      exact h
  | shutdown hpc hopen =>
    refine .keep (Mutex.ext rfl ?_)
    exact (inside_setCall_of_eq (s := s.broadcast) hc .destroyUnlock (hpc ▸ rfl)).trans
      (congrArg Mutex.inside (roused_wake s.workers).mutex)
  | joinSelf hpc | join hpc | failed hpc | kept hpc | joined hpc =>
    exact .keep (Mutex.ext rfl (hkeep _ (hpc ▸ rfl)))
  | free hpc hfree => exact .keep (Mutex.ext rfl (hkeep (.returned none) (hpc ▸ rfl)))

theorem OuterStep.mutex (h : OuterStep s a t) : t.mutex = s.mutex := by
  cases h with
  | started =>
    refine Mutex.ext rfl (inside_congr (congrFun ?_) fun _ => rfl)
    exact Table.lookup_append_of_eq (Option.any WorkerPc.holdsLock) s.workers rfl
  | unstarted | add | destroy => exact Mutex.ext rfl (inside_newCall _ _ rfl)
  | spurious hw => exact Mutex.ext rfl (inside_setWorker_of_eq hw .awake rfl)

/-- No call of `threadpool_destroy` finds the pool shutting down already. -/
def OneDestroy (s : Pool α) : Action α → Prop
  | .call i _ => ∀ c, s.calls[i]? = some c → s.Tidy c
  | _ => True

theorem step_lock (hs : s.step a = some t) : LockStep s.mutex (s.OneDestroy a) t.mutex := by
  rcases step_cases hs with ⟨w, pc, -, hw, h⟩ | ⟨i, c, woken, rfl, hc, h⟩ | h
  · exact h.lockStep hw
  · cases h.lockStep hc with
    | keep h => exact .keep h
    | acquire x h => exact .acquire x h
    | release x h => exact .release x h
    | abandon x h huntidy => exact .abandon x h fun hone => huntidy (hone c hc)
  · exact .keep h.mutex

theorem init_mutex (h : Init s) : Mutex.system.init s.mutex := by
  obtain ⟨slots, threadCount, queueSize, hpos, -, rfl⟩ := h
  refine ⟨rfl, fun x => ?_⟩
  cases x <;> rfl

theorem mutex_reachable (h : system.Reachable s) : Mutex.system.Reachable s.mutex := by
  refine TransitionSystem.ReachableBy.abs (fun _ => init_mutex) (fun s a t _ _ hs => ?_) h
  cases step_lock hs with
  | keep h => exact .inl h
  | acquire x h => exact .inr ⟨.acquire x, trivial, h⟩
  | release x h => exact .inr ⟨.release x, trivial, h⟩
  | abandon x h => exact .inr ⟨.abandon x, trivial, h⟩

/-- Where every run meets `OneDestroy`, everybody who has the lock gives it back. -/
theorem mutex_tidy {C : Pool α → Action α → Prop}
    (hC : ∀ s a, system.ReachableBy C s → C s a → s.OneDestroy a) (h : system.ReachableBy C s) :
    Mutex.system.ReachableBy Mutex.Tidy s.mutex := by
  refine TransitionSystem.ReachableBy.abs (fun _ => init_mutex) (fun s a t hr hc hs => ?_) h
  cases step_lock hs with
  | keep h => exact .inl h
  | acquire x h => exact .inr ⟨.acquire x, trivial, h⟩
  | release x h => exact .inr ⟨.release x, trivial, h⟩
  | abandon x h huntidy => exact absurd (hC s a hr hc) huntidy

theorem exclusive (h : system.Reachable s) : ∀ x, s.inside x = true → s.owner = some x :=
  Mutex.owner_of_inside (mutex_reachable h)

def progress (s : Pool α) : List α × List (ℕ × α) × ℕ := (s.added, s.taken, s.freed)

theorem step_abandoned (habandoned : s.mutex.Abandoned (.call i)) (hs : s.step a = some t) :
    t.mutex = s.mutex ∧ t.progress = s.progress := by
  constructor
  · cases step_lock hs with
    | keep h => exact h
    | acquire x h | release x h => cases (habandoned.step_eq_none _).symm.trans h
    | abandon x h => cases (habandoned.step_eq_none _).symm.trans h
  · have hout : ∀ x, s.inside x = false := habandoned.2
    have howner : s.owner = some (.call i) := habandoned.1
    rcases step_cases hs with ⟨w, pc, -, hw, h⟩ | ⟨j, c, woken, rfl, hc, h⟩ | h
    · have hpc := (inside_worker hw).symm.trans (hout (.worker w))
      cases h with
      | take => cases hpc
      | acquire | sleep | leave | unlock | finish | exit => rfl
    · have hin := (inside_call hc).symm.trans (hout (.call j))
      cases h with
      | accept hpc =>
        rw [hpc] at hin
        cases hin
      | free hpc hfree =>
        rw [howner] at hfree
        cases hfree
      | addLock | full | refuse | addUnlock | destroyLock | destroyAgain | shutdown | destroyUnlock
      | joinSelf | join | failed | kept | joined => rfl
    · cases h <;> rfl

/-- A call of `threadpool_destroy` on a pool that is shutting down already returns with the lock,
and from then on no task is accepted or taken and the pool is never freed. -/
theorem second_destroy_stuck (h : system.Reachable s) (hc : s.calls[i]? = some c) {graceful : Bool}
    (hpc : c.pc = .destroyBody graceful) (hshut : s.shutdown ≠ none) {woken : Option ℕ}
    (hs : s.step (.call i woken) = some t) {as : List (Action α)}
    (hrun : system.exec t as = some u) :
    u.owner = some (.call i) ∧ u.added = s.added ∧ u.taken = s.taken ∧ u.freed = s.freed := by
  have ht : t = s.setCall i c (.returned (some .shutdown)) := by
    obtain ⟨c', hc', hs⟩ := Option.bind_eq_some_iff.mp hs
    cases hc.symm.trans hc'
    rw [stepCall, hpc] at hs
    cases hs
    exact if_pos (Option.isSome_iff_ne_none.mpr hshut)
  have hin : s.inside (.call i) = true := (inside_call hc).trans (hpc ▸ rfl)
  have howner : t.owner = some (.call i) := by
    rw [ht]
    exact exclusive h _ hin
  have hout : t.inside (.call i) = false := by
    rw [ht, inside_setCall hc, Function.update_self]
    rfl
  have hreach : system.Reachable t := .step (a := .call i woken) h trivial hs
  have habandoned := Mutex.abandoned (mutex_reachable hreach) howner hout
  have hkeep : u.mutex = t.mutex ∧ u.progress = t.progress := by
    apply TransitionSystem.exec_invariant
      (I := fun u : Pool α => u.mutex = t.mutex ∧ u.progress = t.progress) ?_ ⟨rfl, rfl⟩ hrun
    rintro v a v' - ⟨hmutex, hprogress⟩ hv
    obtain ⟨hmutex', hprogress'⟩ := step_abandoned (hmutex ▸ habandoned) hv
    exact ⟨hmutex'.trans hmutex, hprogress'.trans hprogress⟩
  have hprogress : u.progress = s.progress := by
    rw [hkeep.2, ht]
    rfl
  exact ⟨(congrArg Mutex.owner hkeep.1).trans howner, congrArg Prod.fst hprogress,
    congrArg (·.2.1) hprogress, congrArg (·.2.2) hprogress⟩

/-- Two threads destroy the pool; its worker has not looked at the queue yet. -/
def twiceRun : List (Action ℕ) :=
  [.create true, .add (.main 0) 7, .call 0 none, .call 0 none, .call 0 none,
    .destroy (.main 1) true, .destroy (.main 2) true, .call 1 none, .call 1 none, .call 1 none,
    .call 2 none]

theorem second_destroy_stuck_queued :
    ∃ s t, system.exec small twiceRun = some s ∧ s.step (.call 2 none) = some t ∧
      s.queue.contents = [7] ∧ ∀ as u, system.exec t as = some u → u.taken = [] ∧ u.freed = 0 := by
  have hrun : ((system.exec small twiceRun).any fun s =>
      decide (s.queue.contents = [7] ∧ s.taken = [] ∧ s.freed = 0 ∧
        s.calls[2]? = some ⟨.main 2, .destroyBody true⟩ ∧ s.shutdown = some .graceful) &&
      (s.step (.call 2 none)).isSome) = true := by decide +kernel
  obtain ⟨s, hexec, hs⟩ := (Option.any_eq_true _ _).mp hrun
  obtain ⟨hs, hstep⟩ := Bool.and_eq_true_iff.mp hs
  obtain ⟨hqueue, htaken, hfreed, hc, hshut⟩ := of_decide_eq_true hs
  obtain ⟨t, ht⟩ := Option.isSome_iff_exists.mp hstep
  refine ⟨s, t, hexec, ht, hqueue, fun as u hu => ?_⟩
  have hne : s.shutdown ≠ none := hshut ▸ Option.some_ne_none _
  obtain ⟨-, -, htaken', hfreed'⟩ :=
    second_destroy_stuck (.exec (.init small_init) hexec) hc rfl hne ht hu
  exact ⟨htaken'.trans htaken, hfreed'.trans hfreed⟩

end Pool

end Caio.Threadpool
