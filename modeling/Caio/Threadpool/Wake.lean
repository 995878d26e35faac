import Caio.Lib.Counting
import Caio.Lib.Sleepers
import Caio.Threadpool.Steps

namespace Caio.Threadpool

open Counting

variable {α : Type}

def WorkerPc.isAsleep : WorkerPc α → Bool
  | .asleep => true
  | _ => false

/-- Whether a worker looks at the queue before it sleeps. -/
def WorkerPc.isLooking : WorkerPc α → Bool
  | .lock | .locked | .awake => true
  | _ => false

namespace Pool

def sleepers (s : Pool α) : Sleepers where
  items := s.queue.contents.length
  looking := s.workers.countP WorkerPc.isLooking
  asleep := s.workers.countP WorkerPc.isAsleep
  closed := s.shutdown.isSome

variable {s t u : Pool α} {w i : ℕ} {pc pc' : WorkerPc α} {c : Call α}

theorem sleepers_eq (hqueue : t.queue = s.queue) (hshut : t.shutdown = s.shutdown)
    (hlook : t.workers.countP WorkerPc.isLooking = s.workers.countP WorkerPc.isLooking)
    (hasleep : t.workers.countP WorkerPc.isAsleep = s.workers.countP WorkerPc.isAsleep) :
    t.sleepers = s.sleepers := by
  rw [sleepers, sleepers, hqueue, hshut, hlook, hasleep]

/-- A worker that goes on without a change in what it does about the queue. -/
theorem sleepers_set (hw : s.workers[w]? = some pc) (pc' : WorkerPc α)
    (hlook : pc'.isLooking = pc.isLooking) (hasleep : pc'.isAsleep = pc.isAsleep)
    (hqueue : t.queue = s.queue) (hshut : t.shutdown = s.shutdown)
    (hworkers : t.workers = s.workers.set w pc') :
    t.sleepers = s.sleepers := by
  apply sleepers_eq hqueue hshut
  · rw [hworkers]
    exact countP_set_of_eq hw hlook
  · rw [hworkers]
    exact countP_set_of_eq hw hasleep

theorem looking_set (hw : s.workers[w]? = some pc) (pc' : WorkerPc α) :
    (s.workers.set w pc').countP WorkerPc.isLooking + pc.isLooking.toNat =
      s.workers.countP WorkerPc.isLooking + pc'.isLooking.toNat := countP_set hw pc' _

theorem asleep_set (hw : s.workers[w]? = some pc) (pc' : WorkerPc α) :
    (s.workers.set w pc').countP WorkerPc.isAsleep + pc.isAsleep.toNat =
      s.workers.countP WorkerPc.isAsleep + pc'.isAsleep.toNat := countP_set hw pc' _

theorem looking_wake (l : List (WorkerPc α)) :
    (l.map WorkerPc.wake).countP WorkerPc.isLooking =
      l.countP WorkerPc.isLooking + l.countP WorkerPc.isAsleep := by
  induction l with
  | nil => rfl
  | cons pc l ih =>
    rw [List.map_cons, countP_cons, countP_cons, countP_cons, ih]
    cases pc <;> simp only [WorkerPc.wake, WorkerPc.isLooking, WorkerPc.isAsleep] <;>
      simp only [Bool.toNat_true, Bool.toNat_false] <;> omega

theorem asleep_wake (l : List (WorkerPc α)) :
    (l.map WorkerPc.wake).countP WorkerPc.isAsleep = 0 := by
  rw [List.countP_eq_zero]
  intro pc hpc
  obtain ⟨pc', -, rfl⟩ := List.mem_map.mp hpc
  cases pc' <;> exact Bool.false_ne_true

theorem closed_eq_false (h : s.shutdown = none) : s.sleepers.closed = false := by
  rw [sleepers, h]
  rfl

theorem WorkerStep.sleepers (hw : s.workers[w]? = some pc) (h : WorkerStep s w pc t) :
    t.sleepers = s.sleepers ∨ ∃ b, Sleepers.step s.sleepers b = some t.sleepers := by
  have hlook := looking_set hw
  have hasleep := asleep_set hw
  cases h with
  | acquire hpc hfree =>
    rcases hpc with rfl | rfl
    · exact .inl (sleepers_set hw .locked rfl rfl rfl rfl rfl)
    · exact .inl (sleepers_set hw .locked rfl rfl rfl rfl rfl)
  | sleep hopen hempty =>
    -- pthread_cond_wait is reached only with the queue seen empty under the lock
    refine .inr ⟨.sleep, Sleepers.step_sleep (closed_eq_false hopen) rfl ?_ rfl ?_ ?_⟩
    · exact congrArg List.length hempty
    · exact (hlook .asleep).symm
    · exact hasleep .asleep
  | leave h =>
    -- a worker that leaves no longer looks at the queue, but the pool is closed then
    refine .inr ⟨.leave, Sleepers.step_leave ?_ rfl rfl (hlook .leaving).symm (hasleep .leaving)⟩
    rcases h with h | ⟨h, -⟩
    · exact congrArg Option.isSome h
    · exact congrArg Option.isSome h
  | take hpop h =>
    rename_i task queue
    refine .inr ⟨.consume, Sleepers.step_consume rfl ?_ (hlook (.unlock task)).symm
      (hasleep (.unlock task))⟩
    exact congrArg List.length (CircularQueue.pop_eq_some hpop).2
  | unlock task => exact .inl (sleepers_set hw (.running task) rfl rfl rfl rfl rfl)
  | finish task h =>
    exact .inr ⟨.arrive, Sleepers.step_arrive rfl rfl (hlook .lock) (hasleep .lock)⟩
  | exit => exact .inl (sleepers_set hw .exited rfl rfl rfl rfl rfl)

theorem signal_sleepers {woken : Option ℕ} (h : s.signal woken = some u) :
    u.shutdown = s.shutdown ∧ u.queue = s.queue ∧
      (s.sleepers.asleep = 0 ∧ u.sleepers.asleep = 0 ∧ u.sleepers.looking = s.sleepers.looking ∨
        s.sleepers.asleep = u.sleepers.asleep + 1 ∧
          u.sleepers.looking = s.sleepers.looking + 1) := by
  rcases signal_cases h with ⟨w, hw, rfl⟩ | ⟨rfl, hnone⟩
  · exact ⟨rfl, rfl, .inr ⟨(asleep_set hw .awake).symm, looking_set hw .awake⟩⟩
  · have hzero : u.workers.countP WorkerPc.isAsleep = 0 := by
      rw [List.countP_eq_zero]
      intro pc hpc hasleep
      cases pc <;> first | exact hnone _ hpc rfl | cases hasleep
    exact ⟨rfl, rfl, .inl ⟨hzero, hzero, rfl⟩⟩

theorem CallStep.sleepers (h : CallStep s i c t) :
    t.sleepers = s.sleepers ∨ ∃ b, Sleepers.step s.sleepers b = some t.sleepers := by
  cases h with
  | accept hpc hpush hopen hsignal =>
    obtain ⟨hshut, hqueue, hwoken⟩ := signal_sleepers hsignal
    refine .inr ⟨.produce, Sleepers.step_produce (closed_eq_false hopen) ?_ ?_ hwoken⟩
    · exact congrArg Option.isSome hshut
    · have hcontents := congrArg List.length (CircularQueue.push_eq_some hpush).2.2
      rw [List.length_append, List.length_singleton] at hcontents
      exact hcontents
  | shutdown hpc hopen =>
    exact .inr ⟨.close, Sleepers.step_close rfl rfl (looking_wake _) (asleep_wake _)⟩
  | addLock | full | refuse | addUnlock | destroyLock | destroyAgain | destroyUnlock | joinSelf
  | join | failed | kept | joined | free => exact .inl rfl

theorem OuterStep.sleepers {a : Action α} (h : OuterStep s a t) :
    t.sleepers = s.sleepers ∨ ∃ b, Sleepers.step s.sleepers b = some t.sleepers := by
  cases h with
  | started =>
    exact .inr ⟨.arrive, Sleepers.step_arrive rfl rfl (countP_append_one _ _ _)
      (countP_append_one _ _ _)⟩
  | spurious hw =>
    exact .inr ⟨.stir, Sleepers.step_stir rfl rfl (looking_set hw .awake)
      (asleep_set hw .awake).symm⟩
  | unstarted | add | destroy => exact .inl rfl

theorem refines_sleepers :
    TransitionSystem.Refines (system (α := α)) Sleepers.system fun s b => b = s.sleepers := by
  apply TransitionSystem.Refines.of_abs
  · rintro s ⟨slots, threadCount, queueSize, h, -, rfl⟩
    rfl
  · intro s a t hs
    rcases step_cases hs with ⟨w, pc, -, hw, h⟩ | ⟨i, c, woken, -, -, h⟩ | h
    · exact h.sleepers hw
    · exact h.sleepers
    · exact h.sleepers

theorem sleepers_covered (h : system.Reachable s) : s.sleepers.Covered := by
  obtain ⟨b, hb, rfl⟩ := refines_sleepers.reachable h
  exact Sleepers.covered hb

/-- No wake-up is lost: while a worker sleeps in `pthread_cond_wait`, every task in the queue has a
worker of its own that looks at the queue before it sleeps. -/
theorem queued_task_has_worker (h : system.Reachable s) (w : ℕ)
    (hw : s.workers[w]? = some .asleep) :
    s.shutdown = none ∧ s.queue.contents.length ≤ s.workers.countP WorkerPc.isLooking := by
  obtain ⟨hopen, hle⟩ := sleepers_covered h (countP_pos_of_getElem? hw rfl)
  exact ⟨Option.not_isSome_iff_eq_none.mp (Bool.not_eq_true _ ▸ hopen), hle⟩

/-- Of two workers that sleep, a new task wakes one. -/
theorem queued_task_has_worker_two :
    ∃ s, system.exec (create (fun _ => 0) 2 Nat.one_pos) [.create true, .create true, .worker 0,
        .worker 0, .worker 1, .worker 1, .add (.main 0) 7, .call 0 none, .call 0 (some 1)] =
          some s ∧ s.workers = [.asleep, .awake] ∧
      s.queue.contents.length ≤ s.workers.countP WorkerPc.isLooking := by
  have hrun : ((system.exec (create (fun _ => 0) 2 Nat.one_pos) [.create true, .create true,
      .worker 0, .worker 0, .worker 1, .worker 1, .add (.main 0) 7, .call 0 none,
      .call 0 (some 1)]).any fun s => decide (s.workers = [.asleep, .awake])) = true := by
    decide +kernel
  obtain ⟨s, hexec, hs⟩ := (Option.any_eq_true _ _).mp hrun
  have hworkers := of_decide_eq_true hs
  have hinit : Init (create (fun _ => 0) 2 Nat.one_pos) :=
    ⟨fun _ => 0, 2, 1, Nat.one_pos, Nat.two_pos, rfl⟩
  have hw : s.workers[0]? = some .asleep := by rw [hworkers, List.getElem?_cons_zero]
  exact ⟨s, hexec, hworkers, (queued_task_has_worker (.exec (.init hinit) hexec) 0 hw).2⟩

end Pool

end Caio.Threadpool
