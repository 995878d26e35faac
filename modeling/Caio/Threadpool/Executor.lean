import Caio.Lib.Executor
import Caio.Threadpool.Steps

namespace Caio.Threadpool

variable {α : Type}

namespace WorkerPc

/-- The task that a worker has taken from the queue and not brought to an end. -/
def task? : WorkerPc α → Option α
  | .unlock task | .running task => some task
  | _ => none

def hasLeft : WorkerPc α → Bool
  | .leaving | .exited => true
  | _ => false

end WorkerPc

def Shutdown.closing : Shutdown → Executor.Closing
  | .immediate => .drop
  | .graceful => .drain

namespace Pool

def executor (s : Pool α) : Executor α where
  capacity := s.queue.size
  queue := s.queue.contents
  running w := s.workers[w]?.bind WorkerPc.task?
  closing := s.shutdown.map Shutdown.closing
  gone w := s.workers[w]?.any WorkerPc.hasLeft
  added := s.added
  taken := s.taken
  finished := s.finished

variable {s t u : Pool α} {w i : ℕ} {pc pc' : WorkerPc α} {c : Call α}

/-- What an executor does not see of a pool. -/
structure SameExecutor (s t : Pool α) : Prop where
  queue : t.queue = s.queue
  shutdown : t.shutdown = s.shutdown
  running : t.executor.running = s.executor.running
  gone : t.executor.gone = s.executor.gone
  added : t.added = s.added
  taken : t.taken = s.taken
  finished : t.finished = s.finished

theorem SameExecutor.eq (h : SameExecutor s t) : t.executor = s.executor := by
  obtain ⟨hqueue, hshut, hrunning, hgone, hadded, htaken, hfinished⟩ := h
  simp only [executor] at hrunning hgone ⊢
  rw [hqueue, hshut, hrunning, hgone, hadded, htaken, hfinished]

theorem running_set (hw : s.workers[w]? = some pc) (pc' : WorkerPc α) :
    (s.setWorker w pc').executor.running = Function.update s.executor.running w pc'.task? :=
  Table.lookup_set (Option.bind · WorkerPc.task?) hw pc'

theorem gone_set (hw : s.workers[w]? = some pc) (pc' : WorkerPc α) :
    (s.setWorker w pc').executor.gone = Function.update s.executor.gone w pc'.hasLeft :=
  Table.lookup_set (Option.any WorkerPc.hasLeft) hw pc'

theorem running_set_of_eq (hw : s.workers[w]? = some pc) (pc' : WorkerPc α)
    (h : pc'.task? = pc.task?) :
    (s.setWorker w pc').executor.running = s.executor.running :=
  Table.lookup_set_of_eq (Option.bind · WorkerPc.task?) hw h

theorem gone_set_of_eq (hw : s.workers[w]? = some pc) (pc' : WorkerPc α)
    (h : pc'.hasLeft = pc.hasLeft) :
    (s.setWorker w pc').executor.gone = s.executor.gone :=
  Table.lookup_set_of_eq (Option.any WorkerPc.hasLeft) hw h

theorem executor_set (hw : s.workers[w]? = some pc) (htask : pc'.task? = pc.task?)
    (hleft : pc'.hasLeft = pc.hasLeft) : (s.setWorker w pc').executor = s.executor :=
  SameExecutor.eq ⟨rfl, rfl, running_set_of_eq hw pc' htask, gone_set_of_eq hw pc' hleft, rfl,
    rfl, rfl⟩

theorem running_eq (hw : s.workers[w]? = some pc) : s.executor.running w = pc.task? :=
  congrArg (Option.bind · WorkerPc.task?) hw

theorem gone_eq (hw : s.workers[w]? = some pc) : s.executor.gone w = pc.hasLeft :=
  congrArg (Option.any WorkerPc.hasLeft) hw

theorem idle_of_locked (hw : s.workers[w]? = some .locked) : s.executor.idle w = true :=
  Executor.idle_eq_true.mpr ⟨running_eq hw, gone_eq hw⟩

theorem executor_closing (sd : Option Shutdown) (h : s.shutdown = sd) :
    s.executor.closing = sd.map Shutdown.closing := congrArg (Option.map Shutdown.closing) h

theorem closing_ne_drop (h : s.shutdown ≠ some .immediate) : s.executor.closing ≠ some .drop := by
  intro hdrop
  obtain ⟨sd, hsd, hclosing⟩ := Option.map_eq_some_iff.mp hdrop
  cases sd with
  | immediate => exact h hsd
  | graceful => cases hclosing

theorem WorkerStep.executor (hw : s.workers[w]? = some pc) (h : WorkerStep s w pc t) :
    t.executor = s.executor ∨
      ∃ b : Executor.Action α, b.isWorker = true ∧ s.executor.step b = some t.executor := by
  cases h with
  | acquire hpc hfree =>
    rcases hpc with rfl | rfl
    · exact .inl (executor_set hw rfl rfl)
    · exact .inl (executor_set hw rfl rfl)
  | sleep hopen hempty => exact .inl (executor_set hw rfl rfl)
  | leave h =>
    refine .inr ⟨.leave w, rfl,
      (Executor.step_leave (idle_of_locked hw) ?_).trans (congrArg some ?_)⟩
    -- threadpool_thread breaks out of its loop at once, or with nothing left to take
    · rcases h with h | ⟨h, hempty⟩
      · exact .inl (executor_closing _ h)
      · exact .inr ⟨executor_closing _ h, hempty⟩
    · exact Executor.ext rfl rfl (running_set_of_eq hw .leaving rfl).symm rfl
        (gone_set hw .leaving).symm rfl rfl rfl
  | take hpop h =>
    rename_i task queue
    obtain ⟨hsize, hcontents⟩ := CircularQueue.pop_eq_some hpop
    refine .inr ⟨.take w, rfl, (Executor.step_take hcontents (idle_of_locked hw)
      (closing_ne_drop h)).trans (congrArg some ?_)⟩
    exact Executor.ext hsize.symm rfl (running_set hw (.unlock task)).symm rfl
      (gone_set_of_eq hw (.unlock task) rfl).symm rfl rfl rfl
  | unlock task => exact .inl (executor_set hw rfl rfl)
  | finish task h =>
    refine .inr ⟨.finish w, rfl, (Executor.step_finish (running_eq hw)).trans (congrArg some ?_)⟩
    exact Executor.ext rfl rfl (running_set hw .lock).symm rfl
      (gone_set_of_eq hw .lock rfl).symm rfl rfl rfl
  | exit => exact .inl (executor_set hw rfl rfl)

theorem Roused.running (h : Roused s.workers u.workers) :
    u.executor.running = s.executor.running := h.lookup (Option.bind · WorkerPc.task?) rfl

theorem Roused.gone (h : Roused s.workers u.workers) : u.executor.gone = s.executor.gone :=
  h.lookup (Option.any WorkerPc.hasLeft) rfl

theorem executor_accept {task : α} {queue : CircularQueue α} {woken : Option ℕ}
    (hpush : s.queue.push task = some queue) (hsignal : s.signal woken = some u) (pc : CallPc α) :
    executor { u.setCall i c pc with queue, added := u.added ++ [task] } =
      { s.executor with
        queue := s.executor.queue ++ [task], added := s.executor.added ++ [task] } := by
  obtain ⟨-, hsize, hcontents⟩ := CircularQueue.push_eq_some hpush
  obtain ⟨hu, hroused⟩ := signal_roused hsignal
  rw [hu]
  exact Executor.ext hsize hcontents hroused.running rfl hroused.gone rfl rfl rfl

theorem executor_shutdown (pc : CallPc α) (how : Shutdown) :
    executor { s.broadcast.setCall i c pc with shutdown := some how } =
      { s.executor with closing := some how.closing } := by
  have hroused : Roused s.workers s.broadcast.workers := roused_wake _
  exact Executor.ext rfl rfl hroused.running rfl hroused.gone rfl rfl rfl

theorem CallStep.executor (h : CallStep s i c t) :
    t.executor = s.executor ∨ ∃ b, Executor.step s.executor b = some t.executor := by
  cases h with
  | accept hpc hpush hopen hsignal =>
    obtain ⟨hroom, -, -⟩ := CircularQueue.push_eq_some hpush
    exact .inr ⟨.submit _, (Executor.step_submit (executor_closing _ hopen) hroom).trans
      (congrArg some (executor_accept hpush hsignal _).symm)⟩
  | shutdown hpc hopen =>
    exact .inr ⟨.close _, (Executor.step_close (executor_closing _ hopen)).trans
      (congrArg some (executor_shutdown _ _).symm)⟩
  | addLock | full | refuse | addUnlock | destroyLock | destroyAgain | destroyUnlock | joinSelf
  | join | failed | kept | joined | free => exact .inl rfl

theorem OuterStep.executor {a : Action α} (h : OuterStep s a t) : t.executor = s.executor := by
  cases h with
  | started =>
    apply SameExecutor.eq
    refine ⟨rfl, rfl, ?_, ?_, rfl, rfl, rfl⟩
    · exact Table.lookup_append_of_eq (Option.bind · WorkerPc.task?) s.workers rfl
    · exact Table.lookup_append_of_eq (Option.any WorkerPc.hasLeft) s.workers rfl
  | spurious hw => exact executor_set hw rfl rfl
  | unstarted | add | destroy => rfl

theorem refines_executor :
    TransitionSystem.Refines (system (α := α)) Executor.system fun s e => e = s.executor := by
  apply TransitionSystem.Refines.of_abs
  · rintro s ⟨slots, threadCount, queueSize, h, -, rfl⟩
    exact ⟨queueSize, rfl⟩
  · intro s a t hs
    rcases step_cases hs with ⟨w, pc, -, hw, h⟩ | ⟨i, c, woken, -, -, h⟩ | h
    · exact (h.executor hw).imp id fun ⟨b, _, hb⟩ => ⟨b, hb⟩
    · exact h.executor
    · exact .inl h.executor

theorem executor_inv (h : system.Reachable s) : s.executor.Inv := by
  obtain ⟨e, he, rfl⟩ := refines_executor.reachable h
  exact Executor.inv he

/-- Every run of the pool is one of an executor: tasks are taken in the order in which they were
accepted, each one once and by one worker, which brings it to its end before it takes another. -/
theorem executes (h : system.Reachable s) :
    Executor.system.Reachable s.executor ∧ s.queue.contents.length ≤ s.queue.size ∧
      s.taken.map Prod.snd ++ s.queue.contents = s.added ∧
      ∀ w, Journal.entries s.taken w =
        Journal.entries s.finished w ++ (s.workers[w]?.bind WorkerPc.task?).toList := by
  have hinv := executor_inv h
  obtain ⟨e, he, rfl⟩ := refines_executor.reachable h
  exact ⟨he, hinv.room, hinv.order, hinv.runs⟩

/-- The worker sleeps when the first task comes, and runs it when the second one does. -/
def twoTasksRun : List (Action ℕ) :=
  [.create true, .worker 0, .worker 0, .add (.main 0) 7, .call 0 none, .call 0 (some 0),
    .call 0 none, .worker 0, .worker 0, .worker 0, .add (.worker 0) 8, .call 1 none, .call 1 none,
    .call 1 none]

theorem executes_twoTasks :
    ∃ s, system.exec small twoTasksRun = some s ∧ s.queue.contents = [8] ∧
      Executor.system.Reachable s.executor ∧
      s.taken.map Prod.snd ++ s.queue.contents = s.added := by
  have hrun : ((system.exec small twoTasksRun).any fun s => decide (s.queue.contents = [8])) =
      true := by decide +kernel
  obtain ⟨s, hexec, hs⟩ := (Option.any_eq_true _ _).mp hrun
  obtain ⟨hreach, -, horder, -⟩ := executes (.exec (.init small_init) hexec)
  exact ⟨s, hexec, of_decide_eq_true hs, hreach, horder⟩

end Pool

end Caio.Threadpool
