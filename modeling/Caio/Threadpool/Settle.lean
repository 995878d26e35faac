import Caio.Lib.Progress
import Caio.Threadpool.Lock
import Caio.Threadpool.Phases
import Caio.Threadpool.Wake

namespace Caio.Threadpool

open Counting
open ThreadAio (ThreadpoolError)

variable {α : Type}

def WorkerPc.work : WorkerPc α → ℕ
  | .unlock _ => 5
  | .running _ => 4
  | .lock | .awake => 3
  | .locked => 2
  | .leaving => 1
  | .asleep | .exited => 0

/-- With `n` threads, which a call of `threadpool_destroy` wakes and joins. -/
def CallPc.work (n : ℕ) : CallPc α → ℕ
  | .addLock _ => 10
  | .addBody _ => 9
  | .addUnlock _ => 1
  | .destroyLock _ => 4 * n + 5
  | .destroyBody _ => 4 * n + 4
  | .destroyUnlock => n + 3
  | .join w _ => n - w + 2
  | .free => 1
  | .returned _ => 0

namespace Pool

def work (s : Pool α) : ℕ :=
  4 * s.queue.contents.length + (s.workers.map WorkerPc.work).sum +
    (s.calls.map fun c => c.pc.work s.workers.length).sum

variable {s t u : Pool α} {w i : ℕ} {pc pc' : WorkerPc α} {c : Call α} {a : Action α}

theorem workers_work_set (hw : s.workers[w]? = some pc) (pc' : WorkerPc α) :
    ((s.workers.set w pc').map WorkerPc.work).sum + pc.work =
      (s.workers.map WorkerPc.work).sum + pc'.work := sum_map_set hw pc' _

theorem wake_work_le (l : List (WorkerPc α)) :
    ((l.map WorkerPc.wake).map WorkerPc.work).sum ≤
      (l.map WorkerPc.work).sum + 3 * l.length := by
  induction l with
  | nil => exact Nat.le_refl 0
  | cons pc l ih =>
    have hpc : pc.wake.work ≤ pc.work + 3 := by
      cases pc <;> simp only [WorkerPc.wake, WorkerPc.work] <;> omega
    simp only [List.map_cons, List.sum_cons, List.length_cons]
    omega

theorem signal_work_le {woken : Option ℕ} (h : s.signal woken = some u) :
    (u.workers.map WorkerPc.work).sum ≤ (s.workers.map WorkerPc.work).sum + 3 := by
  rcases signal_cases h with ⟨w, hw, rfl⟩ | ⟨rfl, -⟩
  · exact Nat.le_of_eq (workers_work_set hw .awake)
  · exact Nat.le_add_right _ 3

theorem work_lt_of_set (hw : s.workers[w]? = some pc) (pc' : WorkerPc α)
    (hworkers : t.workers = s.workers.set w pc') (hcalls : t.calls = s.calls)
    (hlt : 4 * t.queue.contents.length + pc'.work < 4 * s.queue.contents.length + pc.work) :
    t.work < s.work := by
  have hset := workers_work_set hw pc'
  have hlength : t.workers.length = s.workers.length := hworkers ▸ List.length_set
  rw [work, work, hcalls, hlength, hworkers]
  omega

theorem WorkerStep.work_lt (hw : s.workers[w]? = some pc) (h : WorkerStep s w pc t) :
    t.work < s.work := by
  have hkeep (pc' : WorkerPc α) (hlt : pc'.work < pc.work) :
      4 * s.queue.contents.length + pc'.work < 4 * s.queue.contents.length + pc.work :=
    Nat.add_lt_add_left hlt _
  cases h with
  | acquire hpc hfree =>
    refine work_lt_of_set hw .locked rfl rfl (hkeep .locked ?_)
    rcases hpc with rfl | rfl <;> exact Nat.lt_succ_self 2
  | sleep => exact work_lt_of_set hw .asleep rfl rfl (hkeep .asleep Nat.two_pos)
  | leave => exact work_lt_of_set hw .leaving rfl rfl (hkeep .leaving (Nat.lt_succ_self 1))
  | take hpop h =>
    rename_i task queue
    have hcontents := congrArg List.length (CircularQueue.pop_eq_some hpop).2
    rw [List.length_cons] at hcontents
    -- the task has left the queue, which pays for running it
    refine work_lt_of_set hw (.unlock task) rfl rfl ?_
    show 4 * queue.contents.length + 5 < 4 * s.queue.contents.length + 2
    omega
  | unlock task =>
    exact work_lt_of_set hw (.running task) rfl rfl (hkeep (.running task) (Nat.lt_succ_self 4))
  | finish task h => exact work_lt_of_set hw .lock rfl rfl (hkeep .lock (Nat.lt_succ_self 3))
  | exit => exact work_lt_of_set hw .exited rfl rfl (hkeep .exited Nat.one_pos)

/-- A call that goes on and wakes workers or queues a task on its way. -/
theorem work_lt_of_setCall (hc : s.calls[i]? = some c) (pc : CallPc α)
    (hcalls : t.calls = s.calls.set i { c with pc }) (hlength : t.workers.length = s.workers.length)
    (hlt : 4 * t.queue.contents.length + (t.workers.map WorkerPc.work).sum +
        pc.work s.workers.length <
      4 * s.queue.contents.length + (s.workers.map WorkerPc.work).sum +
        c.pc.work s.workers.length) : t.work < s.work := by
  have hset := sum_map_set hc { c with pc } fun c => c.pc.work s.workers.length
  rw [work, work, hcalls, hlength]
  dsimp only at hset
  omega

theorem CallStep.work_lt (htally : s.Tally) (hc : s.calls[i]? = some c) (h : CallStep s i c t) :
    t.work < s.work := by
  have hkeep {t : Pool α} (pc : CallPc α) (hcalls : t.calls = s.calls.set i { c with pc })
      (hqueue : t.queue = s.queue) (hworkers : t.workers = s.workers)
      (hlt : pc.work s.workers.length < c.pc.work s.workers.length) : t.work < s.work := by
    refine work_lt_of_setCall hc pc hcalls (congrArg List.length hworkers) ?_
    rw [hqueue, hworkers]
    exact Nat.add_lt_add_left hlt _
  have hthreads := htally.threads
  cases h with
  | addLock hpc hfree =>
    refine hkeep (.addBody _) rfl rfl rfl ?_
    rw [hpc]
    exact Nat.lt_succ_self 9
  | full hpc | refuse hpc =>
    refine hkeep (.addUnlock _) rfl rfl rfl ?_
    rw [hpc]
    exact (by decide : 1 < 9)
  | accept hpc hpush hopen hsignal =>
    rename_i task queue u woken
    obtain ⟨hu, hroused⟩ := signal_roused hsignal
    have hle := signal_work_le hsignal
    have hcontents := congrArg List.length (CircularQueue.push_eq_some hpush).2.2
    rw [List.length_append, List.length_singleton] at hcontents
    -- 4 for the task in the queue and 3 for the worker woken are within the 9 of addBody
    refine work_lt_of_setCall hc (.addUnlock none) ?_ hroused.1 ?_
    · rw [hu]
      rfl
    · rw [hpc]
      show 4 * queue.contents.length + (u.workers.map WorkerPc.work).sum + 1 < _ + _ + 9
      omega
  | addUnlock hpc =>
    refine hkeep (.returned _) rfl rfl rfl ?_
    rw [hpc]
    exact Nat.one_pos
  | destroyLock hpc hfree =>
    refine hkeep (.destroyBody _) rfl rfl rfl ?_
    rw [hpc]
    exact Nat.lt_succ_self _
  | destroyAgain hpc h =>
    refine hkeep (.returned _) rfl rfl rfl ?_
    rw [hpc]
    exact Nat.succ_pos _
  | shutdown hpc hopen =>
    have hle := wake_work_le s.workers
    -- the broadcast wakes every worker at most, 3 for each
    refine work_lt_of_setCall hc .destroyUnlock rfl (List.length_map ..) ?_
    rw [hpc]
    show 4 * s.queue.contents.length + ((s.workers.map WorkerPc.wake).map WorkerPc.work).sum +
      (s.workers.length + 3) < _ + _ + (4 * s.workers.length + 4)
    omega
  | destroyUnlock hpc =>
    refine hkeep (.join 0 none) rfl rfl rfl ?_
    rw [hpc]
    exact Nat.lt_succ_self _
  | joinSelf hpc hlt | join hpc hlt =>
    refine hkeep (.join (_ + 1) _) rfl rfl rfl ?_
    rw [hpc]
    simp only [CallPc.work]
    omega
  | failed hpc | kept hpc =>
    refine hkeep (.returned _) rfl rfl rfl ?_
    rw [hpc]
    exact Nat.succ_pos _
  | joined hpc =>
    refine hkeep .free rfl rfl rfl ?_
    rw [hpc]
    exact Nat.lt_add_left _ (Nat.lt_succ_self 1)
  | free hpc hfree =>
    refine hkeep (.returned none) rfl rfl rfl ?_
    rw [hpc]
    exact Nat.one_pos

theorem internal_work_lt (htally : s.Tally) (ha : a.internal = true) (hs : s.step a = some t) :
    t.work < s.work := by
  rcases step_cases hs with ⟨w, pc, -, hw, h⟩ | ⟨i, c, woken, -, hc, h⟩ | h
  · exact h.work_lt hw
  · exact h.work_lt htally hc
  · cases h <;> cases ha

theorem lowers : TransitionSystem.Lowers (system (α := α)) (fun a => a.internal = true)
    (system.ReachableBy Orderly) work where
  keep s a t hs ha hstep := by
    refine .step hs ?_ hstep
    cases a <;> first | exact trivial | cases ha
  lower s a t hs ha hstep := internal_work_lt (tally hs.reachable) ha hstep

def Quiet (s : Pool α) : Prop := system.Quiet (fun a => a.internal = true) s

theorem Quiet.worker (h : s.Quiet) (hw : s.workers[w]? = some pc) : s.stepWorker w pc = none := by
  have hnone : s.workers[w]?.bind (s.stepWorker w) = none := h (.worker w) rfl
  rwa [hw] at hnone

theorem Quiet.call (h : s.Quiet) (hc : s.calls[i]? = some c) (woken : Option ℕ) :
    s.stepCall i c woken = none := by
  have hnone : (s.calls[i]?.bind fun c => s.stepCall i c woken) = none := h (.call i woken) rfl
  rwa [hc] at hnone

theorem exists_signal (s : Pool α) : ∃ woken u, s.signal woken = some u := by
  by_cases hasleep : ∃ w : ℕ, s.workers[w]? = some .asleep
  · obtain ⟨w, hw⟩ := hasleep
    refine ⟨some w, s.setWorker w .awake, ?_⟩
    rw [signal, hw]
    rfl
  -- a signal nobody waits for is lost, which is a step as well
  · refine ⟨none, s, if_pos (List.all_eq_true.mpr fun pc hpc => ?_)⟩
    cases pc with
    | asleep => exact absurd (List.mem_iff_getElem?.mp hpc) hasleep
    | lock | locked | awake | unlock | running | leaving | exited => rfl

theorem exists_addBody (s : Pool α) (i : ℕ) (c : Call α) (task : α) :
    ∃ woken, s.addBody i c task woken ≠ none := by
  obtain ⟨woken, u, hsignal⟩ := exists_signal s
  refine ⟨woken, ?_⟩
  unfold addBody
  split
  · exact Option.some_ne_none _
  · rw [hsignal]
    split
    · exact Option.some_ne_none _
    · exact Option.some_ne_none _

theorem Quiet.outside (h : s.Quiet) (x : Holder) : s.inside x = false := by
  rw [← Bool.not_eq_true]
  intro hin
  cases x with
  | worker w =>
    obtain ⟨pc, hw, hpc⟩ := (Option.any_eq_true _ _).mp hin
    have hnone := h.worker hw
    cases pc with
    | locked | unlock | leaving => cases hnone
    | lock | asleep | awake | running | exited => cases hpc
  | call i =>
    obtain ⟨c, hc, hpc⟩ := (Option.any_eq_true _ _).mp hin
    have hnone := h.call hc
    cases hcpc : c.pc with
    | addBody task =>
      obtain ⟨woken, hsome⟩ := exists_addBody s i c task
      refine hsome ?_
      rw [← hnone woken, stepCall, hcpc]
    | addUnlock | destroyBody | destroyUnlock =>
      have hnone := hnone none
      rw [stepCall, hcpc] at hnone
      cases hnone
    | addLock | destroyLock | join | free | returned =>
      rw [hcpc] at hpc
      cases hpc

theorem Quiet.worker_cases (h : s.Quiet) (hfree : s.owner = none) (hw : s.workers[w]? = some pc)
    (hcalling : s.calling (.worker w) = false) : pc = .asleep ∨ pc = .exited := by
  have hnone := h.worker hw
  cases pc with
  | asleep => exact .inl rfl
  | exited => exact .inr rfl
  | lock | awake =>
    rw [stepWorker, if_pos hfree] at hnone
    cases hnone
  | running task =>
    rw [stepWorker, if_neg (by rw [hcalling]; exact Bool.false_ne_true)] at hnone
    cases hnone
  | locked | unlock | leaving => cases hnone

theorem orderly_oneDestroy (hr : system.ReachableBy Orderly s) : s.OneDestroy a := by
  cases a with
  | call i woken =>
    intro c hc
    unfold Tidy
    split
    · rename_i graceful hpc
      exact ((phase hr).destroyBody hc hpc).1
    · trivial
  | create | add | destroy | spurious | worker => trivial

theorem Quiet.free (h : s.Quiet) (hr : system.ReachableBy Orderly s) : s.owner = none := by
  have hinside := Mutex.inside_of_owner (mutex_tidy (fun s a hr _ => orderly_oneDestroy hr) hr)
  cases howner : s.owner with
  | none => rfl
  | some x => cases (h.outside x).symm.trans (hinside x howner)

theorem closed_of_asleep (hr : system.ReachableBy Orderly s) (hw : s.workers[w]? = some .asleep) :
    s.shutdown = none := by
  have hopen := (sleepers_covered hr.reachable (countP_pos_of_getElem? hw rfl)).1
  exact Option.not_isSome_iff_eq_none.mp (Bool.not_eq_true _ ▸ hopen)

theorem Quiet.exited (h : s.Quiet) (hr : system.ReachableBy Orderly s) (hshut : s.shutdown ≠ none)
    (hlt : w < s.workers.length) (hcalling : s.calling (.worker w) = false) :
    s.workers[w]? = some .exited := by
  have hw : s.workers[w]? = some s.workers[w] := List.getElem?_eq_getElem hlt
  rcases h.worker_cases (h.free hr) hw hcalling with hpc | hpc
  · exact absurd (closed_of_asleep hr (hpc ▸ hw)) hshut
  · rw [hw, hpc]

theorem Quiet.join_ne_none (h : s.Quiet) (hr : system.ReachableBy Orderly s)
    (hshut : s.shutdown ≠ none)
    (hcalling : ∀ w, c.thread ≠ .worker w → s.calling (.worker w) = false)
    (n : ℕ) (err : Option ThreadpoolError) : s.join i c n err ≠ none := by
  unfold join
  split
  · rename_i hlt
    split
    · exact Option.some_ne_none _
    · rename_i hother
      rw [h.exited hr hshut ((tally hr.reachable).threads ▸ hlt) (hcalling n hother)]
      exact Option.some_ne_none _
  · split <;> exact Option.some_ne_none _

theorem calling_eq_false (hc : s.calls[i]? = some c)
    (hothers : ∀ j d, s.calls[j]? = some d → j ≠ i → d.pc.isReturned = true) {th : ThreadId}
    (hth : c.thread ≠ th) : s.calling th = false := by
  rw [← Bool.not_eq_true]
  intro hcalling
  obtain ⟨d, hd, hthpc⟩ := List.any_eq_true.mp hcalling
  obtain ⟨hdth, hdpc⟩ := of_decide_eq_true hthpc
  obtain ⟨j, hj⟩ := List.mem_iff_getElem?.mp hd
  by_cases hji : j = i
  · subst hji
    cases hc.symm.trans hj
    exact hth hdth
  · cases (hothers j d hj hji).symm.trans hdpc

theorem Quiet.returned (h : s.Quiet) (hr : system.ReachableBy Orderly s)
    (hc : s.calls[i]? = some c) : c.pc.isReturned = true := by
  have hnone := h.call hc
  have hout := (inside_call hc).symm.trans (h.outside (.call i))
  cases hcpc : c.pc with
  | addLock | destroyLock | free =>
    have hnone := hnone none
    rw [stepCall, hcpc] at hnone
    cases (if_pos (h.free hr)).symm.trans hnone
  | addBody | addUnlock | destroyBody | destroyUnlock =>
    rw [hcpc] at hout
    cases hout
  | join n err =>
    have hnone := hnone none
    rw [stepCall, hcpc] at hnone
    cases phase hr with
    | opened _ _ _ hcalls =>
      have hdestroy := hcalls c (List.mem_of_getElem? hc)
      rw [hcpc] at hdestroy
      cases hdestroy
    | closing j d hd hclosing _ hothers =>
      by_cases hij : i = j
      · subst hij
        cases hc.symm.trans hd
        rw [Closing, hcpc] at hclosing
        exact absurd hnone (h.join_ne_none hr hclosing.1
          (fun w hw => calling_eq_false hc hothers hw) n err)
      · have hreturned := hothers i c hc hij
        rwa [hcpc] at hreturned
    | closed _ hcalls _ =>
      have hreturned := hcalls c (List.mem_of_getElem? hc)
      rwa [hcpc] at hreturned
  | returned => rfl

/-- All calls have returned and all workers are idle. -/
structure Settled (s : Pool α) : Prop where
  returned : ∀ c ∈ s.calls, c.pc.isReturned = true
  free : s.owner = none
  /-- Every task that was taken has been run to its end. -/
  finished : s.finished.Perm s.taken
  opened : s.shutdown = none → s.queue.contents = [] ∧ ∀ pc ∈ s.workers, pc = .asleep
  closed : s.shutdown ≠ none → s.Ended ∧ ∀ pc ∈ s.workers, pc = .exited
  /-- Unless the pool was shut down at once, every task that was accepted has been run. -/
  drained : s.shutdown ≠ some .immediate → (s.finished.map Prod.snd).Perm s.added

theorem Quiet.all_returned (h : s.Quiet) (hr : system.ReachableBy Orderly s) :
    ∀ c ∈ s.calls, c.pc.isReturned = true := by
  intro c hc
  obtain ⟨i, hi⟩ := List.mem_iff_getElem?.mp hc
  exact h.returned hr hi

theorem Quiet.idle (h : s.Quiet) (hr : system.ReachableBy Orderly s)
    (hw : s.workers[w]? = some pc) : pc = .asleep ∨ pc = .exited := by
  refine h.worker_cases (h.free hr) hw ?_
  rw [← Bool.not_eq_true]
  intro hcalling
  obtain ⟨c, hc, hthpc⟩ := List.any_eq_true.mp hcalling
  cases (h.all_returned hr c hc).symm.trans (of_decide_eq_true hthpc).2

theorem Quiet.running (h : s.Quiet) (hr : system.ReachableBy Orderly s) (w : ℕ) :
    s.executor.running w = none := by
  show s.workers[w]?.bind WorkerPc.task? = none
  cases hw : s.workers[w]? with
  | none => rfl
  | some pc => rcases h.idle hr hw with rfl | rfl <;> rfl

theorem closing_of_exited (hr : system.Reachable s) (hw : s.workers[w]? = some .exited) :
    s.shutdown = some .immediate ∨ s.shutdown = some .graceful ∧ s.queue.contents = [] := by
  obtain ⟨-, hclosing⟩ := (executor_inv hr).gone w (gone_eq hw)
  simp only [executor] at hclosing
  cases hshut : s.shutdown with
  | none =>
    rw [hshut] at hclosing
    rcases hclosing with hclosing | ⟨hclosing, -⟩ <;> cases hclosing
  | some sd =>
    rw [hshut] at hclosing
    cases sd with
    | immediate => exact .inl rfl
    | graceful =>
      rcases hclosing with hclosing | ⟨-, hempty⟩
      · cases hclosing
      · exact .inr ⟨rfl, hempty⟩

theorem Quiet.opened (h : s.Quiet) (hr : system.ReachableBy Orderly s) (hopen : s.shutdown = none) :
    s.queue.contents = [] ∧ ∀ pc ∈ s.workers, pc = .asleep := by
  have hasleep : ∀ pc ∈ s.workers, pc = .asleep := by
    intro pc hpc
    obtain ⟨w, hw⟩ := List.mem_iff_getElem?.mp hpc
    rcases h.idle hr hw with rfl | rfl
    · rfl
    · rcases closing_of_exited hr.reachable hw with hshut | ⟨hshut, -⟩ <;> rw [hopen] at hshut <;>
        cases hshut
  refine ⟨?_, hasleep⟩
  cases hworkers : s.workers with
  | nil =>
    have hnone : ∀ c ∈ s.calls, c.pc.isDestroy = false :=
      fun c hc => isDestroy_of_isReturned (h.all_returned hr c hc)
    have hmissing := ((phase hr).of_open hopen hnone).2
    rw [hworkers, List.length_nil] at hmissing
    have hadded := ((tally hr.reachable).missing (Nat.ne_of_gt hmissing)).2.2
    have horder : s.taken.map Prod.snd ++ s.queue.contents = s.added :=
      (executor_inv hr.reachable).order
    rw [hadded] at horder
    exact (List.append_eq_nil_iff.mp horder).2
  | cons pc l =>
    have hw : s.workers[0]? = some pc := by rw [hworkers, List.getElem?_cons_zero]
    have hpc := hasleep pc (List.mem_of_getElem? hw)
    have hle := (sleepers_covered hr.reachable (countP_pos_of_getElem? hw (hpc ▸ rfl))).2
    have hlook : s.workers.countP WorkerPc.isLooking = 0 := by
      rw [List.countP_eq_zero]
      intro pc hpc
      rw [hasleep pc hpc]
      exact Bool.false_ne_true
    exact List.length_eq_zero_iff.mp (Nat.le_zero.mp (hlook ▸ hle))

theorem Quiet.closed (h : s.Quiet) (hr : system.ReachableBy Orderly s) (hshut : s.shutdown ≠ none) :
    s.Ended ∧ ∀ pc ∈ s.workers, pc = .exited := by
  constructor
  · cases phase hr with
    | opened hopen => exact absurd hopen hshut
    | closing i c hc hclosing =>
      have hreturned := isDestroy_of_isReturned (h.returned hr hc)
      cases hreturned.symm.trans hclosing.isDestroy
    | closed _ _ hended => exact hended
  · intro pc hpc
    obtain ⟨w, hw⟩ := List.mem_iff_getElem?.mp hpc
    rcases h.idle hr hw with rfl | rfl
    · exact absurd (closed_of_asleep hr hw) hshut
    · rfl

theorem Quiet.contents (h : s.Quiet) (hr : system.ReachableBy Orderly s)
    (hnow : s.shutdown ≠ some .immediate) : s.queue.contents = [] := by
  cases hshut : s.shutdown with
  | none => exact (h.opened hr hshut).1
  | some sd =>
    cases sd with
    | immediate => exact absurd hshut hnow
    | graceful =>
      have hsome := manned hr hshut
      obtain ⟨pc, hpc⟩ := List.exists_mem_of_ne_nil _ hsome
      obtain ⟨w, hw⟩ := List.mem_iff_getElem?.mp hpc
      have hexited := (h.closed hr (hshut ▸ Option.some_ne_none _)).2 pc hpc
      rcases closing_of_exited hr.reachable (hexited ▸ hw) with himmediate | ⟨-, hempty⟩
      · exact absurd himmediate hnow
      · exact hempty

theorem Quiet.settled (h : s.Quiet) (hr : system.ReachableBy Orderly s) : s.Settled := by
  have hinv := executor_inv hr.reachable
  have hfinished : s.finished.Perm s.taken := hinv.finished_perm (h.running hr)
  refine ⟨h.all_returned hr, h.free hr, hfinished, h.opened hr, h.closed hr, fun hnow => ?_⟩
  have horder : s.taken.map Prod.snd ++ s.queue.contents = s.added := hinv.order
  rw [h.contents hr hnow, List.append_nil] at horder
  exact horder ▸ hfinished.map Prod.snd

/-- Whatever happens to a pool, its threads then need a bounded number of steps until all of them
are idle, in whatever order they make them; all tasks have been run and a pool that was shut down
has been freed, unless one of its own workers has destroyed it. -/
theorem settles (hr : system.ReachableBy Orderly s) :
    (∀ as t, (∀ a ∈ as, a.internal = true) → system.exec s as = some t →
      as.length ≤ s.work ∧ (t.Quiet → t.Settled)) ∧
    ∃ as t, (∀ a ∈ as, a.internal = true) ∧ system.exec s as = some t ∧ t.Quiet := by
  refine ⟨fun as t has hrun => ⟨?_, fun hquiet => ?_⟩, lowers.exists_quiet hr⟩
  · exact Nat.le_of_add_right_le (lowers.length_add_le has hr hrun)
  · exact hquiet.settled (lowers.keep_exec has hr hrun)

/-- The worker is asleep in an empty pool when the pool is destroyed. -/
theorem settles_destroyed :
    ∃ s, system.exec small [.create true, .worker 0, .worker 0, .destroy (.main 0) true] = some s ∧
      s.workers = [.asleep] ∧
      ∃ as t, (∀ a ∈ as, a.internal = true) ∧ system.exec s as = some t ∧ t.Settled := by
  have hrun : ((system.exec small [.create true, .worker 0, .worker 0,
      .destroy (.main 0) true]).any fun s => decide (s.workers = [.asleep])) = true := by
    decide +kernel
  have hmeets : system.Meets Orderly small [.create true, .worker 0, .worker 0,
      .destroy (.main 0) true] := by decide +kernel
  obtain ⟨s, hexec, hs⟩ := (Option.any_eq_true _ _).mp hrun
  obtain ⟨hall, as, t, has, hrun, hquiet⟩ := settles (.exec (.init small_init) hmeets hexec)
  exact ⟨s, hexec, of_decide_eq_true hs, as, t, has, hrun, (hall as t has hrun).2 hquiet⟩

end Pool

end Caio.Threadpool
