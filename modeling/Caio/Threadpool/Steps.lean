import Mathlib.Tactic.SplitIfs
import Caio.Lib.Table
import Caio.Threadpool.Pool

namespace Caio.Threadpool

open ThreadAio (ThreadpoolError)

variable {α : Type}

def WorkerPc.holdsLock : WorkerPc α → Bool
  | .locked | .unlock _ | .leaving => true
  | _ => false

def CallPc.holdsLock : CallPc α → Bool
  | .addBody _ | .addUnlock _ | .destroyBody _ | .destroyUnlock => true
  | _ => false

namespace Pool

variable {s t u : Pool α} {w i : ℕ} {pc : WorkerPc α} {c : Call α} {woken : Option ℕ}

/-- A step of worker `w` at `pc`. -/
inductive WorkerStep (s : Pool α) (w : ℕ) : WorkerPc α → Pool α → Prop
  | acquire {pc : WorkerPc α} (hpc : pc = .lock ∨ pc = .awake) (hfree : s.owner = none) :
    WorkerStep s w pc ((s.setWorker w .locked).withOwner (some (.worker w)))
  | sleep (hopen : s.shutdown = none) (hempty : s.queue.contents = []) :
    WorkerStep s w .locked ((s.setWorker w .asleep).withOwner none)
  | leave (h : s.shutdown = some .immediate ∨
      s.shutdown = some .graceful ∧ s.queue.contents = []) :
    WorkerStep s w .locked { s.setWorker w .leaving with started := s.started - 1 }
  | take {task : α} {queue : CircularQueue α} (hpop : s.queue.pop = some (task, queue))
      (h : s.shutdown ≠ some .immediate) :
    WorkerStep s w .locked
      { s.setWorker w (.unlock task) with queue, taken := s.taken ++ [(w, task)] }
  | unlock (task : α) :
    WorkerStep s w (.unlock task) ((s.setWorker w (.running task)).withOwner none)
  | finish (task : α) (h : s.calling (.worker w) = false) :
    WorkerStep s w (.running task)
      { s.setWorker w .lock with finished := s.finished ++ [(w, task)] }
  | exit : WorkerStep s w .leaving ((s.setWorker w .exited).withOwner none)

theorem stepWorker_cases (hs : s.stepWorker w pc = some t) : WorkerStep s w pc t := by
  cases pc with
  | lock =>
    obtain ⟨hfree, hs⟩ := Option.ite_none_right_eq_some.mp hs
    cases hs
    exact .acquire (.inl rfl) hfree
  | awake =>
    obtain ⟨hfree, hs⟩ := Option.ite_none_right_eq_some.mp hs
    cases hs
    exact .acquire (.inr rfl) hfree
  | locked =>
    cases hs
    unfold turn
    split
    case h_1 hopen hpop => exact .sleep hopen (CircularQueue.pop_eq_none.mp hpop)
    case h_2 himmediate => exact .leave (.inl himmediate)
    case h_3 hgraceful hpop => exact .leave (.inr ⟨hgraceful, CircularQueue.pop_eq_none.mp hpop⟩)
    case h_4 task queue hpop hne => exact .take hpop hne
  | unlock task =>
    cases hs
    exact .unlock task
  | running task =>
    obtain ⟨hcalling, hs⟩ := Option.ite_none_left_eq_some.mp hs
    cases hs
    exact .finish task (Bool.not_eq_true _ ▸ hcalling)
  | leaving =>
    cases hs
    exact .exit
  | asleep | exited => cases hs

theorem signal_cases (h : s.signal woken = some u) :
    (∃ w, s.workers[w]? = some .asleep ∧ u = s.setWorker w .awake) ∨
      u = s ∧ ∀ pc ∈ s.workers, pc ≠ .asleep := by
  unfold signal at h
  split at h
  · rename_i w
    obtain ⟨pc, hpc, h⟩ := Option.bind_eq_some_iff.mp h
    split at h
    · cases h
      exact .inl ⟨w, hpc, rfl⟩
    · cases h
  · obtain ⟨hall, h⟩ := Option.ite_none_right_eq_some.mp h
    cases h
    refine .inr ⟨rfl, fun pc hpc heq => ?_⟩
    subst heq
    cases List.all_eq_true.mp hall _ hpc

def Roused (l l' : List (WorkerPc α)) : Prop :=
  l'.length = l.length ∧
    ∀ w : ℕ, l'[w]? = l[w]? ∨ l[w]? = some .asleep ∧ l'[w]? = some .awake

theorem Roused.refl (l : List (WorkerPc α)) : Roused l l := ⟨rfl, fun _ => .inl rfl⟩

theorem roused_set {l : List (WorkerPc α)} (hw : l[w]? = some .asleep) :
    Roused l (l.set w .awake) := by
  refine ⟨List.length_set, fun v => ?_⟩
  by_cases hv : v = w
  · exact .inr ⟨hv ▸ hw, hv ▸ Table.getElem?_set_self hw _⟩
  · exact .inl (List.getElem?_set_ne (Ne.symm hv))

theorem roused_wake (l : List (WorkerPc α)) : Roused l (l.map WorkerPc.wake) := by
  refine ⟨List.length_map .., fun w => ?_⟩
  rw [List.getElem?_map]
  cases hw : l[w]? with
  | none => exact .inl rfl
  | some pc =>
    cases pc with
    | asleep => exact .inr ⟨rfl, rfl⟩
    | lock | locked | awake | unlock | running | leaving | exited => exact .inl rfl

theorem Roused.keeps {l l' : List (WorkerPc α)} (h : Roused l l') (hw : l[w]? = some pc)
    (hpc : pc ≠ .asleep) : l'[w]? = some pc := by
  rcases h.2 w with heq | ⟨hasleep, -⟩
  · exact heq.trans hw
  · exact absurd (Option.some.inj (hw.symm.trans hasleep)) hpc

theorem Roused.lookup {l l' : List (WorkerPc α)} (h : Roused l l') {β : Type*}
    (g : Option (WorkerPc α) → β) (hg : g (some .awake) = g (some .asleep)) :
    (fun w : ℕ => g l'[w]?) = fun w : ℕ => g l[w]? := by
  funext w
  rcases h.2 w with heq | ⟨hasleep, hawake⟩
  · rw [heq]
  · rw [hasleep, hawake, hg]

theorem Roused.countP {l l' : List (WorkerPc α)} (h : Roused l l') (p : WorkerPc α → Bool)
    (hp : p .awake = p .asleep) : l'.countP p = l.countP p := by
  have hmap : l'.map p = l.map p := by
    apply List.ext_getElem?
    intro w
    rw [List.getElem?_map, List.getElem?_map]
    exact congrFun (h.lookup (Option.map p) (congrArg some hp)) w
  have hcount := congrArg (List.countP id) hmap
  rwa [List.countP_map, List.countP_map] at hcount

theorem signal_roused (h : s.signal woken = some u) :
    u = { s with workers := u.workers } ∧ Roused s.workers u.workers := by
  rcases signal_cases h with ⟨w, hw, rfl⟩ | ⟨rfl, -⟩
  · exact ⟨rfl, roused_set hw⟩
  · exact ⟨rfl, Roused.refl _⟩

/-- A step of call `i`. -/
inductive CallStep (s : Pool α) (i : ℕ) (c : Call α) : Pool α → Prop
  | addLock {task : α} (hpc : c.pc = .addLock task) (hfree : s.owner = none) :
    CallStep s i c ((s.setCall i c (.addBody task)).withOwner (some (.call i)))
  | full {task : α} (hpc : c.pc = .addBody task) (h : s.queue.count = s.queue.size) :
    CallStep s i c (s.setCall i c (.addUnlock (some .queueFull)))
  | refuse {task : α} (hpc : c.pc = .addBody task) (hroom : s.queue.count ≠ s.queue.size)
      (h : s.shutdown ≠ none) :
    CallStep s i c (s.setCall i c (.addUnlock (some .shutdown)))
  | accept {task : α} {queue : CircularQueue α} {u : Pool α} {woken : Option ℕ}
      (hpc : c.pc = .addBody task) (hpush : s.queue.push task = some queue)
      (hopen : s.shutdown = none) (hsignal : s.signal woken = some u) :
    CallStep s i c
      { u.setCall i c (.addUnlock none) with queue, added := u.added ++ [task] }
  | addUnlock {err : Option ThreadpoolError} (hpc : c.pc = .addUnlock err) :
    CallStep s i c ((s.setCall i c (.returned err)).withOwner none)
  | destroyLock {graceful : Bool} (hpc : c.pc = .destroyLock graceful) (hfree : s.owner = none) :
    CallStep s i c ((s.setCall i c (.destroyBody graceful)).withOwner (some (.call i)))
  | destroyAgain {graceful : Bool} (hpc : c.pc = .destroyBody graceful) (h : s.shutdown ≠ none) :
    CallStep s i c (s.setCall i c (.returned (some .shutdown)))
  | shutdown {graceful : Bool} (hpc : c.pc = .destroyBody graceful) (hopen : s.shutdown = none) :
    CallStep s i c { s.broadcast.setCall i c .destroyUnlock with
      shutdown := some (if graceful then .graceful else .immediate) }
  | destroyUnlock (hpc : c.pc = .destroyUnlock) :
    CallStep s i c ((s.setCall i c (.join 0 none)).withOwner none)
  | joinSelf {w : ℕ} {err : Option ThreadpoolError} (hpc : c.pc = .join w err)
      (hlt : w < s.threadCount) (hself : c.thread = .worker w) :
    CallStep s i c (s.setCall i c (.join (w + 1) (some .threadFailure)))
  | join {w : ℕ} {err : Option ThreadpoolError} (hpc : c.pc = .join w err)
      (hlt : w < s.threadCount) (hexited : s.workers[w]? = some .exited) :
    CallStep s i c (s.setCall i c (.join (w + 1) err))
  | failed {w : ℕ} {err : ThreadpoolError} (hpc : c.pc = .join w (some err))
      (hle : s.threadCount ≤ w) : CallStep s i c (s.setCall i c (.returned (some err)))
  | kept {w : ℕ} (hpc : c.pc = .join w none) (hle : s.threadCount ≤ w) (hstarted : 0 < s.started) :
    CallStep s i c (s.setCall i c (.returned none))
  | joined {w : ℕ} (hpc : c.pc = .join w none) (hle : s.threadCount ≤ w)
      (hstarted : s.started = 0) : CallStep s i c (s.setCall i c .free)
  | free (hpc : c.pc = .free) (hfree : s.owner = none) :
    CallStep s i c { s.setCall i c (.returned none) with freed := s.freed + 1 }

theorem join_cases {err : Option ThreadpoolError} (hpc : c.pc = .join w err)
    (hs : s.join i c w err = some t) : CallStep s i c t := by
  unfold join at hs
  by_cases hlt : w < s.threadCount
  · rw [if_pos hlt] at hs
    split at hs
    · rename_i hself
      cases hs
      exact .joinSelf hpc hlt hself
    · obtain ⟨pc, hw, hs⟩ := Option.bind_eq_some_iff.mp hs
      split at hs
      · cases hs
        exact .join hpc hlt hw
      · cases hs
  · have hle := Nat.le_of_not_lt hlt
    rw [if_neg hlt] at hs
    cases err with
    | some err =>
      cases hs
      exact .failed hpc hle
    | none =>
      cases hs
      split
      · rename_i hstarted
        exact .kept hpc hle hstarted
      · rename_i hstarted
        exact .joined hpc hle (Nat.eq_zero_of_not_pos hstarted)

theorem addBody_cases {task : α} (hpc : c.pc = .addBody task)
    (hs : s.addBody i c task woken = some t) : CallStep s i c t := by
  unfold addBody at hs
  split at hs
  · rename_i hpush
    cases hs
    exact .full hpc (CircularQueue.push_eq_none.mp hpush)
  · rename_i queue hpush
    split_ifs at hs with hshut
    · cases hs
      refine .refuse hpc (fun hfull => ?_) (Option.isSome_iff_ne_none.mp hshut)
      cases hpush.symm.trans (CircularQueue.push_eq_none.mpr hfull)
    · obtain ⟨u, hsignal, hs⟩ := Option.map_eq_some_iff.mp hs
      cases hs
      exact .accept hpc hpush (Option.not_isSome_iff_eq_none.mp hshut) hsignal

theorem stepCall_cases (hs : s.stepCall i c woken = some t) : CallStep s i c t := by
  unfold stepCall at hs
  split at hs
  case h_1 task hpc =>
    obtain ⟨hfree, hs⟩ := Option.ite_none_right_eq_some.mp hs
    cases hs
    exact .addLock hpc hfree
  case h_2 task hpc => exact addBody_cases hpc hs
  case h_3 err hpc =>
    cases hs
    exact .addUnlock hpc
  case h_4 graceful hpc =>
    obtain ⟨hfree, hs⟩ := Option.ite_none_right_eq_some.mp hs
    cases hs
    exact .destroyLock hpc hfree
  case h_5 graceful hpc =>
    cases hs
    unfold destroyBody
    split
    · rename_i hshut
      exact .destroyAgain hpc (Option.isSome_iff_ne_none.mp hshut)
    · rename_i hshut
      exact .shutdown hpc (Option.not_isSome_iff_eq_none.mp hshut)
  case h_6 hpc =>
    cases hs
    exact .destroyUnlock hpc
  case h_7 w err hpc => exact join_cases hpc hs
  case h_8 hpc =>
    obtain ⟨hfree, hs⟩ := Option.ite_none_right_eq_some.mp hs
    cases hs
    exact .free hpc hfree
  case h_9 => cases hs

/-- What a caller, the system or `threadpool_create` does. -/
inductive OuterStep (s : Pool α) : Action α → Pool α → Prop
  | started {n : ℕ} (hmissing : s.missing = n + 1) : OuterStep s (.create true)
    { s with
      workers := s.workers ++ [.lock], threadCount := s.threadCount + 1
      started := s.started + 1, missing := n }
  | unstarted {n : ℕ} (hmissing : s.missing = n + 1) : OuterStep s (.create false)
    ({ s with missing := 0 }.newCall (.main 0) (.destroyLock false))
  | add {th : ThreadId} {task : α} (hmay : s.mayCall th = true) :
    OuterStep s (.add th task) (s.newCall th (.addLock task))
  | destroy {th : ThreadId} {graceful : Bool} (hmay : s.mayCall th = true) :
    OuterStep s (.destroy th graceful) (s.newCall th (.destroyLock graceful))
  | spurious {w : ℕ} (hw : s.workers[w]? = some .asleep) :
    OuterStep s (.spurious w) (s.setWorker w .awake)

/-- A step is one of a worker, one of a call, or comes from outside. -/
theorem step_cases {a : Action α} (hs : s.step a = some t) :
    (∃ w pc, a = .worker w ∧ s.workers[w]? = some pc ∧ WorkerStep s w pc t) ∨
    (∃ i c woken, a = .call i woken ∧ s.calls[i]? = some c ∧ CallStep s i c t) ∨
    OuterStep s a t := by
  cases a with
  | create ok =>
    simp only [step] at hs
    split at hs
    · cases hs
    · rename_i n hmissing
      cases ok <;> cases hs
      · exact .inr (.inr (.unstarted hmissing))
      · exact .inr (.inr (.started hmissing))
  | add th task =>
    obtain ⟨hmay, hs⟩ := Option.ite_none_right_eq_some.mp hs
    cases hs
    exact .inr (.inr (.add hmay))
  | destroy th graceful =>
    obtain ⟨hmay, hs⟩ := Option.ite_none_right_eq_some.mp hs
    cases hs
    exact .inr (.inr (.destroy hmay))
  | spurious w =>
    obtain ⟨pc, hw, hs⟩ := Option.bind_eq_some_iff.mp hs
    split at hs
    · cases hs
      exact .inr (.inr (.spurious hw))
    · cases hs
  | worker w =>
    obtain ⟨pc, hw, hs⟩ := Option.bind_eq_some_iff.mp hs
    exact .inl ⟨w, pc, rfl, hw, stepWorker_cases hs⟩
  | call i woken =>
    obtain ⟨c, hc, hs⟩ := Option.bind_eq_some_iff.mp hs
    exact .inr (.inl ⟨i, c, woken, rfl, hc, stepCall_cases hs⟩)

end Pool

end Caio.Threadpool
