import Caio.Lib.Linearizable
import Caio.Threadpool.Phases

namespace Caio.Threadpool

open Linearizability
open ThreadAio (ThreadpoolError)

variable {α : Type}

/-- What a call is to do. -/
inductive Op (α : Type)
  | add (task : α)
  | destroy (graceful : Bool)

namespace Op

def apply : Op α → Executor α → Executor α × Option ThreadpoolError
  | .add task, e =>
    match ThreadAio.threadpoolAdd ⟨e.capacity, e.queue.length, e.closing.isSome⟩ with
    | some err => (e, some err)
    | none => ({ e with queue := e.queue ++ [task], added := e.added ++ [task] }, none)
  | .destroy graceful, e =>
    if e.closing.isSome then (e, some .shutdown)
    else ({ e with closing := some (if graceful then .drain else .drop) }, none)

variable {e : Executor α} {task : α}

theorem apply_add_refused {err : ThreadpoolError}
    (h : ThreadAio.threadpoolAdd ⟨e.capacity, e.queue.length, e.closing.isSome⟩ = some err) :
    (add task).apply e = (e, some err) := by
  rw [apply, h]

theorem apply_add_accepted
    (h : ThreadAio.threadpoolAdd ⟨e.capacity, e.queue.length, e.closing.isSome⟩ = none) :
    (add task).apply e =
      ({ e with queue := e.queue ++ [task], added := e.added ++ [task] }, none) := by
  rw [apply, h]

def object : Object (Executor α) (Op α) (Option ThreadpoolError) (Executor.Action α) where
  apply := apply
  internal e b := if b.isWorker then e.step b else none

end Op

/-- The part of a result that is known when the call does what it is to do. A thread that
`threadpool_destroy` cannot join comes later. -/
def outcome : Option ThreadpoolError → Option ThreadpoolError
  | some .threadFailure => none
  | err => err

namespace CallPc

def status : CallPc α → Status (Op α) (Option ThreadpoolError)
  | .addLock task | .addBody task => .pending (.add task)
  | .destroyLock graceful | .destroyBody graceful => .pending (.destroy graceful)
  | .addUnlock err => .decided (outcome err)
  | .destroyUnlock | .join _ _ | .free => .decided none
  | .returned err => .returned (outcome err)

/-- The loop over `pthread_join` has no error but `threadpool_thread_failure`. -/
def Joins : CallPc α → Prop
  | .join _ err => outcome err = none
  | _ => True

end CallPc

def Call.status : Option (Call α) → Status (Op α) (Option ThreadpoolError)
  | none => .unborn
  | some c => c.pc.status

namespace Pool

variable {s t u : Pool α} {w i : ℕ} {pc : WorkerPc α} {c : Call α} {a : Action α}

theorem CallStep.joins (h : CallStep s i c t) (hc : c.pc.Joins) :
    ∃ pc, t.calls = s.calls.set i { c with pc } ∧ pc.Joins := by
  cases h with
  | accept hpc hpush hopen hsignal =>
    rw [(signal_roused hsignal).1]
    exact ⟨_, rfl, trivial⟩
  | join hpc =>
    rw [hpc] at hc
    exact ⟨_, rfl, hc⟩
  | destroyUnlock | joinSelf => exact ⟨_, rfl, rfl⟩
  | addLock | full | refuse | addUnlock | destroyLock | destroyAgain | shutdown | failed | kept
  | joined | free => exact ⟨_, rfl, trivial⟩

theorem joins (h : system.Reachable s) : ∀ c ∈ s.calls, c.pc.Joins := by
  apply h.invariant (I := fun s : Pool α => ∀ c ∈ s.calls, c.pc.Joins)
  · rintro s ⟨slots, threadCount, queueSize, hpos, -, rfl⟩ c hc
    cases hc
  · intro s a t hI _ hs d hd
    have hnew (pc : CallPc α) (hpc : pc.Joins) (th : ThreadId) (hd : d ∈ s.calls ++ [⟨th, pc⟩]) :
        d.pc.Joins := by
      rcases List.mem_append.mp hd with hd | hd
      · exact hI d hd
      · cases List.mem_singleton.mp hd
        exact hpc
    rcases step_cases hs with ⟨w, pc, -, hw, h⟩ | ⟨i, c, woken, -, hc, h⟩ | h
    · rw [h.aside.calls] at hd
      exact hI d hd
    · obtain ⟨pc, hcalls, hpc⟩ := h.joins (hI c (List.mem_of_getElem? hc))
      rw [hcalls] at hd
      rcases Table.mem_set_cases hd with rfl | ⟨j, -, hj⟩
      · exact hpc
      · exact hI d (List.mem_of_getElem? hj)
    · cases h with
      | started | spurious => exact hI d hd
      | unstarted => exact hnew (.destroyLock false) trivial _ hd
      | add => exact hnew (.addLock _) trivial _ hd
      | destroy => exact hnew (.destroyLock _) trivial _ hd

def status (s : Pool α) (i : ℕ) : Status (Op α) (Option ThreadpoolError) :=
  Call.status s.calls[i]?

theorem status_eq (hc : s.calls[i]? = some c) : s.status i = c.pc.status :=
  congrArg Call.status hc

theorem status_set (hc : s.calls[i]? = some c) (pc : CallPc α)
    (hcalls : t.calls = s.calls.set i { c with pc }) :
    t.status = Function.update s.status i pc.status := by
  funext j
  rw [status, hcalls]
  exact congrFun (Table.lookup_set Call.status hc { c with pc }) j

theorem point_newCall (s : Pool α) (th : ThreadId) (pc : CallPc α) {op : Op α}
    (hpc : pc.status = .pending op) :
    Point Op.object s.executor (s.newCall th pc).executor s.status (s.newCall th pc).status := by
  have hend : s.status s.calls.length = .unborn :=
    congrArg Call.status (List.getElem?_eq_none (Nat.le_refl _))
  have hstart : (s.status s.calls.length).Quietly pc.status := by
    rw [hend, hpc]
    exact .start op
  exact .of_update rfl hstart (Table.lookup_append Call.status s.calls ⟨th, pc⟩)

theorem threadpoolAdd_executor (s : Pool α) :
    ThreadAio.threadpoolAdd
        ⟨s.executor.capacity, s.executor.queue.length, s.executor.closing.isSome⟩ =
      ThreadAio.threadpoolAdd ⟨s.queue.size, s.queue.count, s.shutdown.isSome⟩ := by
  rw [executor, CircularQueue.length_contents, Option.isSome_map]

theorem WorkerStep.point (hw : s.workers[w]? = some pc) (h : WorkerStep s w pc t) :
    Point Op.object s.executor t.executor s.status t.status := by
  have hstatus : t.status = s.status := by
    funext i
    rw [status, h.aside.calls]
    rfl
  rcases h.executor hw with hsame | ⟨b, hworker, hb⟩
  · exact .silent hsame fun i => hstatus ▸ .refl _
  · exact .internal b ((if_pos hworker).trans hb) hstatus

theorem CallStep.point (hc : s.calls[i]? = some c) (hjoins : c.pc.Joins) (h : CallStep s i c t) :
    Point Op.object s.executor t.executor s.status t.status := by
  have hbefore := status_eq hc
  cases h with
  | addLock hpc | destroyLock hpc =>
    refine .of_update rfl ?_ (status_set hc _ rfl)
    rw [hbefore, hpc]
    exact .refl _
  | addUnlock hpc | kept hpc | free hpc =>
    refine .of_update rfl ?_ (status_set hc _ rfl)
    rw [hbefore, hpc]
    exact .finish _
  | destroyUnlock hpc | joinSelf hpc | join hpc | joined hpc =>
    refine .of_update rfl ?_ (status_set hc _ rfl)
    rw [hbefore, hpc]
    exact .refl _
  | failed hpc =>
    refine .of_update rfl ?_ (status_set hc _ rfl)
    -- threadpool_thread_failure comes after the decision: the pool is already shut down
    rw [hpc] at hjoins
    have hnone : outcome (some _) = none := hjoins
    rw [hbefore, hpc, CallPc.status, CallPc.status, hnone]
    exact .finish none
  | full hpc hfull =>
    rw [hpc] at hbefore
    exact .call i _ _ _ hbefore (Op.apply_add_refused ((threadpoolAdd_executor _).trans
      (if_pos hfull))) rfl (status_set hc (.addUnlock (some .queueFull)) rfl)
  | refuse hpc hroom hshut =>
    rw [hpc] at hbefore
    exact .call i _ _ _ hbefore (Op.apply_add_refused ((threadpoolAdd_executor _).trans
      ((if_neg hroom).trans (if_pos (Option.isSome_iff_ne_none.mpr hshut))))) rfl
      (status_set hc (.addUnlock (some .shutdown)) rfl)
  | accept hpc hpush hopen hsignal =>
    rename_i task queue u woken
    rw [hpc] at hbefore
    have hroom : s.queue.count ≠ s.queue.size := fun hfull => by
      cases hpush.symm.trans (CircularQueue.push_eq_none.mpr hfull)
    have hcheck : ThreadAio.threadpoolAdd ⟨s.queue.size, s.queue.count, s.shutdown.isSome⟩ = none :=
      ThreadAio.threadpoolAdd_eq_none.mpr ⟨hroom, congrArg Option.isSome hopen⟩
    refine .call i _ none _ hbefore ?_ rfl (status_set hc (.addUnlock none) ?_)
    · exact (Op.apply_add_accepted ((threadpoolAdd_executor _).trans hcheck)).trans
        (congrArg (·, none) (executor_accept hpush hsignal _).symm)
    · rw [(signal_roused hsignal).1]
      rfl
  | destroyAgain hpc hshut =>
    rw [hpc] at hbefore
    have hclosing : s.executor.closing.isSome = true :=
      Option.isSome_map.trans (Option.isSome_iff_ne_none.mpr hshut)
    exact .call i _ _ _ hbefore (if_pos hclosing) rfl
      (status_set hc (.returned (some .shutdown)) rfl)
  | shutdown hpc hopen =>
    rename_i graceful
    rw [hpc] at hbefore
    have hclosing : s.executor.closing.isSome ≠ true := by
      rw [executor_closing none hopen]
      exact Bool.noConfusion
    refine .call i _ none _ hbefore ((if_neg hclosing).trans ?_) rfl
      (status_set hc .destroyUnlock rfl)
    rw [executor_shutdown]
    cases graceful <;> rfl

theorem OuterStep.point (h : OuterStep s a t) :
    Point Op.object s.executor t.executor s.status t.status := by
  cases h with
  | started hmissing => exact .silent (OuterStep.started hmissing).executor fun i => .refl _
  | spurious hw => exact .silent (OuterStep.spurious hw).executor fun i => .refl _
  | unstarted => exact point_newCall { s with missing := 0 } _ _ rfl
  | add | destroy => exact point_newCall s _ _ rfl

/-- Whether some call could use the pool after `threadpool_free`: one that was pending then, or
that began later. -/
def InUse (s : Pool α) : Prop :=
  0 < s.freed → ∀ c ∈ s.calls, c.pc.isReturned = true

instance : DecidablePred (InUse (α := α)) := fun _ => inferInstanceAs (Decidable (_ → _))

theorem point (hr : system.Reachable s) (hs : s.step a = some t) :
    Point Op.object s.executor t.executor s.status t.status := by
  rcases step_cases hs with ⟨w, pc, -, hw, h⟩ | ⟨i, c, woken, -, hc, h⟩ | h
  · exact h.point hw
  · exact h.point hc (joins hr c (List.mem_of_getElem? hc))
  · exact h.point

/-- What a call of `threadpool_destroy` without an error knows of the threads it has joined. -/
def HasJoined (s : Pool α) : CallPc α → Prop
  | .join n none => ∀ v < n, s.workers[v]? = some .exited
  | .free => ∀ pc ∈ s.workers, pc = .exited
  | _ => True

theorem HasJoined.mono (h : Quietens s t) {pc : CallPc α} (hpc : s.HasJoined pc) :
    t.HasJoined pc := by
  unfold HasJoined at hpc ⊢
  split
  · exact fun v hv => h.exited v (hpc v hv)
  · exact h.all_exited hpc
  · trivial

/-- The threads have exited when the pool is freed. -/
structure Emptied (s : Pool α) : Prop where
  calls : ∀ c ∈ s.calls, s.HasJoined c.pc
  missing : 0 < s.freed → s.missing = 0
  workers : 0 < s.freed → ∀ pc ∈ s.workers, pc = .exited

theorem Emptied.mono (h : s.Emptied) (hq : Quietens s t) (haside : Aside s t) : t.Emptied := by
  obtain ⟨hcalls, -, -, hmissing, hfreed, -⟩ := haside
  refine ⟨fun c hc => (h.calls c (hcalls ▸ hc)).mono hq, ?_, ?_⟩
  · rw [hfreed, hmissing]
    exact h.missing
  · rw [hfreed]
    exact fun hpos => hq.all_exited (h.workers hpos)

theorem Emptied.goOn (h : s.Emptied) (hstep : CallStep s i c t) (hfreed : t.freed = s.freed)
    {pc : CallPc α} (hcalls : t.calls = s.calls.set i { c with pc }) (hpc : s.HasJoined pc) :
    t.Emptied := by
  have hframe := hstep.frame
  have hq : Quietens s t := hframe.workers.quietens
  refine ⟨fun d hd => ?_, ?_, ?_⟩
  · rw [hcalls] at hd
    rcases Table.mem_set_cases hd with rfl | ⟨j, -, hj⟩
    · exact hpc.mono hq
    · exact (h.calls d (List.mem_of_getElem? hj)).mono hq
  · rw [hfreed, hframe.missing]
    exact h.missing
  · rw [hfreed]
    exact fun hpos => hq.all_exited (h.workers hpos)

theorem Emptied.call (h : s.Emptied) (htally : s.Tally) (hc : s.calls[i]? = some c)
    (hstep : CallStep s i c t) : t.Emptied := by
  have hknown := h.calls c (List.mem_of_getElem? hc)
  have hgo {pc : CallPc α} (hfreed : t.freed = s.freed)
      (hcalls : t.calls = s.calls.set i { c with pc }) (hpc : s.HasJoined pc) : t.Emptied :=
    h.goOn hstep hfreed hcalls hpc
  cases hstep with
  | free hpc hfree =>
    rw [hpc] at hknown
    refine ⟨fun d hd => ?_, fun _ => ?_, fun _ => hknown⟩
    · rcases Table.mem_set_cases hd with rfl | ⟨j, -, hj⟩
      · trivial
      · exact h.calls d (List.mem_of_getElem? hj)
    · by_contra hmissing
      rw [(htally.missing hmissing).1] at hc
      cases hc
  | join hpc hlt hexited =>
    rename_i w err
    refine hgo rfl rfl ?_
    rw [hpc] at hknown
    cases err with
    | some err => trivial
    | none =>
      intro v hv
      rcases Nat.lt_succ_iff_lt_or_eq.mp hv with hv | rfl
      · exact hknown v hv
      · exact hexited
  | joined hpc hle hstarted =>
    refine hgo rfl rfl fun pc hmem => ?_
    rw [hpc] at hknown
    obtain ⟨v, hv⟩ := List.mem_iff_getElem?.mp hmem
    have hlt : v < s.threadCount := htally.threads ▸ Table.lt_length hv
    exact Option.some.inj (hv.symm.trans (hknown v (Nat.lt_of_lt_of_le hlt hle)))
  | accept hpc hpush hopen hsignal =>
    rw [(signal_roused hsignal).1] at hgo ⊢
    exact hgo rfl rfl trivial
  | destroyUnlock => exact hgo rfl rfl fun v hv => absurd hv v.not_lt_zero
  | addLock | full | refuse | addUnlock | destroyLock | destroyAgain | shutdown | joinSelf | failed
  | kept => exact hgo rfl rfl trivial

theorem Emptied.outer (h : s.Emptied) (htally : s.Tally) (hstep : OuterStep s a t) :
    t.Emptied := by
  have hnew (u : Pool α) (hu : u.Emptied) (th : ThreadId) (pc : CallPc α)
      (hpc : u.HasJoined pc) : (u.newCall th pc).Emptied := by
    refine ⟨fun d hd => ?_, hu.missing, hu.workers⟩
    rcases List.mem_append.mp hd with hd | hd
    · exact hu.calls d hd
    · cases List.mem_singleton.mp hd
      exact hpc
  cases hstep with
  | started hmissing =>
    -- nobody calls the pool before it is complete
    have hnone := (htally.missing (hmissing ▸ Nat.succ_ne_zero _)).1
    have hzero : ¬0 < s.freed := fun hpos => by cases hmissing.symm.trans (h.missing hpos)
    refine ⟨fun c hc => ?_, fun hpos => absurd hpos hzero, fun hpos => absurd hpos hzero⟩
    have hc : c ∈ s.calls := hc
    rw [hnone] at hc
    cases hc
  | unstarted => exact hnew { s with missing := 0 } ⟨h.calls, fun _ => rfl, h.workers⟩ _ _ trivial
  | add => exact hnew s h _ _ trivial
  | destroy => exact hnew s h _ _ trivial
  | spurious hw => exact h.mono (Roused.quietens (roused_set hw)) ⟨rfl, rfl, rfl, rfl, rfl, rfl⟩

theorem emptied (h : system.Reachable s) : s.Emptied := by
  refine h.invariant_with (fun _ hr => tally hr) ?_ fun s a t htally h _ hs => ?_
  · rintro s ⟨slots, threadCount, queueSize, hpos, -, rfl⟩
    exact ⟨fun c hc => absurd hc List.not_mem_nil, fun hfreed => absurd hfreed (Nat.lt_irrefl 0),
      fun hfreed => absurd hfreed (Nat.lt_irrefl 0)⟩
  · rcases step_cases hs with ⟨w, pc, -, hw, hstep⟩ | ⟨i, c, woken, -, hc, hstep⟩ | hstep
    · exact h.mono (hstep.quietens hw) hstep.aside
    · exact h.call htally hc hstep
    · exact h.outer htally hstep

theorem InUse.at_rest (h : s.InUse) (hr : system.Reachable s) (hfreed : 0 < s.freed)
    (ha : a.internal = true) : s.step a = none := by
  rw [Option.eq_none_iff_forall_ne_some]
  intro t hs
  rcases step_cases hs with ⟨w, pc, -, hw, hstep⟩ | ⟨i, c, woken, -, hc, hstep⟩ | hstep
  · exact hstep.ne_exited ((emptied hr).workers hfreed pc (List.mem_of_getElem? hw))
  · cases (h hfreed c (List.mem_of_getElem? hc)).symm.trans hstep.not_returned
  · cases hstep <;> cases ha

theorem Phase.inUse (h : s.Phase) : s.InUse := by
  intro hfreed
  cases h with
  | opened _ hzero | closing _ _ _ _ hzero => exact absurd hzero (Nat.ne_of_gt hfreed)
  | closed _ hreturned _ => exact hreturned

/-- Calls of `threadpool_add` and `threadpool_destroy` are linearizable as long as none is pending
or begins once the pool has been freed; nothing touches the pool then. -/
theorem calls_linearizable :
    Linearizable (system.within (InUse (α := α))) Op.object executor status ∧
      (∀ s : Pool α, (system.within InUse).Reachable s → 0 < s.freed →
        ∀ a : Action α, a.internal = true → s.step a = none) ∧
      ∀ s : Pool α, system.ReachableBy Orderly s → (system.within InUse).Reachable s := by
  refine ⟨.of_points ?_ ?_, ?_, ?_⟩
  · rintro s ⟨⟨slots, threadCount, queueSize, hpos, -, rfl⟩, -⟩ i
    rfl
  · intro s a t hr hs
    exact point hr.of_within.1 (TransitionSystem.within_step.mp hs).1
  · intro s hr hfreed a ha
    obtain ⟨hr, huse⟩ := hr.of_within
    exact huse.at_rest hr hfreed ha
  · exact fun s hr => hr.within fun t ht => (phase ht).inUse

end Pool

end Caio.Threadpool
