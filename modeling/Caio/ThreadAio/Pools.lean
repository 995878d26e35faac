import Caio.Lib.Executor
import Caio.ThreadAio.Teardown

namespace Caio.ThreadAio

/-- The loop queues no more than the pool has room for, and nothing once it is shutting down. -/
theorem submitLoop_room (self : CtxId) (ops : List OpPtr) (pool : Threadpool) {h : Heap}
    (hle : pool.count ≤ pool.queueSize) :
    (submitLoop self pool ops h).2.1 = [] ∨ pool.shutdown = false ∧
      pool.count + (submitLoop self pool ops h).2.1.length ≤ pool.queueSize := by
  induction ops generalizing h pool with
  | nil => exact .inl rfl
  | cons q qs ih =>
    rw [submitLoop]
    split
    · exact ih pool hle
    · split
      case h_1 => exact .inl rfl
      case h_2 hadd =>
        obtain ⟨hne, hopen⟩ := threadpoolAdd_eq_none.mp hadd
        have hlt : pool.count < pool.queueSize := Nat.lt_of_le_of_ne hle hne
        refine .inr ⟨hopen, ?_⟩
        rw [List.length_cons]
        rcases ih { pool with count := pool.count + 1 } hlt with hnil | ⟨-, hroom⟩
        · rw [hnil]
          exact hlt
        · rw [Nat.add_right_comm] at hroom
          exact hroom

theorem submit_room (h : Heap) (self : CtxId) {pool : Option Threadpool} (args : List Arg)
    (hle : ∀ p, pool = some p → p.count ≤ p.queueSize) :
    (submit h self pool args).queued = [] ∨ ∃ p, pool = some p ∧ p.shutdown = false ∧
      p.count + (submit h self pool args).queued.length ≤ p.queueSize := by
  unfold submit
  split
  · exact .inl rfl
  · split
    · exact .inl rfl
    · rename_i pool
      exact (submitLoop_room self _ pool (hle pool rfl)).imp id fun hroom => ⟨pool, rfl, hroom⟩

namespace World

variable {s t : World} {k k' : CtxId} {j : ℕ} {b : Job} {pc : JobPc} {a : Action}

/-- The tasks that no worker of the pool has taken, the oldest one first. -/
def waiting (s : World) (k : CtxId) : List ℕ := Table.indices (waits k) s.jobs

def accepted (s : World) (k : CtxId) : List ℕ := Table.indices (fun b => decide (b.ctx = k)) s.jobs

theorem length_waiting (s : World) (k : CtxId) :
    (s.waiting k).length = (s.threadpool k).count := Table.length_indices _ _

/-- Nothing happens to the pool of a Context. -/
structure SamePool (k : CtxId) (s t : World) : Prop where
  size : (t.ctxs k).queueSize = (s.ctxs k).queueSize
  shutdown : (t.ctxs k).shutdown = (s.ctxs k).shutdown
  waiting : t.waiting k = s.waiting k
  accepted : t.accepted k = s.accepted k

theorem SamePool.of_jobs (hjobs : t.jobs = s.jobs) (hctxs : t.ctxs = s.ctxs) : SamePool k s t := by
  refine ⟨by rw [hctxs], by rw [hctxs], ?_, ?_⟩
  · rw [World.waiting, hjobs, World.waiting]
  · rw [World.accepted, hjobs, World.accepted]

theorem waits_eq_false (h : b.ctx ≠ k ∨ b.pc ≠ .queued) : waits k b = false :=
  decide_eq_false fun ⟨hctx, hpc⟩ => h.elim (absurd hctx) (absurd hpc)

theorem SamePool.of_set (hb : s.jobs[j]? = some b) (hjobs : t.jobs = s.jobs.set j { b with pc })
    (hctxs : t.ctxs = s.ctxs) (h : b.ctx ≠ k ∨ b.pc ≠ .queued ∧ pc ≠ .queued) :
    SamePool k s t := by
  refine ⟨by rw [hctxs], by rw [hctxs], ?_, ?_⟩
  · rw [World.waiting, hjobs]
    refine Table.indices_set_of_eq hb ?_
    rw [waits_eq_false (h.imp id And.left), waits_eq_false]
    exact h.imp id And.right
  · rw [World.accepted, hjobs]
    exact Table.indices_set_of_eq hb rfl

theorem SamePool.modifyCtx (s : World) {f : Context → Context}
    (h : k = k' → (f (s.ctxs k)).queueSize = (s.ctxs k).queueSize ∧
      (f (s.ctxs k)).shutdown = (s.ctxs k).shutdown) : SamePool k s (s.modifyCtx k' f) := by
  by_cases hk : k = k'
  · obtain ⟨hsize, hshut⟩ := h hk
    subst hk
    have hself : (s.modifyCtx k f).ctxs k = f (s.ctxs k) := Function.update_self ..
    exact ⟨hself ▸ hsize, hself ▸ hshut, rfl, rfl⟩
  · have hother : (s.modifyCtx k' f).ctxs k = s.ctxs k := Function.update_of_ne hk ..
    exact ⟨hother ▸ rfl, hother ▸ rfl, rfl, rfl⟩

theorem step_submit {args : List Arg} (hs : s.step (.submit k args) = some t) :
    ∃ ids : List ℕ, ids.length = (s.submitted k args).queued.length ∧ t.ctxs = s.ctxs ∧
      t.waiting k = s.waiting k ++ ids ∧ t.accepted k = s.accepted k ++ ids := by
  cases hs
  have hnew (p : Job → Bool) (hp : ∀ q, p { ctx := k, op := q } = true) :
      ∀ b ∈ (s.submitted k args).queued.map fun q => ({ ctx := k, op := q } : Job),
        p b = true := by
    intro b hb
    obtain ⟨q, -, rfl⟩ := List.mem_map.mp hb
    exact hp q
  refine ⟨_, ?_, rfl, Table.indices_append_of_all _ (hnew _ fun q => ?_),
    Table.indices_append_of_all _ (hnew _ fun q => ?_)⟩
  · rw [List.length_map, List.length_range, List.length_map]
  · exact decide_eq_true ⟨rfl, rfl⟩
  · exact decide_eq_true rfl

/-- A call queues no more than there is room for, and nothing once the pool is shutting down. -/
theorem submit_queued (s : World) (k : CtxId) (args : List Arg)
    (hle : ∀ p, s.pool k = some p → p.count ≤ p.queueSize) :
    (s.submitted k args).queued = [] ∨ (s.ctxs k).shutdown = false ∧
      (s.waiting k).length + (s.submitted k args).queued.length ≤ (s.ctxs k).queueSize := by
  refine (submit_room s.heap k args hle).imp id fun ⟨p, hp, hopen, hroom⟩ => ?_
  obtain ⟨-, hp⟩ := Option.ite_none_right_eq_some.mp hp
  cases hp
  exact ⟨hopen, length_waiting s k ▸ hroom⟩

theorem step_task (ha : a.task? = some j ∨ a = .releaseCtx j) (hs : s.step a = some t) :
    ∃ b pc, s.jobs[j]? = some b ∧ b.pc ≠ .queued ∧ pc ≠ .queued ∧
      t.jobs = s.jobs.set j { b with pc } ∧ t.ctxs = s.ctxs := by
  cases a with
  | take i =>
    obtain rfl : i = j := by simpa [Action.task?] using ha
    obtain ⟨b, hb, hs⟩ := onJob_eq_some hs
    split at hs
    case h_1 hpc =>
      cases hs
      refine ⟨b, _, hb, hpc ▸ JobPc.noConfusion, ?_, rfl, rfl⟩
      split <;> exact JobPc.noConfusion
    case h_2 => cases hs
  | syscall i | publish i | callbackReturns i | releaseOp i | releaseCtx i =>
    obtain rfl : i = j := by simpa [Action.task?] using ha
    obtain ⟨b, hb, hs⟩ := onJob_eq_some hs
    split at hs
    case h_1 hpc =>
      cases hs
      exact ⟨b, _, hb, hpc ▸ JobPc.noConfusion, JobPc.noConfusion, rfl, rfl⟩
    case h_2 => cases hs
  | callback i =>
    obtain rfl : i = j := by simpa [Action.task?] using ha
    obtain ⟨b, hb, hs⟩ := onJob_eq_some hs
    split at hs
    case h_1 hpc =>
      split at hs
      all_goals
        cases hs
        exact ⟨b, _, hb, hpc ▸ JobPc.noConfusion, JobPc.noConfusion, rfl, rfl⟩
    case h_2 => cases hs
  | submit | setCallback | increfOp | decrefOp | increfCtx | decrefCtx | close | destroy | pop =>
    rcases ha with ha | ha <;> cases ha

theorem step_python (ha : a.isPython = true) (hs : s.step a = some t) :
    (∃ args, a = .submit k args) ∨ SamePool k s t := by
  cases a with
  | submit k' args =>
    by_cases hk : k' = k
    · exact .inl ⟨args, hk ▸ rfl⟩
    · cases hs
      have hnew : ∀ b ∈ (s.submitted k' args).queued.map fun p => ({ ctx := k', op := p } : Job),
          b.ctx ≠ k := by
        intro b hb
        obtain ⟨p, -, rfl⟩ := List.mem_map.mp hb
        exact hk
      refine .inr ⟨rfl, rfl, ?_, ?_⟩
      · exact Table.indices_append_of_not _ fun b hb => waits_eq_false (.inl (hnew b hb))
      · exact Table.indices_append_of_not _ fun b hb => decide_eq_false (hnew b hb)
  | setCallback q callback =>
    cases hs
    exact .inr (.of_jobs rfl rfl)
  | increfOp | decrefOp | increfCtx =>
    obtain ⟨-, hs⟩ := Option.ite_none_right_eq_some.mp hs
    cases hs
    exact .inr (.of_jobs rfl rfl)
  | _ => cases ha

end World

namespace Process

open World (SamePool)

variable {s t : Process} {k : CtxId} {a : Action} {e : Executor ℕ}

/-- The pool of Context `k`, whose tasks are those of the process. -/
structure Executes (s : Process) (k : CtxId) (e : Executor ℕ) : Prop where
  capacity : e.capacity = (s.world.ctxs k).queueSize
  queue : e.queue = s.world.waiting k
  running : e.running = s.running ∘ WorkerId.mk k
  closing : e.closing = if (s.world.ctxs k).shutdown then some .drain else none
  gone : e.gone = s.exited ∘ WorkerId.mk k
  added : e.added = s.world.accepted k

def Oldest (s : Process) : Action → Prop
  | .pop w j => (s.world.waiting w.ctx).head? = some j
  | _ => True

instance (s : Process) : ∀ a, Decidable (s.Oldest a)
  | .pop w j => inferInstanceAs (Decidable ((s.world.waiting w.ctx).head? = some j))
  | .python .. | .close .. | .decrefCtx .. | .work .. | .releaseCtx _ | .leave _ | .exit _
  | .destroy _ => isTrue trivial

theorem Executes.congr (h : s.Executes k e) (hsame : SamePool k s.world t.world)
    (hrunning : t.running ∘ WorkerId.mk k = s.running ∘ WorkerId.mk k)
    (hexited : t.exited ∘ WorkerId.mk k = s.exited ∘ WorkerId.mk k) : t.Executes k e where
  capacity := h.capacity.trans hsame.size.symm
  queue := h.queue.trans hsame.waiting.symm
  running := h.running.trans hrunning.symm
  closing := hsame.shutdown ▸ h.closing
  gone := h.gone.trans hexited.symm
  added := h.added.trans hsame.accepted.symm

def Follows (k : CtxId) (e : Executor ℕ) (t : Process) : Prop :=
  ∃ bs f, Executor.system.exec e bs = some f ∧ t.Executes k f

theorem Executes.follows (h : s.Executes k e) (hsame : SamePool k s.world t.world)
    (hrunning : t.running ∘ WorkerId.mk k = s.running ∘ WorkerId.mk k)
    (hexited : t.exited ∘ WorkerId.mk k = s.exited ∘ WorkerId.mk k) : Follows k e t :=
  ⟨[], e, rfl, h.congr hsame hrunning hexited⟩

theorem Executes.closePool (h : s.Executes k e) (th : ThreadId) (k' : CtxId) :
    (s.closePool th k').Executes k e := by
  have hsame : SamePool k s.world
      (s.world.modifyCtx k' fun ctx => { ctx with pool := false }) :=
    .modifyCtx s.world fun _ => ⟨rfl, rfl⟩
  exact h.congr hsame rfl rfl

theorem Executes.deallocCtx (h : s.Executes k e) (th : ThreadId) (k' : CtxId) :
    (s.deallocCtx th k').Executes k e := by
  unfold Process.deallocCtx
  split
  · exact h.closePool th k'
  · exact h

theorem Executes.submit (hinv : e.Inv) (h : s.Executes k e) {args : List Arg} {world : World}
    (hworld : s.world.step (.submit k args) = some world) : Follows k e (s.withWorld world) := by
  have hcount : (s.world.threadpool k).count = e.queue.length := by
    rw [h.queue, World.length_waiting]
  have hle : ∀ p, s.world.pool k = some p → p.count ≤ p.queueSize := by
    intro p hp
    obtain ⟨-, hp⟩ := Option.ite_none_right_eq_some.mp hp
    cases hp
    rw [hcount]
    exact Nat.le_trans hinv.room (Nat.le_of_eq h.capacity)
  obtain ⟨ids, hlength, hctxs, hwaiting, haccepted⟩ := World.step_submit hworld
  rcases World.submit_queued s.world k args hle with hnil | ⟨hopen, hroom⟩
  -- every argument was passed over or refused: the pool has seen nothing
  · obtain rfl : ids = [] := List.eq_nil_of_length_eq_zero (hlength.trans (congrArg _ hnil))
    rw [List.append_nil] at hwaiting haccepted
    have hsame : SamePool k s.world world :=
      ⟨by rw [hctxs], by rw [hctxs], hwaiting, haccepted⟩
    exact h.follows hsame rfl rfl
  · have hclosing : e.closing = none := by
      rw [h.closing, hopen, if_neg Bool.false_ne_true]
    rw [← hlength, ← h.queue, ← h.capacity] at hroom
    -- one step of the executor for each task that the call has queued
    refine ⟨ids.map .submit, _, Executor.exec_submits hclosing hroom, ?_, ?_, h.running, ?_, h.gone,
      ?_⟩
    · show e.capacity = (world.ctxs k).queueSize
      rw [hctxs, h.capacity]
    · show e.queue ++ ids = world.waiting k
      rw [hwaiting, h.queue]
    · show e.closing = if (world.ctxs k).shutdown then some .drain else none
      rw [hctxs, h.closing]
    · show e.added ++ ids = world.accepted k
      rw [haccepted, h.added]

theorem Executes.shut (h : s.Executes k e) {k' : CtxId} {world : World}
    (hopen : (s.world.ctxs k').shutdown = false)
    (hs : s.world.step (.destroy k') = some world) : Follows k e (s.withWorld world) := by
  obtain ⟨-, hs⟩ := Option.ite_none_left_eq_some.mp hs
  cases hs
  by_cases hk : k = k'
  · subst hk
    have hclosing : e.closing = none := by
      rw [h.closing, hopen, if_neg Bool.false_ne_true]
    have hself : (s.world.modifyCtx k fun ctx => { ctx with shutdown := true }).ctxs k =
        { s.world.ctxs k with shutdown := true } := Function.update_self ..
    refine ⟨[.close .drain], _, TransitionSystem.exec_singleton (Executor.step_close hclosing),
      ?_, h.queue, h.running, ?_, h.gone, h.added⟩
    · exact h.capacity.trans (congrArg Context.queueSize hself).symm
    · exact (if_pos (congrArg Context.shutdown hself)).symm
  · have hsame : SamePool k s.world
        (s.world.modifyCtx k' fun ctx => { ctx with shutdown := true }) :=
      .modifyCtx s.world fun heq => absurd heq hk
    exact h.follows hsame rfl rfl

theorem Executes.destroy (h : s.Executes k e) {i : ℕ} {d : Destroy}
    (hs : s.threadpoolDestroy i d = some t) : Follows k e t := by
  unfold threadpoolDestroy at hs
  split at hs
  case h_1 =>
    split at hs
    · cases hs
      exact h.follows (.of_jobs rfl rfl) rfl rfl
    · rename_i hshut
      obtain ⟨world, hworld, rfl⟩ := Option.map_eq_some_iff.mp hs
      obtain ⟨bs, f, hf, hnext⟩ := h.shut (Bool.not_eq_true _ ▸ hshut) hworld
      exact ⟨bs, f, hf, hnext.congr (.of_jobs rfl rfl) rfl rfl⟩
  case h_2 n =>
    split at hs
    · split at hs
      · cases hs
        exact h.follows (.of_jobs rfl rfl) rfl rfl
      · obtain ⟨-, hs⟩ := Option.ite_none_right_eq_some.mp hs
        cases hs
        exact h.follows (.of_jobs rfl rfl) rfl rfl
    · cases hs
      have hfree : (s.threadpoolFree d.ctx).Executes k e := by
        unfold threadpoolFree
        split
        · exact h
        · exact h.congr (.of_jobs rfl rfl) rfl rfl
      split
      · exact hfree.follows (.of_jobs rfl rfl) rfl rfl
      · exact h.follows (.of_jobs rfl rfl) rfl rfl
  case h_3 => cases hs

theorem update_here {β : Type*} (f : WorkerId → β) {w : WorkerId} (hk : w.ctx = k) (x : β) :
    Function.update f w x ∘ WorkerId.mk k = Function.update (f ∘ WorkerId.mk k) w.index x := by
  subst hk
  exact Function.update_comp_eq_of_injective f (fun _ _ h => congrArg WorkerId.index h) w.index x

theorem update_elsewhere {β : Type*} (f : WorkerId → β) {w : WorkerId} (hk : w.ctx ≠ k) (x : β) :
    Function.update f w x ∘ WorkerId.mk k = f ∘ WorkerId.mk k :=
  Function.update_comp_eq_of_forall_ne f x fun _ h => hk (congrArg WorkerId.ctx h).symm

theorem Executes.idle (h : s.Executes k e) {w : WorkerId} (hk : w.ctx = k)
    (hidle : s.running w = none) (hhere : s.exited w = false) : e.idle w.index = true := by
  subst hk
  rw [Executor.idle_eq_true, h.running, h.gone]
  exact ⟨hidle, hhere⟩

theorem Executes.pop (h : s.Executes k e) {w : WorkerId} {j : ℕ}
    (hold : (s.world.waiting w.ctx).head? = some j) (hidle : s.running w = none)
    (hhere : s.exited w = false) {world : World} (hs : s.world.step (.pop j) = some world) :
    Follows k e { s with world, running := Function.update s.running w (some j) } := by
  obtain ⟨rest, hwaiting⟩ := List.head?_eq_some_iff.mp hold
  obtain ⟨b, hb, hs⟩ := World.onJob_eq_some hs
  have hctx : b.ctx = w.ctx := by
    have hmem : j ∈ s.world.waiting w.ctx := hwaiting ▸ List.mem_cons_self
    have hwaits := Table.mem_indices.mp hmem
    rw [hb] at hwaits
    exact (of_decide_eq_true hwaits).1
  split at hs
  case h_1 hpc =>
    cases hs
    by_cases hk : w.ctx = k
    · have hstep := Executor.step_take (h.queue.trans (hk ▸ hwaiting)) (h.idle hk hidle hhere)
        (h.closing ▸ by split <;> exact nofun)
      refine ⟨[.take w.index], _, TransitionSystem.exec_singleton hstep, h.capacity, ?_, ?_,
        h.closing, h.gone, ?_⟩
      · exact (Table.indices_set_head hb (World.waits_eq_false (.inr JobPc.noConfusion))
          (hk ▸ hwaiting)).symm
      · show Function.update e.running w.index _ = _
        rw [h.running]
        exact (update_here s.running hk _).symm
      · refine h.added.trans (Eq.symm ?_)
        rw [World.accepted]
        exact Table.indices_set_of_eq hb rfl
    · exact h.follows (.of_set hb rfl rfl (.inl fun heq => hk (hctx.symm.trans heq)))
        (update_elsewhere s.running hk _) rfl
  case h_2 => cases hs

theorem Executes.leave (h : s.Executes k e) {w : WorkerId} {j : ℕ} (hj : s.running w = some j) :
    Follows k e { s with running := Function.update s.running w none } := by
  by_cases hk : w.ctx = k
  · have hrunning : e.running w.index = some j := by
      rw [h.running]
      subst hk
      exact hj
    refine ⟨[.finish w.index], _,
      TransitionSystem.exec_singleton (Executor.step_finish hrunning), h.capacity, h.queue, ?_,
      h.closing, h.gone, h.added⟩
    show Function.update e.running w.index _ = _
    rw [h.running]
    exact (update_here s.running hk _).symm
  · exact h.follows (.of_jobs rfl rfl) (update_elsewhere s.running hk _) rfl

theorem Executes.exit (h : s.Executes k e) {w : WorkerId} (hidle : s.running w = none)
    (hshut : (s.world.ctxs w.ctx).shutdown = true)
    (hcount : (s.world.threadpool w.ctx).count = 0) :
    Follows k e { s with exited := Function.update s.exited w true } := by
  by_cases hk : w.ctx = k
  · subst hk
    cases hhere : s.exited w with
    | true =>
      refine h.follows (.of_jobs rfl rfl) rfl ?_
      show Function.update s.exited w true ∘ _ = _
      rw [← hhere, Function.update_eq_self]
    | false =>
      -- a graceful shutdown lets a worker go only when the queue is empty
      have hempty : e.queue = [] := by
        rw [h.queue, ← List.length_eq_zero_iff, World.length_waiting]
        exact hcount
      have hclosing : e.closing = some .drain := h.closing.trans (if_pos hshut)
      refine ⟨[.leave w.index], _, TransitionSystem.exec_singleton
        (Executor.step_leave (h.idle rfl hidle hhere) (.inr ⟨hclosing, hempty⟩)), h.capacity,
        h.queue, h.running, h.closing, ?_, h.added⟩
      show Function.update e.gone w.index _ = _
      rw [h.gone]
      exact (update_here s.exited rfl _).symm
  · exact h.follows (.of_jobs rfl rfl) rfl (update_elsewhere s.exited hk _)

theorem Executes.step (hinv : e.Inv) (h : s.Executes k e) (hold : s.Oldest a)
    (hs : s.step a = some t) : Follows k e t := by
  cases a with
  | python th b =>
    obtain ⟨⟨-, hpython⟩, hs⟩ := Option.ite_none_right_eq_some.mp hs
    obtain ⟨world, hworld, rfl⟩ := Option.map_eq_some_iff.mp hs
    rcases World.step_python (k := k) hpython hworld with ⟨args, rfl⟩ | hsame
    · exact h.submit hinv hworld
    · exact h.follows hsame rfl rfl
  | close th k' =>
    obtain ⟨-, hs⟩ := Option.ite_none_right_eq_some.mp hs
    cases hs
    exact ⟨[], e, rfl, h.closePool th k'⟩
  | decrefCtx th k' =>
    obtain ⟨-, hs⟩ := Option.ite_none_right_eq_some.mp hs
    obtain ⟨world, hworld, rfl⟩ := Option.map_eq_some_iff.mp hs
    have hsame : SamePool k s.world world := by
      obtain ⟨-, hworld⟩ := Option.ite_none_right_eq_some.mp hworld
      cases hworld
      exact .of_jobs rfl rfl
    have hnext : (s.withWorld world).Executes k e := h.congr hsame rfl rfl
    exact ⟨[], e, rfl, hnext.deallocCtx th k'⟩
  | pop w j =>
    obtain ⟨⟨-, hidle, hhere, -⟩, hs⟩ := Option.ite_none_right_eq_some.mp hs
    obtain ⟨world, hworld, rfl⟩ := Option.map_eq_some_iff.mp hs
    exact h.pop hold hidle hhere hworld
  | work w b =>
    obtain ⟨⟨-, hsome, -⟩, hs⟩ := Option.ite_none_right_eq_some.mp hs
    obtain ⟨world, hworld, rfl⟩ := Option.map_eq_some_iff.mp hs
    obtain ⟨j, hj⟩ := Option.isSome_iff_exists.mp hsome
    obtain ⟨d, pc, hd, hpc, hpc', hjobs, hctxs⟩ := World.step_task (.inl hj) hworld
    exact h.follows (.of_set hd hjobs hctxs (.inr ⟨hpc, hpc'⟩)) rfl rfl
  | releaseCtx w =>
    obtain ⟨-, hs⟩ := Option.ite_none_left_eq_some.mp hs
    obtain ⟨j, -, hs⟩ := Option.bind_eq_some_iff.mp hs
    obtain ⟨b, -, hs⟩ := Option.bind_eq_some_iff.mp hs
    split at hs
    case h_1 k' _ _ _ =>
      obtain ⟨world, hworld, rfl⟩ := Option.map_eq_some_iff.mp hs
      obtain ⟨d, pc, hd, hpc, hpc', hjobs, hctxs⟩ := World.step_task (.inr rfl) hworld
      have hnext : (s.withWorld world).Executes k e :=
        h.congr (.of_set hd hjobs hctxs (.inr ⟨hpc, hpc'⟩)) rfl rfl
      exact ⟨[], e, rfl, hnext.deallocCtx (.worker w) k'⟩
    case h_2 => cases hs
  | leave w =>
    obtain ⟨-, hs⟩ := Option.ite_none_left_eq_some.mp hs
    obtain ⟨b, hb, hs⟩ := Option.bind_eq_some_iff.mp hs
    obtain ⟨j, hj, -⟩ := Option.bind_eq_some_iff.mp hb
    split at hs
    case h_1 =>
      cases hs
      exact h.leave hj
    case h_2 => cases hs
  | exit w =>
    obtain ⟨⟨-, hidle, hshut, hcount⟩, hs⟩ := Option.ite_none_right_eq_some.mp hs
    cases hs
    exact h.exit hidle hshut hcount
  | destroy i =>
    obtain ⟨d, -, hs⟩ := Option.bind_eq_some_iff.mp hs
    exact h.destroy hs

theorem exists_executes (h : system.ReachableBy Oldest s) (k : CtxId) :
    ∃ e, Executor.system.Reachable e ∧ s.Executes k e := by
  apply h.simulate (R := fun s e => s.Executes k e)
  · intro s hinit
    refine ⟨.empty (s.world.ctxs k).queueSize, ⟨_, rfl⟩, rfl, ?_, ?_, ?_, ?_, ?_⟩
    · rw [World.waiting, hinit.world.jobs]
      rfl
    · exact funext fun w => (hinit.running _).symm
    · rw [hinit.world.shutdown]
      rfl
    · exact funext fun w => (hinit.exited _).symm
    · rw [World.accepted, hinit.world.jobs]
      rfl
  · intro s a t e he hst hold hs
    exact hst.step (Executor.inv he) hold hs

/-- Where workers take the oldest tasks, every Context has an executor of its own. A call of
`submit` sees of it what `threadpool_add` goes by, and the tasks leave the queue in the order in
which they were accepted. -/
theorem pools_execute (h : system.ReachableBy Oldest s) (k : CtxId) :
    ∃ e, Executor.system.Reachable e ∧ s.Executes k e ∧
      s.world.threadpool k = ⟨e.capacity, e.queue.length, e.closing.isSome⟩ ∧
      e.taken.map Prod.snd ++ s.world.waiting k = s.world.accepted k := by
  obtain ⟨e, he, hexec⟩ := exists_executes h k
  refine ⟨e, he, hexec, ?_, ?_⟩
  · rw [World.threadpool, hexec.capacity, hexec.queue, World.length_waiting, hexec.closing]
    cases (s.world.ctxs k).shutdown <;> rfl
  · rw [← hexec.queue, ← hexec.added]
    exact (Executor.inv he).order

def twoContextsRun : List Action :=
  [.python (.main 0) (.submit 0 [.operation 7, .operation 8]),
    .python (.main 0) (.submit 1 [.operation 9]), .pop ⟨0, 0⟩ 0]

theorem pools_execute_two :
    ∃ s, system.exec new twoContextsRun = some s ∧
      ∃ e, Executor.system.Reachable e ∧ e.queue = [1] ∧ e.taken.map Prod.snd = [0] := by
  have hmeets : system.Meets Oldest new twoContextsRun := by decide +kernel
  have hrun : ((system.exec new twoContextsRun).any fun s =>
      decide (s.world.waiting 0 = [1] ∧ s.world.accepted 0 = [0, 1])) = true := by decide +kernel
  obtain ⟨s, hexec, hs⟩ := (Option.any_eq_true _ _).mp hrun
  obtain ⟨hwaiting, haccepted⟩ := of_decide_eq_true hs
  obtain ⟨e, he, h, -, horder⟩ := pools_execute (.exec (.init new_init) hmeets hexec) 0
  rw [hwaiting, haccepted] at horder
  exact ⟨s, hexec, e, he, h.queue.trans hwaiting, List.append_cancel_right horder⟩

end Process

end Caio.ThreadAio
