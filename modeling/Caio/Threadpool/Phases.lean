import Caio.Lib.Counting
import Caio.Threadpool.Executor

namespace Caio.Threadpool

open Counting
open ThreadAio (ThreadpoolError)

variable {α : Type}

namespace Pool

structure Tally (s : Pool α) : Prop where
  threads : s.threadCount = s.workers.length
  started : s.started = s.workers.countP fun pc => !pc.hasLeft
  /-- Nobody has the pool before it is complete. -/
  missing : s.missing ≠ 0 → s.calls = [] ∧ s.shutdown = none ∧ s.added = []
  /-- A worker that is in a call runs a task. -/
  calls : ∀ c ∈ s.calls, c.pc.isReturned = false → ∀ w, c.thread = .worker w →
    ∃ task, s.workers[w]? = some (.running task)

variable {s t u : Pool α} {w i : ℕ} {pc pc' : WorkerPc α} {c : Call α} {a : Action α}

/-- What a step of a worker leaves as it is. -/
structure Aside (s t : Pool α) : Prop where
  calls : t.calls = s.calls
  shutdown : t.shutdown = s.shutdown
  threadCount : t.threadCount = s.threadCount
  missing : t.missing = s.missing
  freed : t.freed = s.freed
  added : t.added = s.added

theorem WorkerStep.aside (h : WorkerStep s w pc t) : Aside s t := by
  cases h <;> exact ⟨rfl, rfl, rfl, rfl, rfl, rfl⟩

theorem WorkerStep.workers (h : WorkerStep s w pc t) :
    ∃ pc', t.workers = s.workers.set w pc' := by
  cases h <;> exact ⟨_, rfl⟩

theorem WorkerStep.ne_exited (h : WorkerStep s w pc t) : pc ≠ .exited := by
  rintro rfl
  cases h with
  | acquire hpc => rcases hpc with hpc | hpc <;> cases hpc

theorem CallStep.not_returned (h : CallStep s i c t) : c.pc.isReturned = false := by
  cases h with
  | addLock hpc | full hpc | refuse hpc | accept hpc | addUnlock hpc | destroyLock hpc
  | destroyAgain hpc | shutdown hpc | destroyUnlock hpc | joinSelf hpc | join hpc | failed hpc
  | kept hpc | joined hpc | free hpc =>
    rw [hpc]
    rfl

/-- What a step of a call leaves as it is. -/
structure CallFrame (s : Pool α) (i : ℕ) (c : Call α) (t : Pool α) : Prop where
  calls : ∃ pc, t.calls = s.calls.set i { c with pc }
  workers : Roused s.workers t.workers
  threadCount : t.threadCount = s.threadCount
  started : t.started = s.started
  missing : t.missing = s.missing

theorem CallStep.frame (h : CallStep s i c t) : CallFrame s i c t := by
  cases h with
  | accept hpc hpush hopen hsignal =>
    rename_i task queue u woken
    obtain ⟨hu, hroused⟩ := signal_roused hsignal
    rw [hu]
    exact ⟨⟨_, rfl⟩, hroused, rfl, rfl, rfl⟩
  | shutdown => exact ⟨⟨_, rfl⟩, roused_wake _, rfl, rfl, rfl⟩
  | addLock | full | refuse | addUnlock | destroyLock | destroyAgain | destroyUnlock | joinSelf
  | join | failed | kept | joined | free => exact ⟨⟨_, rfl⟩, Roused.refl _, rfl, rfl, rfl⟩

theorem calling_of_mem {th : ThreadId} (hc : c ∈ s.calls) (hth : c.thread = th)
    (hpc : c.pc.isReturned = false) : s.calling th = true :=
  List.any_eq_true.mpr ⟨c, hc, decide_eq_true ⟨hth, hpc⟩⟩

theorem mayCall_cases {th : ThreadId} (h : s.mayCall th = true) :
    s.missing = 0 ∧ ∀ w, th = .worker w → ∃ task, s.workers[w]? = some (.running task) := by
  simp only [mayCall, Bool.and_eq_true, decide_eq_true_eq] at h
  obtain ⟨⟨hmissing, -⟩, hth⟩ := h
  refine ⟨hmissing, fun w heq => ?_⟩
  subst heq
  obtain ⟨pc, hw, hpc⟩ := (Option.any_eq_true _ _).mp hth
  cases pc with
  | running task => exact ⟨task, hw⟩
  | lock | locked | asleep | awake | unlock | leaving | exited => cases hpc

theorem WorkerStep.started (hw : s.workers[w]? = some pc) (h : WorkerStep s w pc t)
    (hs : s.started = s.workers.countP fun pc => !pc.hasLeft) :
    t.started = t.workers.countP fun pc => !pc.hasLeft := by
  have hkeep (pc' : WorkerPc α) (hpc' : pc'.hasLeft = pc.hasLeft) :
      s.started = (s.workers.set w pc').countP fun pc => !pc.hasLeft :=
    hs.trans (countP_set_of_eq hw (congrArg (!·) hpc')).symm
  cases h with
  | acquire hpc => exact hkeep .locked (by rcases hpc with rfl | rfl <;> rfl)
  | sleep => exact hkeep .asleep rfl
  | leave =>
    have hcount := countP_set hw .leaving fun pc => !pc.hasLeft
    rw [← hs] at hcount
    exact (Nat.eq_sub_of_add_eq hcount).symm
  | take => exact hkeep (.unlock _) rfl
  | unlock task => exact hkeep (.running task) rfl
  | finish => exact hkeep .lock rfl
  | exit => exact hkeep .exited rfl

theorem Tally.worker (h : s.Tally) (hw : s.workers[w]? = some pc) (hstep : WorkerStep s w pc t) :
    t.Tally := by
  obtain ⟨hcalls, hshut, hcount, hmissing, -, hadded⟩ := hstep.aside
  obtain ⟨pc', hworkers⟩ := hstep.workers
  refine ⟨?_, hstep.started hw h.started, ?_, fun c hc hpc v hv => ?_⟩
  · rw [hcount, hworkers, List.length_set]
    exact h.threads
  · rw [hmissing, hcalls, hshut, hadded]
    exact h.missing
  · rw [hcalls] at hc
    obtain ⟨task, hrunning⟩ := h.calls c hc hpc v hv
    by_cases hvw : v = w
    · subst hvw
      cases Option.some.inj (hw.symm.trans hrunning)
      -- a task in a call does not come to its end
      cases hstep with
      | acquire hpc => rcases hpc with hpc | hpc <;> cases hpc
      | finish _ hcalling => cases hcalling.symm.trans (calling_of_mem hc hv hpc)
    · rw [hworkers, List.getElem?_set_ne (Ne.symm hvw)]
      exact ⟨task, hrunning⟩

theorem Tally.call (h : s.Tally) (hc : s.calls[i]? = some c) (hstep : CallStep s i c t) :
    t.Tally := by
  obtain ⟨⟨pc, hcalls⟩, hroused, hcount, hstarted, hmissing⟩ := hstep.frame
  refine ⟨?_, ?_, fun hne => ?_, fun d hd hpc w hw => ?_⟩
  · rw [hcount, hroused.1]
    exact h.threads
  · rw [hstarted, hroused.countP _ rfl]
    exact h.started
  · have hnil := (h.missing (hmissing ▸ hne)).1
    rw [hnil] at hc
    cases hc
  · have hold : ∃ e ∈ s.calls, e.thread = d.thread ∧ e.pc.isReturned = false := by
      rw [hcalls] at hd
      rcases Table.mem_set_cases hd with rfl | ⟨j, -, hj⟩
      · exact ⟨c, List.mem_of_getElem? hc, rfl, hstep.not_returned⟩
      · exact ⟨d, List.mem_of_getElem? hj, rfl, hpc⟩
    obtain ⟨e, he, hth, hepc⟩ := hold
    obtain ⟨task, hrunning⟩ := h.calls e he hepc w (hth.trans hw)
    exact ⟨task, hroused.keeps hrunning fun heq => by cases heq⟩

theorem Tally.newCall (h : s.Tally) {th : ThreadId} (hmay : s.mayCall th = true) (pc : CallPc α) :
    (s.newCall th pc).Tally := by
  obtain ⟨hmissing, hrunning⟩ := mayCall_cases hmay
  refine ⟨h.threads, h.started, fun hne => absurd hmissing hne, fun d hd hpc w hw => ?_⟩
  rcases List.mem_append.mp hd with hd | hd
  · exact h.calls d hd hpc w hw
  · cases List.mem_singleton.mp hd
    exact hrunning w hw

theorem Tally.outer (h : s.Tally) (hstep : OuterStep s a t) : t.Tally := by
  cases hstep with
  | started hmissing =>
    rename_i n
    have hkeep := h.missing (hmissing ▸ Nat.succ_ne_zero n)
    refine ⟨?_, ?_, fun _ => hkeep, fun d hd => ?_⟩
    · rw [List.length_append, ← h.threads]
      rfl
    · rw [countP_append_one, ← h.started]
      rfl
    · have hd : d ∈ s.calls := hd
      rw [hkeep.1] at hd
      cases hd
  | unstarted hmissing =>
    rename_i n
    obtain ⟨hcalls, -⟩ := h.missing (hmissing ▸ Nat.succ_ne_zero n)
    refine ⟨h.threads, h.started, fun hne => absurd rfl hne, fun d hd _ w hw => ?_⟩
    have hd : d ∈ s.calls ++ [⟨.main 0, .destroyLock false⟩] := hd
    rw [hcalls] at hd
    cases List.mem_singleton.mp hd
    cases hw
  | add hmay => exact h.newCall hmay _
  | destroy hmay => exact h.newCall hmay _
  | spurious hw =>
    have hroused := roused_set hw
    refine ⟨?_, ?_, h.missing, fun d hd hpc v hv => ?_⟩
    · exact h.threads.trans hroused.1.symm
    · exact h.started.trans (hroused.countP _ rfl).symm
    · obtain ⟨task, hrunning⟩ := h.calls d hd hpc v hv
      exact ⟨task, hroused.keeps hrunning fun heq => by cases heq⟩

theorem tally (h : system.Reachable s) : s.Tally := by
  refine h.invariant ?_ fun s a t h _ hs => ?_
  · rintro s ⟨slots, threadCount, queueSize, hpos, -, rfl⟩
    exact ⟨rfl, rfl, fun _ => ⟨rfl, rfl, rfl⟩, fun d hd => absurd hd List.not_mem_nil⟩
  · rcases step_cases hs with ⟨w, pc, -, hw, hstep⟩ | ⟨i, c, woken, -, hc, hstep⟩ | hstep
    · exact h.worker hw hstep
    · exact h.call hc hstep
    · exact h.outer hstep

/-- What the users of the pool keep to: `threadpool_destroy` comes once, when every other call has
returned, and no call comes after it. -/
def Orderly (s : Pool α) : Action α → Prop
  | .add _ _ => s.shutdown = none ∧ ∀ c ∈ s.calls, c.pc.isDestroy = false
  | .destroy _ _ => s.shutdown = none ∧ ∀ c ∈ s.calls, c.pc.isReturned = true
  | _ => True

instance [DecidableEq α] (s : Pool α) : ∀ a, Decidable (Orderly s a)
  | .add _ _ | .destroy _ _ => inferInstanceAs (Decidable (_ ∧ _))
  | .create _ | .spurious _ | .worker _ | .call _ _ => isTrue trivial

/-- The threads below `n` that a call on thread `th` has joined; it cannot join itself. -/
def Joined (s : Pool α) (th : ThreadId) (n : ℕ) (err : Option ThreadpoolError) : Prop :=
  (err = none ∨ err = some .threadFailure ∧ ∃ w, th = .worker w) ∧
    ∀ v < n, s.workers[v]? = some .exited ∨ err ≠ none ∧ th = .worker v

/-- What a call of `threadpool_destroy` has reached. -/
def Closing (s : Pool α) (c : Call α) : Prop :=
  match c.pc with
  | .destroyLock graceful | .destroyBody graceful =>
    s.shutdown = none ∧ (graceful = true → s.workers ≠ [])
  | .destroyUnlock => s.shutdown ≠ none
  | .join n err => s.shutdown ≠ none ∧ s.Joined c.thread n err
  | .free => s.shutdown ≠ none ∧ ∀ pc ∈ s.workers, pc = .exited
  | _ => False

/-- The end of a pool: it is freed, or one of its own workers has tried to destroy it. -/
def Ended (s : Pool α) : Prop :=
  s.freed = 1 ∧ (∀ pc ∈ s.workers, pc = .exited) ∨
    s.freed = 0 ∧ ∃ c ∈ s.calls, c.pc = .returned (some .threadFailure) ∧ ∃ w, c.thread = .worker w

inductive Phase (s : Pool α) : Prop
  | opened (hopen : s.shutdown = none) (hfreed : s.freed = 0)
    (hsome : 0 < s.missing + s.workers.length) (hcalls : ∀ c ∈ s.calls, c.pc.isDestroy = false)
  | closing (i : ℕ) (c : Call α) (hc : s.calls[i]? = some c) (hclosing : s.Closing c)
    (hfreed : s.freed = 0)
    (hothers : ∀ j d, s.calls[j]? = some d → j ≠ i → d.pc.isReturned = true)
  | closed (hshut : s.shutdown ≠ none) (hcalls : ∀ c ∈ s.calls, c.pc.isReturned = true)
    (hended : s.Ended)

/-- A step that lets workers exit, but brings none back. -/
structure Quietens (s t : Pool α) : Prop where
  exited : ∀ w : ℕ, s.workers[w]? = some .exited → t.workers[w]? = some .exited
  length : t.workers.length = s.workers.length

theorem Quietens.all_exited (h : Quietens s t) (hall : ∀ pc ∈ s.workers, pc = .exited) :
    ∀ pc ∈ t.workers, pc = .exited := by
  intro pc hpc
  obtain ⟨w, hw⟩ := List.mem_iff_getElem?.mp hpc
  have hlt : w < s.workers.length := h.length ▸ Table.lt_length hw
  have hold := hall _ (List.getElem_mem hlt)
  have hexited := h.exited w ((List.getElem?_eq_getElem hlt).trans (congrArg some hold))
  exact Option.some.inj (hw.symm.trans hexited)

theorem Joined.mono (h : Quietens s t) {th : ThreadId} {n : ℕ} {err : Option ThreadpoolError}
    (hj : s.Joined th n err) : t.Joined th n err :=
  ⟨hj.1, fun v hv => (hj.2 v hv).imp_left (h.exited v)⟩

theorem Closing.mono (h : Quietens s t) (hshut : t.shutdown = s.shutdown) (hc : s.Closing c) :
    t.Closing c := by
  have hne : s.workers ≠ [] → t.workers ≠ [] := fun hne hnil => by
    have hlength := h.length
    rw [hnil] at hlength
    exact hne (List.length_eq_zero_iff.mp hlength.symm)
  unfold Closing at hc ⊢
  rw [hshut]
  split at hc
  · exact ⟨hc.1, fun hg => hne (hc.2 hg)⟩
  · exact ⟨hc.1, fun hg => hne (hc.2 hg)⟩
  · exact hc
  · exact ⟨hc.1, hc.2.mono h⟩
  · exact ⟨hc.1, h.all_exited hc.2⟩
  · exact hc

theorem Phase.mono (h : s.Phase) (hq : Quietens s t) (haside : Aside s t) : t.Phase := by
  obtain ⟨hcalls, hshut, -, hmissing, hfreed, -⟩ := haside
  cases h with
  | opened hopen hzero hsome hnone =>
    refine .opened (hshut.trans hopen) (hfreed.trans hzero) ?_ (hcalls ▸ hnone)
    rw [hmissing, hq.length]
    exact hsome
  | closing i c hc hclosing hzero hothers =>
    exact .closing i c (hcalls ▸ hc) (hclosing.mono hq hshut) (hfreed.trans hzero)
      (hcalls ▸ hothers)
  | closed hne hreturned hended =>
    refine .closed (hshut ▸ hne) (hcalls ▸ hreturned) ?_
    rcases hended with ⟨hone, hall⟩ | ⟨hzero, hfailed⟩
    · exact .inl ⟨hfreed.trans hone, hq.all_exited hall⟩
    · exact .inr ⟨hfreed.trans hzero, hcalls ▸ hfailed⟩

theorem WorkerStep.quietens (hw : s.workers[w]? = some pc) (h : WorkerStep s w pc t) :
    Quietens s t := by
  obtain ⟨pc', hworkers⟩ := h.workers
  refine ⟨fun v hv => ?_, hworkers ▸ List.length_set⟩
  -- an exited worker takes no step, so it is another one
  have hvw : v ≠ w := fun heq => h.ne_exited (Option.some.inj (hw.symm.trans (heq ▸ hv)))
  rw [hworkers, List.getElem?_set_ne (Ne.symm hvw)]
  exact hv

theorem Roused.quietens (h : Roused s.workers t.workers) : Quietens s t :=
  ⟨fun _ hw => h.keeps hw (by rintro ⟨⟩), h.1⟩

theorem Phase.add (hopen : s.shutdown = none) (hfreed : s.freed = 0)
    (hsome : 0 < s.missing + s.workers.length) (hcalls : ∀ c ∈ s.calls, c.pc.isDestroy = false)
    (hc : s.calls[i]? = some c) (h : CallStep s i c t) : t.Phase := by
  have hpc := hcalls c (List.mem_of_getElem? hc)
  have hset (pc : CallPc α) (hadd : pc.isDestroy = false) :
      ∀ d ∈ s.calls.set i { c with pc }, d.pc.isDestroy = false := by
    intro d hd
    rcases Table.mem_set_cases hd with rfl | ⟨j, -, hj⟩
    · exact hadd
    · exact hcalls d (List.mem_of_getElem? hj)
  cases h with
  | addLock | full | refuse | addUnlock => exact .opened hopen hfreed hsome (hset _ rfl)
  | accept hadd hpush _ hsignal =>
    obtain ⟨hu, hroused⟩ := signal_roused hsignal
    rw [hu]
    exact .opened hopen hfreed (hroused.1 ▸ hsome) (hset _ rfl)
  | destroyLock h | destroyAgain h | shutdown h | destroyUnlock h | joinSelf h | join h | failed h
  | kept h | joined h | free h =>
    rw [h] at hpc
    cases hpc

theorem Phase.goOn (hc : s.calls[i]? = some c) (hfreed : s.freed = 0)
    (hothers : ∀ j d, s.calls[j]? = some d → j ≠ i → d.pc.isReturned = true) {pc : CallPc α}
    (hcalls : t.calls = s.calls.set i { c with pc }) (hfreed' : t.freed = s.freed)
    (hclosing : t.Closing { c with pc }) : t.Phase := by
  refine .closing i { c with pc } ?_ hclosing (hfreed'.trans hfreed) fun j d hd hji => ?_
  · rw [hcalls]
    exact Table.getElem?_set_self hc _
  · rw [hcalls, List.getElem?_set_ne (Ne.symm hji)] at hd
    exact hothers j d hd hji

theorem Phase.finish (hothers : ∀ j d, s.calls[j]? = some d → j ≠ i → d.pc.isReturned = true)
    {err : Option ThreadpoolError} (hcalls : t.calls = s.calls.set i { c with pc := .returned err })
    (hshut : t.shutdown ≠ none) (hended : t.Ended) : t.Phase := by
  refine .closed hshut (fun d hd => ?_) hended
  rw [hcalls] at hd
  obtain ⟨j, hj⟩ := List.mem_iff_getElem?.mp hd
  rcases Table.getElem?_set_cases hj with ⟨-, rfl⟩ | ⟨hji, hj⟩
  · rfl
  · exact hothers j d hj hji

theorem Joined.all_exited (htally : s.Tally) {th : ThreadId} {n : ℕ} (hle : s.threadCount ≤ n)
    (h : s.Joined th n none) : ∀ pc ∈ s.workers, pc = .exited := by
  intro pc hpc
  obtain ⟨v, hv⟩ := List.mem_iff_getElem?.mp hpc
  have hlt : v < n := Nat.lt_of_lt_of_le (htally.threads ▸ Table.lt_length hv) hle
  rcases h.2 v hlt with hexited | ⟨hne, -⟩
  · exact Option.some.inj (hv.symm.trans hexited)
  · exact absurd rfl hne

theorem Closing.call (htally : s.Tally) (hc : s.calls[i]? = some c) (hclosing : s.Closing c)
    (hfreed : s.freed = 0) (hothers : ∀ j d, s.calls[j]? = some d → j ≠ i → d.pc.isReturned = true)
    (h : CallStep s i c t) : t.Phase := by
  cases h with
  | addLock hpc | full hpc | refuse hpc | accept hpc | addUnlock hpc =>
    rw [Closing, hpc] at hclosing
    exact hclosing.elim
  | destroyLock hpc hfree =>
    rw [Closing, hpc] at hclosing
    exact .goOn hc hfreed hothers rfl rfl hclosing
  | destroyAgain hpc hshut =>
    rw [Closing, hpc] at hclosing
    exact absurd hclosing.1 hshut
  | shutdown hpc hopen => exact .goOn hc hfreed hothers rfl rfl (Option.some_ne_none _)
  | destroyUnlock hpc =>
    rw [Closing, hpc] at hclosing
    exact .goOn hc hfreed hothers rfl rfl ⟨hclosing, .inl rfl, fun v hv => absurd hv v.not_lt_zero⟩
  | joinSelf hpc hlt hself =>
    rename_i w err
    rw [Closing, hpc] at hclosing
    obtain ⟨hshut, -, hjoined⟩ := hclosing
    refine .goOn hc hfreed hothers rfl rfl ⟨hshut, .inr ⟨rfl, w, hself⟩, fun v hv => ?_⟩
    rcases Nat.lt_succ_iff_lt_or_eq.mp hv with hv | rfl
    · exact (hjoined v hv).imp_right fun h => ⟨Option.some_ne_none _, h.2⟩
    · exact .inr ⟨Option.some_ne_none _, hself⟩
  | join hpc hlt hexited =>
    rename_i w err
    rw [Closing, hpc] at hclosing
    obtain ⟨hshut, herr, hjoined⟩ := hclosing
    refine .goOn hc hfreed hothers rfl rfl ⟨hshut, herr, fun v hv => ?_⟩
    rcases Nat.lt_succ_iff_lt_or_eq.mp hv with hv | rfl
    · exact hjoined v hv
    · exact .inl hexited
  | failed hpc hle =>
    rename_i w err
    rw [Closing, hpc] at hclosing
    obtain ⟨hshut, hnone | ⟨herr, hself⟩, -⟩ := hclosing
    · cases hnone
    · cases herr
      refine .finish hothers rfl hshut (.inr ⟨hfreed, ⟨c.thread, .returned _⟩, ?_, rfl, hself⟩)
      exact List.mem_of_getElem? (Table.getElem?_set_self hc _)
  | kept hpc hle hstarted =>
    rw [Closing, hpc] at hclosing
    have hall := hclosing.2.all_exited htally hle
    rw [htally.started, List.countP_pos_iff] at hstarted
    obtain ⟨pc, hmem, hstays⟩ := hstarted
    rw [hall pc hmem] at hstays
    cases hstays
  | joined hpc hle hstarted =>
    rw [Closing, hpc] at hclosing
    have hall := hclosing.2.all_exited htally hle
    exact .goOn hc hfreed hothers rfl rfl ⟨hclosing.1, hall⟩
  | free hpc hfree =>
    rw [Closing, hpc] at hclosing
    refine .finish hothers rfl hclosing.1 (.inl ⟨?_, hclosing.2⟩)
    show s.freed + 1 = 1
    rw [hfreed]

theorem Phase.call (h : s.Phase) (htally : s.Tally) (hc : s.calls[i]? = some c)
    (hstep : CallStep s i c t) : t.Phase := by
  cases h with
  | opened hopen hfreed hsome hcalls => exact .add hopen hfreed hsome hcalls hc hstep
  | closing j d hd hclosing hfreed hothers =>
    by_cases hij : i = j
    · subst hij
      cases hc.symm.trans hd
      exact hclosing.call htally hc hfreed hothers hstep
    · cases (hothers i c hc hij).symm.trans hstep.not_returned
  | closed _ hreturned _ =>
    cases (hreturned c (List.mem_of_getElem? hc)).symm.trans hstep.not_returned

theorem Phase.newDestroy (hopen : s.shutdown = none) (hfreed : s.freed = 0)
    (hcalls : ∀ c ∈ s.calls, c.pc.isReturned = true) (th : ThreadId) (graceful : Bool)
    (hsome : graceful = true → s.workers ≠ []) :
    (s.newCall th (.destroyLock graceful)).Phase := by
  refine .closing s.calls.length ⟨th, .destroyLock graceful⟩ (Table.getElem?_append_one _ _)
    ⟨hopen, hsome⟩ hfreed fun j d hd hj => ?_
  rcases Table.getElem?_append_one_cases hd with hd | ⟨heq, -⟩
  · exact hcalls d (List.mem_of_getElem? hd)
  · exact absurd heq hj

theorem Phase.freed_of_open (h : s.Phase) (hopen : s.shutdown = none) : s.freed = 0 := by
  cases h with
  | opened _ hfreed => exact hfreed
  | closing _ _ _ _ hfreed => exact hfreed
  | closed hshut => exact absurd hopen hshut

theorem Closing.isDestroy (h : s.Closing c) : c.pc.isDestroy = true := by
  unfold Closing at h
  split at h <;> first | exact h.elim | simp only [CallPc.isDestroy, *]

theorem Phase.of_open (h : s.Phase) (hopen : s.shutdown = none)
    (hcalls : ∀ c ∈ s.calls, c.pc.isDestroy = false) :
    s.freed = 0 ∧ 0 < s.missing + s.workers.length := by
  cases h with
  | opened _ hfreed hsome _ => exact ⟨hfreed, hsome⟩
  | closing i c hc hclosing =>
    cases (hcalls c (List.mem_of_getElem? hc)).symm.trans hclosing.isDestroy
  | closed hshut => exact absurd hopen hshut

theorem isDestroy_of_isReturned {pc : CallPc α} (h : pc.isReturned = true) :
    pc.isDestroy = false := by
  cases pc <;> first | rfl | cases h

theorem Phase.outer (h : s.Phase) (htally : s.Tally) (horderly : s.Orderly a)
    (hstep : OuterStep s a t) : t.Phase := by
  cases hstep with
  | started hmissing =>
    rename_i n
    obtain ⟨hcalls, hopen, -⟩ := htally.missing (hmissing ▸ Nat.succ_ne_zero n)
    have hnone : ∀ c ∈ s.calls, c.pc.isDestroy = false := by
      rw [hcalls]
      exact fun c hc => absurd hc List.not_mem_nil
    refine .opened hopen (h.freed_of_open hopen) ?_ hnone
    rw [List.length_append]
    exact Nat.succ_pos _
  | unstarted hmissing =>
    rename_i n
    obtain ⟨hcalls, hopen, -⟩ := htally.missing (hmissing ▸ Nat.succ_ne_zero n)
    refine Phase.newDestroy (s := { s with missing := 0 }) hopen (h.freed_of_open hopen) ?_ _ _
      fun hg => absurd hg Bool.false_ne_true
    show ∀ c ∈ s.calls, c.pc.isReturned = true
    rw [hcalls]
    exact fun c hc => absurd hc List.not_mem_nil
  | add hmay =>
    obtain ⟨hopen, hcalls⟩ := horderly
    obtain ⟨hfreed, hsome⟩ := h.of_open hopen hcalls
    refine .opened hopen hfreed hsome fun c hc => ?_
    rcases List.mem_append.mp hc with hc | hc
    · exact hcalls c hc
    · cases List.mem_singleton.mp hc
      rfl
  | destroy hmay =>
    obtain ⟨hopen, hcalls⟩ := horderly
    obtain ⟨hfreed, hsome⟩ := h.of_open hopen fun c hc =>
      isDestroy_of_isReturned (hcalls c hc)
    refine .newDestroy hopen hfreed hcalls _ _ fun _ hnil => ?_
    rw [(mayCall_cases hmay).1, hnil] at hsome
    cases hsome
  | spurious hw => exact h.mono (Roused.quietens (roused_set hw)) ⟨rfl, rfl, rfl, rfl, rfl, rfl⟩

theorem phase (h : system.ReachableBy Orderly s) : s.Phase := by
  refine h.invariant_with (fun _ hr => tally hr.reachable) ?_ fun s a t htally h hC hs => ?_
  · rintro s ⟨slots, threadCount, queueSize, hpos, hthreads, rfl⟩
    exact .opened rfl rfl (Nat.add_pos_left hthreads _) fun c hc => absurd hc List.not_mem_nil
  · rcases step_cases hs with ⟨w, pc, -, hw, hstep⟩ | ⟨i, c, woken, -, hc, hstep⟩ | hstep
    · exact h.mono (hstep.quietens hw) hstep.aside
    · exact h.call htally hc hstep
    · exact h.outer htally hC hstep

theorem Phase.destroyBody (h : s.Phase) (hc : s.calls[i]? = some c) {graceful : Bool}
    (hpc : c.pc = .destroyBody graceful) :
    s.shutdown = none ∧ (graceful = true → s.workers ≠ []) := by
  cases h with
  | opened _ _ _ hcalls =>
    have hdestroy := hcalls c (List.mem_of_getElem? hc)
    rw [hpc] at hdestroy
    cases hdestroy
  | closing j d hd hclosing _ hothers =>
    by_cases hij : i = j
    · subst hij
      cases hc.symm.trans hd
      rwa [Closing, hpc] at hclosing
    · have hreturned := hothers i c hc hij
      rw [hpc] at hreturned
      cases hreturned
  | closed _ hcalls =>
    have hreturned := hcalls c (List.mem_of_getElem? hc)
    rw [hpc] at hreturned
    cases hreturned

theorem length_pos_mono (hlength : t.workers.length = s.workers.length) (h : s.workers ≠ []) :
    t.workers ≠ [] := by
  rw [← List.length_pos_iff] at h ⊢
  rwa [hlength]

theorem manned (h : system.ReachableBy Orderly s) :
    s.shutdown = some .graceful → s.workers ≠ [] := by
  refine h.invariant_with (I := fun s => s.shutdown = some .graceful → s.workers ≠ [])
    (fun _ hr => phase hr) ?_ fun s a t hphase h _ hs => ?_
  · rintro s ⟨slots, threadCount, queueSize, hpos, -, rfl⟩ hg
    cases hg
  · rcases step_cases hs with ⟨w, pc, -, hw, hstep⟩ | ⟨i, c, woken, -, hc, hstep⟩ | hstep
    · rw [hstep.aside.shutdown]
      exact fun hg => length_pos_mono (hstep.quietens hw).length (h hg)
    · intro hg
      refine length_pos_mono hstep.frame.workers.1 ?_
      cases hstep with
      | shutdown hpc hopen =>
        rename_i graceful
        refine (hphase.destroyBody hc hpc).2 ?_
        cases graceful
        · cases hg
        · rfl
      | accept hpc hpush hopen hsignal =>
        obtain ⟨hu, -⟩ := signal_roused hsignal
        rw [hu] at hg
        exact h hg
      | addLock | full | refuse | addUnlock | destroyLock | destroyAgain | destroyUnlock | joinSelf
      | join | failed | kept | joined | free => exact h hg
    · intro hg
      cases hstep with
      | started => exact List.append_ne_nil_of_right_ne_nil _ (List.cons_ne_nil _ _)
      | unstarted | add | destroy => exact h hg
      | spurious hw => exact length_pos_mono (roused_set hw).1 (h hg)

theorem quiet_of_freed (htally : s.Tally) (hshut : s.shutdown ≠ none)
    (hreturned : ∀ c ∈ s.calls, c.pc.isReturned = true) (hall : ∀ pc ∈ s.workers, pc = .exited)
    (horderly : s.Orderly a) : s.step a ≠ some t := by
  intro hs
  rcases step_cases hs with ⟨w, pc, -, hw, hstep⟩ | ⟨i, c, woken, -, hc, hstep⟩ | hstep
  · exact hstep.ne_exited (hall pc (List.mem_of_getElem? hw))
  · cases (hreturned c (List.mem_of_getElem? hc)).symm.trans hstep.not_returned
  · cases hstep with
    | started hmissing | unstarted hmissing =>
      exact hshut (htally.missing (hmissing ▸ Nat.succ_ne_zero _)).2.1
    | add | destroy => exact hshut horderly.1
    | spurious hw => cases hall _ (List.mem_of_getElem? hw)

/-- A pool is freed at most once, when all its threads have exited and every call has returned, and
nothing happens to it afterwards. -/
theorem freed_safe (h : system.ReachableBy Orderly s) :
    s.freed ≤ 1 ∧ (s.freed = 1 → (∀ pc ∈ s.workers, pc = .exited) ∧
      (∀ c ∈ s.calls, c.pc.isReturned = true) ∧ ∀ a, s.Orderly a → s.step a = none) := by
  cases phase h with
  | opened _ hfreed | closing _ _ _ _ hfreed =>
    rw [hfreed]
    exact ⟨Nat.zero_le 1, fun heq => absurd heq Nat.zero_ne_one⟩
  | closed hshut hreturned hended =>
    rcases hended with ⟨hone, hall⟩ | ⟨hzero, -⟩
    · refine ⟨Nat.le_of_eq hone, fun _ => ⟨hall, hreturned, fun a horderly => ?_⟩⟩
      rw [Option.eq_none_iff_forall_ne_some]
      exact fun t => quiet_of_freed (tally h.reachable) hshut hreturned hall horderly
    · rw [hzero]
      exact ⟨Nat.zero_le 1, fun heq => absurd heq Nat.zero_ne_one⟩

/-- A task is accepted before the pool is shut down, and run to its end. -/
def drainRun : List (Action ℕ) :=
  [.create true, .add (.main 0) 7, .call 0 none, .call 0 none, .call 0 none,
    .destroy (.main 1) true, .call 1 none, .call 1 none, .call 1 none, .worker 0, .worker 0,
    .worker 0, .worker 0, .worker 0, .worker 0, .worker 0, .call 1 none, .call 1 none, .call 1 none]

theorem drainRun_meets : system.Meets Orderly small drainRun := by decide +kernel

theorem freed_safe_drained :
    ∃ s, system.exec small drainRun = some s ∧ s.freed = 1 ∧ s.finished = [(0, 7)] ∧
      ∀ a, s.Orderly a → s.step a = none := by
  have hrun : ((system.exec small drainRun).any fun s =>
      decide (s.freed = 1 ∧ s.finished = [(0, 7)])) = true := by decide +kernel
  obtain ⟨s, hexec, hs⟩ := (Option.any_eq_true _ _).mp hrun
  obtain ⟨hfreed, hfinished⟩ := of_decide_eq_true hs
  have hsafe := freed_safe (.exec (.init small_init) drainRun_meets hexec)
  exact ⟨s, hexec, hfreed, hfinished, (hsafe.2 hfreed).2.2⟩

end Pool

end Caio.Threadpool
