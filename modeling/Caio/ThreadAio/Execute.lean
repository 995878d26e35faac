import Caio.ThreadAio.Requests

namespace Caio.ThreadAio

/-- The fields that are final once `done` is set. -/
def AIOOperation.SameResult (op op' : AIOOperation) : Prop :=
  op'.done = op.done ∧ op'.result = op.result ∧ op'.error = op.error ∧ op'.bufSize = op.bufSize ∧
    op'.pyBuffer = op.pyBuffer

theorem AIOOperation.SameResult.refl (op : AIOOperation) : op.SameResult op :=
  ⟨rfl, rfl, rfl, rfl, rfl⟩

theorem AIOOperation.SameResult.trans {a b c : AIOOperation} (hab : a.SameResult b)
    (hbc : b.SameResult c) : a.SameResult c := by
  obtain ⟨hdone, hresult, herror, hsize, hbuffer⟩ := hab
  obtain ⟨hdone', hresult', herror', hsize', hbuffer'⟩ := hbc
  exact ⟨hdone'.trans hdone, hresult'.trans hresult, herror'.trans herror, hsize'.trans hsize,
    hbuffer'.trans hbuffer⟩

def JobPc.outcome? : JobPc → Option Outcome
  | .published _ o | .calling _ o _ => some o
  | .called _ o _ | .leaving _ o _ | .finished _ o _ => o
  | _ => none

theorem Job.Ok.completed {op : AIOOperation} {b : Job} {o : Outcome} (h : b.Ok op)
    (ho : b.pc.outcome? = some o) : op.Completed o := by
  rw [Job.Ok] at h
  cases hpc : b.pc with
  | queued | popped | taken _ _ | recorded _ _ =>
    rw [hpc] at ho
    cases ho
  | published ctx o' | calling ctx o' callback =>
    rw [hpc] at h ho
    cases ho
    exact h.2
  | called ctx o' callback | leaving k o' callback | finished k o' callback =>
    rw [hpc] at h ho
    exact h.2 o ho

namespace World

variable {s t : World} {j : ℕ} {b : Job} {p : OpPtr} {k : CtxId}

theorem Moves.sameResult {op op' : AIOOperation} {pc : JobPc} (h : Moves op b.pc op' pc)
    (hok : b.Ok op) (hdone : op.done = true) : op.SameResult op' := by
  rw [Job.Ok] at hok
  generalize b.pc = from' at h hok
  cases h with
  | pop | silent | invoke | returns | releaseCtx => exact .refl _
  | releaseOp => exact ⟨rfl, rfl, rfl, rfl, rfl⟩
  | take | noop => exact absurd (hok.2.symm.trans hdone) Bool.false_ne_true
  | syscall | publish => exact absurd (hok.2.1.symm.trans hdone) Bool.false_ne_true

theorem step_closed {a : Action} (hs : s.step a = some t) (hclosed : (s.ctxs k).pool = false) :
    (t.ctxs k).pool = false := by
  have hupdate : ∀ (k' : CtxId) (f : Context → Context), (k = k' → (f (s.ctxs k')).pool = false) →
      (Function.update s.ctxs k' (f (s.ctxs k')) k).pool = false := by
    intro k' f hf
    by_cases hk : k = k'
    · rw [← hk, Function.update_self, hk]
      exact hf hk
    · rw [Function.update_of_ne hk]
      exact hclosed
  rcases step_ctxs hs with heq | ⟨k', -, rfl⟩ | ⟨k', -, hpool, rfl⟩
  · rw [heq]
    exact hclosed
  · exact hupdate k' (fun ctx => { ctx with pool := false }) fun _ => rfl
  · exact hupdate k' (fun ctx => { ctx with shutdown := true }) fun _ => hpool

theorem exec_closed {as : List Action} (hexec : system.exec s as = some t)
    (hclosed : (s.ctxs k).pool = false) : (t.ctxs k).pool = false := by
  apply TransitionSystem.exec_invariant (I := fun u => (u.ctxs k).pool = false) ?_ hclosed hexec
  intro u a v _ hu hstep
  exact step_closed hstep hu

/-- Task `j` can be finished, by its own steps. -/
def Finishes (s : World) (j : ℕ) : Prop :=
  ∃ as t d k o callback, system.exec s as = some t ∧ t.jobs[j]? = some d ∧
    d.pc = .finished k o callback

theorem Finishes.step {a : Action} (hs : s.step a = some t) (h : t.Finishes j) : s.Finishes j := by
  obtain ⟨as, u, d, k, o, callback, hexec, hd, hpc⟩ := h
  exact ⟨a :: as, u, d, k, o, callback, (TransitionSystem.exec_cons hs).trans hexec, hd, hpc⟩

theorem onJob_eq {f : Job → Option World} (hb : s.jobs[j]? = some b) : s.onJob j f = f b := by
  rw [onJob, hb]
  rfl

theorem Finishes.goOn {a : Action} {pc : JobPc} {es : List Effect} {heap : Heap}
    (hb : s.jobs[j]? = some b) (hs : s.step a = some ((s.withHeap heap).setJob j b pc es))
    (hnext : ∀ t : World, t.heap = heap → t.jobs[j]? = some { b with pc } → t.Finishes j) :
    s.Finishes j :=
  Finishes.step hs (hnext _ rfl (Table.getElem?_set_self hb _))

variable {o : Outcome} {callback : Option Callback}

theorem finishes_of_leaving {o : Option Outcome} (hb : s.jobs[j]? = some b)
    (hpc : b.pc = .leaving k o callback) : s.Finishes j := by
  apply Finishes.goOn (a := .releaseOp j) hb
  · simp only [step, onJob_eq hb, hpc]
    rfl
  · intro t _ ht
    exact ⟨[], t, _, k, o, callback, rfl, ht, rfl⟩

theorem finishes_of_called {o : Option Outcome} (hb : s.jobs[j]? = some b)
    (hpc : b.pc = .called (some k) o callback) : s.Finishes j := by
  apply Finishes.goOn (a := .releaseCtx j) hb
  · simp only [step, onJob_eq hb, hpc]
    rfl
  · intro t _ ht
    exact finishes_of_leaving ht rfl

theorem finishes_of_calling {callback : Callback} (hb : s.jobs[j]? = some b)
    (hpc : b.pc = .calling (some k) o callback) : s.Finishes j := by
  apply Finishes.goOn (a := .callbackReturns j) hb
  · simp only [step, onJob_eq hb, hpc]
    rfl
  · intro t _ ht
    exact finishes_of_called ht rfl

theorem finishes_of_published (hb : s.jobs[j]? = some b) (hpc : b.pc = .published (some k) o) :
    s.Finishes j := by
  cases hcallback : (s.heap.ops b.op).callback with
  | none =>
    apply Finishes.goOn (a := .callback j) hb
    · simp only [step, onJob_eq hb, hpc, hcallback]
      rfl
    · intro t _ ht
      exact finishes_of_called ht rfl
  | some callback =>
    apply Finishes.goOn (a := .callback j) hb
    · simp only [step, onJob_eq hb, hpc, hcallback]
      rfl
    · intro t _ ht
      exact finishes_of_calling ht rfl

theorem finishes_of_recorded (hb : s.jobs[j]? = some b) (hpc : b.pc = .recorded (some k) o) :
    s.Finishes j := by
  apply Finishes.goOn (a := .publish j) hb
  · simp only [step, onJob_eq hb, hpc]
    rfl
  · intro t _ ht
    exact finishes_of_published ht rfl

theorem finishes_of_taken {call : AIOOperation.Syscall} (hb : s.jobs[j]? = some b)
    (hpc : b.pc = .taken (some k) call) : s.Finishes j := by
  apply Finishes.goOn (a := .syscall j 0 0) hb
  · simp only [step, onJob_eq hb, hpc]
    rfl
  · intro t _ ht
    exact finishes_of_recorded ht rfl

theorem finishes_of_popped (hb : s.jobs[j]? = some b) (hpc : b.pc = .popped)
    (hctx : (s.heap.ops b.op).ctx = some k) : s.Finishes j := by
  cases hcall : (s.heap.ops b.op).take.syscall with
  | none =>
    apply Finishes.goOn (a := .take j) hb
    · simp only [step, onJob_eq hb, hpc, hcall, hctx]
      rfl
    · intro t _ ht
      exact finishes_of_called ht rfl
  | some call =>
    apply Finishes.goOn (a := .take j) hb
    · simp only [step, onJob_eq hb, hpc, hcall, hctx]
      rfl
    · intro t _ ht
      exact finishes_of_taken ht rfl

theorem finishes_of_queued (hb : s.jobs[j]? = some b) (hpc : b.pc = .queued)
    (hctx : (s.heap.ops b.op).ctx = some k) : s.Finishes j := by
  apply Finishes.goOn (a := .pop j) hb
  · simp only [step, onJob_eq hb, hpc]
    rfl
  · intro t hheap ht
    apply finishes_of_popped ht rfl
    rw [hheap]
    exact hctx

theorem Inv.finishes (h : Inv s) (hb : s.jobs[j]? = some b) : s.Finishes j := by
  have hok := h.job j b hb
  rw [Job.Ok] at hok
  cases hpc : b.pc with
  | queued =>
    rw [hpc] at hok
    exact finishes_of_queued hb hpc hok.1
  | popped =>
    rw [hpc] at hok
    exact finishes_of_popped hb hpc hok.1
  | taken ctx call =>
    rw [hpc] at hok
    exact finishes_of_taken hb (hpc.trans (by rw [hok.1]))
  | recorded ctx o =>
    rw [hpc] at hok
    exact finishes_of_recorded hb (hpc.trans (by rw [hok.1]))
  | published ctx o =>
    rw [hpc] at hok
    exact finishes_of_published hb (hpc.trans (by rw [hok.1]))
  | calling ctx o callback =>
    rw [hpc] at hok
    exact finishes_of_calling hb (hpc.trans (by rw [hok.1]))
  | called ctx o callback =>
    rw [hpc] at hok
    exact finishes_of_called hb (hpc.trans (by rw [hok.1]))
  | leaving k o callback => exact finishes_of_leaving hb hpc
  | finished k o callback => exact ⟨[], s, b, k, o, callback, rfl, hb, hpc⟩

/-- Open Contexts with a queue of `queueSize`; Operation 6 is a write. -/
def new (queueSize : ℕ) : World where
  heap := ⟨fun p => if p = 6 then .write 48 2 3 40 else .fsync 3, fun _ => 1⟩
  ctxs := fun _ => { queueSize }
  opUsers := fun _ => 1
  ctxUsers := fun _ => 1
  jobs := []
  log := []

theorem new_ops (queueSize : ℕ) (P : AIOOperation → Prop) (hwrite : P (.write 48 2 3 40))
    (hfsync : P (.fsync 3)) (p : OpPtr) : P ((new queueSize).heap.ops p) := by
  show P (if p = 6 then .write 48 2 3 40 else .fsync 3)
  split_ifs
  · exact hwrite
  · exact hfsync

theorem new_init (queueSize : ℕ) : Init (new queueSize) :=
  ⟨new_ops queueSize (·.inProgress = false) rfl rfl, new_ops queueSize (·.done = false) rfl rfl,
    new_ops queueSize (·.ctx = none) rfl rfl, new_ops queueSize (·.refcnt = 1) rfl rfl,
    fun _ => rfl, fun _ => rfl, rfl, rfl⟩

end World

end Caio.ThreadAio
