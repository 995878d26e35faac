import Caio.Lib.Counting
import Caio.Lib.Table
import Caio.ThreadAio.World

/-!
# Tasks and what they hold

An Operation in progress has one task. The task has its references until it releases them, and what
it has done is what its place in `worker` says.
-/

namespace Caio.ThreadAio

open Counting

/-! ## Places -/

namespace JobPc

def ran (o : Option Outcome) (callback : Option Callback) : List Effect :=
  .pop :: match o with
    | none => []
    | some o => .syscall o.call :: .publish :: callback.toList.map (.invoke · o.result)

def effects : JobPc → List Effect
  | .queued => []
  | .popped | .taken _ _ => [.pop]
  | .recorded _ o => [.pop, .syscall o.call]
  | .published _ o => ran (some o) none
  | .calling _ o callback => ran (some o) (some callback)
  | .called _ o callback => ran o callback
  | .leaving k o callback => ran o callback ++ [.releaseCtx k]
  | .finished k o callback => ran o callback ++ [.releaseCtx k, .releaseOp]

def holdsOp : JobPc → Bool
  | .finished _ _ _ => false
  | _ => true

def holdsCtx : JobPc → Bool
  | .leaving _ _ _ | .finished _ _ _ => false
  | _ => true

end JobPc

def Job.isOn (p : OpPtr) (b : Job) : Bool := b.op = p

def Job.holdsOp (p : OpPtr) (b : Job) : Bool := b.op = p && b.pc.holdsOp

def Job.holdsCtx (k : CtxId) (b : Job) : Bool := b.ctx = k && b.pc.holdsCtx

def AIOOperation.Recorded (op : AIOOperation) (o : Outcome) : Prop :=
  op.result = o.result ∧
    op.error = (if o.result < 0 then UInt8.ofInt o.errno.toInt else 0) ∧
    (op.opcode = .read → op.bufSize = o.result.toInt)

def AIOOperation.Completed (op : AIOOperation) (o : Outcome) : Prop :=
  op.done = true ∧ op.Recorded o ∧ (op.opcode = .write → op.pyBuffer = none)

/-- A task knows its Context, and its Operation shows how far the task is. -/
def Job.Ok (op : AIOOperation) (b : Job) : Prop :=
  match b.pc with
  | .queued | .popped => op.ctx = some b.ctx ∧ op.done = false
  | .taken ctx _ => ctx = some b.ctx ∧ op.done = false ∧ op.error = 0
  | .recorded ctx o => ctx = some b.ctx ∧ op.done = false ∧ op.Recorded o
  | .published ctx o | .calling ctx o _ => ctx = some b.ctx ∧ op.Completed o
  | .called ctx o _ => ctx = some b.ctx ∧ ∀ o', o = some o' → op.Completed o'
  | .leaving k o _ | .finished k o _ => k = b.ctx ∧ ∀ o', o = some o' → op.Completed o'

namespace World

variable {s t : World} {i j : ℕ} {b d : Job} {p : OpPtr} {k : CtxId}

structure Inv (s : World) : Prop where
  claims : ∀ p, s.jobs.countP (·.isOn p) = (s.heap.ops p).inProgress.toNat
  opRefs : ∀ p, (s.heap.ops p).refcnt = s.opUsers p + s.jobs.countP (·.holdsOp p)
  ctxRefs : ∀ k, s.heap.ctxRefs k = s.ctxUsers k + s.jobs.countP (·.holdsCtx k)
  clean : s.heap.Clean
  fresh : ∀ p, (s.heap.ops p).inProgress = false → (s.heap.ops p).done = false
  closed : ∀ k, (s.ctxs k).shutdown = true → (s.ctxs k).pool = false
  job : ∀ (j : ℕ) (b : Job), s.jobs[j]? = some b → b.Ok (s.heap.ops b.op)
  born : ∀ e ∈ s.log, e.1 < s.jobs.length
  effects : ∀ (j : ℕ) (b : Job), s.jobs[j]? = some b → Journal.entries s.log j = b.pc.effects

theorem Init.inv (h : Init s) : Inv s := by
  have hnone : ∀ j : ℕ, s.jobs[j]? = none := fun j => by
    rw [h.jobs]
    exact List.getElem?_nil
  refine ⟨fun p => ?_, fun p => ?_, fun k => ?_, fun p _ => h.ctx p, fun p _ => h.done p,
    fun k hk => ?_, fun j b hb => ?_, fun e he => ?_, fun j b hb => ?_⟩
  · rw [h.jobs, h.inProgress]
    rfl
  · rw [h.jobs, h.opRefs]
    rfl
  · rw [h.jobs, h.ctxRefs]
    rfl
  · rw [h.shutdown] at hk
    cases hk
  · rw [hnone] at hb
    cases hb
  · rw [h.log] at he
    cases he
  · rw [hnone] at hb
    cases hb

/-! ## One task goes on -/

theorem onJob_eq_some {f : Job → Option World} (h : s.onJob j f = some t) :
    ∃ b, s.jobs[j]? = some b ∧ f b = some t := Option.bind_eq_some_iff.mp h

theorem Inv.inProgress (h : Inv s) (hb : s.jobs[j]? = some b) :
    (s.heap.ops b.op).inProgress = true := by
  have hclaims := h.claims b.op
  have hpos : 0 < s.jobs.countP (·.isOn b.op) := countP_pos_of_getElem? hb (decide_eq_true rfl)
  cases hp : (s.heap.ops b.op).inProgress with
  | true => rfl
  | false =>
    rw [hp, Bool.toNat_false] at hclaims
    omega

theorem Inv.ne_op (h : Inv s) (hb : s.jobs[j]? = some b) (hd : s.jobs[i]? = some d) (hij : i ≠ j) :
    d.op ≠ b.op := by
  intro heq
  have hle : s.jobs.countP (·.isOn b.op) ≤ 1 := by
    rw [h.claims]
    exact Bool.toNat_le _
  exact hij (eq_of_countP_le_one hle hd hb (decide_eq_true heq) (decide_eq_true rfl))

theorem Inv.setJob (h : Inv s) (hb : s.jobs[j]? = some b) (heap : Heap) (pc : JobPc)
    (es : List Effect) (hops : ∀ p, p ≠ b.op → heap.ops p = s.heap.ops p)
    (hprogress : (heap.ops b.op).inProgress = (s.heap.ops b.op).inProgress)
    (hok : Job.Ok (heap.ops b.op) { b with pc })
    (hopRefs : (heap.ops b.op).refcnt + b.pc.holdsOp.toNat =
      (s.heap.ops b.op).refcnt + pc.holdsOp.toNat)
    (hctxRefs : ∀ k, heap.ctxRefs k + (b.holdsCtx k).toNat =
      s.heap.ctxRefs k + ({ b with pc : Job }.holdsCtx k).toNat)
    (heffects : pc.effects = b.pc.effects ++ es) : Inv ((s.withHeap heap).setJob j b pc es) := by
  have hactive := h.inProgress hb
  -- a free Operation is not this task's, which its claim keeps in progress
  have hfree : ∀ q, (heap.ops q).inProgress = false → q ≠ b.op := by
    intro q hq heq
    rw [heq, hprogress, hactive] at hq
    cases hq
  refine ⟨fun q => ?_, fun q => ?_, fun k => ?_, fun q hq => ?_, fun q hq => ?_, h.closed,
    fun i d hd => ?_, fun e he => ?_, fun i d hd => ?_⟩
  · show (s.jobs.set j { b with pc }).countP (·.isOn q) = (heap.ops q).inProgress.toNat
    have hsame : (s.jobs.set j { b with pc }).countP (·.isOn q) = s.jobs.countP (·.isOn q) :=
      countP_set_of_eq hb rfl
    rw [hsame, h.claims]
    by_cases hq : q = b.op
    · rw [hq, hprogress]
    · rw [hops q hq]
  · show (heap.ops q).refcnt = s.opUsers q + (s.jobs.set j { b with pc }).countP (·.holdsOp q)
    have hset := countP_set hb { b with pc } (·.holdsOp q)
    have hrefs := h.opRefs q
    by_cases hq : q = b.op
    · subst hq
      have hself : ∀ pc, Job.holdsOp b.op { b with pc } = pc.holdsOp := fun pc => by
        rw [Job.holdsOp, decide_eq_true rfl, Bool.true_and]
      have hold : b.holdsOp b.op = b.pc.holdsOp := hself b.pc
      rw [hold, hself] at hset
      omega
    · have hother : ∀ pc, Job.holdsOp q { b with pc } = false := fun pc => by
        rw [Job.holdsOp, decide_eq_false (Ne.symm hq), Bool.false_and]
      have hold : b.holdsOp q = false := hother b.pc
      rw [hold, hother] at hset
      rw [hops q hq]
      omega
  · show heap.ctxRefs k = s.ctxUsers k + (s.jobs.set j { b with pc }).countP (·.holdsCtx k)
    have hset := countP_set hb { b with pc } (·.holdsCtx k)
    have hrefs := h.ctxRefs k
    have hmoved := hctxRefs k
    omega
  · have hne := hfree q hq
    show (heap.ops q).ctx = none
    rw [hops q hne]
    apply h.clean
    rw [← hops q hne]
    exact hq
  · have hne := hfree q hq
    show (heap.ops q).done = false
    rw [hops q hne]
    apply h.fresh
    rw [← hops q hne]
    exact hq
  · rcases Table.getElem?_set_cases hd with ⟨-, rfl⟩ | ⟨hij, hd⟩
    · exact hok
    · show d.Ok (heap.ops d.op)
      rw [hops d.op (h.ne_op hb hd hij)]
      exact h.job i d hd
  · show e.1 < (s.jobs.set j { b with pc }).length
    rw [List.length_set]
    rcases List.mem_append.mp he with he | he
    · exact h.born e he
    · obtain ⟨x, -, rfl⟩ := List.mem_map.mp he
      exact Table.lt_length hb
  · rcases Table.getElem?_set_cases hd with ⟨rfl, rfl⟩ | ⟨hij, hd⟩
    · show Journal.entries (Journal.write s.log i es) i = pc.effects
      rw [Journal.entries_write_self, h.effects i b hb, heffects]
    · show Journal.entries (Journal.write s.log j es) i = d.pc.effects
      rw [Journal.entries_write_ne _ _ _ hij]
      exact h.effects i d hd

theorem Inv.setPc {from' : JobPc} (h : Inv s) (hb : s.jobs[j]? = some b) (hpc : b.pc = from')
    (pc : JobPc) (es : List Effect) (hok : Job.Ok (s.heap.ops b.op) { b with pc })
    (hop : pc.holdsOp = from'.holdsOp) (hctx : pc.holdsCtx = from'.holdsCtx)
    (heffects : pc.effects = from'.effects ++ es) : Inv (s.setJob j b pc es) := by
  subst hpc
  apply h.setJob hb s.heap pc es (fun _ _ => rfl) rfl hok
  · rw [hop]
  · intro k
    rw [Job.holdsCtx, Job.holdsCtx, hctx]
  · exact heffects

theorem Inv.setOp {from' : JobPc} (h : Inv s) (hb : s.jobs[j]? = some b) (hpc : b.pc = from')
    (f : AIOOperation → AIOOperation) (pc : JobPc) (es : List Effect)
    (hprogress : ∀ op, (f op).inProgress = op.inProgress)
    (hok : Job.Ok (f (s.heap.ops b.op)) { b with pc })
    (hrefs : (f (s.heap.ops b.op)).refcnt + from'.holdsOp.toNat =
      (s.heap.ops b.op).refcnt + pc.holdsOp.toNat)
    (hctx : pc.holdsCtx = from'.holdsCtx) (heffects : pc.effects = from'.effects ++ es) :
    Inv ((s.withHeap (s.heap.modify b.op f)).setJob j b pc es) := by
  subst hpc
  have hself : (s.heap.modify b.op f).ops b.op = f (s.heap.ops b.op) := Function.update_self ..
  apply h.setJob hb (s.heap.modify b.op f) pc es
  · intro p hp
    exact Function.update_of_ne hp ..
  · rw [hself, hprogress]
  · rw [hself]
    exact hok
  · rw [hself]
    exact hrefs
  · intro k
    rw [Job.holdsCtx, Job.holdsCtx, hctx]
    rfl
  · exact heffects

/-! ## Steps -/

theorem complete_syscall {op : AIOOperation} {call : AIOOperation.Syscall} (result errno : Int32)
    (herror : op.error = 0) : (op.record result errno).Recorded ⟨call, result, errno⟩ := by
  refine ⟨rfl, ?_, ?_⟩
  · show (if result < 0 then UInt8.ofInt errno.toInt else op.error) = _
    rw [herror]
  · intro hread
    exact if_pos hread

theorem complete_publish {op : AIOOperation} {o : Outcome} (h : op.Recorded o) :
    op.publish.Completed o := by
  refine ⟨rfl, h, ?_⟩
  intro hwrite
  exact if_pos hwrite

/-- A call of `submit` claims the Operations that it queues, each of them free, and gives each a
task at the end of the list. -/
structure Queues (s t : World) (k : CtxId) (queued : List OpPtr) : Prop where
  nodup : queued.Nodup
  free : ∀ p ∈ queued, (s.heap.ops p).inProgress = false
  ops : ∀ p, t.heap.ops p = if p ∈ queued then (s.heap.ops p).claimed k else s.heap.ops p
  ctxRefs : ∀ k', t.heap.ctxRefs k' = s.heap.ctxRefs k' + if k' = k then queued.length else 0
  jobs : t.jobs = s.jobs ++ queued.map fun p => { ctx := k, op := p }
  rest : t.opUsers = s.opUsers ∧ t.ctxUsers = s.ctxUsers ∧ t.ctxs = s.ctxs ∧ t.log = s.log

theorem submit_queues {args : List Arg} (hclean : s.heap.Clean)
    (hs : s.step (.submit k args) = some t) : ∃ queued, Queues s t k queued := by
  cases hs
  obtain ⟨hnodup, hmem, hops, hrefs⟩ := submit_spec k (s.pool k) args hclean
  exact ⟨(s.submitted k args).queued, hnodup, hmem, hops, hrefs, rfl, rfl, rfl, rfl, rfl⟩

namespace Queues

variable {queued : List OpPtr}

theorem job_cases (h : Queues s t k queued) (hb : t.jobs[j]? = some b) :
    s.jobs[j]? = some b ∨ s.jobs.length ≤ j ∧ b.ctx = k ∧ b.op ∈ queued ∧ b.pc = .queued := by
  rw [h.jobs, List.getElem?_append] at hb
  split_ifs at hb with hlt
  · exact .inl hb
  · obtain ⟨p, hp, rfl⟩ := List.mem_map.mp (List.mem_of_getElem? hb)
    exact .inr ⟨Nat.le_of_not_lt hlt, rfl, hp, rfl⟩

theorem countP_jobs (h : Queues s t k queued) (f : Job → Bool) :
    t.jobs.countP f = s.jobs.countP f + queued.countP fun p => f { ctx := k, op := p } := by
  rw [h.jobs, List.countP_append, List.countP_map]
  rfl

theorem countP_eq (h : Queues s t k queued) (p : OpPtr) :
    (queued.countP fun q => decide (q = p)) = if p ∈ queued then 1 else 0 := by
  have hcongr : (queued.countP fun q => decide (q = p)) = queued.count p :=
    List.countP_congr fun q _ => decide_eq_true_iff.trans beq_iff_eq.symm
  rw [hcongr]
  split_ifs with hp
  · exact List.count_eq_one_of_mem h.nodup hp
  · exact List.count_eq_zero.mpr hp

theorem ops_of_free (h : Queues s t k queued) (hfree : (t.heap.ops p).inProgress = false) :
    t.heap.ops p = s.heap.ops p := by
  rw [h.ops] at hfree ⊢
  split_ifs at hfree ⊢
  · cases hfree
  · rfl

theorem ops_of_active (h : Queues s t k queued) (hactive : (s.heap.ops p).inProgress = true) :
    t.heap.ops p = s.heap.ops p := by
  rw [h.ops, if_neg fun hp => Bool.false_ne_true ((h.free p hp).symm.trans hactive)]

end Queues

theorem Inv.submit (h : Inv s) {args : List Arg} (hs : s.step (.submit k args) = some t) :
    Inv t := by
  obtain ⟨queued, hq⟩ := submit_queues h.clean hs
  obtain ⟨hopUsers, hctxUsers, hctxs, hlog⟩ := hq.rest
  refine ⟨fun p => ?_, fun p => ?_, fun k' => ?_, fun p hp => ?_, fun p hp => ?_, fun k' => ?_,
    fun j b hb => ?_, fun e he => ?_, fun j b hb => ?_⟩
  · rw [hq.countP_jobs, h.claims, hq.ops]
    show _ + (queued.countP fun q => decide (q = p)) = _
    rw [hq.countP_eq]
    split_ifs with hp
    · rw [hq.free p hp]
      rfl
    · rfl
  · rw [hq.countP_jobs, hq.ops, hopUsers]
    have hholds : (queued.countP fun q => Job.holdsOp p { ctx := k, op := q }) =
        queued.countP fun q => decide (q = p) := by
      apply List.countP_congr
      intro q _
      rw [show Job.holdsOp p { ctx := k, op := q } = decide (q = p) from Bool.and_true _]
    have hold := h.opRefs p
    rw [hholds, hq.countP_eq]
    split_ifs with hp
    · show (s.heap.ops p).refcnt + 1 = _
      omega
    · exact hold
  · rw [hq.countP_jobs, hq.ctxRefs, hctxUsers, h.ctxRefs, Nat.add_assoc]
    have hholds : ∀ q, Job.holdsCtx k' { ctx := k, op := q } = decide (k = k') :=
      fun q => Bool.and_true _
    congr 2
    split_ifs with hk
    · apply (List.countP_eq_length.mpr ?_).symm
      intro q _
      rw [hholds]
      exact decide_eq_true hk.symm
    · apply (List.countP_eq_zero.mpr ?_).symm
      intro q _ hq
      rw [hholds] at hq
      exact hk (of_decide_eq_true hq).symm
  · have hsame := hq.ops_of_free hp
    rw [hsame] at hp ⊢
    exact h.clean p hp
  · have hsame := hq.ops_of_free hp
    rw [hsame] at hp ⊢
    exact h.fresh p hp
  · rw [hctxs]
    exact h.closed k'
  · rcases hq.job_cases hb with hb | ⟨-, hctx, hqueued, hpc⟩
    · rw [hq.ops_of_active (h.inProgress hb)]
      exact h.job j b hb
    · rw [hq.ops, if_pos hqueued, Job.Ok, hpc]
      exact ⟨congrArg some hctx.symm, h.fresh b.op (hq.free b.op hqueued)⟩
  · rw [hq.jobs, List.length_append]
    rw [hlog] at he
    exact Nat.lt_add_right _ (h.born e he)
  · rw [hlog]
    rcases hq.job_cases hb with hb | ⟨hlt, -, -, hpc⟩
    · exact h.effects j b hb
    · rw [hpc]
      exact Journal.entries_eq_nil _ _ fun e he => Nat.lt_of_lt_of_le (h.born e he) hlt

theorem Inv.modify (h : Inv s) (q : OpPtr) {f : AIOOperation → AIOOperation} {opUsers : OpPtr → ℕ}
    (hprogress : ∀ op, (f op).inProgress = op.inProgress) (hctx : ∀ op, (f op).ctx = op.ctx)
    (hdone : ∀ op, (f op).done = op.done) (hok : ∀ op (b : Job), b.Ok op → b.Ok (f op))
    (hrefs : ∀ p, ((s.heap.modify q f).ops p).refcnt =
      opUsers p + s.jobs.countP (·.holdsOp p)) :
    Inv { s with heap := s.heap.modify q f, opUsers } := by
  have hsame : ∀ p, ((s.heap.modify q f).ops p).inProgress = (s.heap.ops p).inProgress := by
    intro p
    rw [Heap.modify_ops]
    split_ifs
    · exact hprogress _
    · rfl
  refine ⟨fun p => (h.claims p).trans (congrArg Bool.toNat (hsame p).symm), hrefs, h.ctxRefs,
    fun p hp => ?_, fun p hp => ?_, h.closed, fun j b hb => ?_, h.born, h.effects⟩
  · have hctx' := h.clean p ((hsame p).symm.trans hp)
    rw [Heap.modify_ops]
    split_ifs
    · exact (hctx _).trans hctx'
    · exact hctx'
  · have hdone' := h.fresh p ((hsame p).symm.trans hp)
    show ((s.heap.modify q f).ops p).done = false
    rw [Heap.modify_ops]
    split_ifs
    · exact (hdone _).trans hdone'
    · exact hdone'
  · show b.Ok ((s.heap.modify q f).ops b.op)
    rw [Heap.modify_ops]
    split_ifs
    · exact hok _ b (h.job j b hb)
    · exact h.job j b hb

theorem Inv.refs (h : Inv s) (q : OpPtr) (g : ℕ → ℕ)
    (hg : g (s.heap.ops q).refcnt = g (s.opUsers q) + s.jobs.countP (·.holdsOp q)) :
    Inv { s with
      heap := s.heap.modify q fun op => { op with refcnt := g op.refcnt }
      opUsers := Function.update s.opUsers q (g (s.opUsers q)) } := by
  refine h.modify q (fun _ => rfl) (fun _ => rfl) (fun _ => rfl) (fun _ _ => id) fun p => ?_
  rw [Heap.modify_ops]
  by_cases hp : p = q
  · rw [if_pos hp, hp, Function.update_self]
    exact hg
  · rw [if_neg hp, Function.update_of_ne hp]
    exact h.opRefs p

theorem Inv.ctxs (h : Inv s) (k : CtxId) (g : ℕ → ℕ)
    (hg : g (s.heap.ctxRefs k) = g (s.ctxUsers k) + s.jobs.countP (·.holdsCtx k)) :
    Inv { s with
      heap := { s.heap with ctxRefs := Function.update s.heap.ctxRefs k (g (s.heap.ctxRefs k)) }
      ctxUsers := Function.update s.ctxUsers k (g (s.ctxUsers k)) } := by
  refine ⟨h.claims, h.opRefs, fun k' => ?_, h.clean, h.fresh, h.closed, h.job, h.born, h.effects⟩
  show Function.update s.heap.ctxRefs k (g (s.heap.ctxRefs k)) k' =
    Function.update s.ctxUsers k (g (s.ctxUsers k)) k' + s.jobs.countP (·.holdsCtx k')
  by_cases hk : k' = k
  · rw [hk, Function.update_self, Function.update_self]
    exact hg
  · rw [Function.update_of_ne hk, Function.update_of_ne hk]
    exact h.ctxRefs k'

theorem Inv.modifyCtx (h : Inv s) (k : CtxId) {f : Context → Context}
    (hf : (f (s.ctxs k)).shutdown = true → (f (s.ctxs k)).pool = false) : Inv
    (s.modifyCtx k f) := by
  refine ⟨h.claims, h.opRefs, h.ctxRefs, h.clean, h.fresh, fun k' => ?_, h.job, h.born, h.effects⟩
  show (Function.update s.ctxs k (f (s.ctxs k)) k').shutdown = true →
    (Function.update s.ctxs k (f (s.ctxs k)) k').pool = false
  by_cases hk : k' = k
  · rw [hk, Function.update_self]
    exact hf
  · rw [Function.update_of_ne hk]
    exact h.closed k'

theorem Inv.step (h : Inv s) {a : Action} (hs : s.step a = some t) : Inv t := by
  cases a with
  | submit k args => exact h.submit hs
  | setCallback p callback =>
    cases hs
    apply h.modify p (f := fun op => { op with callback := some callback }) (fun _ => rfl)
      (fun _ => rfl) (fun _ => rfl) (fun _ _ => id)
    intro q
    rw [Heap.modify_ops]
    split_ifs
    · exact h.opRefs q
    · exact h.opRefs q
  | increfOp p =>
    obtain ⟨-, hs⟩ := Option.ite_none_right_eq_some.mp hs
    cases hs
    apply h.refs p (· + 1)
    have hrefs := h.opRefs p
    omega
  | decrefOp p =>
    obtain ⟨hpos, hs⟩ := Option.ite_none_right_eq_some.mp hs
    cases hs
    apply h.refs p (· - 1)
    have hrefs := h.opRefs p
    omega
  | increfCtx k =>
    obtain ⟨-, hs⟩ := Option.ite_none_right_eq_some.mp hs
    cases hs
    apply h.ctxs k (· + 1)
    have hrefs := h.ctxRefs k
    omega
  | decrefCtx k =>
    obtain ⟨hpos, hs⟩ := Option.ite_none_right_eq_some.mp hs
    cases hs
    apply h.ctxs k (· - 1)
    have hrefs := h.ctxRefs k
    omega
  | close k =>
    cases hs
    exact h.modifyCtx k fun _ => rfl
  | destroy k =>
    simp only [World.step] at hs
    split at hs
    · cases hs
    · rename_i hpool
      cases hs
      exact h.modifyCtx k fun _ => Bool.not_eq_true _ ▸ hpool
  | pop j =>
    obtain ⟨b, hb, hs⟩ := onJob_eq_some hs
    have hok := h.job j b hb
    split at hs
    case h_1 hpc =>
      cases hs
      rw [Job.Ok, hpc] at hok
      exact h.setPc hb hpc .popped [.pop] hok rfl rfl rfl
    case h_2 => cases hs
  | take j =>
    obtain ⟨b, hb, hs⟩ := onJob_eq_some hs
    have hok := h.job j b hb
    split at hs
    case h_1 hpc =>
      cases hs
      rw [Job.Ok, hpc] at hok
      cases (s.heap.ops b.op).take.syscall with
      | some call =>
        exact h.setOp hb hpc (·.take) (.taken _ call) [] (fun _ => rfl) ⟨hok.1, hok.2, rfl⟩
          rfl rfl rfl
      | none =>
        exact h.setOp hb hpc (·.take) (.called _ none none) [] (fun _ => rfl) ⟨hok.1, nofun⟩
          rfl rfl rfl
    case h_2 => cases hs
  | syscall j result errno =>
    obtain ⟨b, hb, hs⟩ := onJob_eq_some hs
    have hok := h.job j b hb
    split at hs
    case h_1 ctx call hpc =>
      cases hs
      rw [Job.Ok, hpc] at hok
      exact h.setOp hb hpc (·.record result errno) (.recorded ctx ⟨call, result, errno⟩)
        [.syscall call] (fun _ => rfl) ⟨hok.1, hok.2.1, complete_syscall result errno hok.2.2⟩
        rfl rfl rfl
    case h_2 => cases hs
  | publish j =>
    obtain ⟨b, hb, hs⟩ := onJob_eq_some hs
    have hok := h.job j b hb
    split at hs
    case h_1 ctx o hpc =>
      cases hs
      rw [Job.Ok, hpc] at hok
      exact h.setOp hb hpc (·.publish) (.published ctx o) [.publish] (fun _ => rfl)
        ⟨hok.1, complete_publish hok.2.2⟩ rfl rfl rfl
    case h_2 => cases hs
  | callback j =>
    obtain ⟨b, hb, hs⟩ := onJob_eq_some hs
    have hok := h.job j b hb
    split at hs
    case h_1 ctx o hpc =>
      rw [Job.Ok, hpc] at hok
      split at hs
      case h_1 =>
        cases hs
        refine h.setPc hb hpc (.called ctx (some o) none) [] ⟨hok.1, fun o' ho => ?_⟩
          rfl rfl rfl
        cases ho
        exact hok.2
      case h_2 callback _ =>
        cases hs
        exact h.setPc hb hpc (.calling ctx o callback) [.invoke callback o.result] hok
          rfl rfl rfl
    case h_2 => cases hs
  | callbackReturns j =>
    obtain ⟨b, hb, hs⟩ := onJob_eq_some hs
    have hok := h.job j b hb
    split at hs
    case h_1 ctx o callback hpc =>
      cases hs
      rw [Job.Ok, hpc] at hok
      refine h.setPc hb hpc (.called ctx (some o) (some callback)) [] ⟨hok.1, fun o' ho => ?_⟩
        rfl rfl (List.append_nil _).symm
      cases ho
      exact hok.2
    case h_2 => cases hs
  | releaseCtx j =>
    obtain ⟨b, hb, hs⟩ := onJob_eq_some hs
    have hok := h.job j b hb
    split at hs
    case h_1 k o callback hpc =>
      cases hs
      rw [Job.Ok, hpc] at hok
      obtain ⟨hctx, hcompleted⟩ := hok
      have hk : k = b.ctx := Option.some.inj hctx
      apply h.setJob hb (s.heap.decrefCtx k) (.leaving k o callback) [.releaseCtx k]
        (fun _ _ => rfl) rfl ⟨hk, hcompleted⟩ (by rw [hpc]; rfl)
      · intro k'
        rw [Job.holdsCtx, Job.holdsCtx, hpc]
        show Function.update s.heap.ctxRefs k (s.heap.ctxRefs k - 1) k' +
          (decide (b.ctx = k') && true).toNat =
            s.heap.ctxRefs k' + (decide (b.ctx = k') && false).toNat
        rw [Bool.and_true, Bool.and_false, Bool.toNat_false, Nat.add_zero]
        by_cases hk' : k' = k
        · -- the reference of the task is one of those counted
          have hholds : 0 < s.jobs.countP (·.holdsCtx k) := countP_pos_of_getElem? hb (by
            rw [Job.holdsCtx, hpc, hk, decide_eq_true rfl]
            rfl)
          have hrefs := h.ctxRefs k
          rw [hk', Function.update_self, decide_eq_true hk.symm, Bool.toNat_true]
          omega
        · rw [Function.update_of_ne hk', decide_eq_false fun heq => hk' (heq.symm.trans hk.symm),
            Bool.toNat_false, Nat.add_zero]
      · rw [hpc]
        rfl
    case h_2 => cases hs
  | releaseOp j =>
    obtain ⟨b, hb, hs⟩ := onJob_eq_some hs
    have hok := h.job j b hb
    split at hs
    case h_1 k o callback hpc =>
      cases hs
      rw [Job.Ok, hpc] at hok
      have hholds : 0 < s.jobs.countP (·.holdsOp b.op) := countP_pos_of_getElem? hb (by
        rw [Job.holdsOp, hpc, decide_eq_true rfl]
        rfl)
      have hrefs := h.opRefs b.op
      refine h.setOp hb hpc (fun op => { op with refcnt := op.refcnt - 1 }) (.finished k o callback)
        [.releaseOp] (fun _ => rfl) hok ?_ rfl ?_
      · show (s.heap.ops b.op).refcnt - 1 + 1 = (s.heap.ops b.op).refcnt + 0
        omega
      · exact (List.append_assoc (JobPc.ran o callback) [.releaseCtx k] [.releaseOp]).symm
    case h_2 => cases hs

theorem inv (h : system.Reachable s) : Inv s :=
  h.invariant (fun _ => Init.inv) fun _ _ _ h _ hs => h.step hs

/-! ## What a step leaves -/

/-- Nothing that `worker` reads or writes is different. -/
def SameTransfer (op op' : AIOOperation) : Prop :=
  ∃ callback refcnt, op' = { op with callback, refcnt }

/-- A task and its Operation before and after a step of `worker`. -/
inductive Moves : AIOOperation → JobPc → AIOOperation → JobPc → Prop
  | pop (op) : Moves op .queued op .popped
  | take {op : AIOOperation} {call} (h : op.take.syscall = some call) :
    Moves op .popped op.take (.taken op.ctx call)
  | noop {op : AIOOperation} (h : op.take.syscall = none) :
    Moves op .popped op.take (.called op.ctx none none)
  | syscall (op ctx call result errno) :
    Moves op (.taken ctx call) (op.record result errno) (.recorded ctx ⟨call, result, errno⟩)
  | publish (op ctx o) : Moves op (.recorded ctx o) op.publish (.published ctx o)
  | silent (op ctx o) : Moves op (.published ctx o) op (.called ctx (some o) none)
  | invoke (op ctx o callback) : Moves op (.published ctx o) op (.calling ctx o callback)
  | returns (op ctx o callback) :
    Moves op (.calling ctx o callback) op (.called ctx (some o) (some callback))
  | releaseCtx (op k o callback) : Moves op (.called (some k) o callback) op (.leaving k o callback)
  | releaseOp (op k o callback) : Moves op (.leaving k o callback)
      { op with refcnt := op.refcnt - 1 } (.finished k o callback)

/-- Task `j` goes on to `pc`, and only its Operation changes. -/
structure GoesOn (s t : World) (j : ℕ) (b : Job) (pc : JobPc) : Prop where
  job : s.jobs[j]? = some b
  jobs : t.jobs = s.jobs.set j { b with pc }
  moves : Moves (s.heap.ops b.op) b.pc (t.heap.ops b.op) pc
  others : ∀ p, p ≠ b.op → t.heap.ops p = s.heap.ops p

theorem GoesOn.of_same {pc : JobPc} {es : List Effect} (hb : s.jobs[j]? = some b)
    (hmoves : Moves (s.heap.ops b.op) b.pc (s.heap.ops b.op) pc) :
    GoesOn s (s.setJob j b pc es) j b pc := ⟨hb, rfl, hmoves, fun _ _ => rfl⟩

theorem GoesOn.of_modify {pc : JobPc} {es : List Effect} {f : AIOOperation → AIOOperation}
    (hb : s.jobs[j]? = some b) (hmoves : Moves (s.heap.ops b.op) b.pc (f (s.heap.ops b.op)) pc) :
    GoesOn s ((s.withHeap (s.heap.modify b.op f)).setJob j b pc es) j b pc := by
  have hself : (s.heap.modify b.op f).ops b.op = f (s.heap.ops b.op) := Function.update_self ..
  refine ⟨hb, rfl, ?_, fun p hp => Function.update_of_ne hp ..⟩
  show Moves _ _ ((s.heap.modify b.op f).ops b.op) pc
  rw [hself]
  exact hmoves

theorem GoesOn.getElem?_self {pc : JobPc} (h : GoesOn s t j b pc) :
    t.jobs[j]? = some { b with pc } := by
  rw [h.jobs]
  exact Table.getElem?_set_self h.job _

theorem GoesOn.ne_of_free {pc : JobPc} (h : GoesOn s t j b pc) (hinv : Inv t)
    (hfree : (t.heap.ops p).inProgress = false) : p ≠ b.op := by
  intro heq
  have hactive := hinv.inProgress h.getElem?_self
  rw [show ({ b with pc } : Job).op = p from heq.symm] at hactive
  exact Bool.false_ne_true (hfree.symm.trans hactive)

theorem sameTransfer_modify (s : World) (q : OpPtr) {f : AIOOperation → AIOOperation}
    (hf : ∀ op, SameTransfer op (f op)) (p : OpPtr) :
    SameTransfer (s.heap.ops p) ((s.heap.modify q f).ops p) := by
  rw [Heap.modify_ops]
  split_ifs
  · exact hf _
  · exact ⟨_, _, rfl⟩

theorem step_cases {a : Action} (hs : s.step a = some t) :
    (∃ k args, a = .submit k args) ∨
      (t.jobs = s.jobs ∧ ∀ p, SameTransfer (s.heap.ops p) (t.heap.ops p)) ∨
      ∃ j b pc, GoesOn s t j b pc := by
  cases a with
  | submit k args => exact .inl ⟨k, args, rfl⟩
  | setCallback q callback =>
    cases hs
    exact .inr (.inl ⟨rfl, sameTransfer_modify s q fun _ => ⟨_, _, rfl⟩⟩)
  | increfOp q | decrefOp q =>
    obtain ⟨-, hs⟩ := Option.ite_none_right_eq_some.mp hs
    cases hs
    exact .inr (.inl ⟨rfl, sameTransfer_modify s q fun _ => ⟨_, _, rfl⟩⟩)
  | increfCtx k | decrefCtx k =>
    obtain ⟨-, hs⟩ := Option.ite_none_right_eq_some.mp hs
    cases hs
    exact .inr (.inl ⟨rfl, fun _ => ⟨_, _, rfl⟩⟩)
  | close k =>
    cases hs
    exact .inr (.inl ⟨rfl, fun _ => ⟨_, _, rfl⟩⟩)
  | destroy k =>
    obtain ⟨-, hs⟩ := Option.ite_none_left_eq_some.mp hs
    cases hs
    exact .inr (.inl ⟨rfl, fun _ => ⟨_, _, rfl⟩⟩)
  | pop j =>
    obtain ⟨b, hb, hs⟩ := onJob_eq_some hs
    split at hs
    case h_1 hpc =>
      cases hs
      exact .inr (.inr ⟨j, b, _, .of_same hb (hpc ▸ .pop _)⟩)
    case h_2 => cases hs
  | take j =>
    obtain ⟨b, hb, hs⟩ := onJob_eq_some hs
    split at hs
    case h_1 hpc =>
      cases hs
      refine .inr (.inr ⟨j, b, _, .of_modify hb ?_⟩)
      rw [hpc]
      split
      case h_1 call hcall => exact .take hcall
      case h_2 hcall => exact .noop hcall
    case h_2 => cases hs
  | syscall j result errno =>
    obtain ⟨b, hb, hs⟩ := onJob_eq_some hs
    split at hs
    case h_1 ctx call hpc =>
      cases hs
      refine .inr (.inr ⟨j, b, _, .of_modify hb ?_⟩)
      rw [hpc]
      exact .syscall _ _ _ _ _
    case h_2 => cases hs
  | publish j =>
    obtain ⟨b, hb, hs⟩ := onJob_eq_some hs
    split at hs
    case h_1 ctx o hpc =>
      cases hs
      refine .inr (.inr ⟨j, b, _, .of_modify hb ?_⟩)
      rw [hpc]
      exact .publish _ _ _
    case h_2 => cases hs
  | callback j =>
    obtain ⟨b, hb, hs⟩ := onJob_eq_some hs
    split at hs
    case h_1 ctx o hpc =>
      split at hs
      case h_1 =>
        cases hs
        exact .inr (.inr ⟨j, b, _, .of_same hb (hpc ▸ .silent _ _ _)⟩)
      case h_2 =>
        cases hs
        exact .inr (.inr ⟨j, b, _, .of_same hb (hpc ▸ .invoke _ _ _ _)⟩)
    case h_2 => cases hs
  | callbackReturns j =>
    obtain ⟨b, hb, hs⟩ := onJob_eq_some hs
    split at hs
    case h_1 ctx o callback hpc =>
      cases hs
      exact .inr (.inr ⟨j, b, _, .of_same hb (hpc ▸ .returns _ _ _ _)⟩)
    case h_2 => cases hs
  | releaseCtx j =>
    obtain ⟨b, hb, hs⟩ := onJob_eq_some hs
    split at hs
    case h_1 k o callback hpc =>
      cases hs
      exact .inr (.inr ⟨j, b, _, hb, rfl, hpc ▸ .releaseCtx _ _ _ _, fun _ _ => rfl⟩)
    case h_2 => cases hs
  | releaseOp j =>
    obtain ⟨b, hb, hs⟩ := onJob_eq_some hs
    split at hs
    case h_1 k o callback hpc =>
      cases hs
      refine .inr (.inr ⟨j, b, _, .of_modify hb ?_⟩)
      rw [hpc]
      exact .releaseOp _ _ _ _
    case h_2 => cases hs

theorem step_ctxs {a : Action} (hs : s.step a = some t) :
    t.ctxs = s.ctxs ∨
      (∃ k, a = .close k ∧ t = s.modifyCtx k fun ctx => { ctx with pool := false }) ∨
      ∃ k, a = .destroy k ∧ (s.ctxs k).pool = false ∧
        t = s.modifyCtx k fun ctx => { ctx with shutdown := true } := by
  cases a with
  | submit | setCallback =>
    cases hs
    exact .inl rfl
  | increfOp | decrefOp | increfCtx | decrefCtx =>
    obtain ⟨-, hs⟩ := Option.ite_none_right_eq_some.mp hs
    cases hs
    exact .inl rfl
  | close k =>
    cases hs
    exact .inr (.inl ⟨k, rfl, rfl⟩)
  | destroy k =>
    obtain ⟨hpool, hs⟩ := Option.ite_none_left_eq_some.mp hs
    cases hs
    exact .inr (.inr ⟨k, rfl, Bool.not_eq_true _ ▸ hpool, rfl⟩)
  | pop j | take j | syscall j | publish j | callbackReturns j | releaseCtx j | releaseOp j =>
    obtain ⟨b, hb, hs⟩ := onJob_eq_some hs
    split at hs
    case h_1 =>
      cases hs
      exact .inl rfl
    case h_2 => cases hs
  | callback j =>
    obtain ⟨b, hb, hs⟩ := onJob_eq_some hs
    split at hs
    case h_1 =>
      split at hs
      all_goals
        cases hs
        exact .inl rfl
    case h_2 => cases hs

theorem Moves.ne_queued {op op' : AIOOperation} {pc pc' : JobPc} (h : Moves op pc op' pc') :
    pc' ≠ .queued := by
  intro hpc
  subst hpc
  cases h

theorem step_pop (hs : s.step (.pop j) = some t) (hb : s.jobs[j]? = some b) :
    t.jobs[j]? = some { b with pc := .popped } := by
  obtain ⟨d, hd, hs⟩ := onJob_eq_some hs
  cases hd.symm.trans hb
  split at hs
  case h_1 =>
    cases hs
    exact Table.getElem?_set_self hb _
  case h_2 => cases hs

theorem step_job {a : Action} (hs : s.step a = some t) (hb : s.jobs[j]? = some b) :
    ∃ d, t.jobs[j]? = some d ∧ d.ctx = b.ctx ∧ (b.pc ≠ .queued → d.pc ≠ .queued) := by
  rcases step_cases hs with ⟨k, args, rfl⟩ | ⟨hjobs, -⟩ | ⟨i, e, pc, hgo⟩
  · cases hs
    exact ⟨b, (List.getElem?_append_left (Table.lt_length hb)).trans hb, rfl, id⟩
  · rw [hjobs]
    exact ⟨b, hb, rfl, id⟩
  · rw [hgo.jobs]
    by_cases hij : i = j
    · subst hij
      cases hgo.job.symm.trans hb
      exact ⟨_, Table.getElem?_set_self hb _, rfl, fun _ => hgo.moves.ne_queued⟩
    · exact ⟨b, (List.getElem?_set_ne hij).trans hb, rfl, id⟩

end World

end Caio.ThreadAio
