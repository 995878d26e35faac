import Caio.PythonAio.Ledger

namespace Caio.PythonAio

open Counting

/-- The Operation that a call has claimed and not scheduled yet. -/
def Call.held (c : Call) : Option OpId :=
  match c.pc with
  | .claimed p | .failed p _ => some p
  | _ => none

def Call.holds (c : Call) (p : OpId) : Bool := decide (c.held = some p)

def Call.reserves (c : Call) (k : CtxId) : Bool := c.held.isSome && decide (k = c.ctx)

def JobPc.unreleased : JobPc → Bool
  | .queued | .ran _ => true
  | _ => false

def Job.isOn (b : Job) (p : OpId) : Bool := decide (p = b.op)

def Job.occupies (b : Job) (k : CtxId) : Bool := b.pc.unreleased && decide (k = b.ctx)

section Keys

variable {c : Call} {b : Job} {p : OpId}

theorem Call.holds_of_none (h : c.held = none) (q : OpId) : c.holds q = false := by
  rw [Call.holds, h]
  rfl

theorem Call.holds_of_some (h : c.held = some p) (q : OpId) : c.holds q = decide (q = p) := by
  rw [Call.holds, h]
  exact decide_eq_decide.mpr ⟨fun heq => (Option.some.inj heq).symm, fun heq => by rw [heq]⟩

theorem Call.reserves_of_none (h : c.held = none) (k : CtxId) : c.reserves k = false := by
  rw [Call.reserves, h]
  rfl

theorem Call.reserves_of_some (h : c.held = some p) (k : CtxId) :
    c.reserves k = decide (k = c.ctx) := by
  rw [Call.reserves, h]
  rfl

theorem Job.occupies_of_unreleased (h : b.pc.unreleased = true) (k : CtxId) :
    b.occupies k = decide (k = b.ctx) := by
  rw [Job.occupies, h]
  rfl

theorem Job.occupies_of_released (h : b.pc.unreleased = false) (k : CtxId) :
    b.occupies k = false := by
  rw [Job.occupies, h]
  rfl

end Keys

namespace World

variable {s t : World} {i j : ℕ} {c : Call} {b : Job}

def ledger (s : World) : Ledger where
  claimed p := (s.ops p).inProgress
  held p := s.calls.countP (·.holds p)
  scheduled p := s.jobs.countP (·.isOn p)
  counted p := (s.calls.map fun c => c.counted.count p).sum
  reserved k := s.calls.countP (·.reserves k)
  running k := s.jobs.countP (·.occupies k)
  slots k := (s.ctxs k).inProgress
  max k := (s.ctxs k).maxRequests

theorem onCall_eq_some {f : Call → Option World} (h : s.onCall i f = some t) :
    ∃ c, s.calls[i]? = some c ∧ f c = some t := Option.bind_eq_some_iff.mp h

theorem onJob_eq_some {f : Job → Option World} (h : s.onJob j f = some t) :
    ∃ b, s.jobs[j]? = some b ∧ f b = some t := Option.bind_eq_some_iff.mp h

/-- The parts of the ledger that are about calls. -/
structure SameCalls (l m : List Call) : Prop where
  held : ∀ p, m.countP (·.holds p) = l.countP (·.holds p)
  counted : ∀ p, (m.map fun c => c.counted.count p).sum = (l.map fun c => c.counted.count p).sum
  reserved : ∀ k, m.countP (·.reserves k) = l.countP (·.reserves k)

theorem SameCalls.refl (l : List Call) : SameCalls l l := ⟨fun _ => rfl, fun _ => rfl, fun _ => rfl⟩

theorem SameCalls.set {l : List Call} (hc : l[i]? = some c) {c' : Call} (hheld : c'.held = c.held)
    (hcounted : c'.counted = c.counted) (hctx : c'.ctx = c.ctx) : SameCalls l (l.set i c') := by
  refine ⟨fun p => countP_set_of_eq hc ?_, fun p => ?_, fun k => countP_set_of_eq hc ?_⟩
  · rw [Call.holds, Call.holds, hheld]
  · have := sum_map_set hc c' fun c => c.counted.count p
    rw [hcounted] at this
    exact Nat.add_right_cancel this
  · rw [Call.reserves, Call.reserves, hheld, hctx]

theorem SameCalls.append (l : List Call) (hheld : c.held = none) (hcounted : c.counted = []) :
    SameCalls l (l ++ [c]) := by
  refine ⟨fun p => ?_, fun p => ?_, fun k => ?_⟩
  · rw [countP_append_one, Call.holds, hheld]
    rfl
  · rw [List.map_append, List.sum_append, List.map_singleton, hcounted]
    rfl
  · rw [countP_append_one, Call.reserves, hheld]
    rfl

/-- The parts of the ledger that are about jobs. -/
structure SameJobs (l m : List Job) : Prop where
  scheduled : ∀ p, m.countP (·.isOn p) = l.countP (·.isOn p)
  running : ∀ k, m.countP (·.occupies k) = l.countP (·.occupies k)

theorem SameJobs.refl (l : List Job) : SameJobs l l := ⟨fun _ => rfl, fun _ => rfl⟩

theorem SameJobs.set {l : List Job} (hb : l[j]? = some b) {pc : JobPc}
    (hpc : pc.unreleased = b.pc.unreleased) : SameJobs l (l.set j { b with pc }) := by
  refine ⟨fun p => countP_set_of_eq hb rfl, fun k => countP_set_of_eq hb ?_⟩
  rw [Job.occupies, Job.occupies, hpc]

theorem ledger_eq (hcalls : SameCalls s.calls t.calls) (hjobs : SameJobs s.jobs t.jobs)
    (hops : ∀ p, (t.ops p).inProgress = (s.ops p).inProgress)
    (hslots : ∀ k, (t.ctxs k).inProgress = (s.ctxs k).inProgress)
    (hmax : ∀ k, (t.ctxs k).maxRequests = (s.ctxs k).maxRequests) : t.ledger = s.ledger := by
  ext x
  · exact hops x
  · exact hcalls.held x
  · exact hjobs.scheduled x
  · exact hcalls.counted x
  · exact hcalls.reserved x
  · exact hjobs.running x
  · exact hslots x
  · exact hmax x

theorem modifyOp_inProgress (s : World) (p : OpId) {f : Operation → Operation}
    (hf : (f (s.ops p)).inProgress = (s.ops p).inProgress) (q : OpId) :
    ((s.modifyOp p f).ops q).inProgress = (s.ops q).inProgress := by
  show (Function.update s.ops p _ q).inProgress = _
  by_cases hq : q = p
  · subst hq
    rw [Function.update_self]
    exact hf
  · rw [Function.update_of_ne hq]

theorem setOp_inProgress (ops : OpId → Operation) (p : OpId) (x : Bool) :
    (fun q => (Function.update ops p { ops p with inProgress := x } q).inProgress) =
      Function.update (fun q => (ops q).inProgress) p x := by
  funext q
  by_cases hq : q = p
  · subst hq
    rw [Function.update_self, Function.update_self]
  · rw [Function.update_of_ne hq, Function.update_of_ne hq]

theorem setCtx_inProgress (ctxs : CtxId → Context) (k : CtxId) (x : Int) :
    (fun j => (Function.update ctxs k { ctxs k with inProgress := x } j).inProgress) =
        Function.update (fun j => (ctxs j).inProgress) k x ∧
      (fun j => (Function.update ctxs k { ctxs k with inProgress := x } j).maxRequests) =
        fun j => (ctxs j).maxRequests := by
  refine ⟨?_, ?_⟩
  · funext j
    by_cases hj : j = k
    · subst hj
      rw [Function.update_self, Function.update_self]
    · rw [Function.update_of_ne hj, Function.update_of_ne hj]
  · funext j
    by_cases hj : j = k
    · subst hj
      rw [Function.update_self]
    · rw [Function.update_of_ne hj]

theorem ledger_setCall (hc : s.calls[i]? = some c) {c' : Call} (hheld : c'.held = c.held)
    (hcounted : c'.counted = c.counted) (hctx : c'.ctx = c.ctx) :
    (s.setCall i c').ledger = s.ledger :=
  ledger_eq (.set hc hheld hcounted hctx) (.refl _) (fun _ => rfl) (fun _ => rfl) fun _ => rfl

theorem ledger_execute (hc : s.calls[i]? = some c) (hpc : c.pc = .loop) (p : OpId)
    (ps : List OpId) : (s.execute i c p ps).ledger = s.ledger ∨
      s.ledger.step (.claim c.ctx p) = some (s.execute i c p ps).ledger := by
  have hnone : c.held = none := by rw [Call.held, hpc]
  unfold execute
  split_ifs with hbusy hstate hfull
  · exact .inl (ledger_setCall hc rfl rfl rfl)
  · exact .inl (ledger_setCall hc hnone.symm rfl rfl)
  · exact .inl (ledger_setCall hc hnone.symm rfl rfl)
  -- neither in progress nor over the limit: `_execute` claims it
  · right
    have hguard : s.ledger.claimed p = false ∧ s.ledger.slots c.ctx < s.ledger.max c.ctx :=
      ⟨Bool.not_eq_true _ ▸ hbusy, Int.not_le.mp hfull⟩
    have hset : SameCalls s.calls (s.calls.set i { c with rest := ps }) := .set hc rfl rfl rfl
    rw [Ledger.step, if_pos hguard]
    refine congrArg some (Ledger.ext ?_ ?_ rfl ?_ ?_ rfl ?_ ?_)
    · exact (setOp_inProgress s.ops p true).symm
    · exact (countP_set_bump hc (Call.holds_of_none hnone) (Call.holds_of_some rfl)).symm
    · funext q
      have := sum_map_set hc { c with rest := ps, pc := .claimed p } fun c => c.counted.count q
      exact (Nat.add_right_cancel this).symm
    · exact (countP_set_bump hc (Call.reserves_of_none hnone)
        (Call.reserves_of_some (c := { c with rest := ps, pc := .claimed p }) rfl)).symm
    · exact (setCtx_inProgress s.ctxs c.ctx _).1.symm
    · exact (setCtx_inProgress s.ctxs c.ctx ((s.ctxs c.ctx).inProgress + 1)).2.symm

theorem ledger_applyAsync (hc : s.calls[i]? = some c) {p : OpId} (hpc : c.pc = .claimed p) :
    s.ledger.step (.schedule c.ctx p) = some
      ({ s.setCall i { c with counted := c.counted ++ [p], pc := .loop } with
        jobs := s.jobs ++ [{ ctx := c.ctx, op := p }] } : World).ledger := by
  have hsome : c.held = some p := by rw [Call.held, hpc]
  have hguard : 0 < s.ledger.held p ∧ 0 < s.ledger.reserved c.ctx :=
    ⟨countP_key_pos hc (Call.holds_of_some hsome), countP_key_pos hc (Call.reserves_of_some hsome)⟩
  rw [Ledger.step, if_pos hguard]
  refine congrArg some (Ledger.ext rfl ?_ ?_ ?_ ?_ ?_ rfl rfl)
  · exact (countP_set_drop hc (Call.holds_of_some hsome) (Call.holds_of_none rfl)).symm
  · exact (countP_append_bump s.jobs fun _ => rfl).symm
  · funext q
    have := sum_map_set hc { c with counted := c.counted ++ [p], pc := .loop }
      fun c => c.counted.count q
    rw [List.count_append, List.count_singleton] at this
    show bump (fun q => (s.calls.map fun c => c.counted.count q).sum) p q =
      ((s.calls.set i { c with counted := c.counted ++ [p], pc := .loop }).map
        fun c => c.counted.count q).sum
    rw [bump_apply]
    by_cases hq : q = p
    · rw [if_pos (beq_iff_eq.mpr hq.symm)] at this
      rw [if_pos hq]
      omega
    · rw [if_neg fun hcon => hq (beq_iff_eq.mp hcon).symm] at this
      rw [if_neg hq]
      omega
  · exact (countP_set_drop hc (Call.reserves_of_some hsome) (Call.reserves_of_none rfl)).symm
  · exact (countP_append_bump s.jobs
      (Job.occupies_of_unreleased (b := { ctx := c.ctx, op := p }) rfl)).symm

theorem ledger_rollbackClaim (hc : s.calls[i]? = some c) {p : OpId} {exc : PyErr}
    (hpc : c.pc = .failed p exc) : s.ledger.step (.rollback c.ctx p) = some
      ((s.rollbackClaim c.ctx p).setCall i { c with pc := .raised exc }).ledger := by
  have hsome : c.held = some p := by rw [Call.held, hpc]
  have hguard : 0 < s.ledger.held p ∧ 0 < s.ledger.reserved c.ctx :=
    ⟨countP_key_pos hc (Call.holds_of_some hsome), countP_key_pos hc (Call.reserves_of_some hsome)⟩
  rw [Ledger.step, if_pos hguard]
  refine congrArg some (Ledger.ext ?_ ?_ rfl ?_ ?_ rfl ?_ ?_)
  · exact (setOp_inProgress s.ops p false).symm
  · exact (countP_set_drop hc (Call.holds_of_some hsome) (Call.holds_of_none rfl)).symm
  · funext q
    have := sum_map_set hc { c with pc := .raised exc } fun c => c.counted.count q
    exact (Nat.add_right_cancel this).symm
  · exact (countP_set_drop hc (Call.reserves_of_some hsome) (Call.reserves_of_none rfl)).symm
  · exact (setCtx_inProgress s.ctxs c.ctx _).1.symm
  · exact (setCtx_inProgress s.ctxs c.ctx ((s.ctxs c.ctx).inProgress - 1)).2.symm

theorem ledger_releaseSlot (hb : s.jobs[j]? = some b) {result : Except PyErr Value}
    (hpc : b.pc = .ran result) (log : List (ℕ × Effect)) : s.ledger.step (.release b.ctx) = some
      ({ (s.releaseSlot b.ctx).setJob j { b with pc := .released result } with
        log } : World).ledger := by
  have hrunning : b.pc.unreleased = true := by
    rw [hpc]
    rfl
  have hguard : 0 < s.ledger.running b.ctx :=
    countP_key_pos hb (Job.occupies_of_unreleased hrunning)
  rw [Ledger.step, if_pos hguard]
  refine congrArg some (Ledger.ext rfl rfl ?_ rfl rfl ?_ ?_ ?_)
  · funext q
    exact (countP_set_of_eq hb (b := { b with pc := .released result }) rfl).symm
  · exact (countP_set_drop hb (Job.occupies_of_unreleased hrunning)
      (Job.occupies_of_released rfl)).symm
  · exact (setCtx_inProgress s.ctxs b.ctx _).1.symm
  · exact (setCtx_inProgress s.ctxs b.ctx ((s.ctxs b.ctx).inProgress - 1)).2.symm

theorem handle_inProgress (op : Operation) (returned : Except PyErr Operation.Returned) :
    (op.handle returned).1.inProgress = op.inProgress := by
  cases returned with
  | error => rfl
  | ok r => cases r <;> rfl

theorem record_inProgress (op : Operation) (result : Except PyErr Value) :
    (op.record result).inProgress = op.inProgress := by
  cases result <;> rfl

theorem setClosed (ctxs : CtxId → Context) (k : CtxId) :
    (fun j => (Function.update ctxs k
      { ctxs k with state := .closed, poolOpen := false } j).inProgress) =
        (fun j => (ctxs j).inProgress) ∧
      (fun j => (Function.update ctxs k
        { ctxs k with state := .closed, poolOpen := false } j).maxRequests) =
        fun j => (ctxs j).maxRequests := by
  refine ⟨?_, ?_⟩
  all_goals
    funext j
    by_cases hj : j = k
    · subst hj
      rw [Function.update_self]
    · rw [Function.update_of_ne hj]

/-- Every step leaves the ledger alone or makes one entry in it. -/
theorem ledger_step {a : Action} (hs : s.step a = some t) :
    t.ledger = s.ledger ∨ ∃ e, s.ledger.step e = some t.ledger := by
  cases a with
  | submit k args =>
    simp only [step] at hs
    split at hs
    all_goals
      cases hs
      exact .inl (ledger_eq (.append _ rfl rfl) (.refl _) (fun _ => rfl) (fun _ => rfl) fun _ =>
        rfl)
  | execute i =>
    obtain ⟨c, hc, hs⟩ := onCall_eq_some hs
    split at hs
    case h_1 hpc hrest =>
      cases hs
      exact .inl (ledger_setCall hc (by rw [Call.held, Call.held, hpc]) rfl rfl)
    case h_2 p ps hpc hrest =>
      cases hs
      exact (ledger_execute hc hpc p ps).imp_right fun h => ⟨_, h⟩
    case h_3 => cases hs
  | applyAsync i exc =>
    obtain ⟨c, hc, hs⟩ := onCall_eq_some hs
    split at hs
    case h_1 p hpc hs =>
      obtain ⟨-, hs⟩ := Option.ite_none_right_eq_some.mp hs
      cases hs
      exact .inr ⟨_, ledger_applyAsync hc hpc⟩
    case h_2 p exc hpc hs =>
      cases hs
      exact .inl (ledger_setCall hc (by rw [Call.held, Call.held, hpc]) rfl rfl)
    case h_3 => cases hs
  | rollbackClaim i =>
    obtain ⟨c, hc, hs⟩ := onCall_eq_some hs
    split at hs
    case h_1 p exc hpc =>
      cases hs
      exact .inr ⟨_, ledger_rollbackClaim hc hpc⟩
    case h_2 => cases hs
  | run j returned =>
    obtain ⟨b, hb, hs⟩ := onJob_eq_some hs
    split at hs
    case h_1 hpc =>
      cases hs
      refine .inl (ledger_eq (.refl _) (.set hb (by rw [hpc]; rfl)) (fun q => ?_) (fun _ => rfl)
        fun _ => rfl)
      exact modifyOp_inProgress s b.op (f := fun _ => ((s.ops b.op).handle returned).1)
        (handle_inProgress (s.ops b.op) returned) q
    case h_2 => cases hs
  | releaseSlot j =>
    obtain ⟨b, hb, hs⟩ := onJob_eq_some hs
    split at hs
    case h_1 result hpc =>
      cases hs
      exact .inr ⟨_, ledger_releaseSlot hb hpc _⟩
    case h_2 => cases hs
  | record j =>
    obtain ⟨b, hb, hs⟩ := onJob_eq_some hs
    split at hs
    case h_1 result hpc =>
      cases hs
      refine .inl (ledger_eq (.refl _) (.set hb (by rw [hpc]; rfl)) (fun q => ?_) (fun _ => rfl)
        fun _ => rfl)
      exact modifyOp_inProgress s b.op (f := (·.record result))
        (record_inProgress (s.ops b.op) result) q
    case h_2 => cases hs
  | invokeCallback j =>
    obtain ⟨b, hb, hs⟩ := onJob_eq_some hs
    split at hs
    case h_1 result hpc =>
      cases hs
      exact .inl (ledger_eq (.refl _) (.set hb (by rw [hpc]; rfl)) (fun _ => rfl) (fun _ => rfl)
        fun _ => rfl)
    case h_2 => cases hs
  | setCallback p callback =>
    cases hs
    exact .inl (ledger_eq (.refl _) (.refl _) (fun q => modifyOp_inProgress s p rfl q)
      (fun _ => rfl) fun _ => rfl)
  | close k =>
    cases hs
    refine .inl (ledger_eq ?_ ?_ (fun q => ?_) (fun j => ?_) fun j => ?_)
    all_goals unfold close; split
    · exact .refl _
    · exact .refl _
    · exact .refl _
    · exact .refl _
    · rfl
    · rfl
    · rfl
    · exact congrFun (setClosed s.ctxs k).1 j
    · rfl
    · exact congrFun (setClosed s.ctxs k).2 j

theorem Init.ledger_init (h : Init s) : Ledger.Init s.ledger := by
  refine ⟨h.ops, fun p => ?_, fun p => ?_, fun p => ?_, fun k => ?_, fun k => ?_, h.inProgress,
    h.maxRequests⟩
  · rw [ledger, h.calls]
    rfl
  · rw [ledger, h.jobs]
    rfl
  · rw [ledger, h.calls]
    rfl
  · rw [ledger, h.calls]
    rfl
  · rw [ledger, h.jobs]
    rfl

/-- The ledger is an abstraction of the Contexts. -/
theorem refines_ledger :
    TransitionSystem.Refines system Ledger.system fun s l => s.ledger = l := by
  refine ⟨fun s hs => ⟨s.ledger, Init.ledger_init hs, rfl⟩, ?_⟩
  rintro s a t l rfl hs
  obtain hsame | ⟨e, he⟩ := ledger_step hs
  · exact ⟨[], s.ledger, rfl, hsame⟩
  · exact ⟨[e], t.ledger, TransitionSystem.exec_singleton he, rfl⟩

theorem balanced (h : system.Reachable s) : s.ledger.Balanced := by
  obtain ⟨l, hl, rfl⟩ := refines_ledger.reachable h
  exact Ledger.balanced hl

end World

end Caio.PythonAio
