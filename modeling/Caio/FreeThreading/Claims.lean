import Caio.FreeThreading.Submit
import Caio.Lib.Preimages
import Caio.Lib.Table

namespace Caio.FreeThreading

open Counting

def CallPc.held : CallPc → List OpPtr
  | .refused p ps => p :: ps
  | .unclaimed _ ps => ps
  | _ => []

def CallPc.claims : CallPc → List OpPtr
  | .claiming p => [p]
  | pc => pc.held

/-- `in_progress` is 0 again, but not the context pointer. -/
def CallPc.unclaiming? : CallPc → Option OpPtr
  | .unclaimed p _ => some p
  | _ => none

def Call.held (d : Call) : List OpPtr := d.claimed ++ d.pc.held

def Call.claims (d : Call) : List OpPtr := d.claimed ++ d.pc.claims

/-- References of thread_aio that the call will hand over or give back. -/
def Call.refs (k : CtxId) (d : Call) : ℕ :=
  if d.ctx = k then d.held.length + d.pc.unclaiming?.toList.length else 0

def Job.isOn (p : OpPtr) (b : Job) : Bool := b.op = p

/-- Accepted by `k` and not completed. -/
def Job.inFlight (k : CtxId) (b : Job) : Bool := b.ctx = k && b.pc ≠ .completed

/-- The Context that a task has, or that the worker has read. -/
def Job.Ok (ctx : OpPtr → Option CtxId) (b : Job) : Prop :=
  match b.pc with
  | .queued => ctx b.op = some b.ctx
  | .taken ctx | .recorded ctx => ctx = some b.ctx
  | .completed => True

theorem claims_rollback (ps : List OpPtr) : (CallPc.rollback ps).claims = ps := by
  cases ps <;> rfl

theorem held_rollback (ps : List OpPtr) : (CallPc.rollback ps).held = ps := by
  cases ps <;> rfl

theorem unclaiming_rollback (ps : List OpPtr) : (CallPc.rollback ps).unclaiming? = none := by
  cases ps <;> rfl

theorem Call.mem_claims {d : Call} {p : OpPtr} (h : p ∈ d.held) : p ∈ d.claims := by
  rcases List.mem_append.mp h with h | h
  · exact List.mem_append_left _ h
  · apply List.mem_append_right
    cases hpc : d.pc with
    | loop | claiming _ | queueing | returned =>
      rw [hpc] at h
      cases h
    | refused _ _ | unclaimed _ _ =>
      rw [hpc] at h
      exact h

theorem Job.Ok.update {e : Job} {p : OpPtr} {ctx : OpPtr → Option CtxId} (h : e.Ok ctx)
    {v : Option CtxId}
    (hp : e.op = p → e.pc ≠ .queued) : e.Ok (Function.update ctx p v) := by
  unfold Job.Ok at h ⊢
  cases hpc : e.pc with
  | queued =>
    rw [hpc] at h hp
    have hne : e.op ≠ p := fun heq => hp heq rfl
    show Function.update ctx p v e.op = _
    rw [Function.update_of_ne hne]
    exact h
  | taken _ | recorded _ =>
    rw [hpc] at h
    exact h
  | completed => trivial

namespace State

variable {b : Backend} {s t : State} {c i j : ℕ} {d : Call} {e : Job} {p : OpPtr} {k : CtxId}

theorem afterQueue_eq (b : Backend) (ps : List OpPtr) :
    (afterQueue b ps).claims = ps ∧ (afterQueue b ps).held = ps ∧
      (afterQueue b ps).unclaiming? = none := by
  unfold afterQueue
  split_ifs with h
  · rw [h.2]
    exact ⟨rfl, rfl, rfl⟩
  · exact ⟨claims_rollback ps, held_rollback ps, unclaiming_rollback ps⟩

/-- A claim of `p` has set its context pointer, and needs it. -/
def live (s : State) (p : OpPtr) : Bool :=
  s.calls.any (fun d : Call => p ∈ d.held) || s.jobs.any fun e : Job => e.op = p ∧ e.pc = .queued

/-- Claims keep the context pointer that they have set. -/
structure Intact (s : State) : Prop where
  calls : ∀ d ∈ s.calls, ∀ p ∈ d.held, s.ctx p = some d.ctx
  jobs : ∀ e ∈ s.jobs, e.Ok s.ctx

/-- No rollback clears the context pointer that another claim has set. -/
def Careful (s : State) : Action → Prop
  | .clearContext c => (s.calls[c]?.bind (·.pc.unclaiming?)).all (fun p => !s.live p) = true
  | _ => True

instance (s : State) : ∀ a, Decidable (Careful s a)
  | .clearContext _ => inferInstanceAs (Decidable (_ = true))
  | .submit _ _ | .next _ | .setContext _ | .queue _ _ | .unclaim _ | .take _ | .record _
  | .complete _ | .incref _ | .decref _ => isTrue trivial

def claimCount (s : State) (p : OpPtr) : ℕ :=
  (s.calls.map fun d => d.claims.count p).sum + s.jobs.countP (·.isOn p)

/-- Where the references on a Context are. In linux_aio the context pointers have them. -/
def RefsOk (b : Backend) (s : State) : Prop :=
  match b with
  | .threadAio => ∀ k, s.ctxRefs k =
      s.ctxUsers k + (s.calls.map (·.refs k)).sum + s.jobs.countP (·.inFlight k)
  | .linuxAio => Preimages.Finite s.ctx ∧
      (∀ k, s.ctxRefs k = s.ctxUsers k + Preimages.count s.ctx k) ∧
      ∀ e ∈ s.jobs, e.pc = .queued ∨ e.pc = .completed

structure Inv (b : Backend) (s : State) : Prop where
  claims : ∀ p, s.claimCount p = (s.inProgress p).toNat
  intact : s.Intact
  refs : s.RefsOk b

theorem Init.inv (h : Init s) : Inv b s := by
  have hcalls : ∀ d, d ∉ s.calls := fun d hd => by
    rw [h.calls] at hd
    cases hd
  have hjobs : ∀ e, e ∉ s.jobs := fun e he => by
    rw [h.jobs] at he
    cases he
  refine ⟨fun p => ?_, ⟨fun d hd => absurd hd (hcalls d), fun e he => absurd he (hjobs e)⟩, ?_⟩
  · rw [claimCount, h.calls, h.jobs, h.inProgress]
    rfl
  · cases b with
    | threadAio =>
      intro k
      rw [h.calls, h.jobs, h.refs]
      rfl
    | linuxAio =>
      have hctx : s.ctx = fun _ => none := funext h.ctx
      refine ⟨hctx ▸ Preimages.finite_none, fun k => ?_, fun e he => absurd he (hjobs e)⟩
      rw [hctx, h.refs, Preimages.count_none]
      rfl

theorem onCall_eq_some {f : Call → Option State} (h : s.onCall c f = some t) :
    ∃ d, s.calls[c]? = some d ∧ f d = some t := Option.bind_eq_some_iff.mp h

theorem onJob_eq_some {f : Job → Option State} (h : s.onJob j f = some t) :
    ∃ e, s.jobs[j]? = some e ∧ f e = some t := Option.bind_eq_some_iff.mp h

theorem claimCount_setCall (hd : s.calls[c]? = some d) (d' : Call) (p : OpPtr) :
    (s.setCall c d').claimCount p + d.claims.count p = s.claimCount p + d'.claims.count p := by
  have hset := sum_map_set hd d' fun d => d.claims.count p
  show (((s.calls.set c d').map _).sum + s.jobs.countP _) + _ = _ + s.jobs.countP _ + _
  omega

theorem claimCount_setJob (he : s.jobs[j]? = some e) (e' : Job) (hop : e'.op = e.op) (p : OpPtr) :
    (s.setJob j e').claimCount p = s.claimCount p := by
  show (s.calls.map _).sum + (s.jobs.set j e').countP _ = _
  have hsame : e'.isOn p = e.isOn p := by rw [Job.isOn, Job.isOn, hop]
  have hcount : (s.jobs.set j e').countP (·.isOn p) = s.jobs.countP (·.isOn p) :=
    countP_set_of_eq he hsame
  rw [hcount]
  rfl

theorem live_eq_false (hcalls : ∀ d ∈ s.calls, p ∉ d.held)
    (hjobs : ∀ e ∈ s.jobs, e.op = p → e.pc ≠ .queued) : s.live p = false := by
  apply Bool.or_eq_false_iff.mpr
  constructor
  · apply List.any_eq_false.mpr
    intro d hd hmem
    exact hcalls d hd (of_decide_eq_true hmem)
  · apply List.any_eq_false.mpr
    intro e he hmem
    obtain ⟨hop, hpc⟩ := of_decide_eq_true hmem
    exact hjobs e he hop hpc

theorem not_held (h : s.live p = false) (hd : d ∈ s.calls) : p ∉ d.held := by
  intro hmem
  have := List.any_eq_false.mp (Bool.or_eq_false_iff.mp h).1 d hd
  exact this (decide_eq_true hmem)

theorem not_queued (h : s.live p = false) (he : e ∈ s.jobs) (hop : e.op = p) : e.pc ≠ .queued := by
  intro hpc
  have := List.any_eq_false.mp (Bool.or_eq_false_iff.mp h).2 e he
  exact this (decide_eq_true ⟨hop, hpc⟩)

/-- The claim of a call that has not set the pointer yet is the only one. -/
theorem not_live_of_claiming (hclaims : s.claimCount p ≤ 1) (hd : s.calls[c]? = some d)
    (hpc : d.pc = .claiming p) : s.live p = false := by
  have hown : d.claims.count p = d.claimed.count p + 1 := by
    rw [Call.claims, hpc, List.count_append, CallPc.claims, List.count_singleton_self]
  have hsum := le_sum_map hd fun d => d.claims.count p
  unfold claimCount at hclaims
  apply live_eq_false
  · intro d' hd' hmem
    obtain ⟨i, hi⟩ := List.mem_iff_getElem?.mp hd'
    by_cases hic : i = c
    · subst hic
      cases hi.symm.trans hd
      rw [Call.held, hpc] at hmem
      change p ∈ d.claimed ++ [] at hmem
      rw [List.append_nil] at hmem
      have := List.count_pos_iff.mpr hmem
      omega
    · have htwo := add_le_sum_map hi hd hic fun d => d.claims.count p
      have := List.count_pos_iff.mpr (Call.mem_claims hmem)
      omega
  · intro e he hop
    have : 0 < s.jobs.countP (·.isOn p) := List.countP_pos_iff.mpr ⟨e, he, decide_eq_true hop⟩
    omega

theorem not_live_of_job (hclaims : s.claimCount e.op ≤ 1) (he : s.jobs[j]? = some e)
    (hpc : e.pc ≠ .queued) : s.live e.op = false := by
  have hown : 0 < s.jobs.countP (·.isOn e.op) := countP_pos_of_getElem? he (decide_eq_true rfl)
  unfold claimCount at hclaims
  apply live_eq_false
  · intro d hd hmem
    obtain ⟨i, hi⟩ := List.mem_iff_getElem?.mp hd
    have hsum := le_sum_map hi fun d => d.claims.count e.op
    have := List.count_pos_iff.mpr (Call.mem_claims hmem)
    omega
  · intro e' he' hop
    obtain ⟨i, hi⟩ := List.mem_iff_getElem?.mp he'
    have hij : i = j := eq_of_countP_le_one (by omega : s.jobs.countP (·.isOn e.op) ≤ 1) hi he
      (decide_eq_true hop) (decide_eq_true rfl)
    subst hij
    cases hi.symm.trans he
    exact hpc

theorem Intact.setCtx (h : s.Intact) (hlive : s.live p = false) (v : Option CtxId) :
    (s.setCtx p v).Intact := by
  refine ⟨fun d hd q hq => ?_, fun e he => (h.jobs e he).update (not_queued hlive he)⟩
  show Function.update s.ctx p v q = _
  rw [Function.update_of_ne fun heq : q = p => not_held hlive hd (heq ▸ hq)]
  exact h.calls d hd q hq

theorem Intact.setCall (h : s.Intact) (hd : s.calls[c]? = some d) {d' : Call}
    (hd' : ∀ p ∈ d'.held, p ∈ d.held ∨ s.ctx p = some d'.ctx) (hctx : d'.ctx = d.ctx) :
    (s.setCall c d').Intact := by
  refine ⟨fun x hx p hp => ?_, h.jobs⟩
  rcases Table.mem_set_cases hx with rfl | ⟨i, -, hi⟩
  · rcases hd' p hp with hold | hnew
    · rw [hctx]
      exact h.calls d (List.mem_of_getElem? hd) p hold
    · exact hnew
  · exact h.calls x (List.mem_of_getElem? hi) p hp

theorem Intact.setJob (h : s.Intact) {e' : Job} (he' : e'.Ok s.ctx) : (s.setJob j e').Intact := by
  refine ⟨h.calls, fun x hx => ?_⟩
  rcases Table.mem_set_cases hx with rfl | ⟨i, -, hi⟩
  · exact he'
  · exact h.jobs x (List.mem_of_getElem? hi)

theorem RefsOk.setCall (h : s.RefsOk b) (hd : s.calls[c]? = some d) {d' : Call}
    (hrefs : ∀ k, d'.refs k = d.refs k) : (s.setCall c d').RefsOk b := by
  cases b with
  | threadAio =>
    intro k
    have hset := sum_map_set hd d' (·.refs k)
    have hold := h k
    have hsame := hrefs k
    show s.ctxRefs k = s.ctxUsers k + ((s.calls.set c d').map _).sum + s.jobs.countP _
    omega
  | linuxAio => exact h

theorem xdecref_apply {refs : CtxId → ℕ} {o : Option CtxId} (hpos : ∀ k, o = some k → 0 < refs k)
    (k : CtxId) : xdecref refs o k + (decide (o = some k)).toNat = refs k := by
  cases o with
  | none =>
    rw [decide_eq_false fun h => by cases h]
    rfl
  | some k' =>
    show drop refs k' k + _ = _
    rw [drop_apply]
    by_cases hk : k = k'
    · have := hpos k' rfl
      rw [hk, if_pos rfl, decide_eq_true rfl, Bool.toNat_true]
      omega
    · rw [if_neg hk, decide_eq_false fun h => hk (Option.some.inj h).symm]
      rfl

/-- In linux_aio the old pointer gives its reference back and the new one has one. -/
theorem refsOk_linux (h : s.RefsOk .linuxAio) (p : OpPtr) (v : Option CtxId) (k : CtxId) :
    xdecref s.ctxRefs (s.ctx p) k + (decide (v = some k)).toNat =
      s.ctxUsers k + Preimages.count (Function.update s.ctx p v) k := by
  obtain ⟨hfinite, hrefs, -⟩ := h
  have hpos : ∀ k, s.ctx p = some k → 0 < s.ctxRefs k := by
    intro k hk
    have hcount := hfinite.count_eq p k
    rw [decide_eq_true hk, Bool.toNat_true] at hcount
    rw [hrefs]
    omega
  have hdecref := xdecref_apply hpos k
  have hupdate := Preimages.count_update hfinite p v k
  have := hrefs k
  omega

end State

end Caio.FreeThreading
