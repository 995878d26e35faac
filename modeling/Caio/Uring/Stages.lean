import Caio.Lib.OneShot
import Caio.Uring.Lifecycle

namespace Caio.Uring

open OneShot

namespace AIOOperation

/-- A value of `get_value()`, by the content of the bytes objects. -/
abbrev Answer := (BytesId → List UInt8) → Except PyErr Value

def stage (op : AIOOperation) : Stage Answer :=
  .ofFlags op.inProgress op.done fun bytes => op.getValue bytes

end AIOOperation

namespace World

variable {s t : World} {c : CtxId} {p q : OpPtr}

def Lives (s : World) (p : OpPtr) : Prop := 0 < (s.heap.ops p).refcnt

def stage (s : World) (p : OpPtr) : Stage AIOOperation.Answer := (s.heap.ops p).stage

theorem Inv.lives (h : Inv s) (hfly : s.stage p = .inFlight) : s.Lives p := by
  obtain ⟨hactive, hdone⟩ := Stage.ofFlags_eq_inFlight_iff.mp hfly
  have hrefs := h.owner.refs p
  rw [AIOOperation.inFlight, hactive, hdone] at hrefs
  show 0 < (s.heap.ops p).refcnt
  rw [hrefs]
  exact Nat.lt_of_lt_of_le (Nat.lt_add_left _ Nat.one_pos) (Nat.le_add_right _ _)

/-- What is there after a step was there before, and has gone forwards if anything. -/
def Forwards (s t : World) (p : OpPtr) : Prop := t.Lives p → s.Lives p ∧ s.stage p ≤ t.stage p

theorem Forwards.of_ops (h : t.heap.ops p = s.heap.ops p) : Forwards s t p := by
  intro hlive
  rw [Lives, h] at hlive
  rw [stage, stage, h]
  exact ⟨hlive, le_rfl⟩

theorem Forwards.of_modify {f : AIOOperation → AIOOperation} (hheap : t.heap = s.heap.modify q f)
    (hlive : s.Lives q) (hf : (f (s.heap.ops q)).stage = (s.heap.ops q).stage) :
    Forwards s t p := by
  by_cases hp : p = q
  · subst hp
    intro _
    rw [stage, stage, hheap, Heap.modify_ops_self, hf]
    exact ⟨hlive, le_rfl⟩
  · exact .of_ops (by rw [hheap, Heap.modify_ops_ne _ _ hp])

theorem Forwards.of_release (hheap : t.heap = s.heap.release q) : Forwards s t p := by
  by_cases hp : p = q
  · subst hp
    intro hlive
    rw [Lives, hheap] at hlive
    rw [stage, stage, hheap]
    unfold Heap.release at hlive ⊢
    split_ifs at hlive ⊢ with hone
    · rw [Heap.dealloc, Heap.modify_ops_self, Heap.xdecrefCtx_ops, Heap.decref,
        Heap.modify_ops_self] at hlive
      exact absurd hlive (by simp [hone])
    · rw [Heap.decref, Heap.modify_ops_self] at hlive ⊢
      exact ⟨Nat.lt_of_lt_of_le hlive (Nat.sub_le _ _), le_rfl⟩
  · exact .of_ops (by rw [hheap, release_ops_ne _ hp])

theorem Inv.submit_forwards (h : Inv s) {args : List Arg} (hargs : ∀ a ∈ args, s.Holds a)
    (p : OpPtr) : Forwards s (s.submit c args).1 p := by
  obtain ⟨_, hres, -⟩ | hops := submit_cases s c args
  · rw [hres]
    exact .of_ops rfl
  · obtain ⟨ring, heap, result, looked, staged, hrun, hsub, hend⟩ :=
      h.submitted c (operations args)
    rw [hops, submitOps, hrun]
    by_cases hmem : p ∈ staged
    · have hlooked : p ∈ operations args := by
        obtain ⟨rfl, -⟩ | ⟨q, post, heq, -⟩ := hend
        · exact (hsub.fresh p hmem).1
        · rw [heq]
          exact List.mem_append_left _ (hsub.fresh p hmem).1
      have hlive : s.Lives p := by
        obtain ⟨a, ha, hap⟩ := List.mem_filterMap.mp hlooked
        cases a with
        | operation q =>
          cases hap
          exact h.refcnt_pos (hargs _ ha)
        | other => cases hap
      have hfree := (hsub.fresh p hmem).2.1
      refine fun _ => ⟨hlive, ?_⟩
      show s.stage p ≤ (heap.ops p).stage
      rw [hsub.heap, claimAll_ops_of_mem hmem hsub.nodup]
      exact Stage.ofFlags_le (h.owner.done_false hfree) fun _ => rfl
    · refine .of_ops ?_
      show heap.ops p = s.heap.ops p
      rw [hsub.heap, claimAll_ops_of_not_mem hmem]

theorem Inv.drain_forwards (h : Inv s) (max : UInt32) (p : OpPtr) :
    Forwards s (s.drain c max).1 p := by
  obtain ⟨heap, cq, scan, es, hrun, hd⟩ := drainCq_spec s.heap (s.ctxs c).cq max
  have hperm := Context.drained_requests hd
  simp only [World.drain, hrun]
  by_cases hmem : p ∈ scan.batch.map Prod.fst
  · have hreq : p ∈ (s.ctxs c).requests := hperm.mem_iff.mpr (List.mem_append_left _ hmem)
    have hfly := ((h.owner.carries p c).mp hreq).1
    have hnodup := (List.nodup_append.mp (hperm.nodup_iff.mp (h.owner.nodup c))).1
    rw [AIOOperation.inFlight, Bool.and_eq_true, Bool.not_eq_true'] at hfly
    refine fun _ => ⟨h.lives (Stage.ofFlags_eq_inFlight_iff.mpr hfly), ?_⟩
    show s.stage p ≤ (heap.ops p).stage
    obtain ⟨x, hx, rfl⟩ := List.mem_map.mp hmem
    rw [hd.heap, finaliseAll_ops_of_mem hx hnodup]
    exact Stage.ofFlags_le hfly.2 fun _ => hfly.1
  · refine .of_ops ?_
    show heap.ops p = s.heap.ops p
    rw [hd.heap, finaliseAll_ops_of_not_mem hmem]

theorem Forwards.trans {u : World} (h : Forwards s t p) (h' : Forwards t u p) :
    Forwards s u p := by
  intro hlive
  obtain ⟨hlive, hle'⟩ := h' hlive
  obtain ⟨hlive, hle⟩ := h hlive
  exact ⟨hlive, hle.trans hle'⟩

theorem forwards_kept (s : World) (c : CtxId) (p : OpPtr) :
    Kept c fun u => Inv u ∧ Forwards s u p :=
  ⟨fun hu hs => ⟨hu.1.kernelStep hs, hu.2.trans (.of_ops (by rw [kernelStep_heap hs]))⟩,
    fun hu => ⟨hu.1.moveBacklog, hu.2⟩,
    fun max hu => ⟨hu.1.drain max, hu.2.trans (hu.1.drain_forwards max p)⟩⟩

theorem newOp_forwards {op : AIOOperation} (hop : op.stage = .idle)
    (hs : s.newOp q op = some t) (p : OpPtr) :
    Forwards s t p ∨ ¬s.Lives p ∧ t.stage p = .idle := by
  obtain ⟨⟨-, hfree⟩, heq⟩ := Option.ite_none_right_eq_some.mp hs
  cases heq
  by_cases hp : p = q
  · subst hp
    refine .inr ⟨?_, ?_⟩
    · rw [Lives, hfree]
      exact Nat.lt_irrefl 0
    · show ((s.heap.modify p fun _ => op).ops p).stage = _
      rw [Heap.modify_ops_self, hop]
  · exact .inl (.of_ops (Heap.modify_ops_ne s.heap (fun _ => op) hp))

theorem Inv.forwards (h : Inv s) {a : Action} (hs : s.step a = some t) (p : OpPtr) :
    Forwards s t p ∨ ¬s.Lives p ∧ t.stage p = .idle := by
  cases a with
  | newRead q nbytes fileno offset pyBuffer =>
    obtain ⟨-, hs⟩ := Option.ite_none_left_eq_some.mp hs
    exact newOp_forwards rfl hs p
  | newWrite q payloadBytes fileno offset =>
    obtain ⟨-, hs⟩ := Option.ite_none_right_eq_some.mp hs
    exact newOp_forwards rfl hs p
  | newFsync q fileno | newFdsync q fileno => exact newOp_forwards rfl hs p
  | newBytes b content =>
    obtain ⟨-, hs⟩ := Option.ite_none_left_eq_some.mp hs
    cases hs
    exact .inl (.of_ops rfl)
  | newContext c k | increfCtx c | decrefCtx c =>
    obtain ⟨-, hs⟩ := Option.ite_none_right_eq_some.mp hs
    cases hs
    exact .inl (.of_ops rfl)
  | incref q =>
    obtain ⟨hlive, hs⟩ := Option.ite_none_right_eq_some.mp hs
    cases hs
    exact .inl (.of_modify (f := fun op => { op with refcnt := op.refcnt + 1 }) rfl hlive rfl)
  | setCallback q callback =>
    obtain ⟨hheld, hs⟩ := Option.ite_none_right_eq_some.mp hs
    cases hs
    exact .inl (.of_modify (f := fun op => op.setCallback callback) rfl (h.refcnt_pos hheld) rfl)
  | decref q | endTurn x =>
    obtain ⟨-, hs⟩ := Option.ite_none_right_eq_some.mp hs
    cases hs
    exact .inl (.of_release rfl)
  | payload q =>
    obtain ⟨-, hs⟩ := Option.ite_none_right_eq_some.mp hs
    cases hs
    unfold World.payload
    split <;> exact .inl (.of_ops rfl)
  | getValue q new =>
    obtain ⟨-, hs⟩ := Option.ite_none_right_eq_some.mp hs
    cases hs
    unfold World.getValue
    split <;> exact .inl (.of_ops rfl)
  | submit c args =>
    obtain ⟨⟨-, hargs⟩, hs⟩ := Option.ite_none_right_eq_some.mp hs
    cases hs
    exact .inl (h.submit_forwards hargs p)
  | cancel c q =>
    obtain ⟨-, hs⟩ := Option.ite_none_right_eq_some.mp hs
    cases hs
    unfold World.cancel
    split <;> exact .inl (.of_ops rfl)
  | flush c needWakeup calls =>
    obtain ⟨-, hs⟩ := Option.ite_none_right_eq_some.mp hs
    obtain ⟨⟨u, r⟩, hu, rfl⟩ := Option.map_eq_some_iff.mp hs
    exact .inl ((forwards_kept s c p).flush ⟨h, .of_ops rfl⟩ hu).2
  | processEvents c maxRequests minRequests tvSec turns =>
    obtain ⟨-, hs⟩ := Option.ite_none_right_eq_some.mp hs
    obtain ⟨⟨u, r⟩, hu, rfl⟩ := Option.map_eq_some_iff.mp hs
    exact .inl ((forwards_kept s c p).processEvents ⟨h, .of_ops rfl⟩ hu).2
  | kernel c a => exact .inl (.of_ops (by rw [kernelStep_heap hs]))

theorem born_idle (h : system.Reachable s) {a : Action} (hs : s.step a = some t)
    (hbefore : ¬s.Lives p) (hafter : t.Lives p) : t.stage p = .idle := by
  rcases (inv_of_reachable h).forwards hs p with hforwards | ⟨-, hidle⟩
  · exact absurd (hforwards hafter).1 hbefore
  · exact hidle

theorem tasks : Tasks system Lives stage := by
  apply Tasks.of_step
  · intro s hs p
    obtain ⟨-, hfree, hdone, -⟩ := hs.ops p
    exact Stage.ofFlags_eq_idle hfree hdone
  · intro s hs p hfly
    exact (inv_of_reachable hs).lives hfly
  · intro s a t hs hstep p hbefore hafter
    rcases (inv_of_reachable hs).forwards hstep p with hforwards | ⟨hdead, -⟩
    · exact (hforwards hafter).2
    · exact absurd hbefore hdead

end World

end Caio.Uring
