import Caio.Lib.OneShot
import Caio.PythonAio.Slots

namespace Caio.PythonAio.World

open Counting OneShot

variable {s t : World} {i j : ℕ} {c : Call} {b : Job} {p : OpId}

def scheduled (s : World) (p : OpId) : ℕ := s.jobs.countP (·.isOn p)

def recorded (s : World) (p : OpId) : ℕ :=
  s.jobs.countP fun b => b.isOn p && b.pc.result?.isSome

def stage (s : World) (p : OpId) : Stage (Except PyErr Value) :=
  .ofFlags (decide (0 < s.scheduled p)) (decide (0 < s.recorded p)) (s.ops p).getValue

/-- What a step does to the jobs and to the values of the Operations. -/
inductive JobStep (s t : World) : Prop
  | quiet (hjobs : t.jobs = s.jobs) (hops : ∀ p, (t.ops p).getValue = (s.ops p).getValue)
  | schedule (k : CtxId) (p : OpId) (hheld : 0 < s.ledger.held p)
      (hjobs : t.jobs = s.jobs ++ [{ ctx := k, op := p }])
      (hops : ∀ q, (t.ops q).getValue = (s.ops q).getValue)
  | goes (j : ℕ) (b : Job) (pc : JobPc) (hb : s.jobs[j]? = some b)
      (hjobs : t.jobs = s.jobs.set j { b with pc }) (hops : ∀ p, p ≠ b.op → t.ops p = s.ops p)
      (hself : b.pc.result? = none ∨
        b.pc.result?.isSome ∧ pc.result?.isSome ∧ t.ops b.op = s.ops b.op)

theorem modifyOp_getValue (s : World) (q : OpId) {f : Operation → Operation}
    (hf : (f (s.ops q)).getValue = (s.ops q).getValue) (p : OpId) :
    ((s.modifyOp q f).ops p).getValue = (s.ops p).getValue := by
  by_cases hp : p = q
  · rw [hp, modifyOp_self, hf]
  · rw [modifyOp_ne s f hp]

theorem step_jobs {a : Action} (hs : s.step a = some t) : JobStep s t := by
  cases a with
  | submit k args =>
    simp only [step] at hs
    split at hs
    all_goals
      cases hs
      exact .quiet rfl fun _ => rfl
  | execute i =>
    obtain ⟨c, hc, hs⟩ := onCall_eq_some hs
    split at hs
    case h_1 =>
      cases hs
      exact .quiet rfl fun _ => rfl
    case h_2 q qs hpc hrest =>
      cases hs
      unfold execute
      split_ifs
      · exact .quiet rfl fun _ => rfl
      · exact .quiet rfl fun _ => rfl
      · exact .quiet rfl fun _ => rfl
      · exact .quiet rfl (modifyOp_getValue s q (f := fun op => { op with inProgress := true }) rfl)
    case h_3 => cases hs
  | applyAsync i exc =>
    obtain ⟨c, hc, hs⟩ := onCall_eq_some hs
    split at hs
    case h_1 q hpc _ =>
      obtain ⟨-, hs⟩ := Option.ite_none_right_eq_some.mp hs
      cases hs
      refine .schedule c.ctx q ?_ rfl fun _ => rfl
      apply countP_pos_of_getElem? hc
      rw [Call.holds, Call.held, hpc]
      exact decide_eq_true rfl
    case h_2 =>
      cases hs
      exact .quiet rfl fun _ => rfl
    case h_3 => cases hs
  | rollbackClaim i =>
    obtain ⟨c, hc, hs⟩ := onCall_eq_some hs
    split at hs
    case h_1 q exc hpc =>
      cases hs
      exact .quiet rfl (modifyOp_getValue s q (f := fun op => { op with inProgress := false }) rfl)
    case h_2 => cases hs
  | run j returned =>
    obtain ⟨b, hb, hs⟩ := onJob_eq_some hs
    split at hs
    case h_1 hpc =>
      cases hs
      refine .goes j b _ hb rfl (fun q hq => Function.update_of_ne hq ..) (.inl ?_)
      rw [hpc]
      rfl
    case h_2 => cases hs
  | releaseSlot j =>
    obtain ⟨b, hb, hs⟩ := onJob_eq_some hs
    split at hs
    case h_1 result hpc =>
      cases hs
      refine .goes j b _ hb rfl (fun _ _ => rfl) (.inl ?_)
      rw [hpc]
      rfl
    case h_2 => cases hs
  | record j =>
    obtain ⟨b, hb, hs⟩ := onJob_eq_some hs
    split at hs
    case h_1 result hpc =>
      cases hs
      refine .goes j b _ hb rfl (fun q hq => Function.update_of_ne hq ..) (.inl ?_)
      rw [hpc]
      rfl
    case h_2 => cases hs
  | invokeCallback j =>
    obtain ⟨b, hb, hs⟩ := onJob_eq_some hs
    split at hs
    case h_1 result hpc =>
      cases hs
      refine .goes j b _ hb rfl (fun _ _ => rfl) (.inr ⟨?_, rfl, rfl⟩)
      rw [hpc]
      rfl
    case h_2 => cases hs
  | setCallback q callback =>
    cases hs
    exact .quiet rfl
      (modifyOp_getValue s q (f := fun op => { op with callback := some callback }) rfl)
  | close k =>
    cases hs
    unfold close
    split_ifs <;> exact .quiet rfl fun _ => rfl

theorem recorded_eq_zero (h : s.ledger.Balanced) (hb : s.jobs[j]? = some b)
    (hnone : b.pc.result? = none) : s.recorded b.op = 0 := by
  apply List.countP_eq_zero.mpr
  intro d hd hon
  obtain ⟨hop, hsome⟩ := Bool.and_eq_true_iff.mp hon
  obtain ⟨i, hi⟩ := List.mem_iff_getElem?.mp hd
  by_cases hij : i = j
  · subst hij
    rw [Option.some.inj (hi.symm.trans hb), hnone] at hsome
    cases hsome
  · exact ne_op h hb hi hij (of_decide_eq_true hop).symm

theorem scheduled_set (hb : s.jobs[j]? = some b) (pc : JobPc) (hjobs : t.jobs = s.jobs.set j
    { b with pc }) (p : OpId) : t.scheduled p = s.scheduled p := by
  rw [scheduled, hjobs]
  exact countP_set_of_eq hb rfl

theorem forwards (h : system.Reachable s) {a : Action} (hs : s.step a = some t) (p : OpId) :
    s.stage p ≤ t.stage p := by
  have hledger := balanced h
  cases step_jobs hs with
  | quiet hjobs hops =>
    have hscheduled : t.scheduled p = s.scheduled p := by rw [scheduled, hjobs, scheduled]
    have hrecorded : t.recorded p = s.recorded p := by rw [recorded, hjobs, recorded]
    rw [stage, stage, hscheduled, hrecorded, hops]
  | schedule k q hheld hjobs hops =>
    have hgrow : s.scheduled p ≤ t.scheduled p := by
      rw [scheduled, scheduled, hjobs, countP_append_one]
      exact Nat.le_add_right _ _
    by_cases hp : p = q
    · -- a held Operation has no job
      subst hp
      have howner := hledger.owner p
      have hone := Bool.toNat_le (s.ledger.claimed p)
      have hnone : s.recorded p = 0 := by
        have hle : s.recorded p ≤ s.ledger.scheduled p :=
          List.countP_mono_left fun b _ hon => (Bool.and_eq_true_iff.mp hon).1
        omega
      exact Stage.ofFlags_le (decide_eq_false (by omega)) fun hpos =>
        decide_eq_true (Nat.lt_of_lt_of_le (of_decide_eq_true hpos) hgrow)
    · have hscheduled : t.scheduled p = s.scheduled p := by
        rw [scheduled, hjobs, countP_append_one, Job.isOn, decide_eq_false hp]
        rfl
      have hrecorded : t.recorded p = s.recorded p := by
        rw [recorded, hjobs, countP_append_one, Job.isOn, decide_eq_false hp]
        rfl
      rw [stage, stage, hscheduled, hrecorded, hops]
  | goes j b pc hb hjobs hops hself =>
    have hscheduled := scheduled_set hb pc hjobs p
    by_cases hp : p = b.op
    · subst hp
      rcases hself with hnone | ⟨hsome, hsome', hop⟩
      · exact Stage.ofFlags_le (decide_eq_false (by rw [recorded_eq_zero hledger hb hnone]; decide))
          fun hpos => by rwa [hscheduled]
      · have hrecorded : t.recorded b.op = s.recorded b.op := by
          rw [recorded, hjobs]
          exact countP_set_of_eq hb (by rw [hsome, hsome']; rfl)
        rw [stage, stage, hscheduled, hrecorded, hop]
    · have hrecorded : t.recorded p = s.recorded p := by
        rw [recorded, hjobs]
        apply countP_set_of_eq hb
        rw [Job.isOn, decide_eq_false hp, Job.isOn, decide_eq_false hp]
        rfl
      rw [stage, stage, hscheduled, hrecorded, hops p hp]

theorem tasks : Tasks system (fun _ _ => True) stage := by
  apply Tasks.of_step
  · intro s hs p
    apply Stage.ofFlags_eq_idle
    · rw [scheduled, hs.jobs]
      rfl
    · rw [recorded, hs.jobs]
      rfl
  · exact fun _ _ _ _ => trivial
  · intro s a t hs hstep p _ _
    exact forwards hs hstep p

end Caio.PythonAio.World
