import Caio.Lib.OneShot
import Caio.ThreadAio.Jobs

namespace Caio.ThreadAio

open OneShot

namespace AIOOperation

/-- A value of `get_value()`, by what lies at the addresses. -/
abbrev Answer := (UInt64 → List UInt8) → Except PyErr Value

def stage (op : AIOOperation) : Stage Answer :=
  .ofFlags op.inProgress op.done fun memory => op.getValue memory

end AIOOperation

/-- A task that is over has made a system call. -/
def JobPc.Effective : JobPc → Prop
  | .called _ o _ | .leaving _ o _ | .finished _ o _ => o.isSome
  | _ => True

namespace World

variable {s t : World} {j : ℕ} {b : Job} {p : OpPtr}

def Lives (s : World) (p : OpPtr) : Prop := 0 < (s.heap.ops p).refcnt

def stage (s : World) (p : OpPtr) : Stage AIOOperation.Answer := (s.heap.ops p).stage

def fresh : TransitionSystem World Action :=
  system.startingIn fun s => ∀ p, (s.heap.ops p).opcode ≠ .noop

structure Effective (s : World) : Prop where
  opcode : ∀ p, (s.heap.ops p).opcode ≠ .noop
  job : ∀ b ∈ s.jobs, b.pc.Effective

theorem Moves.opcode {op op' : AIOOperation} {pc pc' : JobPc} (h : Moves op pc op' pc') :
    op'.opcode = op.opcode := by
  cases h <;> rfl

theorem Moves.effective {op op' : AIOOperation} {pc pc' : JobPc} (h : Moves op pc op' pc')
    (hop : op.opcode ≠ .noop) (hpc : pc.Effective) : pc'.Effective := by
  cases h with
  | noop hnone =>
    unfold AIOOperation.syscall AIOOperation.take at hnone
    cases hcode : op.opcode with
    | noop => exact absurd hcode hop
    | read | write | fsync | fdsync =>
      rw [hcode] at hnone
      cases hnone
  | silent | returns => exact rfl
  | releaseCtx | releaseOp => exact hpc
  | _ => trivial

theorem Effective.step (hinv : Inv s) (h : Effective s) {a : Action} (hs : s.step a = some t) :
    Effective t := by
  rcases step_cases hs with ⟨k, args, rfl⟩ | ⟨hjobs, hsame⟩ | ⟨j, b, pc, hgo⟩
  · obtain ⟨queued, hq⟩ := submit_queues hinv.clean hs
    refine ⟨fun p => ?_, fun b hb => ?_⟩
    · rw [hq.ops]
      split_ifs <;> exact h.opcode p
    · rw [hq.jobs] at hb
      rcases List.mem_append.mp hb with hb | hb
      · exact h.job b hb
      · obtain ⟨p, -, rfl⟩ := List.mem_map.mp hb
        trivial
  · refine ⟨fun p => ?_, hjobs ▸ h.job⟩
    obtain ⟨callback, refcnt, hop⟩ := hsame p
    rw [hop]
    exact h.opcode p
  · refine ⟨fun p => ?_, fun d hd => ?_⟩
    · by_cases hp : p = b.op
      · rw [hp, hgo.moves.opcode]
        exact h.opcode b.op
      · rw [hgo.others p hp]
        exact h.opcode p
    · rw [hgo.jobs] at hd
      rcases Table.mem_set_cases hd with rfl | ⟨i, -, hd⟩
      · exact hgo.moves.effective (h.opcode b.op) (h.job b (List.mem_of_getElem? hgo.job))
      · exact h.job d (List.mem_of_getElem? hd)

theorem effective (h : fresh.Reachable s) : Effective s := by
  apply h.invariant_with (J := Inv) (fun s hs => inv (.of_startingIn hs))
  · rintro s ⟨hinit, hcodes⟩
    refine ⟨hcodes, fun b hb => ?_⟩
    rw [hinit.jobs] at hb
    cases hb
  · intro s a t hinv heff _ hs
    exact heff.step hinv hs

theorem Effective.done_of_finished (h : Effective s) (hinv : Inv s) (hb : s.jobs[j]? = some b)
    (hover : b.pc.holdsOp = false) : (s.heap.ops b.op).done = true := by
  have hok := hinv.job j b hb
  have heff := h.job b (List.mem_of_getElem? hb)
  rw [Job.Ok] at hok
  cases hpc : b.pc with
  | finished k o callback =>
    rw [hpc] at hok heff
    obtain ⟨o', ho⟩ := Option.isSome_iff_exists.mp heff
    exact (hok.2 o' ho).1
  | _ =>
    rw [hpc] at hover
    cases hover

theorem lives_of_inFlight (h : fresh.Reachable s) (hfly : s.stage p = .inFlight) : s.Lives p := by
  obtain ⟨hactive, hdone⟩ := Stage.ofFlags_eq_inFlight_iff.mp hfly
  have hinv := inv (.of_startingIn h)
  have hone : 0 < s.jobs.countP (·.isOn p) := by
    rw [hinv.claims, hactive]
    exact Nat.one_pos
  obtain ⟨b, hb, hp⟩ := List.countP_pos_iff.mp hone
  obtain rfl : b.op = p := of_decide_eq_true hp
  obtain ⟨j, hj⟩ := List.mem_iff_getElem?.mp hb
  have hholds : b.pc.holdsOp = true := by
    cases hover : b.pc.holdsOp with
    | true => rfl
    | false =>
      rw [(effective h).done_of_finished hinv hj hover] at hdone
      cases hdone
  have hpos : 0 < s.jobs.countP (·.holdsOp b.op) := by
    apply List.countP_pos_iff.mpr ⟨b, hb, ?_⟩
    rw [Job.holdsOp, decide_eq_true rfl, hholds]
    rfl
  show 0 < (s.heap.ops b.op).refcnt
  rw [hinv.opRefs]
  exact Nat.add_pos_right _ hpos

/-- The worker stores to the Operation until it publishes it, and never afterwards. -/
theorem Moves.stage_le {op op' : AIOOperation} {pc' : JobPc} (hok : b.Ok op)
    (h : Moves op b.pc op' pc') : op.stage ≤ op'.stage := by
  rw [Job.Ok] at hok
  generalize b.pc = pc at hok h
  cases h with
  | take | noop => exact Stage.ofFlags_le hok.2 id
  | syscall | publish => exact Stage.ofFlags_le hok.2.1 id
  | _ => exact le_rfl

theorem forwards (h : system.Reachable s) {a : Action} (hs : s.step a = some t) (p : OpPtr) :
    s.stage p ≤ t.stage p := by
  have hinv := inv h
  rcases step_cases hs with ⟨k, args, rfl⟩ | ⟨-, hsame⟩ | ⟨j, b, pc, hgo⟩
  · obtain ⟨queued, hq⟩ := submit_queues hinv.clean hs
    rw [stage, stage, hq.ops]
    split_ifs with hp
    · exact Stage.ofFlags_le (hinv.fresh p (hq.free p hp)) fun _ => rfl
    · exact le_rfl
  · obtain ⟨callback, refcnt, hop⟩ := hsame p
    rw [stage, stage, hop]
    exact le_rfl
  · by_cases hp : p = b.op
    · rw [hp]
      exact hgo.moves.stage_le (hinv.job j b hgo.job)
    · rw [stage, stage, hgo.others p hp]

theorem tasks : Tasks fresh Lives stage := by
  apply Tasks.of_step
  · intro s hs p
    exact Stage.ofFlags_eq_idle (hs.1.inProgress p) (hs.1.done p)
  · intro s hs p hfly
    exact lives_of_inFlight hs hfly
  · intro s a t hs hstep p _ _
    exact forwards (.of_startingIn hs) hstep p

end World

end Caio.ThreadAio
