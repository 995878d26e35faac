import Caio.Lib.LittleEndian
import Caio.Lib.Width
import Caio.ThreadAio.Execute

namespace Caio.ThreadAio

open LittleEndian

namespace AIOOperation

variable (op : AIOOperation)

/-- The bytes from `error` on: `error`, `in_progress`, `done` and a byte of padding. -/
def bytesFromError : Memory
  | 0 => op.error
  | 1 => if op.inProgress then 1 else 0
  | 2 => if op.done then 1 else 0
  | _ => 0

def errorMember : Int32 := Int32.ofNat (load op.bytesFromError 0 4)

theorem load_bytesFromError : load op.bytesFromError 0 4 =
    op.error.toNat + 256 * (op.inProgress.toNat + 256 * op.done.toNat) := by
  have hbyte : ∀ b : Bool, (if b = true then 1 else 0 : UInt8).toNat = b.toNat := by decide
  have hflags : load op.bytesFromError 1 3 = op.inProgress.toNat + 256 * op.done.toNat := by
    show (if op.inProgress = true then 1 else 0 : UInt8).toNat +
      256 * ((if op.done = true then 1 else 0 : UInt8).toNat + 0) = _
    rw [hbyte, hbyte, Nat.add_zero]
  have herror : load op.bytesFromError 0 1 = op.error.toNat := Nat.add_zero _
  rw [show 4 = 1 + 3 from rfl, load_add, herror, Nat.zero_add, hflags, Nat.pow_one]

theorem toInt_errorMember : op.errorMember.toInt =
    op.error.toNat + 256 * (op.inProgress.toNat + 256 * op.done.toNat) := by
  have herror := op.error.toNat_lt
  have hprogress := Bool.toNat_le op.inProgress
  have hdone := Bool.toNat_le op.done
  rw [errorMember, load_bytesFromError, Int32.toInt_ofNat_of_lt (by omega)]
  omega

/-- Not in flight, as `get_value` sees it. -/
def InFlight : Prop := (op.inProgress && !op.done) = true

instance : Decidable op.InFlight := inferInstanceAs (Decidable (_ = true))

theorem getValue_systemError_iff {op : AIOOperation} (hflight : ¬op.InFlight)
    (memory : UInt64 → List UInt8) :
    (∃ errno, op.getValue memory = .error (.systemError errno)) ↔ op.error ≠ 0 := by
  have hflight : ¬(op.inProgress && !op.done) = true := hflight
  unfold getValue
  rw [if_neg hflight]
  constructor
  · rintro ⟨errno, h⟩ herror
    rw [if_neg (not_not.mpr herror)] at h
    split at h
    · split_ifs at h
    · cases h
    · cases h
  · intro herror
    exact ⟨_, if_pos herror⟩

end AIOOperation

namespace World

variable {s t : World} {j : ℕ} {b : Job} {p : OpPtr}

/-- New Operations as the constructors return them: `tp_alloc` has zeroed `error`. -/
structure Constructed (s : World) : Prop where
  init : Init s
  error : ∀ p, (s.heap.ops p).error = 0

/-- The program at large, from Operations that the constructors have returned. -/
def constructed : TransitionSystem World Action := ⟨Constructed, step⟩

/-- An Operation without a task shows no error, and one whose task has published nothing is not
done. -/
structure Unpublished (s : World) : Prop where
  inv : Inv s
  error : ∀ p, (s.heap.ops p).inProgress = false → (s.heap.ops p).error = 0
  done : ∀ (j : ℕ) (b : Job), s.jobs[j]? = some b → b.pc.outcome? = none →
    (s.heap.ops b.op).done = false

theorem Constructed.unpublished (h : Constructed s) : Unpublished s := by
  refine ⟨h.init.inv, fun p _ => h.error p, fun j b hb _ => h.init.done b.op⟩

theorem Unpublished.submit (h : Unpublished s) {k : CtxId} {args : List Arg}
    (hs : s.step (.submit k args) = some t) : Unpublished t := by
  obtain ⟨queued, hq⟩ := submit_queues h.inv.clean hs
  refine ⟨h.inv.step hs, fun p hfree => ?_, fun j b hb hnone => ?_⟩
  · have hsame := hq.ops_of_free hfree
    rw [hsame] at hfree ⊢
    exact h.error p hfree
  · rcases hq.job_cases hb with hold | ⟨-, -, hqueued, -⟩
    · rw [hq.ops_of_active (h.inv.inProgress hold)]
      exact h.done j b hold hnone
    · rw [hq.ops, if_pos hqueued]
      exact h.inv.fresh b.op (hq.free b.op hqueued)

theorem Moves.unpublished {op op' : AIOOperation} {pc : JobPc} (h : Moves op b.pc op' pc)
    (hdone : b.pc.outcome? = none → op.done = false) (hnone : pc.outcome? = none) :
    op'.done = false := by
  generalize b.pc = from' at h hdone
  cases h with
  | pop | take | noop | syscall | releaseCtx | releaseOp => exact hdone hnone
  | publish | silent | invoke | returns => cases hnone

theorem Unpublished.step (h : Unpublished s) {a : Action} (hs : s.step a = some t) :
    Unpublished t := by
  have hinv := h.inv.step hs
  rcases step_cases hs with ⟨k, args, rfl⟩ | ⟨hjobs, hsame⟩ | ⟨j, b, pc, hgo⟩
  · exact h.submit hs
  · refine ⟨hinv, fun p hfree => ?_, fun j b hb hnone => ?_⟩
    · obtain ⟨callback, refcnt, heq⟩ := hsame p
      rw [heq] at hfree ⊢
      exact h.error p hfree
    · obtain ⟨callback, refcnt, heq⟩ := hsame b.op
      rw [hjobs] at hb
      rw [heq]
      exact h.done j b hb hnone
  · refine ⟨hinv, fun p hfree => ?_, fun i d hd hnone => ?_⟩
    · have hne := hgo.ne_of_free hinv hfree
      rw [hgo.others p hne] at hfree ⊢
      exact h.error p hfree
    · rw [hgo.jobs] at hd
      rcases Table.getElem?_set_cases hd with ⟨-, rfl⟩ | ⟨hij, hd⟩
      · exact hgo.moves.unpublished (h.done j b hgo.job) hnone
      · rw [hgo.others d.op (h.inv.ne_op hgo.job hd hij)]
        exact h.done i d hd hnone

theorem unpublished (h : constructed.Reachable s) : Unpublished s :=
  h.invariant (fun _ => Constructed.unpublished) fun _ _ _ h _ hs => h.step hs

theorem Unpublished.exists_outcome (h : Unpublished s) (hdone : (s.heap.ops p).done = true) :
    ∃ (j : ℕ) (b : Job) (o : Outcome), s.jobs[j]? = some b ∧ b.op = p ∧ b.pc.outcome? = some o := by
  have hpos : 0 < s.jobs.countP (·.isOn p) := by
    rw [h.inv.claims]
    cases hfree : (s.heap.ops p).inProgress with
    | true => exact Nat.one_pos
    | false => exact absurd ((h.inv.fresh p hfree).symm.trans hdone) Bool.false_ne_true
  obtain ⟨b, hmem, hop⟩ := List.countP_pos_iff.mp hpos
  have hop := of_decide_eq_true hop
  obtain ⟨j, hb⟩ := List.mem_iff_getElem?.mp hmem
  cases ho : b.pc.outcome? with
  | some o => exact ⟨j, b, o, hb, hop, ho⟩
  | none =>
    have hundone := h.done j b hb ho
    rw [hop, hdone] at hundone
    cases hundone

/-- `error` is non-zero exactly when `get_value()` raises `SystemError`, and is then the errno of
the failed transfer. -/
structure ErrorAgrees (s : World) (p : OpPtr) : Prop where
  raises : ∀ memory, (s.heap.ops p).errorMember ≠ 0 ↔
    ∃ errno, (s.heap.ops p).getValue memory = .error (.systemError errno)
  errno : (s.heap.ops p).errorMember ≠ 0 →
    ∃ (j : ℕ) (b : Job) (o : Outcome), s.jobs[j]? = some b ∧ b.op = p ∧
      b.pc.outcome? = some o ∧ o.result < 0 ∧ (s.heap.ops p).errorMember = o.errno

theorem errorMember_ne_zero_iff (op : AIOOperation) :
    op.errorMember ≠ 0 ↔ op.errorMember.toInt ≠ 0 :=
  not_congr Int32.toInt_inj.symm

theorem Unpublished.error_agrees (h : Unpublished s) (hflight : ¬(s.heap.ops p).InFlight)
    (hdone : (s.heap.ops p).done = false) : s.ErrorAgrees p := by
  have hfree : (s.heap.ops p).inProgress = false := by
    unfold AIOOperation.InFlight at hflight
    rw [hdone, Bool.not_false, Bool.and_true] at hflight
    exact Bool.eq_false_iff.mpr hflight
  have herror := h.error p hfree
  have hzero : (s.heap.ops p).errorMember.toInt = 0 := by
    rw [AIOOperation.toInt_errorMember, herror, hfree, hdone]
    rfl
  have hno : ¬(s.heap.ops p).errorMember ≠ 0 := by
    rw [errorMember_ne_zero_iff]
    exact not_not.mpr hzero
  refine ⟨fun memory => iff_of_false hno ?_, fun hne => absurd hne hno⟩
  rw [AIOOperation.getValue_systemError_iff hflight]
  exact not_not.mpr herror

theorem toInt_errorMember_of_done (h : Unpublished s) (hdone : (s.heap.ops p).done = true) :
    (s.heap.ops p).errorMember.toInt = (s.heap.ops p).error.toNat + 65792 := by
  have hprogress : (s.heap.ops p).inProgress = true := by
    cases hfree : (s.heap.ops p).inProgress with
    | true => rfl
    | false => exact absurd ((h.inv.fresh p hfree).symm.trans hdone) Bool.false_ne_true
  rw [AIOOperation.toInt_errorMember, hprogress, hdone]
  rfl

theorem error_agrees_of_outcome (h : Unpublished s) {j : ℕ} {b : Job} {o : Outcome}
    (hb : s.jobs[j]? = some b) (hop : b.op = p) (ho : b.pc.outcome? = some o) :
    s.ErrorAgrees p ↔ o.result < 0 ∧ 65792 < o.errno.toInt ∧ o.errno.toInt < 66048 := by
  subst hop
  obtain ⟨hdone, ⟨-, herror, -⟩, -⟩ := (h.inv.job j b hb).completed ho
  have hflight : ¬(s.heap.ops b.op).InFlight := by
    unfold AIOOperation.InFlight
    rw [hdone, Bool.not_true, Bool.and_false]
    exact Bool.false_ne_true
  have hmember := toInt_errorMember_of_done h hdone
  have hlt := (s.heap.ops b.op).error.toNat_lt
  have hne : (s.heap.ops b.op).errorMember ≠ 0 := by
    rw [errorMember_ne_zero_iff]
    omega
  constructor
  · intro hagrees
    obtain ⟨i, d, o', hd, hdop, ho', hresult, heq⟩ := hagrees.errno hne
    have hij : i = j := by
      by_contra hij
      exact h.inv.ne_op hb hd hij hdop
    subst hij
    cases hb.symm.trans hd
    cases ho.symm.trans ho'
    have hraises := (AIOOperation.getValue_systemError_iff hflight fun _ => []).mp
      ((hagrees.raises fun _ => []).mp hne)
    have hpos : (s.heap.ops b.op).error.toNat ≠ 0 := fun hzero => hraises (UInt8.toNat_inj.mp hzero)
    -- the one byte of `error` bounds the errno that makes up for the flags
    rw [heq] at hmember
    exact ⟨hresult, by omega, by omega⟩
  · rintro ⟨hresult, hlo, hhi⟩
    rw [if_pos hresult] at herror
    have hvalue : ((s.heap.ops b.op).error.toNat : ℤ) = o.errno.toInt - 65792 := by
      rw [herror, Width.toUInt8_toNat]
      omega
    refine ⟨fun memory => iff_of_true hne ?_, fun _ => ⟨j, b, o, hb, rfl, ho, hresult, ?_⟩⟩
    · rw [AIOOperation.getValue_systemError_iff hflight]
      intro hzero
      rw [hzero] at hvalue
      have : ((0 : UInt8).toNat : ℤ) = 0 := rfl
      omega
    · apply Int32.toInt_inj.mp
      omega

/-- In every run, an Operation that is not in flight shows its error twice the same exactly when no
transfer of it has come to an outcome; an errno of more than two bytes could make up for the
flags. -/
theorem error_agrees_iff (h : constructed.Reachable s) (p : OpPtr)
    (hflight : ¬(s.heap.ops p).InFlight) :
    s.ErrorAgrees p ↔ ∀ (j : ℕ) (b : Job) (o : Outcome), s.jobs[j]? = some b → b.op = p →
      b.pc.outcome? = some o → o.result < 0 ∧ 65792 < o.errno.toInt ∧ o.errno.toInt < 66048 := by
  have hun := unpublished h
  cases hdone : (s.heap.ops p).done with
  | false =>
    refine iff_of_true (hun.error_agrees hflight hdone) ?_
    intro j b o hb hop ho
    have hcompleted := (hun.inv.job j b hb).completed ho
    rw [hop] at hcompleted
    exact absurd (hdone.symm.trans hcompleted.1) Bool.false_ne_true
  | true =>
    constructor
    · intro hagrees j b o hb hop ho
      exact (error_agrees_of_outcome hun hb hop ho).mp hagrees
    · intro hall
      obtain ⟨j, b, o, hb, hop, ho⟩ := hun.exists_outcome hdone
      exact (error_agrees_of_outcome hun hb hop ho).mpr (hall j b o hb hop ho)

theorem new_constructed (queueSize : ℕ) : Constructed (new queueSize) :=
  ⟨new_init queueSize, new_ops queueSize (·.error = 0) rfl rfl⟩

/-- The second of two Operations is refused by a pool with one place. -/
theorem error_agrees_refused :
    ∃ s, constructed.exec (new 1) [.submit 0 [.operation 7, .operation 8]] = some s ∧
      s.ErrorAgrees 8 := by
  have hrun : ((constructed.exec (new 1) [.submit 0 [.operation 7, .operation 8]]).any fun s =>
      decide (¬(s.heap.ops 8).InFlight ∧ ∀ b ∈ s.jobs, b.op ≠ 8)) = true := by decide +kernel
  obtain ⟨s, hexec, hs⟩ := (Option.any_eq_true _ _).mp hrun
  obtain ⟨hflight, hjobs⟩ := of_decide_eq_true hs
  have hreach : constructed.Reachable s := .exec (.init (new_constructed 1)) hexec
  refine ⟨s, hexec, (error_agrees_iff hreach 8 hflight).mpr ?_⟩
  intro j b o hb hop
  exact absurd hop (hjobs b (List.mem_of_getElem? hb))

/-- A successful fsync leaves 65792 in `error`, and `get_value()` returns. -/
theorem error_of_success :
    ¬∀ (s : World), constructed.Reachable s → ∀ p, ¬(s.heap.ops p).InFlight →
      s.ErrorAgrees p := by
  intro h
  have hrun : ((constructed.exec (new 1)
      [.submit 0 [.operation 7], .pop 0, .take 0, .syscall 0 0 0, .publish 0]).any fun s =>
      decide (¬(s.heap.ops 7).InFlight ∧ (s.heap.ops 7).errorMember = 65792 ∧
        (s.heap.ops 7).error = 0)) = true := by decide +kernel
  obtain ⟨s, hexec, hs⟩ := (Option.any_eq_true _ _).mp hrun
  obtain ⟨hflight, hmember, herror⟩ := of_decide_eq_true hs
  have hagrees := h s (.exec (.init (new_constructed 1)) hexec) 7 hflight
  have hne : (s.heap.ops 7).errorMember ≠ 0 := by
    rw [hmember]
    decide
  have hraises := (AIOOperation.getValue_systemError_iff hflight fun _ => []).mp
    ((hagrees.raises fun _ => []).mp hne)
  exact hraises herror

end World

end Caio.ThreadAio
