import Caio.Lib.Width
import Caio.Uring.Immutable

namespace Caio.Uring

namespace AIOOperation

/-- What `Operation.read` or `Operation.write` returns for `n` bytes. -/
def New (op : AIOOperation) (n : ℕ) : Prop :=
  (∃ fileno offset pyBuffer, op = .read n fileno offset pyBuffer) ∨
    ∃ payloadBytes fileno offset, op = .write payloadBytes n fileno offset

/-- A read or write request of `n` bytes. -/
def Asks (op : AIOOperation) (n : ℕ) : Prop :=
  (op.opcode = .read ∨ op.opcode = .write) ∧ op.bufSize = n

theorem New.asks {op : AIOOperation} {n : ℕ} (h : op.New n) : op.Asks n := by
  rcases h with ⟨fileno, offset, pyBuffer, rfl⟩ | ⟨payloadBytes, fileno, offset, rfl⟩
  · exact ⟨.inl rfl, rfl⟩
  · exact ⟨.inr rfl, rfl⟩

theorem New.inProgress {op : AIOOperation} {n : ℕ} (h : op.New n) : op.inProgress = false := by
  rcases h with ⟨fileno, offset, pyBuffer, rfl⟩ | ⟨payloadBytes, fileno, offset, rfl⟩ <;> rfl

theorem New.refcnt {op : AIOOperation} {n : ℕ} (h : op.New n) : op.refcnt = 1 := by
  rcases h with ⟨fileno, offset, pyBuffer, rfl⟩ | ⟨payloadBytes, fileno, offset, rfl⟩ <;> rfl

/-- The fields that decide what `submit` stages. -/
def SameRequest (op op' : AIOOperation) : Prop :=
  op'.inProgress = op.inProgress ∧ op'.opcode = op.opcode ∧ op'.bufSize = op.bufSize

theorem SameRequest.refl (op : AIOOperation) : op.SameRequest op := ⟨rfl, rfl, rfl⟩

theorem SameRequest.asks {op op' : AIOOperation} {n : ℕ} (hsame : op.SameRequest op')
    (h : op.Asks n) : op'.Asks n := by
  obtain ⟨hopcode, hsize⟩ := h
  rw [Asks, hsame.2.1, hsame.2.2]
  exact ⟨hopcode, hsize⟩

end AIOOperation

theorem submitSqe_len {p : OpPtr} {op : AIOOperation} {n : ℕ} (hasks : op.Asks n) {e : Sqe}
    (h : submitSqe p op = some e) : e.len = UInt32.ofInt n := by
  obtain ⟨hopcode, hsize⟩ := hasks
  rw [← hsize]
  rcases hopcode with hopcode | hopcode
  all_goals
    simp only [submitSqe, hopcode] at h
    cases h
    rfl

theorem modify_sameRequest (h : Heap) (p q : OpPtr) {f : AIOOperation → AIOOperation}
    (hf : ∀ op : AIOOperation, op.SameRequest (f op)) : (h.ops p).SameRequest
    ((h.modify q f).ops p) := by
  by_cases hp : p = q
  · rw [hp, Heap.modify_ops_self]
    exact hf _
  · rw [Heap.modify_ops_ne _ _ hp]
    exact .refl _

theorem release_sameRequest (h : Heap) (p q : OpPtr) :
    (h.ops p).SameRequest ((h.release q).ops p) := by
  by_cases hp : p = q
  · subst hp
    unfold Heap.release Heap.dealloc Heap.decref
    split_ifs
    · rw [Heap.modify_ops_self, Heap.xdecrefCtx_ops, Heap.modify_ops_self]
      exact ⟨rfl, rfl, rfl⟩
    · rw [Heap.modify_ops_self]
      exact ⟨rfl, rfl, rfl⟩
  · rw [World.release_ops_ne _ hp]
    exact .refl _

namespace World

variable {s t : World} {c : CtxId} {p : OpPtr} {n : ℕ}

def Action.creates : Action → Option OpPtr
  | .newRead p _ _ _ _ => some p
  | .newWrite p _ _ _ => some p
  | .newFsync p _ => some p
  | .newFdsync p _ => some p
  | _ => none

/-- A request of `len` bytes for the Operation at `p` is in a ring or in the kernel. -/
def Hands (s : World) (p : OpPtr) (len : ℕ) : Prop :=
  ∃ c, ∃ e ∈ (s.ctxs c).issued, e.userData = p ∧ e.len.toNat = len

structure Lengths (p : OpPtr) (n : ℕ) (s : World) : Prop where
  inv : Inv s
  unclaimed : (s.heap.ops p).inProgress = false → (s.heap.ops p).Asks n
  issued : ∀ c, ∀ e ∈ (s.ctxs c).issued, e.userData = p → e.len = UInt32.ofInt n

theorem Lengths.new (h : Inv s) (hnew : (s.heap.ops p).New n) : Lengths p n s := by
  have hreal : p ≠ cancelUserData := h.ne_cancel (by rw [hnew.refcnt]; exact Nat.one_pos)
  refine ⟨h, fun _ => hnew.asks, fun c e he huser => ?_⟩
  -- a request names an Operation in flight, and a new one is not
  have hfly := (h.issued he (huser ▸ hreal)).1
  rw [huser, AIOOperation.inFlight, hnew.inProgress] at hfly
  cases hfly

/-- Steps that issue nothing for the Operation, and leave it alone as long as it is unclaimed. -/
theorem Lengths.frame (h : Lengths p n s) (hinv : Inv t)
    (hop : (t.heap.ops p).inProgress = false → (s.heap.ops p).SameRequest (t.heap.ops p))
    (hissued : ∀ c, ∀ e ∈ (t.ctxs c).issued, e.userData = p → e ∈ (s.ctxs c).issued) :
    Lengths p n t := by
  refine ⟨hinv, fun hfree => ?_, fun c e he huser => h.issued c e (hissued c e he huser) huser⟩
  have hsame := hop hfree
  exact hsame.asks (h.unclaimed (hsame.1.symm.trans hfree))

theorem Lengths.newOp (h : Lengths p n s) (hinv : Inv t) {q : OpPtr} (hq : q ≠ p)
    {op : AIOOperation} (hs : s.newOp q op = some t) : Lengths p n t := by
  obtain ⟨-, hs⟩ := Option.ite_none_right_eq_some.mp hs
  cases hs
  refine h.frame hinv (fun _ => ?_) fun _ _ he _ => he
  show (s.heap.ops p).SameRequest ((s.heap.modify q fun _ => op).ops p)
  rw [Heap.modify_ops_ne _ _ hq.symm]
  exact .refl _

theorem Inv.drain_unclaimed (h : Inv s) {max : UInt32}
    (hp : ((s.drain c max).1.heap.ops p).inProgress = false) :
    (s.drain c max).1.heap.ops p = s.heap.ops p := by
  obtain ⟨heap, cq, scan, es, hrun, hd⟩ := drainCq_spec s.heap (s.ctxs c).cq max
  simp only [World.drain, hrun] at hp ⊢
  rw [hd.heap] at hp ⊢
  have hperm := Context.drained_requests hd
  apply finaliseAll_ops_of_not_mem
  intro hmem
  have hfly := ((h.owner.carries p c).mp (hperm.mem_iff.mpr (List.mem_append_left _ hmem))).1
  have hnodup := (List.nodup_append.mp (hperm.nodup_iff.mp (h.owner.nodup c))).1
  obtain ⟨x, hx, rfl⟩ := List.mem_map.mp hmem
  rw [finaliseAll_ops_of_mem hx hnodup] at hp
  rw [AIOOperation.inFlight, show (s.heap.ops x.1).inProgress = false from hp] at hfly
  cases hfly

theorem Lengths.kernelStep (h : Lengths p n s) {a : KernelStep}
    (hs : s.kernelStep c a = some t) : Lengths p n t := by
  refine h.frame (h.inv.kernelStep hs) (fun _ => ?_) fun d e he _ => kernelStep_issued hs d e he
  rw [kernelStep_heap hs]
  exact .refl _

theorem Lengths.kept (c : CtxId) (p : OpPtr) (n : ℕ) : Kept c (Lengths p n) := by
  refine ⟨fun h hs => h.kernelStep hs, fun {s} h => ?_, fun {s} max h => ?_⟩
  · refine h.frame h.inv.moveBacklog (fun _ => .refl _) fun d e he _ => ?_
    exact issued_setCtx (k := (s.ctxs c).moveBacklog) (fun _ hy => hy) d e he
  · refine h.frame (h.inv.drain max) (fun hfree => ?_) fun d e he _ => ?_
    · rw [h.inv.drain_unclaimed hfree]
      exact .refl _
    · obtain ⟨heap, cq, scan, es, hrun, hd⟩ := drainCq_spec s.heap (s.ctxs c).cq max
      simp only [World.drain, hrun] at he
      exact issued_setCtx (k := { s.ctxs c with cq }) (fun _ hy => hy) d e he

theorem Lengths.submit (h : Lengths p n s) {args : List Arg} (hinv : Inv (s.submit c args).1) :
    Lengths p n (s.submit c args).1 := by
  obtain ⟨_, hres, -⟩ | hops := submit_cases s c args
  · rwa [hres]
  · obtain ⟨ring, heap, result, looked, staged, hrun, hsub, -⟩ :=
      h.inv.submitted c (operations args)
    rw [hops, submitOps, hrun] at hinv ⊢
    refine ⟨hinv, fun hfree => ?_, fun d e he huser => ?_⟩
    · have hfree : (heap.ops p).inProgress = false := hfree
      show (heap.ops p).Asks n
      rw [hsub.heap] at hfree ⊢
      have hout : p ∉ staged := by
        intro hmem
        rw [claimAll_ops_of_mem hmem hsub.nodup] at hfree
        cases hfree
      rw [claimAll_ops_of_not_mem hout] at hfree ⊢
      exact h.unclaimed hfree
    · rcases hsub.issued he with hold | ⟨q, hq, hsqe⟩
      · exact h.issued d e hold huser
      · obtain rfl : q = p := (submitSqe_userData hsqe).symm.trans huser
        exact submitSqe_len (h.unclaimed (hsub.fresh q hq).2.1) hsqe

theorem Lengths.step (h : Lengths p n s) (hreal : p ≠ cancelUserData) {a : Action}
    (ha : a.creates ≠ some p) (hs : s.step a = some t) : Lengths p n t := by
  have hinv := h.inv.step hs
  have hne : ∀ {q}, a.creates = some q → q ≠ p := fun hq heq => ha (heq ▸ hq)
  cases a with
  | newRead q nbytes fileno offset pyBuffer =>
    obtain ⟨-, hs⟩ := Option.ite_none_left_eq_some.mp hs
    have halloc : Lengths p n (s.allocate pyBuffer (List.replicate nbytes 0)) :=
      ⟨⟨h.inv.owner, h.inv.rings, h.inv.sentinel⟩, h.unclaimed, h.issued⟩
    exact halloc.newOp hinv (hne rfl) hs
  | newWrite q payloadBytes fileno offset =>
    obtain ⟨-, hs⟩ := Option.ite_none_right_eq_some.mp hs
    exact h.newOp hinv (hne rfl) hs
  | newFsync q fileno => exact h.newOp hinv (hne rfl) hs
  | newFdsync q fileno => exact h.newOp hinv (hne rfl) hs
  | newBytes b content =>
    obtain ⟨-, hs⟩ := Option.ite_none_left_eq_some.mp hs
    cases hs
    exact h.frame hinv (fun _ => .refl _) fun _ _ he _ => he
  | newContext c k =>
    obtain ⟨⟨-, -, hempty⟩, hs⟩ := Option.ite_none_right_eq_some.mp hs
    cases hs
    refine h.frame hinv (fun _ => .refl _) fun d e he _ => issued_setCtx (fun y hy => ?_) d e he
    obtain ⟨hsq, -, hkernel, -⟩ := hempty
    simp only [Context.issued, SqRing.queue, hsq, hkernel, RingBuffer.window_self,
      List.append_nil, List.not_mem_nil] at hy
  | incref q =>
    obtain ⟨-, hs⟩ := Option.ite_none_right_eq_some.mp hs
    cases hs
    refine h.frame hinv (fun _ => ?_) fun _ _ he _ => he
    exact modify_sameRequest s.heap p q (f := fun op => { op with refcnt := op.refcnt + 1 })
      fun _ => ⟨rfl, rfl, rfl⟩
  | decref q =>
    obtain ⟨-, hs⟩ := Option.ite_none_right_eq_some.mp hs
    cases hs
    exact h.frame hinv (fun _ => release_sameRequest s.heap p q) fun _ _ he _ => he
  | endTurn x =>
    obtain ⟨-, hs⟩ := Option.ite_none_right_eq_some.mp hs
    cases hs
    exact h.frame hinv (fun _ => release_sameRequest s.heap p x.1) fun _ _ he _ => he
  | increfCtx c | decrefCtx c =>
    obtain ⟨-, hs⟩ := Option.ite_none_right_eq_some.mp hs
    cases hs
    exact h.frame hinv (fun _ => .refl _) fun _ _ he _ => he
  | setCallback q callback =>
    obtain ⟨-, hs⟩ := Option.ite_none_right_eq_some.mp hs
    cases hs
    refine h.frame hinv (fun _ => ?_) fun _ _ he _ => he
    exact modify_sameRequest s.heap p q (f := fun op => op.setCallback callback)
      fun _ => ⟨rfl, rfl, rfl⟩
  | payload q =>
    obtain ⟨-, hs⟩ := Option.ite_none_right_eq_some.mp hs
    cases hs
    unfold World.payload at hinv ⊢
    split at hinv <;> exact h.frame hinv (fun _ => .refl _) fun _ _ he _ => he
  | getValue q new =>
    obtain ⟨-, hs⟩ := Option.ite_none_right_eq_some.mp hs
    cases hs
    unfold World.getValue at hinv ⊢
    split at hinv <;> exact h.frame hinv (fun _ => .refl _) fun _ _ he _ => he
  | submit c args =>
    obtain ⟨-, hs⟩ := Option.ite_none_right_eq_some.mp hs
    cases hs
    exact h.submit hinv
  | cancel c q =>
    obtain ⟨-, hs⟩ := Option.ite_none_right_eq_some.mp hs
    cases hs
    refine h.frame hinv (fun _ => ?_) fun d e he huser => ?_
    · unfold World.cancel
      split <;> exact .refl _
    · rcases h.inv.cancel_issued q d e he with hold | rfl
      · exact hold
      · exact absurd huser.symm hreal
  | flush c needWakeup calls =>
    obtain ⟨-, hs⟩ := Option.ite_none_right_eq_some.mp hs
    obtain ⟨⟨u, r⟩, hu, rfl⟩ := Option.map_eq_some_iff.mp hs
    exact (Lengths.kept c p n).flush h hu
  | processEvents c maxRequests minRequests tvSec turns =>
    obtain ⟨-, hs⟩ := Option.ite_none_right_eq_some.mp hs
    obtain ⟨⟨u, r⟩, hu, rfl⟩ := Option.map_eq_some_iff.mp hs
    exact (Lengths.kept c p n).processEvents h hu
  | kernel c a => exact h.kernelStep hs

/-- In some run the Operation that a constructor returned for `n` bytes becomes a request of `len`
bytes, before another Operation gets its address. -/
def Handed (n len : ℕ) : Prop :=
  ∃ (s t : World) (p : OpPtr) (as : List Action), system.Reachable s ∧ (s.heap.ops p).New n ∧
    (∀ a ∈ as, a.creates ≠ some p) ∧ system.exec s as = some t ∧ t.Hands p len

theorem Handed.len_eq {len : ℕ} (h : Handed n len) : len = n % 2 ^ 32 := by
  obtain ⟨s, t, p, as, hreach, hnew, has, hrun, c, e, he, huser, rfl⟩ := h
  have hinv := inv_of_reachable hreach
  have hreal : p ≠ cancelUserData := hinv.ne_cancel (by rw [hnew.refcnt]; exact Nat.one_pos)
  have hlengths : Lengths p n t := TransitionSystem.exec_invariant
    (fun u a v ha hu hs => Lengths.step hu hreal (has a ha) hs) (.new hinv hnew) hrun
  rw [hlengths.issued c e he huser]
  exact Width.toUInt32_toNat n

end World

end Caio.Uring
