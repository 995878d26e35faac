import Caio.LinuxAio.Finalise
import Caio.LinuxAio.Value

namespace Caio.LinuxAio

namespace AIOOperation

/-- What `Operation.read` or `Operation.write` returns for `n` bytes. -/
def New (op : AIOOperation) (n : ℕ) : Prop :=
  (∃ self fd offset buffer, op = .read self (UInt64.ofNat n) fd offset buffer) ∨
    ∃ self payloadBytes fd offset, op = .write self payloadBytes (UInt64.ofNat n) fd offset

theorem New.inProgress {op : AIOOperation} {n : ℕ} (h : op.New n) : op.inProgress = false := by
  rcases h with ⟨self, fd, offset, buffer, rfl⟩ | ⟨self, payloadBytes, fd, offset, rfl⟩ <;> rfl

theorem New.aioNbytes {op : AIOOperation} {n : ℕ} (h : op.New n) :
    op.iocb.aioNbytes = UInt64.ofNat n := by
  rcases h with ⟨self, fd, offset, buffer, rfl⟩ | ⟨self, payloadBytes, fd, offset, rfl⟩ <;> rfl

end AIOOperation

namespace World

variable {s t : World} {p : OpPtr} {n : ℕ}

/-- A call of `submit` that hands an iocb of `len` bytes for the Operation at `p` to the kernel. -/
def Hands (s : World) (p : OpPtr) (len : ℕ) : Prop :=
  ∃ (k : CtxId) (args : List Arg) (answer : Except Int32 ℕ),
    p ∈ (LinuxAio.submit s.heap k (s.ctxs k) args answer).accepted ∧
    ((LinuxAio.submit s.heap k (s.ctxs k) args answer).heap.ops p).iocb.aioNbytes.toNat = len

/-- As long as nobody has claimed the Operation, its iocb asks for `n` bytes. -/
def Asks (p : OpPtr) (n : ℕ) (s : World) : Prop :=
  (s.heap.ops p).inProgress = false → (s.heap.ops p).iocb.aioNbytes = UInt64.ofNat n

theorem claimed_of_left (h : Accounted s p) {i : ℕ} {c : Call} (hc : s.calls[i]? = some c)
    {ev : IoEvent} (hev : ev.data = p) (hleft : ev ∈ c.pc.left) :
    (s.heap.ops p).inProgress = true := by
  have hone : 0 < c.pc.leftOf p := List.countP_pos_iff.mpr ⟨ev, hleft, decide_eq_true hev⟩
  have hsum : c.pc.leftOf p ≤ s.delivering p := Counting.le_sum_map hc (·.pc.leftOf p)
  have hplaces := h.places
  have hclaimed := h.claimed
  cases hp : (s.heap.ops p).inProgress with
  | true => rfl
  | false =>
    rw [hp, Bool.toNat_false] at hclaimed
    omega

theorem Asks.step (hacc : Accounted s p) (h : Asks p n s) {a : Action} (hs : s.step a = some t) :
    Asks p n t := by
  intro hfree
  cases step_touches hs with
  | submit k args answer hheap =>
    rw [hheap] at hfree ⊢
    rcases submit_ops s.heap k (s.ctxs k) args answer p with
      ⟨-, -, hop⟩ | ⟨-, hbefore, hop⟩ | ⟨-, hop⟩
    · rw [hop] at hfree
      cases hfree
    · rw [hop]
      exact h hbefore
    · rw [hop] at hfree ⊢
      exact h hfree
  | settle i c ev left hc hpc hheap =>
    rw [hheap, settle_ops] at hfree ⊢
    split_ifs at hfree ⊢ with hp
    · have hclaimed := claimed_of_left hacc hc hp.symm (by rw [hpc]; exact List.mem_cons_self)
      exact absurd (hclaimed.symm.trans hfree) (by decide)
    · exact h hfree
  | quiet hheap =>
    obtain ⟨callback, refcnt, hop⟩ := hheap p
    rw [hop] at hfree ⊢
    exact h hfree

/-- In some run the kernel takes an iocb of `len` bytes for the Operation that a constructor
returned for `n` bytes. -/
def Handed (n len : ℕ) : Prop :=
  ∃ (s t : World) (p : OpPtr) (as : List Action), system.Reachable s ∧ (s.heap.ops p).New n ∧
    system.exec s as = some t ∧ t.Hands p len

theorem Handed.len_eq {len : ℕ} (h : Handed n len) : len = n % 2 ^ 64 := by
  obtain ⟨s, t, p, as, hreach, hnew, hrun, k, args, answer, hmem, rfl⟩ := h
  have hasks : system.Reachable t ∧ Asks p n t := by
    apply TransitionSystem.exec_invariant (I := fun u => system.Reachable u ∧ Asks p n u) ?_ ?_ hrun
    · rintro u a v - ⟨hreach, hu⟩ hs
      exact ⟨.step hreach trivial hs, Asks.step (accounted hreach p) hu hs⟩
    · exact ⟨hreach, fun _ => hnew.aioNbytes⟩
  rcases submit_ops t.heap k (t.ctxs k) args answer p with
    ⟨-, hfree, hop⟩ | ⟨hout, -⟩ | ⟨hout, -⟩
  · rw [hop]
    show (t.heap.ops p).iocb.aioNbytes.toNat = _
    rw [hasks.2 hfree]
    exact UInt64.toNat_ofNat'
  · exact absurd hmem hout
  · exact absurd hmem hout

end World

end Caio.LinuxAio
