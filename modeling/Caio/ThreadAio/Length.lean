import Caio.Lib.Width
import Caio.ThreadAio.Requests

namespace Caio.ThreadAio

namespace AIOOperation

/-- What `Operation.read` or `Operation.write` returns for `n` bytes. -/
def New (op : AIOOperation) (n : ℕ) : Prop :=
  (∃ fileno offset buf pyBuffer, op = .read n fileno offset buf pyBuffer) ∨
    ∃ payloadBytes fileno offset, op = .write payloadBytes n fileno offset

/-- A read or write request of `n` bytes. -/
def Asks (op : AIOOperation) (n : ℕ) : Prop :=
  (op.opcode = .read ∨ op.opcode = .write) ∧ op.bufSize = n

theorem New.asks {op : AIOOperation} {n : ℕ} (h : op.New n) : op.Asks n := by
  rcases h with ⟨fileno, offset, buf, pyBuffer, rfl⟩ | ⟨payloadBytes, fileno, offset, rfl⟩
  · exact ⟨.inl rfl, rfl⟩
  · exact ⟨.inr rfl, rfl⟩

theorem New.inProgress {op : AIOOperation} {n : ℕ} (h : op.New n) : op.inProgress = false := by
  rcases h with ⟨fileno, offset, buf, pyBuffer, rfl⟩ | ⟨payloadBytes, fileno, offset, rfl⟩ <;> rfl

def Syscall.count? : Syscall → Option Int32
  | .pread _ _ count _ => some count
  | .pwrite _ _ count _ => some count
  | _ => none

/-- The `size_t` that `pread` and `pwrite` get: the `int` with its sign extended. -/
def Syscall.size? (call : Syscall) : Option ℕ :=
  call.count?.map fun count => count.toInt64.toUInt64.toNat

theorem syscall_count {op : AIOOperation} {n : ℕ} (hasks : op.Asks n) {call : Syscall}
    (h : op.syscall = some call) : call.count? = some (Int32.ofInt n) := by
  obtain ⟨hopcode, hsize⟩ := hasks
  rw [← hsize]
  rcases hopcode with hopcode | hopcode
  all_goals
    simp only [syscall, hopcode] at h
    cases h
    rfl

end AIOOperation

namespace World

variable {n : ℕ}

/-- A worker has made a system call of `len` bytes for the Operation at `p`. -/
def Hands (s : World) (p : OpPtr) (len : ℕ) : Prop :=
  ∃ (j : ℕ) (b : Job) (call : AIOOperation.Syscall), s.jobs[j]? = some b ∧ b.op = p ∧
    .syscall call ∈ Journal.entries s.log j ∧ call.size? = some len

/-- In some run a system call of `len` bytes is made for the Operation that a constructor returned
for `n` bytes. -/
def Handed (n len : ℕ) : Prop :=
  ∃ (s t : World) (p : OpPtr) (as : List Action), system.Reachable s ∧ (s.heap.ops p).New n ∧
    system.exec s as = some t ∧ t.Hands p len

theorem Handed.len_eq {len : ℕ} (h : Handed n len) :
    len = (Int32.ofInt n).toInt64.toUInt64.toNat := by
  obtain ⟨s, t, p, as, hreach, hnew, hrun, j, b, call, hb, hop, hcall, hlen⟩ := h
  have hrequested := (Requested.of_free (World.inv hreach) hnew.inProgress).exec hrun
  rw [hrequested.inv.effects j b hb] at hcall
  have hcall := JobPc.call?_of_mem_effects hcall
  have hpending : ¬b.pc.Pending := by
    rintro (hpc | hpc) <;> rw [hpc] at hcall <;> cases hcall
  have hsyscall := ((hrequested.jobs j b hb hop).called hpending).symm.trans hcall
  rw [AIOOperation.Syscall.size?, AIOOperation.syscall_count hnew.asks hsyscall] at hlen
  exact (Option.some.inj hlen).symm

end World

end Caio.ThreadAio
