import Caio.ThreadAio.Jobs

namespace Caio.ThreadAio

namespace AIOOperation

/-- The fields that `worker` makes its system call from. -/
structure SameRequest (op op' : AIOOperation) : Prop where
  opcode : op'.opcode = op.opcode
  fileno : op'.fileno = op.fileno
  offset : op'.offset = op.offset
  buf : op'.buf = op.buf
  bufSize : op'.bufSize = op.bufSize

theorem SameRequest.refl (op : AIOOperation) : op.SameRequest op := ⟨rfl, rfl, rfl, rfl, rfl⟩

theorem SameRequest.syscall {op op' : AIOOperation} (h : op.SameRequest op') :
    op'.syscall = op.syscall := by
  obtain ⟨hopcode, hfileno, hoffset, hbuf, hsize⟩ := h
  rw [AIOOperation.syscall, AIOOperation.syscall, hopcode, hfileno, hoffset, hbuf, hsize]

def Requests (op : AIOOperation) : Syscall → Prop
  | .pread fd buf count offset => op.opcode = .read ∧ fd = op.fileno ∧ buf = op.buf ∧
    count = Int32.ofInt op.bufSize ∧ offset = op.offset
  | .pwrite fd buf count offset => op.opcode = .write ∧ fd = op.fileno ∧ buf = op.buf ∧
    count = Int32.ofInt op.bufSize ∧ offset = op.offset
  | .fsync fd => op.opcode = .fsync ∧ fd = op.fileno
  | .fdatasync fd => op.opcode = .fdsync ∧ fd = op.fileno

theorem syscall_requests {op : AIOOperation} {call : Syscall} (h : op.syscall = some call) :
    op.Requests call := by
  unfold syscall at h
  cases hop : op.opcode with
  | read | write =>
    rw [hop] at h
    cases h
    exact ⟨hop, rfl, rfl, rfl, rfl⟩
  | fsync | fdsync =>
    rw [hop] at h
    cases h
    exact ⟨hop, rfl⟩
  | noop =>
    rw [hop] at h
    cases h

theorem syscall_eq_none {op : AIOOperation} (h : op.syscall = none) : op.opcode = .noop := by
  unfold syscall at h
  cases hop : op.opcode with
  | noop => rfl
  | read | write | fsync | fdsync =>
    rw [hop] at h
    cases h

end AIOOperation

/-- The system call of a task, once `worker` has read the fields of its Operation. -/
def JobPc.call? : JobPc → Option AIOOperation.Syscall
  | .queued => none
  | .popped => none
  | .taken _ call => some call
  | .recorded _ o => some o.call
  | .published _ o => some o.call
  | .calling _ o _ => some o.call
  | .called _ o _ => o.map Outcome.call
  | .leaving _ o _ => o.map Outcome.call
  | .finished _ o _ => o.map Outcome.call

theorem JobPc.call?_of_mem_effects {pc : JobPc} {call : AIOOperation.Syscall}
    (h : Effect.syscall call ∈ pc.effects) : pc.call? = some call := by
  have hran : ∀ (o : Option Outcome) (callback : Option Callback),
      Effect.syscall call ∈ ran o callback → o.map Outcome.call = some call := by
    intro o callback h
    cases o with
    | none => simp [ran] at h
    | some o =>
      simp only [ran, List.mem_cons, List.mem_map, reduceCtorEq, Effect.syscall.injEq, and_false,
        exists_false, or_false, false_or] at h
      rw [h]
      rfl
  cases pc with
  | queued | popped | taken ctx call' => simp [effects] at h
  | recorded ctx o => simpa [effects, call?, eq_comm] using h
  | published ctx o | calling ctx o callback => exact hran (some o) _ h
  | called ctx o callback => exact hran o callback h
  | leaving k o callback =>
    rcases List.mem_append.mp h with h | h
    · exact hran o callback h
    · simp at h
  | finished k o callback =>
    rcases List.mem_append.mp h with h | h
    · exact hran o callback h
    · simp at h

def JobPc.Pending (pc : JobPc) : Prop := pc = .queued ∨ pc = .popped

/-- A task for the request of `op₀`, before and after the fields of its Operation are read. -/
structure Job.Carries (b : Job) (op₀ op : AIOOperation) : Prop where
  pending : b.pc.Pending → op₀.SameRequest op
  called : ¬b.pc.Pending → b.pc.call? = op₀.syscall

namespace World

variable {s t : World} {j : ℕ} {b : Job} {p : OpPtr} {op₀ : AIOOperation}

/-- Until its task has read its fields the Operation at `p` is as `op₀` asks. -/
structure Requested (p : OpPtr) (op₀ : AIOOperation) (s : World) : Prop where
  inv : Inv s
  unclaimed : (s.heap.ops p).inProgress = false → op₀.SameRequest (s.heap.ops p)
  jobs : ∀ (j : ℕ) (b : Job), s.jobs[j]? = some b → b.op = p → b.Carries op₀ (s.heap.ops p)

theorem Requested.of_free (h : Inv s) (hfree : (s.heap.ops p).inProgress = false) :
    Requested p (s.heap.ops p) s := by
  refine ⟨h, fun _ => .refl _, fun j b hb hop => ?_⟩
  have hactive := h.inProgress hb
  rw [hop, hfree] at hactive
  cases hactive

theorem SameTransfer.sameRequest {op op' : AIOOperation} (h : SameTransfer op op')
    (hop : op₀.SameRequest op) : op₀.SameRequest op' := by
  obtain ⟨callback, refcnt, rfl⟩ := h
  exact ⟨hop.opcode, hop.fileno, hop.offset, hop.buf, hop.bufSize⟩

theorem Requested.sameTransfer (h : Requested p op₀ s) (hinv : Inv t)
    (hops : ∀ q, SameTransfer (s.heap.ops q) (t.heap.ops q)) (hjobs : t.jobs = s.jobs) :
    Requested p op₀ t := by
  refine ⟨hinv, fun hfree => (hops p).sameRequest (h.unclaimed ?_), fun j b hb hop => ?_⟩
  · obtain ⟨callback, refcnt, heq⟩ := hops p
    rw [heq] at hfree
    exact hfree
  · rw [hjobs] at hb
    obtain ⟨hpending, hcalled⟩ := h.jobs j b hb hop
    exact ⟨fun hpc => (hops p).sameRequest (hpending hpc), hcalled⟩

theorem Moves.carries {op op' : AIOOperation} {pc : JobPc} (h : Moves op b.pc op' pc)
    (hcarries : b.Carries op₀ op) : Job.Carries { b with pc } op₀ op' := by
  obtain ⟨hpending, hcalled⟩ := hcarries
  generalize b.pc = from' at h hpending hcalled
  cases h with
  | pop => exact ⟨fun _ => hpending (.inl rfl), fun hpc => absurd (.inr rfl) hpc⟩
  | take hcall | noop hcall =>
    refine ⟨?_, fun _ => hcall.symm.trans (hpending (.inr rfl)).syscall⟩
    rintro (hpc | hpc) <;> cases hpc
  | syscall | publish | silent | invoke | returns | releaseCtx | releaseOp =>
    refine ⟨?_, fun _ => hcalled ?_⟩ <;> rintro (hpc | hpc) <;> cases hpc

theorem Requested.goesOn (h : Requested p op₀ s) (hinv : Inv t) {pc : JobPc}
    (hgo : GoesOn s t j b pc) : Requested p op₀ t := by
  refine ⟨hinv, fun hfree => ?_, fun i d hd hop => ?_⟩
  · have hne := hgo.ne_of_free hinv hfree
    rw [hgo.others p hne] at hfree ⊢
    exact h.unclaimed hfree
  · rw [hgo.jobs] at hd
    rcases Table.getElem?_set_cases hd with ⟨-, rfl⟩ | ⟨hij, hd⟩
    · obtain rfl : b.op = p := hop
      exact hgo.moves.carries (h.jobs j b hgo.job rfl)
    · have hne : p ≠ b.op := hop ▸ h.inv.ne_op hgo.job hd hij
      rw [hgo.others p hne]
      exact h.jobs i d hd hop

theorem Requested.submit (h : Requested p op₀ s) {k : CtxId} {args : List Arg}
    (hs : s.step (.submit k args) = some t) : Requested p op₀ t := by
  obtain ⟨queued, hq⟩ := submit_queues h.inv.clean hs
  refine ⟨h.inv.step hs, fun hfree => ?_, fun j b hb hop => ?_⟩
  · have hsame := hq.ops_of_free hfree
    rw [hsame] at hfree ⊢
    exact h.unclaimed hfree
  · rcases hq.job_cases hb with hold | ⟨-, -, hqueued, hpc⟩
    · rw [hq.ops_of_active (hop ▸ h.inv.inProgress hold)]
      exact h.jobs j b hold hop
    · rw [hop] at hqueued
      rw [hq.ops, if_pos hqueued]
      obtain ⟨hopcode, hfileno, hoffset, hbuf, hsize⟩ := h.unclaimed (hq.free p hqueued)
      exact ⟨fun _ => ⟨hopcode, hfileno, hoffset, hbuf, hsize⟩, fun hnot => absurd (.inl hpc) hnot⟩

theorem Requested.step (h : Requested p op₀ s) {a : Action} (hs : s.step a = some t) :
    Requested p op₀ t := by
  have hinv := h.inv.step hs
  rcases step_cases hs with ⟨k, args, rfl⟩ | ⟨hjobs, hsame⟩ | ⟨j, b, pc, hgo⟩
  · exact h.submit hs
  · exact h.sameTransfer hinv hsame hjobs
  · exact h.goesOn hinv hgo

theorem Requested.exec (h : Requested p op₀ s) {as : List Action}
    (hrun : system.exec s as = some t) : Requested p op₀ t :=
  TransitionSystem.exec_invariant (fun _ _ _ _ hu hs => Requested.step hu hs) h hrun

theorem Requested.finished (h : Requested p op₀ s) (hb : s.jobs[j]? = some b) (hop : b.op = p)
    {k : CtxId} {o : Option Outcome} {callback : Option Callback}
    (hpc : b.pc = .finished k o callback) (hopcode : op₀.opcode ≠ .noop) :
    ∃ out, o = some out ∧ op₀.Requests out.call := by
  have hcalled := (h.jobs j b hb hop).called (by
    rw [hpc]
    rintro (hpc | hpc) <;> cases hpc)
  rw [hpc] at hcalled
  cases o with
  | none => exact absurd (AIOOperation.syscall_eq_none hcalled.symm) hopcode
  | some out => exact ⟨out, rfl, AIOOperation.syscall_requests hcalled.symm⟩

end World

end Caio.ThreadAio
