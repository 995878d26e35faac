import Mathlib.Data.List.Nodup
import Mathlib.Tactic.SplitIfs
import Caio.LinuxAio.Operation

namespace Caio.LinuxAio

/-- An argument of `Context.submit`; `repr` is what `%R` prints of a wrong one. -/
inductive Arg
  | operation (p : OpPtr)
  | other (repr : String)
deriving DecidableEq, Repr

namespace Arg

def operation? : Arg → Option OpPtr
  | .operation p => some p
  | .other _ => none

/-- The first argument that is no Operation, with its index. -/
def firstOther : List Arg → ℕ → Option (ℕ × String)
  | [], _ => none
  | .operation _ :: args, i => firstOther args (i + 1)
  | .other repr :: _, i => some (i, repr)

end Arg

/-- The claim of one Operation: the exchange, the references and the stores to its iocb. -/
def Heap.claim (h : Heap) (self : CtxId) (fileno : Int32) (p : OpPtr) : Heap :=
  ((h.xdecrefCtx (h.ops p).context).increfCtx self).modify p fun op =>
    { op.notify fileno with inProgress := true, context := some self, refcnt := op.refcnt + 1 }

/-- The loop of `AIOContext_submit`; the list is `claimed[0..to_submit)`. -/
def claimLoop (self : CtxId) (fileno : Int32) : List OpPtr → Heap → Heap × List OpPtr
  | [], h => (h, [])
  | p :: ps, h =>
    -- the exchange has found `in_progress` set: the Operation is skipped
    if (h.ops p).inProgress then claimLoop self fileno ps h
    else
      let r := claimLoop self fileno ps (h.claim self fileno p)
      (r.1, p :: r.2)

def Heap.unclaim (h : Heap) (p : OpPtr) : Heap :=
  (h.xdecrefCtx (h.ops p).context).modify p fun op =>
    { op with inProgress := false, context := none, refcnt := op.refcnt - 1 }

/-- What a call of `submit` leaves: the objects, the Operations that reached the kernel, and the
value returned. -/
structure Submitted where
  heap : Heap
  accepted : List OpPtr
  ret : Except PyErr ℕ

/-- `AIOContext_submit` on Operations; `ioSubmit` is the answer of `io_submit` to the claimed
iocbs. -/
def submitOps (h : Heap) (self : CtxId) (fileno : Int32) (ops : List OpPtr)
    (ioSubmit : Except Int32 ℕ) : Submitted :=
  let (h, claimed) := claimLoop self fileno ops h
  if claimed = [] then ⟨h, [], .ok 0⟩
  else
    match ioSubmit with
    | .error errno => ⟨claimed.foldl Heap.unclaim h, [], .error (ioSubmitError errno)⟩
    -- io_submit has taken the first `result` iocbs; the rest is rolled back
    | .ok result => ⟨(claimed.drop result).foldl Heap.unclaim h, claimed.take result, .ok result⟩

def submit (h : Heap) (self : CtxId) (k : AIOContext) (args : List Arg)
    (ioSubmit : Except Int32 ℕ) : Submitted :=
  if k.ctx = 0 then ⟨h, [], .error (.runtimeError "self->ctx is NULL")⟩
  else if args = [] then ⟨h, [], .ok 0⟩
  else
    match Arg.firstOther args 0 with
    | some (i, repr) =>
      ⟨h, [], .error (.typeError ("Wrong type for argument " ++ toString i ++ " -> " ++ repr))⟩
    | none => submitOps h self k.fileno (args.filterMap Arg.operation?) ioSubmit

section Claim

variable {self : CtxId} {fileno : Int32} {h : Heap}

@[simp] theorem claim_ops_self (h : Heap) (p : OpPtr) :
    ((h.claim self fileno p).ops p).inProgress = true := by
  rw [Heap.claim, Heap.modify_ops_self]

theorem claim_ops_ne {p q : OpPtr} (hne : q ≠ p) :
    (h.claim self fileno p).ops q = h.ops q := by
  rw [Heap.claim, Heap.modify_ops_ne _ _ hne, Heap.increfCtx_ops, Heap.xdecrefCtx_ops]

theorem claimLoop_skip {p : OpPtr} (ps : List OpPtr) (hp : (h.ops p).inProgress = true) :
    claimLoop self fileno (p :: ps) h = claimLoop self fileno ps h := by
  rw [claimLoop, if_pos hp]

theorem claimLoop_claim {p : OpPtr} (ps : List OpPtr) (hp : (h.ops p).inProgress = false) :
    claimLoop self fileno (p :: ps) h =
      ((claimLoop self fileno ps (h.claim self fileno p)).1,
        p :: (claimLoop self fileno ps (h.claim self fileno p)).2) := by
  rw [claimLoop, if_neg (by rw [hp]; nofun)]

/-- Exactly the Operations of the batch that nobody has claimed before are claimed. -/
theorem mem_claimed {ops : List OpPtr} {p : OpPtr} :
    p ∈ (claimLoop self fileno ops h).2 ↔ p ∈ ops ∧ (h.ops p).inProgress = false := by
  induction ops generalizing h with
  | nil => simp [claimLoop]
  | cons q qs ih =>
    by_cases hq : (h.ops q).inProgress = true
    · rw [claimLoop_skip qs hq, ih, List.mem_cons]
      refine ⟨fun ⟨hmem, hp⟩ => ⟨.inr hmem, hp⟩, fun ⟨hmem, hp⟩ => ⟨hmem.resolve_left ?_, hp⟩⟩
      rintro rfl
      rw [hq] at hp
      cases hp
    · rw [Bool.not_eq_true] at hq
      rw [claimLoop_claim qs hq, List.mem_cons, List.mem_cons, ih]
      by_cases hpq : p = q
      · subst hpq
        simp [hq]
      · rw [claim_ops_ne hpq, or_iff_right hpq, or_iff_right hpq]

theorem claimed_nodup (ops : List OpPtr) : (claimLoop self fileno ops h).2.Nodup := by
  induction ops generalizing h with
  | nil => exact List.nodup_nil
  | cons q qs ih =>
    by_cases hq : (h.ops q).inProgress = true
    · rw [claimLoop_skip qs hq]
      exact ih
    · rw [Bool.not_eq_true] at hq
      rw [claimLoop_claim qs hq]
      refine List.nodup_cons.mpr ⟨fun hmem => ?_, ih⟩
      have := (mem_claimed.mp hmem).2
      rw [claim_ops_self] at this
      cases this

/-- Entry `i` of the batch is one that the loop claims: nobody has its Operation, and no earlier
entry names it. -/
def Fresh (h : Heap) (ops : List OpPtr) (i : ℕ) : Prop :=
  ∃ p, ops[i]? = some p ∧ (h.ops p).inProgress = false ∧ p ∉ ops.take i

/-- As long as no entry is skipped, the claimed Operations are the entries in their order. -/
theorem claimed_take {ops : List OpPtr} {r : ℕ} (hfresh : ∀ i < r, Fresh h ops i) :
    (claimLoop self fileno ops h).2.take r = ops.take r := by
  induction ops generalizing h r with
  | nil => rfl
  | cons q qs ih =>
    cases r with
    | zero => rfl
    | succ r =>
      obtain ⟨p, hp, hfree, -⟩ := hfresh 0 (Nat.succ_pos r)
      cases hp
      rw [claimLoop_claim qs hfree, List.take_succ_cons, List.take_succ_cons]
      refine congrArg (q :: ·) (ih fun i hi => ?_)
      obtain ⟨p, hp, hfree, hnew⟩ := hfresh (i + 1) (Nat.succ_lt_succ hi)
      rw [List.take_succ_cons, List.mem_cons, not_or] at hnew
      refine ⟨p, hp, ?_, hnew.2⟩
      rw [claim_ops_ne hnew.1]
      exact hfree

end Claim

theorem firstOther_operations (ops : List OpPtr) (i : ℕ) :
    Arg.firstOther (ops.map Arg.operation) i = none := by
  induction ops generalizing i with
  | nil => rfl
  | cons p ps ih => exact ih (i + 1)

theorem submit_operations (h : Heap) (self : CtxId) {k : AIOContext} {ops : List OpPtr}
    (ioSubmit : Except Int32 ℕ) (hctx : k.ctx ≠ 0) :
    submit h self k (ops.map Arg.operation) ioSubmit = submitOps h self k.fileno ops ioSubmit := by
  rw [submit, if_neg hctx]
  by_cases hops : ops = []
  · rw [hops]
    rfl
  · have hall : (ops.map Arg.operation).filterMap Arg.operation? = ops := by
      rw [List.filterMap_map]
      exact List.filterMap_some
    rw [if_neg (by simpa using hops), firstOther_operations, hall]

/-- When `io_submit` accepts `r` of the claimed Operations, the first `r` of them reach the kernel
and `r` is returned. -/
theorem submitOps_accepted (h : Heap) (self : CtxId) (fileno : Int32) (ops : List OpPtr) {r : ℕ}
    (hr : r ≤ (claimLoop self fileno ops h).2.length) :
    (submitOps h self fileno ops (.ok r)).ret = .ok r ∧
      (submitOps h self fileno ops (.ok r)).accepted =
        (claimLoop self fileno ops h).2.take r := by
  simp only [submitOps]
  by_cases hnil : (claimLoop self fileno ops h).2 = []
  · rw [hnil] at hr ⊢
    obtain rfl := Nat.le_zero.mp hr
    exact ⟨rfl, rfl⟩
  · rw [if_neg hnil]
    exact ⟨rfl, rfl⟩

/-- An Operation as `submit` hands it to the kernel. -/
def AIOOperation.claimed (op : AIOOperation) (self : CtxId) (fileno : Int32) : AIOOperation :=
  { op.notify fileno with inProgress := true, context := some self, refcnt := op.refcnt + 1 }

/-- An Operation whose claim is taken back; the stores to its iocb stay. -/
def AIOOperation.refused (op : AIOOperation) (fileno : Int32) : AIOOperation :=
  { op.notify fileno with inProgress := false, context := none }

theorem claimLoop_ops (self : CtxId) (fileno : Int32) (ops : List OpPtr) (h : Heap) (p : OpPtr) :
    (claimLoop self fileno ops h).1.ops p =
      if p ∈ (claimLoop self fileno ops h).2 then (h.ops p).claimed self fileno else h.ops p := by
  induction ops generalizing h with
  | nil => rfl
  | cons q qs ih =>
    by_cases hq : (h.ops q).inProgress = true
    · rw [claimLoop_skip qs hq]
      exact ih h
    · rw [Bool.not_eq_true] at hq
      rw [claimLoop_claim qs hq]
      show (claimLoop self fileno qs (h.claim self fileno q)).1.ops p = _
      rw [ih]
      by_cases hpq : p = q
      · -- the rest of the loop skips an Operation that is claimed
        have hskip : p ∉ (claimLoop self fileno qs (h.claim self fileno q)).2 := by
          intro hmem
          have hfree := (mem_claimed.mp hmem).2
          rw [hpq, claim_ops_self] at hfree
          cases hfree
        rw [if_neg hskip, if_pos (hpq ▸ List.mem_cons_self), hpq, Heap.claim, Heap.modify_ops_self,
          Heap.increfCtx_ops, Heap.xdecrefCtx_ops]
        rfl
      · rw [claim_ops_ne hpq]
        simp only [List.mem_cons, hpq, false_or]

theorem unclaim_ops (h : Heap) (q p : OpPtr) :
    (h.unclaim q).ops p = if p = q then
      { h.ops p with inProgress := false, context := none, refcnt := (h.ops p).refcnt - 1 }
    else h.ops p := by
  by_cases hpq : p = q
  · rw [if_pos hpq, hpq, Heap.unclaim, Heap.modify_ops_self, Heap.xdecrefCtx_ops]
  · rw [if_neg hpq, Heap.unclaim, Heap.modify_ops_ne _ _ hpq, Heap.xdecrefCtx_ops]

theorem foldl_unclaim_ops {ps : List OpPtr} (hnodup : ps.Nodup) (h : Heap) (p : OpPtr) :
    (ps.foldl Heap.unclaim h).ops p = if p ∈ ps then
      { h.ops p with inProgress := false, context := none, refcnt := (h.ops p).refcnt - 1 }
    else h.ops p := by
  induction ps generalizing h with
  | nil => rfl
  | cons q qs ih =>
    obtain ⟨hq, hqs⟩ := List.nodup_cons.mp hnodup
    rw [List.foldl_cons, ih hqs, unclaim_ops]
    by_cases hpq : p = q
    · rw [if_neg (hpq ▸ hq), if_pos hpq, if_pos (hpq ▸ List.mem_cons_self)]
    · rw [if_neg hpq]
      simp only [List.mem_cons, hpq, false_or]

theorem foldl_unclaim_claimLoop (self : CtxId) (fileno : Int32) (ops : List OpPtr) (h : Heap)
    {ps : List OpPtr} (hsub : ps.Sublist (claimLoop self fileno ops h).2) {p : OpPtr}
    (hp : p ∈ ps) :
    (ps.foldl Heap.unclaim (claimLoop self fileno ops h).1).ops p = (h.ops p).refused fileno := by
  rw [foldl_unclaim_ops (hsub.nodup (claimed_nodup ops)), if_pos hp, claimLoop_ops,
    if_pos (hsub.mem hp)]
  rfl

/-- The three fates of an Operation in a call: the kernel has it, its claim is taken back, or the
call leaves it alone. -/
theorem submitOps_ops (h : Heap) (self : CtxId) (fileno : Int32) (ops : List OpPtr)
    (ioSubmit : Except Int32 ℕ) (p : OpPtr) :
    (p ∈ (submitOps h self fileno ops ioSubmit).accepted ∧ (h.ops p).inProgress = false ∧
      (submitOps h self fileno ops ioSubmit).heap.ops p = (h.ops p).claimed self fileno) ∨
    (p ∉ (submitOps h self fileno ops ioSubmit).accepted ∧ (h.ops p).inProgress = false ∧
      (submitOps h self fileno ops ioSubmit).heap.ops p = (h.ops p).refused fileno) ∨
    (p ∉ (submitOps h self fileno ops ioSubmit).accepted ∧
      (submitOps h self fileno ops ioSubmit).heap.ops p = h.ops p) := by
  have hnodup : (claimLoop self fileno ops h).2.Nodup := claimed_nodup ops
  have hloop := claimLoop_ops self fileno ops h p
  have hclaimed : p ∈ (claimLoop self fileno ops h).2 ↔ p ∈ ops ∧ (h.ops p).inProgress = false :=
    mem_claimed
  simp only [submitOps]
  by_cases hnil : (claimLoop self fileno ops h).2 = []
  · rw [if_pos hnil]
    rw [hnil, if_neg List.not_mem_nil] at hloop
    exact .inr (.inr ⟨List.not_mem_nil, hloop⟩)
  · rw [if_neg hnil]
    by_cases hmem : p ∈ (claimLoop self fileno ops h).2
    · have hfree := (hclaimed.mp hmem).2
      cases ioSubmit with
      | error errno =>
        exact .inr (.inl ⟨List.not_mem_nil, hfree,
          foldl_unclaim_claimLoop self fileno ops h (List.Sublist.refl _) hmem⟩)
      | ok r =>
        by_cases hdrop : p ∈ (claimLoop self fileno ops h).2.drop r
        · have htake : p ∉ (claimLoop self fileno ops h).2.take r := by
            rw [← List.take_append_drop r (claimLoop self fileno ops h).2] at hnodup
            exact fun htake => (List.nodup_append.mp hnodup).2.2 p htake p hdrop rfl
          exact .inr (.inl ⟨htake, hfree,
            foldl_unclaim_claimLoop self fileno ops h (List.drop_sublist ..) hdrop⟩)
        · have htake : p ∈ (claimLoop self fileno ops h).2.take r := by
            rw [← List.take_append_drop r (claimLoop self fileno ops h).2] at hmem
            exact (List.mem_append.mp hmem).resolve_right hdrop
          refine .inl ⟨htake, hfree, ?_⟩
          rw [foldl_unclaim_ops ((List.drop_sublist ..).nodup hnodup), if_neg hdrop, hloop,
            if_pos hmem]
    · rw [if_neg hmem] at hloop
      cases ioSubmit with
      | error errno =>
        refine .inr (.inr ⟨List.not_mem_nil, ?_⟩)
        rw [foldl_unclaim_ops hnodup, if_neg hmem, hloop]
      | ok r =>
        refine .inr (.inr ⟨fun htake => hmem (List.mem_of_mem_take htake), ?_⟩)
        have hdrop : p ∉ (claimLoop self fileno ops h).2.drop r :=
          fun hdrop => hmem (List.mem_of_mem_drop hdrop)
        rw [foldl_unclaim_ops ((List.drop_sublist ..).nodup hnodup), if_neg hdrop, hloop]

theorem submit_ops (h : Heap) (self : CtxId) (k : AIOContext) (args : List Arg)
    (ioSubmit : Except Int32 ℕ) (p : OpPtr) :
    (p ∈ (submit h self k args ioSubmit).accepted ∧ (h.ops p).inProgress = false ∧
      (submit h self k args ioSubmit).heap.ops p = (h.ops p).claimed self k.fileno) ∨
    (p ∉ (submit h self k args ioSubmit).accepted ∧ (h.ops p).inProgress = false ∧
      (submit h self k args ioSubmit).heap.ops p = (h.ops p).refused k.fileno) ∨
    (p ∉ (submit h self k args ioSubmit).accepted ∧
      (submit h self k args ioSubmit).heap.ops p = h.ops p) := by
  unfold submit
  split
  · exact .inr (.inr ⟨List.not_mem_nil, rfl⟩)
  · split
    · exact .inr (.inr ⟨List.not_mem_nil, rfl⟩)
    · split
      · exact .inr (.inr ⟨List.not_mem_nil, rfl⟩)
      · exact submitOps_ops ..

theorem submitOps_nodup (h : Heap) (self : CtxId) (fileno : Int32) (ops : List OpPtr)
    (ioSubmit : Except Int32 ℕ) : (submitOps h self fileno ops ioSubmit).accepted.Nodup := by
  simp only [submitOps]
  split
  · exact List.nodup_nil
  · split
    · exact List.nodup_nil
    · exact (List.take_sublist ..).nodup (claimed_nodup ops)

theorem submit_nodup (h : Heap) (self : CtxId) (k : AIOContext) (args : List Arg)
    (ioSubmit : Except Int32 ℕ) : (submit h self k args ioSubmit).accepted.Nodup := by
  unfold submit
  split
  · exact List.nodup_nil
  · split
    · exact List.nodup_nil
    · split
      · exact List.nodup_nil
      · exact submitOps_nodup ..

end Caio.LinuxAio
