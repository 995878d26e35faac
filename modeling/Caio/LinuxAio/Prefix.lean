import Mathlib.Tactic.SplitIfs
import Caio.LinuxAio.Finalise

namespace Caio.LinuxAio

/-- An Operation that nobody has claimed belongs to no Context. -/
def Heap.Unheld (h : Heap) : Prop := ∀ p, (h.ops p).inProgress = false → (h.ops p).context = none

/-- The distinct Operations of a batch that nobody has claimed, in the order of the arguments. -/
def unclaimed (h : Heap) (ops : List OpPtr) : List OpPtr :=
  (ops.filter fun p => !(h.ops p).inProgress).eraseDups

variable {h : Heap} {self : CtxId} {fileno : Int32}

theorem claimed_eq_unclaimed (ops : List OpPtr) (h : Heap) :
    (claimLoop self fileno ops h).2 = unclaimed h ops := by
  induction ops generalizing h with
  | nil => rfl
  | cons p ps ih =>
    by_cases hp : (h.ops p).inProgress = true
    · rw [claimLoop_skip ps hp, ih, unclaimed, unclaimed,
        List.filter_cons_of_neg (by rw [hp]; decide)]
    · rw [Bool.not_eq_true] at hp
      rw [claimLoop_claim ps hp, ih, unclaimed, unclaimed,
        List.filter_cons_of_pos (by rw [hp]; decide), List.eraseDups_cons, List.filter_filter]
      -- after the claim, `p` is one of the Operations that the loop skips
      have hfilter : (fun q => !((h.claim self fileno p).ops q).inProgress) =
          fun q => (!q == p) && !(h.ops q).inProgress := by
        funext q
        by_cases hq : q = p
        · rw [hq, claim_ops_self, beq_self_eq_true]
          rfl
        · rw [claim_ops_ne hq, beq_eq_false_iff_ne.mpr hq]
          rfl
      rw [hfilter]

theorem Heap.Unheld.claim (hun : h.Unheld) (p : OpPtr) : (h.claim self fileno p).Unheld := by
  intro q hq
  by_cases hqp : q = p
  · rw [hqp, claim_ops_self] at hq
    cases hq
  · rw [claim_ops_ne hqp] at hq ⊢
    exact hun q hq

theorem claim_ctxRefs {p : OpPtr} (hctx : (h.ops p).context = none) :
    (h.claim self fileno p).ctxRefs = Function.update h.ctxRefs self (h.ctxRefs self + 1) := by
  rw [Heap.claim, hctx]
  rfl

theorem claimLoop_ctxRefs (hun : h.Unheld) (ops : List OpPtr) :
    (claimLoop self fileno ops h).1.ctxRefs =
      Function.update h.ctxRefs self
        (h.ctxRefs self + (claimLoop self fileno ops h).2.length) := by
  induction ops generalizing h with
  | nil => exact (Function.update_eq_self ..).symm
  | cons p ps ih =>
    by_cases hp : (h.ops p).inProgress = true
    · rw [claimLoop_skip ps hp]
      exact ih hun
    · rw [Bool.not_eq_true] at hp
      rw [claimLoop_claim ps hp]
      show (claimLoop self fileno ps (h.claim self fileno p)).1.ctxRefs = _
      rw [ih (hun.claim p), claim_ctxRefs (hun p hp), Function.update_idem, Function.update_self,
        List.length_cons]
      congr 1
      omega

theorem unclaim_ctxRefs {p : OpPtr} (hctx : (h.ops p).context = some self) :
    (h.unclaim p).ctxRefs = Function.update h.ctxRefs self (h.ctxRefs self - 1) := by
  rw [Heap.unclaim, hctx]
  rfl

theorem foldl_unclaim_ctxRefs {ps : List OpPtr} (hnodup : ps.Nodup)
    (hctx : ∀ p ∈ ps, (h.ops p).context = some self) :
    (ps.foldl Heap.unclaim h).ctxRefs =
      Function.update h.ctxRefs self (h.ctxRefs self - ps.length) := by
  induction ps generalizing h with
  | nil => exact (Function.update_eq_self ..).symm
  | cons p ps ih =>
    obtain ⟨hp, hps⟩ := List.nodup_cons.mp hnodup
    -- the list has no duplicates, so the Operations that remain are as they were
    have hrest : ∀ q ∈ ps, ((h.unclaim p).ops q).context = some self := by
      intro q hq
      have hne : q ≠ p := fun heq => hp (heq ▸ hq)
      rw [unclaim_ops, if_neg hne]
      exact hctx q (List.mem_cons_of_mem _ hq)
    rw [List.foldl_cons, ih hps hrest, unclaim_ctxRefs (hctx p List.mem_cons_self),
      Function.update_idem, Function.update_self, List.length_cons]
    congr 1
    omega

theorem rollback_ctxRefs (hun : h.Unheld) (ops : List OpPtr) (n : ℕ) :
    (((claimLoop self fileno ops h).2.drop n).foldl Heap.unclaim
        (claimLoop self fileno ops h).1).ctxRefs =
      Function.update h.ctxRefs self
        (h.ctxRefs self + ((claimLoop self fileno ops h).2.take n).length) := by
  have hctx : ∀ p ∈ (claimLoop self fileno ops h).2.drop n,
      ((claimLoop self fileno ops h).1.ops p).context = some self := by
    intro p hp
    rw [claimLoop_ops, if_pos (List.mem_of_mem_drop hp)]
    rfl
  rw [foldl_unclaim_ctxRefs ((List.drop_sublist ..).nodup (claimed_nodup ops)) hctx,
    claimLoop_ctxRefs hun, Function.update_idem, Function.update_self, List.length_drop,
    List.length_take]
  congr 1
  omega

/-- The checks of a call pass: its Context is initialised, and all arguments are Operations. -/
structure Checked (k : AIOContext) (args : List Arg) : Prop where
  ctx : k.ctx ≠ 0
  operations : ∀ a ∈ args, ∃ p, a = .operation p

/-- `submit` hands a prefix of the unclaimed Operations to the kernel and restores the rest. -/
structure AcceptsPrefix (h : Heap) (i : CtxId) (k : AIOContext) (args : List Arg)
    (answer : Except Int32 ℕ) (r : Submitted) : Prop where
  unchecked : ¬Checked k args → ∃ exc, r.ret = .error exc
  idle : Checked k args → unclaimed h (args.filterMap Arg.operation?) = [] → r.ret = .ok 0
  /-- What `io_submit` answers is returned or raised. -/
  answered : Checked k args → unclaimed h (args.filterMap Arg.operation?) ≠ [] →
    r.ret = answer.mapError ioSubmitError
  returned : ∀ n, r.ret = .ok n →
    r.accepted = (unclaimed h (args.filterMap Arg.operation?)).take n ∧ r.accepted.length = n
  raised : ∀ exc, r.ret = .error exc → r.accepted = []
  taken : ∀ p ∈ r.accepted, (r.heap.ops p).inProgress = true ∧
    (r.heap.ops p).context = some i ∧ (r.heap.ops p).refcnt = (h.ops p).refcnt + 1
  others : ∀ p, p ∉ r.accepted → (r.heap.ops p).inProgress = (h.ops p).inProgress ∧
    (r.heap.ops p).context = (h.ops p).context ∧ (r.heap.ops p).refcnt = (h.ops p).refcnt
  payload : ∀ p, (r.heap.ops p).iocb.aioBuf = (h.ops p).iocb.aioBuf ∧
    (r.heap.ops p).iocb.aioNbytes = (h.ops p).iocb.aioNbytes
  /-- One reference of this Context for each Operation, and none of another. -/
  ctxRefs : r.heap.ctxRefs =
    Function.update h.ctxRefs i (h.ctxRefs i + r.accepted.length)

variable {k : AIOContext} {args : List Arg} {answer : Except Int32 ℕ}

theorem AcceptsPrefix.refused (hnot : ¬Checked k args) (exc : PyErr) :
    AcceptsPrefix h self k args answer ⟨h, [], .error exc⟩ where
  unchecked _ := ⟨exc, rfl⟩
  idle hchecked _ := absurd hchecked hnot
  answered hchecked _ := absurd hchecked hnot
  returned n hn := by cases hn
  raised _ _ := rfl
  taken p hp := absurd hp List.not_mem_nil
  others _ _ := ⟨rfl, rfl, rfl⟩
  payload _ := ⟨rfl, rfl⟩
  ctxRefs := (Function.update_eq_self ..).symm

theorem AcceptsPrefix.empty (hctx : k.ctx ≠ 0) :
    AcceptsPrefix h self k [] answer ⟨h, [], .ok 0⟩ where
  unchecked hnot := absurd ⟨hctx, fun _ ha => absurd ha List.not_mem_nil⟩ hnot
  idle _ _ := rfl
  answered _ hne := absurd rfl hne
  returned n hn := by
    cases hn
    exact ⟨rfl, rfl⟩
  raised _ _ := rfl
  taken p hp := absurd hp List.not_mem_nil
  others _ _ := ⟨rfl, rfl, rfl⟩
  payload _ := ⟨rfl, rfl⟩
  ctxRefs := (Function.update_eq_self ..).symm

theorem firstOther_eq_none_iff (args : List Arg) (i : ℕ) :
    Arg.firstOther args i = none ↔ ∀ a ∈ args, ∃ p, a = .operation p := by
  induction args generalizing i with
  | nil => exact ⟨fun _ _ ha => absurd ha List.not_mem_nil, fun _ => rfl⟩
  | cons a args ih =>
    rw [List.forall_mem_cons]
    cases a with
    | operation p => exact (ih (i + 1)).trans ⟨fun h => ⟨⟨p, rfl⟩, h⟩, And.right⟩
    | other repr => exact ⟨nofun, fun h => by cases h.1 with | intro p hp => cases hp⟩

theorem submitOps_answers (ops : List OpPtr) (answer : Except Int32 ℕ) :
    (unclaimed h ops = [] → (submitOps h self fileno ops answer).ret = .ok 0) ∧
      (unclaimed h ops ≠ [] →
        (submitOps h self fileno ops answer).ret = answer.mapError ioSubmitError) := by
  simp only [submitOps, claimed_eq_unclaimed]
  constructor
  · intro hnil
    rw [if_pos hnil]
  · intro hne
    rw [if_neg hne]
    cases answer <;> rfl

theorem submitOps_ctxRefs (hun : h.Unheld) (ops : List OpPtr) (answer : Except Int32 ℕ) :
    (submitOps h self fileno ops answer).heap.ctxRefs = Function.update h.ctxRefs self
      (h.ctxRefs self + (submitOps h self fileno ops answer).accepted.length) := by
  have hclaim : (claimLoop self fileno ops h).1.ctxRefs = Function.update h.ctxRefs self
      (h.ctxRefs self + (claimLoop self fileno ops h).2.length) := claimLoop_ctxRefs hun ops
  simp only [submitOps]
  split_ifs with hnil
  · rw [hnil] at hclaim
    exact hclaim
  · cases answer with
    | error errno => exact rollback_ctxRefs hun ops 0
    | ok n => exact rollback_ctxRefs hun ops n

theorem submitOps_returned (ops : List OpPtr)
    (hans : ∀ n, answer = .ok n → n ≤ (unclaimed h ops).length) :
    (∀ n, (submitOps h self fileno ops answer).ret = .ok n →
      (submitOps h self fileno ops answer).accepted = (unclaimed h ops).take n ∧
        (submitOps h self fileno ops answer).accepted.length = n) ∧
    ∀ exc, (submitOps h self fileno ops answer).ret = .error exc →
      (submitOps h self fileno ops answer).accepted = [] := by
  simp only [submitOps, claimed_eq_unclaimed]
  split_ifs with hnil
  · refine ⟨fun n hn => ?_, fun exc hexc => rfl⟩
    cases hn
    exact ⟨rfl, rfl⟩
  · cases answer with
    | error errno =>
      refine ⟨fun n hn => ?_, fun exc hexc => rfl⟩
      cases hn
    | ok r =>
      refine ⟨fun n hn => ?_, fun exc hexc => ?_⟩
      · cases hn
        exact ⟨rfl, List.length_take_of_le (hans _ rfl)⟩
      · cases hexc

theorem submitOps_accepts (hun : h.Unheld) (hchecked : Checked k args)
    (hans : ∀ n, answer = .ok n →
      n ≤ (unclaimed h (args.filterMap Arg.operation?)).length) :
    AcceptsPrefix h self k args answer
      (submitOps h self fileno (args.filterMap Arg.operation?) answer) := by
  have hfate := submitOps_ops h self fileno (args.filterMap Arg.operation?) answer
  refine ⟨fun hnot => absurd hchecked hnot, fun _ => (submitOps_answers _ answer).1,
    fun _ => (submitOps_answers _ answer).2, (submitOps_returned _ hans).1,
    (submitOps_returned _ hans).2, fun p hp => ?_, fun p hp => ?_, fun p => ?_,
    submitOps_ctxRefs hun _ answer⟩
  · obtain ⟨-, -, hop⟩ | ⟨hno, -⟩ | ⟨hno, -⟩ := hfate p
    · rw [hop]
      exact ⟨rfl, rfl, rfl⟩
    · exact absurd hp hno
    · exact absurd hp hno
  · obtain ⟨hyes, -⟩ | ⟨-, hfree, hop⟩ | ⟨-, hop⟩ := hfate p
    · exact absurd hyes hp
    · rw [hop, hfree, hun p hfree]
      exact ⟨rfl, rfl, rfl⟩
    · rw [hop]
      exact ⟨rfl, rfl, rfl⟩
  · obtain ⟨-, -, hop⟩ | ⟨-, -, hop⟩ | ⟨-, hop⟩ := hfate p <;> rw [hop] <;> exact ⟨rfl, rfl⟩

theorem submit_accepts (hun : h.Unheld) (k : AIOContext) {args : List Arg}
    {answer : Except Int32 ℕ} (hans : ∀ n, answer = .ok n →
      n ≤ (unclaimed h (args.filterMap Arg.operation?)).length) :
    AcceptsPrefix h self k args answer (submit h self k args answer) := by
  unfold submit
  split_ifs with hctx hargs
  · exact .refused (fun hchecked => hchecked.ctx hctx) _
  · subst hargs
    exact .empty hctx
  · split
    case h_1 i repr hother =>
      refine .refused (fun hchecked => ?_) _
      rw [(firstOther_eq_none_iff args 0).mpr hchecked.operations] at hother
      cases hother
    case h_2 hnone =>
      exact submitOps_accepts hun ⟨hctx, (firstOther_eq_none_iff args 0).mp hnone⟩ hans

namespace World

variable {s t : World}

theorem unheld_submit (hun : h.Unheld) (k : AIOContext) (args : List Arg)
    (answer : Except Int32 ℕ) : (submit h self k args answer).heap.Unheld := by
  intro p hp
  obtain ⟨-, -, hop⟩ | ⟨-, -, hop⟩ | ⟨-, hop⟩ := submit_ops h self k args answer p
  · rw [hop] at hp
    cases hp
  · rw [hop]
    rfl
  · rw [hop] at hp ⊢
    exact hun p hp

theorem unheld_settle (hun : h.Unheld) (ev : IoEvent) : (h.settle ev).Unheld := by
  intro p hp
  rw [settle_ops] at hp ⊢
  split_ifs at hp ⊢
  · rfl
  · exact hun p hp

theorem unheld_step (hun : s.heap.Unheld) {a : Action} (hs : s.step a = some t) :
    t.heap.Unheld := by
  cases step_touches hs with
  | submit k args answer hheap =>
    rw [hheap]
    exact unheld_submit hun (s.ctxs k) args answer
  | settle i c ev left hc hpc hheap =>
    rw [hheap]
    exact unheld_settle hun ev
  | quiet hheap =>
    intro p hp
    obtain ⟨callback, refcnt, hop⟩ := hheap p
    rw [hop] at hp ⊢
    exact hun p hp

theorem unheld_exec (hun : s.heap.Unheld) {as : List Action} (hs : system.exec s as = some t) :
    t.heap.Unheld := by
  apply TransitionSystem.exec_invariant (I := fun u => u.heap.Unheld) ?_ hun hs
  intro u a v _ hu hv
  exact unheld_step hu hv

/-- In every state of a program whose Operations were made without a Context, and for every batch
and every answer of `io_submit` to it, a prefix of the unclaimed Operations is accepted and the
rest is restored. -/
theorem submit_accepts_prefix {s₀ : World} (hnew : s₀.heap.Unheld) {as : List Action}
    (hrun : system.exec s₀ as = some s) (k : CtxId) (args : List Arg) {answer : Except Int32 ℕ}
    (hans : ∀ n, answer = .ok n →
      n ≤ (unclaimed s.heap (args.filterMap Arg.operation?)).length) :
    AcceptsPrefix s.heap k (s.ctxs k) args answer (submit s.heap k (s.ctxs k) args answer) :=
  submit_accepts (unheld_exec hnew hrun) (s.ctxs k) hans

/-- A batch with an Operation in flight and a duplicate, of which the kernel takes two. -/
theorem submit_accepts_prefix_mixed :
    ∃ s r, system.exec new [.submit 0 [.operation 16] (.ok 1)] = some s ∧
      submit s.heap 0 (s.ctxs 0) ([16, 32, 48, 32, 64].map .operation) (.ok 2) = r ∧
      r.ret = .ok 2 ∧ r.accepted = [32, 48] ∧ (r.heap.ops 48).inProgress = true ∧
      (r.heap.ops 64).inProgress = false := by
  have hrun : ((system.exec new [.submit 0 [.operation 16] (.ok 1)]).any fun s =>
      decide (unclaimed s.heap [16, 32, 48, 32, 64] = [32, 48, 64] ∧ (s.ctxs 0).ctx = 1 ∧
        (s.heap.ops 64).inProgress = false)) = true := by decide +kernel
  obtain ⟨s, hs, hstate⟩ := (Option.any_eq_true _ _).mp hrun
  obtain ⟨hfree, hctx, hlast⟩ := of_decide_eq_true hstate
  have hbatch : unclaimed s.heap
      ((([16, 32, 48, 32, 64] : List OpPtr).map Arg.operation).filterMap Arg.operation?) =
        [32, 48, 64] := hfree
  have hans : ∀ n, (.ok 2 : Except Int32 ℕ) = .ok n → n ≤ (unclaimed s.heap
      ((([16, 32, 48, 32, 64] : List OpPtr).map Arg.operation).filterMap
        Arg.operation?)).length := by
    intro n hn
    cases hn
    rw [hbatch]
    decide
  have haccepts := submit_accepts_prefix (fun _ _ => rfl) hs 0
    (([16, 32, 48, 32, 64] : List OpPtr).map .operation) hans
  have hchecked : Checked (s.ctxs 0) (([16, 32, 48, 32, 64] : List OpPtr).map .operation) := by
    refine ⟨by rw [hctx]; decide, fun a ha => ?_⟩
    obtain ⟨p, -, rfl⟩ := List.mem_map.mp ha
    exact ⟨p, rfl⟩
  have hret := haccepts.answered hchecked (by rw [hbatch]; decide)
  obtain ⟨htaken, -⟩ := haccepts.returned 2 hret
  rw [hbatch] at htaken
  refine ⟨s, _, hs, rfl, hret, htaken, (haccepts.taken 48 ?_).1, ?_⟩
  · rw [htaken]
    decide
  · refine ((haccepts.others 64 ?_).1).trans hlast
    rw [htaken]
    decide

end World

end Caio.LinuxAio
