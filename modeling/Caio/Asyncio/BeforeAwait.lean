import Caio.Lib.Table
import Caio.LinuxAio.Finalise
import Caio.PythonAio.Once
import Caio.ThreadAio.Jobs

namespace Caio.Asyncio

/-- What `submit` calls for one Operation; the state is that of the adapter and its backend. -/
structure Hooks (σ : Type) where
  /-- `op.set_callback(partial(self._on_done, future))` -/
  setCallback : σ → σ
  /-- `self.context.submit(op)` -/
  submit : σ → Option (σ × Except PyErr ℕ)
  /-- `_on_submitted` -/
  onSubmitted : σ → Option (σ × Except PyErr Unit) := fun s => some (s, .ok ())

namespace Hooks

variable {σ : Type} (b : Hooks σ)

def submitOp (s : σ) : Option (σ × Except PyErr Unit) :=
  (b.submit s).map fun (s, r) => (s,
    match r with
    | .error e => .error e
    | .ok n => if n = 1 then .ok () else .error (.osError "Operation was not submitted"))

/-- `submit` up to `await future`; without a `slot` it is cancelled at the semaphore. -/
def beforeAwait (slot : Bool) (s : σ) : Option (σ × Except PyErr Unit) :=
  let s := b.setCallback s
  if slot = false then some (s, .error .cancelledError)
  else
    (b.submitOp s).bind fun
      | (s, .error e) => some (s, .error e)
      | (s, .ok ()) => b.onSubmitted s

theorem beforeAwait_cases {b : Hooks σ} {slot : Bool} {s t : σ} {r : Except PyErr Unit}
    (hrun : b.beforeAwait slot s = some (t, r)) :
    (slot = false ∧ t = b.setCallback s ∧ r = .error .cancelledError) ∨
    (slot = true ∧ ∃ n, b.submit (b.setCallback s) = some (t, n) ∧ n ≠ .ok 1 ∧ ∃ e, r = .error e) ∨
    slot = true ∧ ∃ u, b.submit (b.setCallback s) = some (u, .ok 1) ∧
      b.onSubmitted u = some (t, r) := by
  unfold beforeAwait at hrun
  cases slot with
  | false =>
    cases hrun
    exact .inl ⟨rfl, rfl, rfl⟩
  | true =>
    obtain ⟨_, hu, hrun⟩ := Option.bind_eq_some_iff.mp hrun
    obtain ⟨⟨u, n⟩, hsub, rfl⟩ := Option.map_eq_some_iff.mp hu
    cases n with
    | error e =>
      cases hrun
      exact .inr (.inl ⟨rfl, .error e, hsub, by simp, e, rfl⟩)
    | ok n =>
      by_cases hone : n = 1
      · subst hone
        exact .inr (.inr ⟨rfl, u, hsub, hrun⟩)
      · simp only [if_neg hone] at hrun
        cases hrun
        exact .inr (.inl ⟨rfl, .ok n, hsub, by simpa using hone, _, rfl⟩)

/-- Without an `_on_submitted` of its own an adapter raises only where it has not submitted. -/
theorem raised {b : Hooks σ} (hdefault : ∀ s, b.onSubmitted s = some (s, .ok ())) {P : σ → Prop}
    {slot : Bool} {s t : σ} {e : PyErr} (hrun : b.beforeAwait slot s = some (t, .error e))
    (hset : P (b.setCallback s))
    (hsubmit : ∀ u n, b.submit (b.setCallback s) = some (u, n) → n ≠ .ok 1 → P u) : P t := by
  obtain ⟨-, rfl, -⟩ | ⟨-, n, hu, hn, -⟩ | ⟨-, u, -, hu⟩ := beforeAwait_cases hrun
  · exact hset
  · exact hsubmit t n hu hn
  · rw [hdefault] at hu
    cases hu

end Hooks

end Caio.Asyncio

namespace Caio.LinuxAio

open Asyncio

variable {h : Heap} {self : CtxId} {k : AIOContext} {p : OpPtr} {answer : Except Int32 ℕ}

theorem submit_refused (hfree : (h.ops p).inProgress = false)
    (hanswer : ∀ n, answer = .ok n → n ≤ 1)
    (hret : (submit h self k [.operation p] answer).ret ≠ .ok 1) :
    ((submit h self k [.operation p] answer).heap.ops p).inProgress = false := by
  have hnone : (submit h self k [.operation p] answer).accepted = [] := by
    have hclaim : claimLoop self k.fileno [p] h = (h.claim self k.fileno p, [p]) :=
      claimLoop_claim [] hfree
    by_cases hctx : k.ctx = 0
    · rw [submit, if_pos hctx]
    · have hops : submit h self k [.operation p] answer = submitOps h self k.fileno [p] answer := by
        show submit h self k ([p].map .operation) answer = _
        exact submit_operations h self answer hctx
      rw [hops] at hret ⊢
      simp only [submitOps, hclaim] at hret ⊢
      cases answer with
      | error errno => rfl
      | ok n =>
        have hn := hanswer n rfl
        have hone : n ≠ 1 := fun heq => hret (by rw [heq]; rfl)
        obtain rfl : n = 0 := by omega
        rfl
  obtain ⟨hmem, -⟩ | ⟨-, -, hop⟩ | ⟨-, hop⟩ := submit_ops h self k [.operation p] answer p
  · rw [hnone] at hmem
    cases hmem
  · rw [hop]
    rfl
  · rwa [hop]

namespace World

variable {s t : World} {c : CtxId}

/-- What the adapter of Context `c` puts into `submit` when it does not defer. -/
def hooks (c : CtxId) (p : OpPtr) (callback : Callback) (answer : Except Int32 ℕ) :
    Hooks World where
  setCallback s :=
    { s with heap := s.heap.modify p fun op => { op with callback := some callback } }
  submit s := (s.step (.submit c [.operation p] answer)).map
    (·, (LinuxAio.submit s.heap c (s.ctxs c) [.operation p] answer).ret)

/-- The Operation is unclaimed, and the kernel has neither its iocb nor an event for it. -/
def Untouched (s : World) (p : OpPtr) : Prop :=
  (s.heap.ops p).inProgress = false ∧ s.undelivered p = 0

theorem untouched (h : Accounted s p) (hfree : (s.heap.ops p).inProgress = false) :
    s.Untouched p := by
  have hclaimed := h.claimed
  have hplaces := h.places
  rw [hfree, Bool.toNat_false] at hclaimed
  exact ⟨hfree, by omega⟩

theorem untouched_of_raised (hs : system.Reachable s) (hfree : (s.heap.ops p).inProgress = false)
    (hanswer : ∀ n, answer = .ok n → n ≤ 1) {callback : Callback} {slot : Bool} {e : PyErr}
    (hrun : (hooks c p callback answer).beforeAwait slot s = some (t, .error e)) :
    t.Untouched p := by
  have hset : system.Reachable ((hooks c p callback answer).setCallback s) ∧
      (((hooks c p callback answer).setCallback s).heap.ops p).inProgress = false := by
    refine ⟨.step (a := .setCallback p callback) hs trivial rfl, ?_⟩
    show ((s.heap.modify p fun op => { op with callback := some callback }).ops p).inProgress =
      false
    rwa [Heap.modify_ops_self]
  have hkeep := Hooks.raised (fun _ => rfl)
    (P := fun u => system.Reachable u ∧ (u.heap.ops p).inProgress = false) hrun hset ?_
  · exact untouched (accounted hkeep.1 p) hkeep.2
  · intro u n hu hn
    cases hu
    refine ⟨.step (a := .submit c [.operation p] answer) hset.1 trivial rfl, ?_⟩
    exact submit_refused hset.2 hanswer hn

end World

end Caio.LinuxAio

namespace Caio.ThreadAio

open Asyncio

variable {h : Heap} {self : CtxId} {pool : Option Threadpool} {p : OpPtr}

theorem submit_refused (hclean : h.Clean) (hfree : (h.ops p).inProgress = false)
    (hret : (submit h self pool [.operation p]).ret ≠ .ok 1) :
    ((submit h self pool [.operation p]).heap.ops p).inProgress = false := by
  have hnone : (submit h self pool [.operation p]).queued = [] := by
    cases pool with
    | none => rfl
    | some pool =>
      cases hadd : threadpoolAdd pool with
      | some err => simp [submit, submitLoop, Arg.operation?, hfree, hadd]
      | none =>
        -- the pool takes the task, so that the call returns 1
        refine absurd ?_ hret
        simp [submit, submitLoop, Arg.operation?, hfree, hadd]
  obtain ⟨-, -, hops, -⟩ := submit_spec self pool [.operation p] hclean
  rw [hops, hnone, if_neg List.not_mem_nil]
  exact hfree

namespace World

variable {s t : World} {k : CtxId}

def hooks (k : CtxId) (p : OpPtr) (callback : Callback) : Hooks World where
  setCallback s := s.withHeap (s.heap.modify p fun op => { op with callback := some callback })
  submit s := (s.step (.submit k [.operation p])).map (·, (s.submitted k [.operation p]).ret)

/-- The Operation is unclaimed, and no pool has ever had a task for it. -/
def Untouched (s : World) (p : OpPtr) : Prop :=
  (s.heap.ops p).inProgress = false ∧ s.jobs.countP (·.isOn p) = 0

theorem untouched_of_raised (hs : system.Reachable s) (hfree : (s.heap.ops p).inProgress = false)
    {callback : Callback} {slot : Bool} {e : PyErr}
    (hrun : (hooks k p callback).beforeAwait slot s = some (t, .error e)) : t.Untouched p := by
  have hset : system.Reachable ((hooks k p callback).setCallback s) ∧
      (((hooks k p callback).setCallback s).heap.ops p).inProgress = false := by
    refine ⟨.step (a := .setCallback p callback) hs trivial rfl, ?_⟩
    show ((s.heap.modify p fun op => { op with callback := some callback }).ops p).inProgress =
      false
    rw [Heap.modify_ops, if_pos rfl]
    exact hfree
  have hkeep := Hooks.raised (fun _ => rfl)
    (P := fun u => system.Reachable u ∧ (u.heap.ops p).inProgress = false) hrun hset ?_
  · refine ⟨hkeep.2, ?_⟩
    rw [(inv hkeep.1).claims, hkeep.2]
    rfl
  · intro u n hu hn
    cases hu
    refine ⟨.step (a := .submit k [.operation p]) hset.1 trivial rfl, ?_⟩
    exact submit_refused (inv hset.1).clean hset.2 hn

end World

end Caio.ThreadAio

namespace Caio.PythonAio

open Asyncio

/-- What a call of `submit` has returned or raised. -/
def Call.ended (c : Call) : Option (Except PyErr ℕ) :=
  match c.pc with
  | .returned n => some (.ok n)
  | .raised exc => some (.error exc)
  | _ => none

/-- A call with at most one Operation. -/
structure Call.Single (c : Call) : Prop where
  size : c.counted.length + c.held.toList.length + c.rest.length ≤ 1
  returned : ∀ n, c.pc = .returned n → c.counted.length = n
  raised : ∀ exc, c.pc = .raised exc → c.counted = []

theorem Call.Single.going {c : Call}
    (size : c.counted.length + c.held.toList.length + c.rest.length ≤ 1)
    (hpc : c.ended = none) : c.Single := by
  refine ⟨size, fun n hn => ?_, fun exc hexc => ?_⟩
  · rw [ended, hn] at hpc
    cases hpc
  · rw [ended, hexc] at hpc
    cases hpc

namespace World

variable {s t : World} {k : CtxId} {p : OpId} {i : ℕ} {c : Call}

theorem execute_single (hpc : c.pc = .loop) {q : OpId} {qs : List OpId} (hrest : c.rest = q :: qs) :
    ∃ c', (s.execute i c q qs).calls = s.calls.set i c' ∧ (c.Single → c'.Single) := by
  have hheld : c.held = none := by rw [Call.held, hpc]
  have hsize : c.Single → c.counted = [] ∧ qs = [] := by
    intro h
    have := h.size
    rw [hrest, List.length_cons] at this
    exact ⟨List.eq_nil_of_length_eq_zero (by omega), List.eq_nil_of_length_eq_zero (by omega)⟩
  have hraise : ∀ exc, c.Single → ({ c with pc := .raised exc } : Call).Single := by
    intro exc h
    have := h.size
    rw [hheld] at this
    exact ⟨this, fun n hn => (by cases hn), fun _ _ => (hsize h).1⟩
  unfold execute
  split_ifs
  · refine ⟨_, rfl, fun h => .going ?_ (by rw [Call.ended, hpc])⟩
    obtain ⟨hcounted, hqs⟩ := hsize h
    rw [show ({ c with rest := qs } : Call).held = c.held from rfl, hheld]
    show c.counted.length + 0 + qs.length ≤ 1
    rw [hcounted, hqs]
    decide
  · exact ⟨_, rfl, hraise _⟩
  · exact ⟨_, rfl, hraise _⟩
  · refine ⟨_, rfl, fun h => .going ?_ rfl⟩
    obtain ⟨hcounted, hqs⟩ := hsize h
    show c.counted.length + 1 + qs.length ≤ 1
    rw [hcounted, hqs]
    decide

theorem step_single (hc : s.calls[i]? = some c) (h : c.Single) {a : Action}
    (hs : s.step a = some t) : ∃ c', t.calls[i]? = some c' ∧ c'.Single := by
  have hsame : t.calls = s.calls → ∃ c', t.calls[i]? = some c' ∧ c'.Single :=
    fun heq => ⟨c, by rwa [heq], h⟩
  cases a with
  | submit k args =>
    simp only [step] at hs
    split at hs
    all_goals
      cases hs
      exact ⟨c, Table.getElem?_append_of_some hc _, h⟩
  | execute j =>
    obtain ⟨d, hd, hs⟩ := onCall_eq_some hs
    split at hs
    case h_1 hpc hrest =>
      cases hs
      refine Table.set_keeps hd (fun hk => ⟨?_, fun n hn => ?_, fun exc hexc => by cases hexc⟩) hc h
      · have := hk.size
        rw [Call.held, hpc] at this
        exact this
      · cases hn
        rfl
    case h_2 q qs hpc hrest =>
      cases hs
      obtain ⟨d', heq, hkeep⟩ := execute_single (s := s) (i := j) hpc hrest
      rw [heq]
      exact Table.set_keeps hd hkeep hc h
    case h_3 => cases hs
  | applyAsync j exc =>
    obtain ⟨d, hd, hs⟩ := onCall_eq_some hs
    split at hs
    case h_1 q hpc hs =>
      obtain ⟨-, hs⟩ := Option.ite_none_right_eq_some.mp hs
      cases hs
      refine Table.set_keeps hd (fun hk => .going ?_ rfl) hc h
      have := hk.size
      rw [Call.held, hpc] at this
      show (d.counted ++ [q]).length + 0 + d.rest.length ≤ 1
      rw [List.length_append]
      exact this
    case h_2 q exc hpc hs =>
      cases hs
      refine Table.set_keeps hd (fun hk => .going ?_ rfl) hc h
      have := hk.size
      rw [Call.held, hpc] at this
      exact this
    case h_3 => cases hs
  | rollbackClaim j =>
    obtain ⟨d, hd, hs⟩ := onCall_eq_some hs
    split at hs
    case h_1 q exc hpc =>
      cases hs
      have hnone : d.Single → d.counted.length = 0 ∧ d.rest.length = 0 := by
        intro hk
        have := hk.size
        rw [Call.held, hpc, Option.toList_some, List.length_singleton] at this
        omega
      refine Table.set_keeps hd (fun hk => ⟨?_, fun n hn => (by cases hn), fun _ _ => ?_⟩) hc h
      · show d.counted.length + 0 + d.rest.length ≤ 1
        have := hnone hk
        omega
      · exact List.eq_nil_of_length_eq_zero (hnone hk).1
    case h_2 => cases hs
  | run j returned | releaseSlot j | record j | invokeCallback j =>
    obtain ⟨b, hb, hs⟩ := onJob_eq_some hs
    split at hs
    · cases hs
      exact hsame rfl
    · cases hs
  | setCallback q callback =>
    cases hs
    exact hsame rfl
  | close k =>
    cases hs
    apply hsame
    unfold close
    split <;> rfl

theorem exec_single (hc : s.calls[i]? = some c) (h : c.Single) {as : List Action}
    (hs : system.exec s as = some t) : ∃ c', t.calls[i]? = some c' ∧ c'.Single := by
  induction as generalizing s c with
  | nil =>
    cases hs
    exact ⟨c, hc, h⟩
  | cons a as ih =>
    obtain ⟨u, hu, ht⟩ := Option.bind_eq_some_iff.mp hs
    obtain ⟨d, hd, hsingle⟩ := step_single hc h hu
    exact ih hd hsingle ht

/-- What the adapter of Context `k` puts into `submit`: during the call the workers, and other
threads, go on with `as`. -/
def hooks (k : CtxId) (p : OpId) (callback : Callback) (as : List Action) : Hooks World where
  setCallback s := s.modifyOp p fun op => { op with callback := some callback }
  submit s := (system.exec s (.submit k [.operation p] :: as)).bind fun t =>
    (t.calls[s.calls.length]?).bind fun c => c.ended.map (t, ·)

/-- No call but `i` has claimed the Operation. -/
def Unshared (s : World) (i : ℕ) (p : OpId) : Prop :=
  ∀ j d, s.calls[j]? = some d → j ≠ i → d.held ≠ some p ∧ p ∉ d.counted

/-- The Operation is unclaimed, and no pool has ever had a job for it. -/
def Untouched (s : World) (p : OpId) : Prop :=
  (s.ops p).inProgress = false ∧ ∀ b ∈ s.jobs, b.op ≠ p

theorem untouched_of_ended (hs : system.Reachable s) (hc : s.calls[i]? = some c)
    (hheld : c.held = none) (hcounted : c.counted = []) (hother : s.Unshared i p) :
    s.Untouched p := by
  have hbal := balanced hs
  have hall : ∀ d ∈ s.calls, d.held ≠ some p ∧ p ∉ d.counted := by
    intro d hd
    obtain ⟨j, hj⟩ := List.mem_iff_getElem?.mp hd
    by_cases hji : j = i
    · rw [hji, hc] at hj
      cases hj
      rw [hheld, hcounted]
      exact ⟨by simp, List.not_mem_nil⟩
    · exact hother j d hj hji
  have hjobs : s.ledger.scheduled p = 0 := by
    rw [← hbal.counted]
    refine List.sum_eq_zero fun n hn => ?_
    obtain ⟨d, hd, rfl⟩ := List.mem_map.mp hn
    exact List.count_eq_zero.mpr (hall d hd).2
  have hholds : s.ledger.held p = 0 :=
    List.countP_eq_zero.mpr fun d hd h => (hall d hd).1 (of_decide_eq_true h)
  have howner := hbal.owner p
  rw [hjobs, hholds] at howner
  refine ⟨?_, fun b hb heq => ?_⟩
  · cases hp : (s.ops p).inProgress
    · rfl
    · rw [show s.ledger.claimed p = (s.ops p).inProgress from rfl, hp] at howner
      cases howner
  · exact List.countP_eq_zero.mp hjobs b hb (by simp [Job.isOn, heq])

theorem untouched_of_raised (hs : system.Reachable s) (hfree : (s.ops p).inProgress = false)
    {callback : Callback} {as : List Action} {slot : Bool} {e : PyErr}
    (hrun : (hooks k p callback as).beforeAwait slot s = some (t, .error e))
    (hother : t.Unshared s.calls.length p) : t.Untouched p := by
  have hset : system.Reachable ((hooks k p callback as).setCallback s) :=
    .step (a := .setCallback p callback) hs trivial rfl
  obtain ⟨-, rfl, -⟩ | ⟨-, n, hu, hn, -⟩ | ⟨-, u, -, hu⟩ := Hooks.beforeAwait_cases hrun
  · have hsame : (((hooks k p callback as).setCallback s).ops p).inProgress = false := by
      rw [← hfree]
      exact modifyOp_inProgress s p (f := fun op => { op with callback := some callback }) rfl p
    refine ⟨hsame, fun b hb heq => ?_⟩
    have hnone := (inProgress_iff (balanced hset) p).not.mp (by rw [hsame]; decide)
    exact hnone (.inr ⟨b, hb, heq⟩)
  · obtain ⟨u, hu, hend⟩ := Option.bind_eq_some_iff.mp hu
    obtain ⟨c, hc, hend⟩ := Option.bind_eq_some_iff.mp hend
    obtain ⟨r, hr, heq⟩ := Option.map_eq_some_iff.mp hend
    cases heq
    obtain ⟨v, hv, hrest⟩ := Option.bind_eq_some_iff.mp hu
    have hnew : v.calls[s.calls.length]? = some { ctx := k, rest := [p] } := by
      cases hv
      exact Table.getElem?_append_one s.calls _
    obtain ⟨c', hc', hsingle⟩ := exec_single hnew (.going (Nat.le_refl 1) rfl) hrest
    obtain rfl : c = c' := Option.some.inj (hc.symm.trans hc')
    have hlast : c.held = none ∧ c.counted = [] := by
      cases hpc : c.pc with
      | returned m =>
        simp only [Call.ended, hpc, Option.some.injEq] at hr
        have hlen := hsingle.returned m hpc
        have hone : m ≠ 1 := fun h => hn (by rw [← hr, h])
        have hsize := hsingle.size
        refine ⟨by rw [Call.held, hpc], List.eq_nil_of_length_eq_zero ?_⟩
        omega
      | raised exc => exact ⟨by rw [Call.held, hpc], hsingle.raised exc hpc⟩
      | loop | claimed | failed =>
        rw [Call.ended, hpc] at hr
        cases hr
    exact untouched_of_ended (.exec (.step hset trivial hv) hrest) hc hlast.1 hlast.2 hother
  · cases hu

end World

end Caio.PythonAio
