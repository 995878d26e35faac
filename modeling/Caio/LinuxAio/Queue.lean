import Mathlib.Tactic.SplitIfs
import Caio.Lib.Transition
import Caio.LinuxAio.Deferred

namespace Caio.LinuxAio

namespace Adapter

/-- What a run of `_deferred_submit` leaves. -/
structure Batch where
  adapter : Adapter
  /-- The arguments of `self.context.submit`, none when it is not called. -/
  args : List Arg := []
  accepted : List OpPtr := []

/-- `_deferred_submit` for any outcome of `self.context.submit(*ops)`. -/
def deferredSubmitWith (a : Adapter) (submit : List Arg → Submitted) : Batch :=
  let pending := a.live
  let a := { a with pending := [], submitScheduled := false }
  if pending = [] then { adapter := a }
  else
    let args := pending.map fun e => .operation e.1
    let s := submit args
    let futures :=
      match s.ret with
      | .error exc => setExceptions exc pending a.futures
      | .ok accepted => setExceptions notSubmitted (pending.drop accepted) a.futures
    { adapter := { a with heap := s.heap, futures }, args, accepted := s.accepted }

theorem deferredSubmit_eq (a : Adapter) (ioSubmit : Except Int32 ℕ) :
    let batch := a.deferredSubmitWith fun args => submit a.heap a.self a.context args ioSubmit
    a.deferredSubmit ioSubmit = (batch.adapter, batch.accepted) := by
  simp only [deferredSubmit, deferredSubmitWith]
  split <;> rfl

/-- `self.context.submit(*ops)` with the answer of `io_submit`, or an exception that comes before
any claim, such as `MemoryError` or `KeyboardInterrupt`. -/
def contextSubmit (a : Adapter) (answer : Except PyErr (Except Int32 ℕ)) (args : List Arg) :
    Submitted :=
  match answer with
  | .error exc => ⟨a.heap, [], .error exc⟩
  | .ok ioSubmit => submit a.heap a.self a.context args ioSubmit

/-- `_submit_op` with `deferred=True`, and whether it schedules a `_deferred_submit`. -/
def submitOp (a : Adapter) (p : OpPtr) (f : FutureId) : Adapter × Bool :=
  let a := { a with pending := a.pending ++ [(p, f)] }
  if a.submitScheduled then (a, false) else ({ a with submitScheduled := true }, true)

end Adapter

/-- An adapter and what has happened to its queue. -/
structure Queue where
  adapter : Adapter
  /-- Calls of `_deferred_submit` that wait in the loop. -/
  scheduled : ℕ := 0
  /-- The pairs that `_submit_op` has queued. -/
  queued : List (OpPtr × FutureId) := []
  /-- The pairs that `_deferred_submit` has taken out of `_pending`. -/
  taken : List (OpPtr × FutureId) := []
  /-- The arguments that it has passed to `Context.submit`. -/
  passed : List Arg := []
  /-- Those that the kernel has accepted. -/
  accepted : List OpPtr := []
  /-- The futures that were cancelled while their pair was in `_pending`. -/
  early : List FutureId := []

namespace Queue

inductive Action
  /-- A coroutine runs up to `await future`; without a `slot` it is cancelled at the semaphore. -/
  | submit (p : OpPtr) (f : FutureId) (slot : Bool)
  /-- The task that waits for `f` is cancelled. -/
  | cancel (f : FutureId)
  | deferredSubmit (answer : Except PyErr (Except Int32 ℕ))
  /-- `_on_done` of an Operation that the kernel has accepted. -/
  | onDone (f : FutureId)
  /-- What other code and the kernel do to the objects; nobody else claims a queued Operation. -/
  | other (heap : Heap)

/-- `_on_done` of `linux_aio_asyncio.py`, and the cancellation of a future. -/
def settle (futures : FutureId → Future) (f : FutureId) (x : Future) : FutureId → Future :=
  if (futures f).done then futures else Function.update futures f x

def New (s : Queue) (p : OpPtr) (f : FutureId) : Prop :=
  p ∉ s.queued.map Prod.fst ∧ f ∉ s.queued.map Prod.snd ∧
    (s.adapter.heap.ops p).inProgress = false ∧ s.adapter.futures f = .pending

instance (s : Queue) (p : OpPtr) (f : FutureId) : Decidable (s.New p f) :=
  inferInstanceAs (Decidable (_ ∧ _ ∧ _ ∧ _))

/-- `io_submit` accepts no more than it gets. -/
def Possible (s : Queue) : Except PyErr (Except Int32 ℕ) → Prop
  | .ok (.ok r) => r ≤ s.adapter.claimed.length
  | _ => True

instance (s : Queue) : DecidablePred s.Possible
  | .ok (.ok _) => inferInstanceAs (Decidable (_ ≤ _))
  | .ok (.error _) | .error _ => isTrue trivial

def step (s : Queue) : Action → Option Queue
  | .submit p f slot =>
    if s.New p f then
      if slot = false then some s
      else
        let r := s.adapter.submitOp p f
        some { s with
          adapter := r.1, scheduled := s.scheduled + r.2.toNat, queued := s.queued ++ [(p, f)] }
    else none
  | .cancel f =>
    if f ∈ s.queued.map Prod.snd then
      some { s with
        adapter := { s.adapter with futures := settle s.adapter.futures f .cancelled }
        early := if f ∈ s.adapter.pending.map Prod.snd then f :: s.early else s.early }
    else none
  | .deferredSubmit answer =>
    if 0 < s.scheduled ∧ s.Possible answer then
      let r := s.adapter.deferredSubmitWith (s.adapter.contextSubmit answer)
      some { s with
        adapter := r.adapter, scheduled := s.scheduled - 1
        taken := s.taken ++ s.adapter.pending
        passed := s.passed ++ r.args
        accepted := s.accepted ++ r.accepted }
    else none
  | .onDone f =>
    if ∃ e ∈ s.taken, e.2 = f ∧ e.1 ∈ s.accepted then
      some { s with adapter := { s.adapter with futures := settle s.adapter.futures f .result } }
    else none
  | .other heap =>
    if ∀ e ∈ s.adapter.pending, (heap.ops e.1).inProgress = false then
      some { s with adapter := { s.adapter with heap } }
    else none

/-- A new adapter. -/
structure Init (s : Queue) : Prop where
  pending : s.adapter.pending = []
  submitScheduled : s.adapter.submitScheduled = false
  scheduled : s.scheduled = 0
  queued : s.queued = []
  taken : s.taken = []
  passed : s.passed = []
  accepted : s.accepted = []
  early : s.early = []

def system : TransitionSystem Queue Action := ⟨Init, step⟩

end Queue

namespace Adapter

variable {a : Adapter} {answer : Except PyErr (Except Int32 ℕ)}

theorem claimed_take_of_nodup {h : Heap} {self : CtxId} {fileno : Int32} {ops : List OpPtr}
    (hnodup : ops.Nodup) (hfree : ∀ p ∈ ops, (h.ops p).inProgress = false) {r : ℕ}
    (hr : r ≤ ops.length) : (claimLoop self fileno ops h).2.take r = ops.take r := by
  apply claimed_take
  intro i hi
  have hlen : i < ops.length := Nat.lt_of_lt_of_le hi hr
  refine ⟨ops[i], List.getElem?_eq_getElem hlen, hfree _ (List.getElem_mem hlen), fun hmem => ?_⟩
  obtain ⟨j, hj, heq⟩ := List.mem_take_iff_getElem.mp hmem
  have hji : j = i := hnodup.getElem_inj_iff.mp heq
  omega

/-- A batch of distinct Operations that nobody has claimed is accepted up to some entry, or the call
raises. -/
theorem contextSubmit_spec {es : List (OpPtr × FutureId)} (hnodup : (es.map Prod.fst).Nodup)
    (hfree : ∀ e ∈ es, (a.heap.ops e.1).inProgress = false)
    (hr : ∀ r, answer = .ok (.ok r) → r ≤ es.length) :
    let s := a.contextSubmit answer (es.map fun e => .operation e.1)
    (∃ exc, s.ret = .error exc) ∨ ∃ r, s.ret = .ok r ∧ s.accepted = (es.map Prod.fst).take r := by
  have hops : es.map (fun e => Arg.operation e.1) = (es.map Prod.fst).map Arg.operation :=
    (List.map_map ..).symm
  cases answer with
  | error exc => exact .inl ⟨exc, rfl⟩
  | ok ioSubmit =>
    -- the claim loop skips nothing in such a batch, so a prefix of the claims is one of the batch
    simp only [contextSubmit, hops]
    by_cases hctx : a.context.ctx = 0
    · exact .inl ⟨_, by rw [submit, if_pos hctx]⟩
    · rw [submit_operations _ _ _ hctx]
      cases ioSubmit with
      | ok r =>
        have hlen : r ≤ (es.map Prod.fst).length := by
          rw [List.length_map]
          exact hr r rfl
        have htake : (claimLoop a.self a.context.fileno (es.map Prod.fst) a.heap).2.take r =
            (es.map Prod.fst).take r :=
          claimed_take_of_nodup hnodup (List.forall_mem_map.mpr hfree) hlen
        have hclaimed := congrArg List.length htake
        rw [List.length_take, List.length_take] at hclaimed
        obtain ⟨hret, haccepted⟩ := submitOps_accepted a.heap a.self a.context.fileno
          (es.map Prod.fst) (r := r) (by omega)
        exact .inr ⟨r, hret, haccepted.trans htake⟩
      | error errno =>
        simp only [submitOps]
        split
        · exact .inr ⟨0, rfl, rfl⟩
        · exact .inl ⟨_, rfl⟩

theorem claimed_sublist (self : CtxId) (fileno : Int32) (ops : List OpPtr) (h : Heap) :
    (claimLoop self fileno ops h).2.Sublist ops := by
  induction ops generalizing h with
  | nil => exact .slnil
  | cons p ps ih =>
    by_cases hp : (h.ops p).inProgress = true
    · rw [claimLoop_skip ps hp]
      exact (ih h).cons p
    · rw [Bool.not_eq_true] at hp
      rw [claimLoop_claim ps hp]
      exact (ih _).cons_cons p

theorem contextSubmit_accepted (answer : Except PyErr (Except Int32 ℕ)) (args : List Arg) :
    (a.contextSubmit answer args).accepted.Sublist (args.filterMap Arg.operation?) := by
  cases answer with
  | error exc => exact List.nil_sublist _
  | ok ioSubmit =>
    show (submit a.heap a.self a.context args ioSubmit).accepted.Sublist _
    unfold submit
    split_ifs
    · exact List.nil_sublist _
    · exact List.nil_sublist _
    · split
      · exact List.nil_sublist _
      · simp only [submitOps]
        split
        · exact List.nil_sublist _
        · split
          · exact List.nil_sublist _
          · exact (List.take_sublist ..).trans (claimed_sublist ..)

theorem deferredSubmitWith_args (a : Adapter) (submit : List Arg → Submitted) :
    (a.deferredSubmitWith submit).args = a.live.map fun e => .operation e.1 := by
  simp only [deferredSubmitWith]
  split_ifs with hlive
  · rw [hlive]
    rfl
  · rfl

theorem deferredSubmitWith_accepted (a : Adapter) (answer : Except PyErr (Except Int32 ℕ)) :
    let batch := a.deferredSubmitWith (a.contextSubmit answer)
    (batch.accepted.map Arg.operation).Sublist batch.args := by
  intro batch
  have hargs : batch.args = a.live.map fun e => .operation e.1 := deferredSubmitWith_args a _
  have hops : batch.args = (a.live.map Prod.fst).map Arg.operation :=
    hargs.trans (List.map_map ..).symm
  rw [hops]
  apply List.Sublist.map
  show (a.deferredSubmitWith (a.contextSubmit answer)).accepted.Sublist _
  simp only [deferredSubmitWith]
  split_ifs with hlive
  · exact List.nil_sublist _
  · have haccepted := a.contextSubmit_accepted answer (a.live.map fun e => .operation e.1)
    rw [List.filterMap_map] at haccepted
    have hall : a.live.filterMap (Arg.operation? ∘ fun e => .operation e.1) =
        a.live.map Prod.fst := congrFun List.filterMap_eq_map a.live
    rwa [hall] at haccepted

/-- A run of `_deferred_submit` on distinct Operations that nobody has claimed: it takes all
entries, keeps every outcome, and leaves a future without one only if the kernel has its
Operation. -/
theorem deferredSubmitWith_spec (hnodup : (a.live.map Prod.fst).Nodup)
    (hfree : ∀ e ∈ a.live, (a.heap.ops e.1).inProgress = false)
    (hr : ∀ r, answer = .ok (.ok r) → r ≤ a.live.length) :
    let r := a.deferredSubmitWith (a.contextSubmit answer)
    r.adapter.pending = [] ∧ r.adapter.submitScheduled = false ∧
      (∀ f, (a.futures f).done = true → r.adapter.futures f = a.futures f) ∧
      ∀ e ∈ a.live, r.adapter.futures e.2 = .pending → e.1 ∈ r.accepted := by
  unfold deferredSubmitWith
  by_cases hlive : a.live = []
  · rw [if_pos hlive]
    refine ⟨rfl, rfl, fun _ _ => rfl, fun e he => ?_⟩
    rw [hlive] at he
    cases he
  · rw [if_neg hlive]
    obtain ⟨exc, hret⟩ | ⟨r, hret, haccepted⟩ := contextSubmit_spec hnodup hfree hr
    · simp only [hret]
      refine ⟨trivial, trivial, fun f hf => setExceptions_of_done hf, fun e he hpending => ?_⟩
      rw [setExceptions_of_mem (List.mem_map_of_mem he) (live_not_done he)] at hpending
      cases hpending
    -- a future past the accepted prefix gets an exception, so one without is in the prefix
    · simp only [hret]
      refine ⟨trivial, trivial, fun f hf => setExceptions_of_done hf, fun e he hpending => ?_⟩
      rw [haccepted, ← List.map_take]
      have hopen := live_not_done he
      rw [← List.take_append_drop r a.live, List.mem_append] at he
      obtain hin | hout := he
      · exact List.mem_map_of_mem hin
      · rw [setExceptions_of_mem (List.mem_map_of_mem hout) hopen] at hpending
        cases hpending

end Adapter

namespace Queue

variable {s t : Queue}

/-- The pairs that were taken out and had not been cancelled before. -/
def kept (s : Queue) : List (OpPtr × FutureId) := s.taken.filter fun e => decide (e.2 ∉ s.early)

structure Inv (s : Queue) : Prop where
  flag : s.adapter.submitScheduled = true ↔ 0 < s.scheduled
  once : s.scheduled ≤ 1
  pending : s.adapter.pending ≠ [] → 0 < s.scheduled
  split : s.queued = s.taken ++ s.adapter.pending
  ops : (s.queued.map Prod.fst).Nodup
  futures : (s.queued.map Prod.snd).Nodup
  free : ∀ e ∈ s.adapter.pending, (s.adapter.heap.ops e.1).inProgress = false
  /-- A future that waits has no outcome unless it has been cancelled. -/
  waiting : ∀ e ∈ s.adapter.pending, (s.adapter.futures e.2).done = true ↔ e.2 ∈ s.early
  early : ∀ f ∈ s.early, f ∈ s.queued.map Prod.snd ∧ (s.adapter.futures f).done = true
  passed : s.passed = s.kept.map fun e => .operation e.1
  accepted : (s.accepted.map Arg.operation).Sublist s.passed
  resolved : ∀ e ∈ s.taken, s.adapter.futures e.2 = .pending → e.1 ∈ s.accepted

theorem Init.inv (h : Init s) : Inv s := by
  refine ⟨?_, ?_, fun hne => absurd h.pending hne, ?_, ?_, ?_, ?_, ?_, ?_, ?_, ?_, ?_⟩
  · rw [h.submitScheduled, h.scheduled]
    decide
  · rw [h.scheduled]
    decide
  · rw [h.queued, h.taken, h.pending]
    rfl
  · rw [h.queued]
    exact List.nodup_nil
  · rw [h.queued]
    exact List.nodup_nil
  · rw [h.pending]
    simp
  · rw [h.pending]
    simp
  · rw [h.early]
    simp
  · rw [h.passed, kept, h.taken]
    rfl
  · rw [h.accepted]
    exact List.nil_sublist _
  · rw [h.taken]
    simp

theorem settle_done {futures : FutureId → Future} {f g : FutureId} {x : Future}
    (hg : (futures g).done = true) : settle futures f x g = futures g := by
  unfold settle
  split_ifs with hf
  · rfl
  · have hne : g ≠ f := by
      rintro rfl
      exact hf hg
    exact Function.update_of_ne hne ..

theorem settle_self (futures : FutureId → Future) {f : FutureId} {x : Future} (hx : x ≠ .pending) :
    (settle futures f x f).done = true := by
  unfold settle
  split_ifs with hf
  · exact hf
  · rw [Function.update_self]
    exact bne_iff_ne.mpr hx

theorem settle_ne (futures : FutureId → Future) {f g : FutureId} (x : Future) (hne : g ≠ f) :
    settle futures f x g = futures g := by
  unfold settle
  split_ifs
  · rfl
  · exact Function.update_of_ne hne ..

/-- A future that is resolved now has been so, or is the one that is settled. -/
theorem settle_pending {futures : FutureId → Future} {f g : FutureId} {x : Future}
    (hx : x ≠ .pending) (hg : settle futures f x g = .pending) : futures g = .pending := by
  by_cases hne : g = f
  · subst hne
    have hdone := settle_self futures (f := g) hx
    rw [hg] at hdone
    cases hdone
  · rwa [settle_ne futures x hne] at hg

/-- The futures of the pairs that were taken out are not those of the pairs that wait. -/
theorem Inv.apart (h : Inv s) {e d : OpPtr × FutureId} (he : e ∈ s.taken)
    (hd : d ∈ s.adapter.pending) : e.2 ≠ d.2 := by
  have hnodup := h.futures
  rw [h.split, List.map_append] at hnodup
  exact fun heq => (List.nodup_append.mp hnodup).2.2 _ (List.mem_map_of_mem he) _
    (List.mem_map_of_mem hd) heq

theorem submitOp_spec (a : Adapter) (p : OpPtr) (f : FutureId) : a.submitOp p f =
    ({ a with pending := a.pending ++ [(p, f)], submitScheduled := true }, !a.submitScheduled) := by
  unfold Adapter.submitOp
  cases a.submitScheduled <;> simp

theorem Inv.submit (h : Inv s) {p : OpPtr} {f : FutureId} (hnew : s.New p f) :
    Inv { s with
      adapter := (s.adapter.submitOp p f).1
      scheduled := s.scheduled + (s.adapter.submitOp p f).2.toNat
      queued := s.queued ++ [(p, f)] } := by
  obtain ⟨hp, hf, hfree, hopen⟩ := hnew
  -- whether or not the flag was up, one `_deferred_submit` waits afterwards
  have hone : s.scheduled + (!s.adapter.submitScheduled).toNat = 1 := by
    have hflag := h.flag
    have honce := h.once
    cases hs : s.adapter.submitScheduled with
    | true =>
      have := hflag.mp hs
      show s.scheduled + 0 = 1
      omega
    | false =>
      rw [hs] at hflag
      have : ¬0 < s.scheduled := fun hpos => by cases hflag.mpr hpos
      show s.scheduled + 1 = 1
      omega
  rw [submitOp_spec]
  simp only [hone]
  refine ⟨iff_of_true rfl Nat.one_pos, Nat.le_refl 1, fun _ => Nat.one_pos, ?_, ?_, ?_, ?_, ?_, ?_,
    h.passed, h.accepted, h.resolved⟩
  · show s.queued ++ [(p, f)] = s.taken ++ (s.adapter.pending ++ [(p, f)])
    rw [h.split, List.append_assoc]
  · rw [List.map_append]
    exact List.Nodup.append h.ops (List.nodup_singleton p) (by simpa using hp)
  · rw [List.map_append]
    exact List.Nodup.append h.futures (List.nodup_singleton f) (by simpa using hf)
  · intro e he
    obtain he | he := List.mem_append.mp he
    · exact h.free e he
    · rw [List.mem_singleton.mp he]
      exact hfree
  · intro e he
    obtain he | he := List.mem_append.mp he
    · exact h.waiting e he
    · rw [List.mem_singleton.mp he]
      refine iff_of_false ?_ fun hearly => hf (h.early f hearly).1
      show ¬(s.adapter.futures f).done = true
      rw [hopen]
      decide
  · intro g hg
    obtain ⟨hmem, hdone⟩ := h.early g hg
    refine ⟨?_, hdone⟩
    rw [List.map_append]
    exact List.mem_append_left _ hmem

theorem Inv.cancel_early (h : Inv s) {f : FutureId} (hf : f ∈ s.adapter.pending.map Prod.snd) :
    Inv { s with
      adapter := { s.adapter with futures := settle s.adapter.futures f .cancelled }
      early := f :: s.early } := by
  obtain ⟨d, hd, rfl⟩ := List.mem_map.mp hf
  refine ⟨h.flag, h.once, h.pending, h.split, h.ops, h.futures, h.free, fun e he => ?_,
    fun g hg => ?_, ?_, h.accepted, fun e he hpending => ?_⟩
  · show (settle s.adapter.futures d.2 .cancelled e.2).done = true ↔ e.2 ∈ d.2 :: s.early
    by_cases hed : e.2 = d.2
    · rw [hed]
      exact iff_of_true (settle_self _ (by decide)) List.mem_cons_self
    · rw [settle_ne _ _ hed, h.waiting e he, List.mem_cons, or_iff_right hed]
  · show g ∈ s.queued.map Prod.snd ∧ (settle s.adapter.futures d.2 .cancelled g).done = true
    obtain rfl | hg := List.mem_cons.mp hg
    · refine ⟨?_, settle_self _ (by decide)⟩
      rw [h.split, List.map_append]
      exact List.mem_append_right _ hf
    · obtain ⟨hmem, hdone⟩ := h.early g hg
      exact ⟨hmem, by rwa [settle_done hdone]⟩
  -- no pair that was taken out has the future that is cancelled
  · have hsame : s.taken.filter (fun e => decide (e.2 ∉ d.2 :: s.early)) = s.kept := by
      apply List.filter_congr
      intro e he
      simp only [List.mem_cons, h.apart he hd, false_or]
    show s.passed =
      (s.taken.filter fun e => decide (e.2 ∉ d.2 :: s.early)).map fun e => .operation e.1
    rw [hsame]
    exact h.passed
  · exact h.resolved e he (settle_pending (by decide) hpending)

theorem Inv.cancel (h : Inv s) (f : FutureId) :
    Inv { s with
      adapter := { s.adapter with futures := settle s.adapter.futures f .cancelled }
      early := if f ∈ s.adapter.pending.map Prod.snd then f :: s.early else s.early } := by
  by_cases hf : f ∈ s.adapter.pending.map Prod.snd
  · rw [if_pos hf]
    exact h.cancel_early hf
  · rw [if_neg hf]
    refine ⟨h.flag, h.once, h.pending, h.split, h.ops, h.futures, h.free, fun e he => ?_,
      fun g hg => ?_, h.passed, h.accepted, fun e he hpending => ?_⟩
    · show (settle s.adapter.futures f .cancelled e.2).done = true ↔ _
      have hne : e.2 ≠ f := fun heq => hf (heq ▸ List.mem_map_of_mem (f := Prod.snd) he)
      rw [settle_ne _ _ hne]
      exact h.waiting e he
    · obtain ⟨hmem, hdone⟩ := h.early g hg
      refine ⟨hmem, ?_⟩
      show (settle s.adapter.futures f .cancelled g).done = true
      rwa [settle_done hdone]
    · exact h.resolved e he (settle_pending (by decide) hpending)

/-- The `done()` filter drops exactly the pairs that were cancelled while they waited. -/
theorem Inv.live_eq (h : Inv s) :
    s.adapter.live = s.adapter.pending.filter fun e => decide (e.2 ∉ s.early) := by
  apply List.filter_congr
  intro e he
  have hdone := h.waiting e he
  cases hd : (s.adapter.futures e.2).done <;> simp_all

theorem Inv.deferredSubmit (h : Inv s) {answer : Except PyErr (Except Int32 ℕ)}
    (hpos : 0 < s.scheduled) (hr : s.Possible answer) :
    let r := s.adapter.deferredSubmitWith (s.adapter.contextSubmit answer)
    Inv { s with
        adapter := r.adapter, scheduled := s.scheduled - 1
        taken := s.taken ++ s.adapter.pending
        passed := s.passed ++ r.args
        accepted := s.accepted ++ r.accepted } := by
  have hsub : s.adapter.live.Sublist s.adapter.pending := List.filter_sublist
  have hnodup : (s.adapter.live.map Prod.fst).Nodup := by
    have hops := h.ops
    rw [h.split, List.map_append] at hops
    exact (List.nodup_append.mp hops).2.1.sublist (hsub.map Prod.fst)
  have hbound : ∀ r, answer = .ok (.ok r) → r ≤ s.adapter.live.length := by
    intro r hans
    rw [hans] at hr
    exact Nat.le_trans hr s.adapter.claimed_length_le
  obtain ⟨hempty, hflag, hkeep, hresolved⟩ := Adapter.deferredSubmitWith_spec hnodup
    (fun e he => h.free e (hsub.subset he)) hbound
  have hone : s.scheduled = 1 := by
    have := h.once
    omega
  intro r
  refine ⟨?_, ?_, fun hne => absurd hempty hne, ?_, h.ops, h.futures, ?_, ?_, fun f hf => ?_, ?_,
    ?_, fun e he hpending => ?_⟩
  · show r.adapter.submitScheduled = true ↔ 0 < s.scheduled - 1
    rw [hflag, hone]
    decide
  · show s.scheduled - 1 ≤ 1
    omega
  · show s.queued = (s.taken ++ s.adapter.pending) ++ r.adapter.pending
    rw [hempty, List.append_nil]
    exact h.split
  · show ∀ e ∈ r.adapter.pending, _
    rw [hempty]
    simp
  · show ∀ e ∈ r.adapter.pending, _
    rw [hempty]
    simp
  · obtain ⟨hmem, hdone⟩ := h.early f hf
    refine ⟨hmem, ?_⟩
    show (r.adapter.futures f).done = true
    rw [hkeep f hdone]
    exact hdone
  · show s.passed ++ r.args = ((s.taken ++ s.adapter.pending).filter
      fun e => decide (e.2 ∉ s.early)).map fun e => .operation e.1
    rw [List.filter_append, List.map_append, ← h.live_eq, h.passed,
      Adapter.deferredSubmitWith_args]
    rfl
  · show ((s.accepted ++ r.accepted).map Arg.operation).Sublist (s.passed ++ r.args)
    rw [List.map_append]
    exact h.accepted.append (s.adapter.deferredSubmitWith_accepted answer)
  · -- a future without an outcome now had none before
    have hopen : (s.adapter.futures e.2).done = false := by
      by_contra hdone
      rw [Bool.not_eq_false] at hdone
      have hsame := hkeep e.2 hdone
      rw [show r.adapter.futures e.2 = .pending from hpending] at hsame
      rw [← hsame] at hdone
      cases hdone
    obtain he | he := List.mem_append.mp he
    · refine List.mem_append_left _ (h.resolved e he ?_)
      simpa [Future.done] using hopen
    · refine List.mem_append_right _ (hresolved e ?_ hpending)
      exact List.mem_filter.mpr ⟨he, by rw [hopen]; rfl⟩

theorem Inv.onDone (h : Inv s) {e : OpPtr × FutureId} (he : e ∈ s.taken) :
    Inv { s with adapter :=
      { s.adapter with futures := settle s.adapter.futures e.2 .result } } := by
  refine ⟨h.flag, h.once, h.pending, h.split, h.ops, h.futures, h.free, fun d hd => ?_,
    fun f hf => ?_, h.passed, h.accepted, fun d hd hpending => ?_⟩
  · show (settle s.adapter.futures e.2 .result d.2).done = true ↔ _
    rw [settle_ne _ _ (Ne.symm (h.apart he hd))]
    exact h.waiting d hd
  · obtain ⟨hmem, hdone⟩ := h.early f hf
    refine ⟨hmem, ?_⟩
    show (settle s.adapter.futures e.2 .result f).done = true
    rwa [settle_done hdone]
  · exact h.resolved d hd (settle_pending (by decide) hpending)

theorem Inv.step (h : Inv s) {a : Action} (hs : s.step a = some t) : Inv t := by
  cases a with
  | submit p f slot =>
    obtain ⟨hnew, hs⟩ := Option.ite_none_right_eq_some.mp hs
    split_ifs at hs
    · cases hs
      exact h
    · cases hs
      exact h.submit hnew
  | cancel f =>
    obtain ⟨-, hs⟩ := Option.ite_none_right_eq_some.mp hs
    cases hs
    exact h.cancel f
  | deferredSubmit answer =>
    obtain ⟨⟨hpos, hr⟩, hs⟩ := Option.ite_none_right_eq_some.mp hs
    cases hs
    exact h.deferredSubmit hpos hr
  | onDone f =>
    obtain ⟨⟨e, he, rfl, -⟩, hs⟩ := Option.ite_none_right_eq_some.mp hs
    cases hs
    exact h.onDone he
  | other heap =>
    obtain ⟨hfree, hs⟩ := Option.ite_none_right_eq_some.mp hs
    cases hs
    exact ⟨h.flag, h.once, h.pending, h.split, h.ops, h.futures, hfree, h.waiting, h.early,
      h.passed, h.accepted, h.resolved⟩

theorem inv (h : system.Reachable s) : Inv s :=
  h.invariant (I := Inv) (fun _ hi => Init.inv hi) fun _ _ _ hinv _ hs => hinv.step hs

/-- What holds between two callbacks of the loop. -/
structure NothingLost (s : Queue) : Prop where
  scheduled : s.adapter.pending ≠ [] → s.scheduled = 1
  taken : s.queued = s.taken ++ s.adapter.pending ∧ s.queued.Nodup
  /-- A `_deferred_submit` takes all that is queued. -/
  emptied : ∀ answer t, s.step (.deferredSubmit answer) = some t →
    t.taken = s.queued ∧ t.adapter.pending = []
  passed : s.passed = (s.kept.map fun e => .operation e.1) ∧ s.passed.Nodup
  cancelled : ∀ e ∈ s.taken, e.2 ∈ s.early → .operation e.1 ∉ s.passed
  accepted : (s.accepted.map Arg.operation).Sublist s.passed
  resolved : ∀ e ∈ s.taken, s.adapter.futures e.2 = .pending → e.1 ∈ s.accepted

theorem Inv.emptied (h : Inv s) {answer : Except PyErr (Except Int32 ℕ)}
    (hs : s.step (.deferredSubmit answer) = some t) :
    t.taken = s.queued ∧ t.adapter.pending = [] := by
  have ht := (h.step hs).split
  obtain ⟨-, hs⟩ := Option.ite_none_right_eq_some.mp hs
  cases hs
  refine ⟨h.split.symm, ?_⟩
  rw [h.split] at ht
  exact List.self_eq_append_right.mp ht

theorem Inv.eq_of_op (h : Inv s) {e d : OpPtr × FutureId} (he : e ∈ s.taken) (hd : d ∈ s.taken)
    (heq : e.1 = d.1) : e = d := by
  have hmem : ∀ x ∈ s.taken, x ∈ s.queued := fun x hx => h.split ▸ List.mem_append_left _ hx
  exact List.inj_on_of_nodup_map h.ops (hmem e he) (hmem d hd) heq

/-- With fresh Operations, in every interleaving of submits, cancellations and runs of
`_deferred_submit`, the queue loses, repeats and leaks nothing. -/
theorem deferred_queue (h : system.Reachable s) : s.NothingLost := by
  have hinv := inv h
  have hsub : (s.kept.map Prod.fst).Sublist (s.queued.map Prod.fst) := by
    rw [hinv.split]
    exact (List.filter_sublist.trans (List.sublist_append_left ..)).map Prod.fst
  refine ⟨fun hne => ?_, ⟨hinv.split, hinv.ops.of_map⟩, fun answer t hs => hinv.emptied hs,
    ⟨hinv.passed, ?_⟩, fun e he hearly hmem => ?_, hinv.accepted, hinv.resolved⟩
  · have hpos := hinv.pending hne
    have honce := hinv.once
    omega
  · have hmap : (s.kept.map fun e => Arg.operation e.1) =
        (s.kept.map Prod.fst).map Arg.operation := (List.map_map ..).symm
    rw [hinv.passed, hmap]
    exact (hinv.ops.sublist hsub).map fun _ _ hop => Arg.operation.inj hop
  · rw [hinv.passed] at hmem
    obtain ⟨d, hd, hop⟩ := List.mem_map.mp hmem
    obtain ⟨hd, hkept⟩ := List.mem_filter.mp hd
    rw [hinv.eq_of_op he hd (Arg.operation.inj hop).symm] at hearly
    exact of_decide_eq_true hkept hearly

def new : Queue where
  adapter :=
    { heap := ⟨fun p => { iocb := { aioData := p, aioLioOpcode := .fsync } }, fun _ => 1⟩
      self := 0, context := ⟨1, 3⟩, futures := fun _ => .pending }

/-- Of three submits one is cancelled before the batch runs and one after it; a fourth is queued
between two batches, the first of which takes one Operation of two. -/
def cancellingRun : List Action :=
  [.submit 16 0 true, .submit 32 1 true, .submit 48 2 true, .cancel 1,
    .deferredSubmit (.ok (.ok 1)), .submit 64 3 true, .onDone 0, .cancel 2,
    .deferredSubmit (.error .memoryError)]

theorem deferred_queue_cancelling :
    ∃ s, system.exec new cancellingRun = some s ∧
      s.passed = [.operation 16, .operation 48, .operation 64] ∧ s.accepted = [16] ∧
      s.NothingLost := by
  have hrun : ((system.exec new cancellingRun).any fun s =>
      decide (s.passed = [.operation 16, .operation 48, .operation 64] ∧ s.accepted = [16])) =
        true := by decide +kernel
  obtain ⟨s, hs, hlog⟩ := (Option.any_eq_true _ _).mp hrun
  obtain ⟨hpassed, haccepted⟩ := of_decide_eq_true hlog
  exact ⟨s, hs, hpassed, haccepted,
    deferred_queue (.exec (.init ⟨rfl, rfl, rfl, rfl, rfl, rfl, rfl, rfl⟩) hs)⟩

end Queue

end Caio.LinuxAio
