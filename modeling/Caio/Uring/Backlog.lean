import Caio.Uring.Lifecycle

namespace Caio.Uring

namespace Context

variable {k : Context}

def Roomy (k : Context) : Prop := k.carried.length ≤ 2 ^ k.cq.size.log

/-- Nothing in the backlog, and no reason to use it. -/
structure Clear (k : Context) : Prop where
  backlog : k.backlog = []
  roomy : k.Roomy

theorem carried_length (k : Context) : k.carried.length =
    (k.sq.queue k.sq.tail).length + k.inKernel.length + k.cq.queue.length + k.backlog.length := by
  simp only [carried, List.length_append, List.length_map]

theorem Clear.not_full (h : k.Clear) {i : ℕ} {e : Sqe} (he : k.inKernel[i]? = some e) :
    ¬k.cq.Full := by
  have hi := (List.getElem?_eq_some_iff.mp he).1
  have hlen := k.carried_length
  have hroomy : k.carried.length ≤ 2 ^ k.cq.size.log := h.roomy
  rw [CqRing.Full, UInt32.le_iff_toNat_le, RingSize.entries_toNat]
  rw [CqRing.queue, RingBuffer.window_length] at hlen
  omega

theorem Clear.complete (h : k.Clear) {i : ℕ} {e : Sqe} (he : k.inKernel[i]? = some e)
    (res : Int32) (late : Bool) :
    (({ k with inKernel := k.inKernel.eraseIdx i } : Context).post
    ⟨e.userData, res⟩ late).Clear := by
  have hpost : ({ k with inKernel := k.inKernel.eraseIdx i } : Context).post
      ⟨e.userData, res⟩ late = { k with
        inKernel := k.inKernel.eraseIdx i
        cq := k.cq.post ⟨e.userData, res⟩ } := by
    refine if_neg (not_or.mpr ⟨h.not_full he, fun hlate => ?_⟩)
    exact hlate.2 h.backlog
  have hlen := (complete_carried he res late).length_eq
  rw [hpost] at hlen ⊢
  refine ⟨h.backlog, ?_⟩
  rw [Roomy, hlen]
  exact h.roomy

theorem Clear.consume (h : k.Clear) {e : Sqe} {sq : SqRing} (he : k.sq.consume = some (e, sq)) :
    ({ k with sq, inKernel := k.inKernel ++ [e] } : Context).Clear := by
  refine ⟨h.backlog, ?_⟩
  rw [Roomy, (consume_carried he).length_eq]
  exact h.roomy

theorem Clear.moveBacklog (h : k.Clear) : k.moveBacklog.Clear := by
  have hsame : k.moveBacklog = k := by
    rw [Context.moveBacklog, h.backlog]
    show ({ k with cq := k.cq, backlog := [] } : Context) = k
    rw [← h.backlog]
  rwa [hsame]

theorem Clear.drained {heap heap' : Heap} {cq : CqRing} {max : UInt32} {scan : Scan}
    {es : List Cqe} (h : k.Clear) (hd : Drained heap heap' k.cq cq max scan es) :
    ({ k with cq } : Context).Clear := by
  refine ⟨h.backlog, ?_⟩
  have hroomy : k.carried.length ≤ 2 ^ k.cq.size.log := h.roomy
  rw [carried_length, hd.queue, List.length_append] at hroomy
  rw [Roomy, carried_length, hd.size]
  show (k.sq.queue k.sq.tail).length + k.inKernel.length + cq.queue.length + k.backlog.length ≤ _
  omega

end Context

namespace World

variable {s t : World} {c : CtxId}

/-- The completions of Context `c` that no drain has consumed. -/
def undelivered (s : World) (c : CtxId) : List (OpPtr × Int32) :=
  completions (s.ctxs c).cq.queue ++ completions (s.ctxs c).backlog

theorem processEvents_default (s : World) (c : CtxId) (turns : List Turn) :
    s.processEvents c 0 0 0 turns = some (s.drain c evMaxRequestsDefault) := rfl

/-- It returns 0 exactly when the ring holds no real completion; the backlog does not matter. -/
theorem drain_zero (s : World) (c : CtxId) (max : UInt32) (hmax : 0 < max.toNat)
    (hsmall : max.toNat < 2 ^ 31) :
    ((s.drain c max).2 = .ok 0 ↔ completions (s.ctxs c).cq.queue = []) ∧
      ((s.drain c max).2 = .ok 0 → (s.drain c max).1.undelivered c =
        completions (s.ctxs c).backlog) := by
  obtain ⟨heap, cq, scan, es, hrun, hd⟩ := drainCq_spec s.heap (s.ctxs c).cq max
  have hresult : (s.drain c max).2 = .ok scan.batch.length := by
    have hret := Scan.ret_eq hd.count (hd.atMost.trans_lt hsmall)
    simp only [drain, hrun]
    exact hret
  have hqueue : scan.batch = [] → completions (s.ctxs c).cq.queue = [] ∧ cq.queue = [] := by
    intro hnil
    have hrest := hd.rest (by rw [hnil]; exact hmax)
    refine ⟨?_, hrest⟩
    rw [hd.queue, hrest, List.append_nil, ← hd.batch, hnil]
  rw [hresult, Except.ok.injEq, List.length_eq_zero_iff]
  refine ⟨⟨fun hnil => (hqueue hnil).1, fun hnil => ?_⟩, fun hnil => ?_⟩
  · rw [hd.queue, completions_append, ← hd.batch] at hnil
    exact (List.append_eq_nil_iff.mp hnil).1
  · simp only [drain, hrun, undelivered]
    rw [setCtx_ctxs_self, (hqueue hnil).2]
    rfl

def Clear (s : World) : Prop := ∀ c, (s.ctxs c).Clear

theorem Clear.setCtx (h : Clear s) {k : Context} (hk : k.Clear) : Clear (s.setCtx c k) := by
  intro d
  by_cases hd : d = c
  · subst hd
    rwa [setCtx_ctxs_self]
  · rw [setCtx_ctxs_ne _ _ hd]
    exact h d

theorem Clear.kernelStep (h : Clear s) {a : KernelStep} (hs : s.kernelStep c a = some t) :
    Clear t := by
  obtain ⟨-, hs⟩ := Option.ite_none_left_eq_some.mp hs
  cases a with
  | consume =>
    obtain ⟨⟨e, sq⟩, he, rfl⟩ := Option.map_eq_some_iff.mp hs
    exact h.setCtx ((h c).consume he)
  | transfer i data =>
    simp only at hs
    split at hs
    · cases hs
    · split_ifs at hs
      cases hs
      exact h
  | complete i res late =>
    simp only at hs
    split at hs
    case h_1 => cases hs
    case h_2 e he =>
      cases hs
      exact h.setCtx ((h c).complete he res late)

theorem Clear.drain (h : Clear s) (max : UInt32) : Clear (s.drain c max).1 := by
  obtain ⟨heap, cq, scan, es, hrun, hd⟩ := drainCq_spec s.heap (s.ctxs c).cq max
  simp only [World.drain, hrun]
  exact h.setCtx ((h c).drained hd)

theorem Clear.kept (c : CtxId) : Kept c Clear :=
  ⟨fun h hs => h.kernelStep hs, fun h => h.setCtx (h _).moveBacklog, fun max h => h.drain max⟩

def Action.ofCtx : Action → Bool
  | .newContext .. | .submit .. | .cancel .. | .flush .. | .processEvents .. | .kernel .. => true
  | _ => false

theorem newOp_ctxs {p : OpPtr} {op : AIOOperation} (hs : s.newOp p op = some t) :
    t.ctxs = s.ctxs := by
  obtain ⟨-, heq⟩ := Option.ite_none_right_eq_some.mp hs
  cases heq
  rfl

theorem step_ctxs {a : Action} (ha : a.ofCtx = false) (hs : s.step a = some t) :
    t.ctxs = s.ctxs := by
  cases a with
  | newRead p nbytes fileno offset pyBuffer =>
    obtain ⟨-, hs⟩ := Option.ite_none_left_eq_some.mp hs
    rw [newOp_ctxs hs]
    rfl
  | newWrite p payloadBytes fileno offset =>
    obtain ⟨-, hs⟩ := Option.ite_none_right_eq_some.mp hs
    exact newOp_ctxs hs
  | newFsync p fileno | newFdsync p fileno => exact newOp_ctxs hs
  | newBytes b content =>
    obtain ⟨-, hs⟩ := Option.ite_none_left_eq_some.mp hs
    cases hs
    rfl
  | incref p | decref p | increfCtx c | decrefCtx c | setCallback p callback | endTurn x =>
    obtain ⟨-, hs⟩ := Option.ite_none_right_eq_some.mp hs
    cases hs
    rfl
  | payload p =>
    obtain ⟨-, hs⟩ := Option.ite_none_right_eq_some.mp hs
    cases hs
    unfold World.payload
    split <;> rfl
  | getValue p new =>
    obtain ⟨-, hs⟩ := Option.ite_none_right_eq_some.mp hs
    cases hs
    unfold World.getValue
    split <;> rfl
  | newContext | submit | cancel | flush | processEvents | kernel => cases ha

theorem backlog_setCtx {k : Context} (hk : k.backlog = []) (hempty : ∀ d, (s.ctxs d).backlog = [])
    (d : CtxId) : ((s.setCtx c k).ctxs d).backlog = [] := by
  by_cases hd : d = c
  · subst hd
    rwa [setCtx_ctxs_self]
  · rw [setCtx_ctxs_ne _ _ hd]
    exact hempty d

/-- As long as there is room for all that is outstanding, the backlog stays empty. -/
theorem backlog_step (hroomy : ∀ d, (s.ctxs d).Roomy) (hempty : ∀ d, (s.ctxs d).backlog = [])
    {a : Action} (hs : s.step a = some t) (d : CtxId) : (t.ctxs d).backlog = [] := by
  have hclear : Clear s := fun d => ⟨hempty d, hroomy d⟩
  have hother : a.ofCtx = false → (t.ctxs d).backlog = [] := by
    intro ha
    rw [step_ctxs ha hs]
    exact hempty d
  cases a with
  | newRead | newWrite | newFsync | newFdsync | newBytes | incref | decref | increfCtx | decrefCtx
  | setCallback | payload | getValue | endTurn => exact hother rfl
  | newContext c k =>
    obtain ⟨⟨-, -, hk⟩, hs⟩ := Option.ite_none_right_eq_some.mp hs
    cases hs
    exact backlog_setCtx hk.2.2.2 hempty d
  | submit c args =>
    obtain ⟨-, hs⟩ := Option.ite_none_right_eq_some.mp hs
    cases hs
    obtain ⟨_, hres, -⟩ | hops := submit_cases s c args
    · rw [hres]
      exact hempty d
    · rw [hops]
      refine backlog_setCtx (s := s) ?_ hempty d
      exact hempty c
  | cancel c p =>
    obtain ⟨-, hs⟩ := Option.ite_none_right_eq_some.mp hs
    cases hs
    unfold World.cancel
    split
    · exact hempty d
    · refine backlog_setCtx ?_ hempty d
      exact hempty c
  | flush c needWakeup calls =>
    obtain ⟨-, hs⟩ := Option.ite_none_right_eq_some.mp hs
    obtain ⟨⟨u, r⟩, hu, rfl⟩ := Option.map_eq_some_iff.mp hs
    exact ((Clear.kept c).flush hclear hu d).backlog
  | processEvents c maxRequests minRequests tvSec turns =>
    obtain ⟨-, hs⟩ := Option.ite_none_right_eq_some.mp hs
    obtain ⟨⟨u, r⟩, hu, rfl⟩ := Option.map_eq_some_iff.mp hs
    exact ((Clear.kept c).processEvents hclear hu d).backlog
  | kernel c a => exact (hclear.kernelStep hs d).backlog

theorem backlog_of_roomy (h : system.ReachableBy (fun s _ => ∀ d, (s.ctxs d).Roomy) s) (d : CtxId) :
    (s.ctxs d).backlog = [] := by
  have hall := h.invariant (I := fun s => ∀ d, (s.ctxs d).backlog = [])
    (fun _ (hi : Init _) d => (hi.ctxs d).2.2.2) fun _ _ _ hi hc hs => backlog_step hc hi hs
  exact hall d

/-- When `process_events()` returns 0, nothing is left undelivered exactly if there was no real
completion in the backlog; no run that has room for all that is outstanding ever has one. -/
theorem default_call_leaves_nothing (s : World) (c : CtxId) (turns : List Turn) :
    ((∀ t, s.processEvents c 0 0 0 turns = some (t, .ok 0) → t.undelivered c = []) ↔
      completions (s.ctxs c).backlog = [] ∨ completions (s.ctxs c).cq.queue ≠ []) ∧
    (system.ReachableBy (fun s _ => ∀ d, (s.ctxs d).Roomy) s →
      ∀ t, s.processEvents c 0 0 0 turns = some (t, .ok 0) → t.undelivered c = []) := by
  have hzero := drain_zero s c evMaxRequestsDefault (by decide) (by decide)
  have hcall : ∀ t, s.processEvents c 0 0 0 turns = some (t, .ok 0) ↔
      (s.drain c evMaxRequestsDefault).2 = .ok 0 ∧ t = (s.drain c evMaxRequestsDefault).1 := by
    intro t
    rw [processEvents_default, Option.some.injEq, Prod.ext_iff, and_comm, eq_comm (a := t)]
  have hiff : (∀ t, s.processEvents c 0 0 0 turns = some (t, .ok 0) → t.undelivered c = []) ↔
      completions (s.ctxs c).backlog = [] ∨ completions (s.ctxs c).cq.queue ≠ [] := by
    constructor
    · intro hall
      by_cases hq : completions (s.ctxs c).cq.queue = []
      · have hret := hzero.1.mpr hq
        left
        rw [← hzero.2 hret]
        exact hall _ ((hcall _).mpr ⟨hret, rfl⟩)
      · exact .inr hq
    · intro hcond t ht
      obtain ⟨hret, rfl⟩ := (hcall t).mp ht
      rw [hzero.2 hret]
      exact hcond.resolve_right fun hne => hne (hzero.1.mp hret)
  refine ⟨hiff, fun hroomy => hiff.mpr (.inl ?_)⟩
  rw [backlog_of_roomy hroomy c]
  rfl

/-- `Context(max_requests=1)`: two submission slots and four completion slots. -/
def fourSlots : Context :=
  { uringFd := 3, sqpoll := false
    sq := ⟨.two, true, 0, 0, fun _ => 0, fun _ => {}⟩
    cq := ⟨.four, 0, 0, fun _ => ⟨0, 0⟩⟩ }

/-- One fsync that is submitted, handed to the kernel and completed. -/
def roundTrip (p : OpPtr) : List Action :=
  [.newFsync p 5, .submit 0 [.operation p], .kernel 0 .consume, .kernel 0 (.complete 0 0 false)]

theorem default_call_leaves_nothing_after_one :
    ∃ s, system.exec initial (.newContext 0 fourSlots :: roundTrip 16 ++
        [.processEvents 0 0 0 0 []]) = some s ∧
      ∀ t, s.processEvents 0 0 0 0 [] = some (t, .ok 0) → t.undelivered 0 = [] := by
  have hrun : (system.exec initial (.newContext 0 fourSlots :: roundTrip 16 ++
      [.processEvents 0 0 0 0 []])).map (fun s => completions (s.ctxs 0).backlog) =
        some [] := by decide +kernel
  obtain ⟨s, hs, hback⟩ := Option.map_eq_some_iff.mp hrun
  exact ⟨s, hs, (default_call_leaves_nothing s 0 []).1.mpr (.inl hback)⟩

/-- Five completions for four slots: the fifth is in the backlog when `process_events()`
returns 0. -/
theorem default_call_strands_fifth :
    ∃ s t, system.Reachable s ∧ s.processEvents 0 0 0 0 [] = some (t, .ok 0) ∧
      t.undelivered 0 = [(80, 0)] := by
  have hrun : (system.exec initial (.newContext 0 fourSlots :: (roundTrip 16 ++ roundTrip 32 ++
      roundTrip 48 ++ roundTrip 64 ++ roundTrip 80) ++ [.processEvents 0 0 0 0 []])).bind
        (fun s => (s.processEvents 0 0 0 0 []).map fun r => (r.2.toOption, r.1.undelivered 0)) =
      some (some 0, [(80, 0)]) := by decide +kernel
  obtain ⟨s, hs, hcall⟩ := Option.bind_eq_some_iff.mp hrun
  obtain ⟨⟨t, r⟩, ht, hres⟩ := Option.map_eq_some_iff.mp hcall
  obtain ⟨hr, ht0⟩ := Prod.mk.inj hres
  cases r with
  | error e => cases hr
  | ok n =>
    cases hr
    exact ⟨s, t, .exec (.init initial_init) hs, ht, ht0⟩

end World

end Caio.Uring
