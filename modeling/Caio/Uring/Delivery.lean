import Mathlib.Data.List.Nodup
import Caio.Uring.Drain

namespace Caio.Uring

/-- The completion that a turn of the callback loop is for. -/
def Delivery.completion (d : Delivery) : OpPtr × Int32 := (d.op, d.res)

/-- The steps of `uring_drain_cq` itself, as opposed to those of callbacks and of the kernel. -/
def Drain.Action.OfDrain : Drain.Action → Prop
  | .scan | .commit | .deliver | .callbackReturns _ | .leave => True
  | _ => False

theorem Frame.drop_turn {f : Frame} {i : ℕ} {x : OpPtr × Int32} (hx : f.scan.batch[i]? = some x) :
    f.scan.batch.drop i = x :: f.scan.batch.drop (i + 1) := by
  obtain ⟨hi, rfl⟩ := List.getElem?_eq_some_iff.mp hx
  exact List.drop_eq_getElem_cons hi

theorem perm_scanned {α : Type*} {done own others all : List α} (new : List α)
    (h : (done ++ (own ++ others)).Perm all) :
    (done ++ ((own ++ new) ++ others)).Perm (all ++ new) := by
  have hcomm : ((own ++ new) ++ others).Perm ((own ++ others) ++ new) := by
    rw [List.append_assoc, List.append_assoc]
    exact (List.perm_append_comm).append_left own
  exact (hcomm.append_left done).trans (by
    rw [← List.append_assoc]
    exact h.append_right new)

namespace Drain

/-- Where everything is: CQEs in the calls that consumed them, completions delivered or still to
be delivered, references dropped or still owed. -/
structure Account (s : Drain) : Prop where
  consumed : (s.finished.flatMap Finished.mine ++ s.stack.flatMap Frame.mine).Perm
    (s.taken.map Prod.fst)
  delivered : (s.delivered.map Delivery.completion ++ s.stack.flatMap Frame.todo).Perm
    (completions (s.taken.map Prod.fst))
  dropped : (s.dropped ++ (s.stack.flatMap Frame.owed).map Prod.fst).Perm
    ((completions (s.taken.map Prod.fst)).map Prod.fst)
  refs : ∀ p, (s.heap.ops p).refcnt = s.userRefs p + (s.heap.ops p).inFlight.toNat +
    ((s.stack.flatMap Frame.owed).map Prod.fst).count p

variable {s t : Drain}

/-- The end of a turn moves one reference from the owed ones to the dropped ones. -/
theorem Account.dropRef (h : Account s) {f : Frame} {fs : List Frame} {i : ℕ} {p : OpPtr}
    {res : Int32} (hs : s.stack = f :: fs) (howed : f.owed = f.scan.batch.drop i)
    (hx : f.scan.batch[i]? = some (p, res)) :
    ((s.dropRef f fs i p).dropped ++
      ((s.dropRef f fs i p).stack.flatMap Frame.owed).map Prod.fst).Perm
        ((completions (s.taken.map Prod.fst)).map Prod.fst) ∧
    ∀ q, ((s.dropRef f fs i p).heap.ops q).refcnt =
      s.userRefs q + ((s.dropRef f fs i p).heap.ops q).inFlight.toNat +
        (((s.dropRef f fs i p).stack.flatMap Frame.owed).map Prod.fst).count q := by
  have hturn := f.drop_turn hx
  have hdropped := h.dropped
  have hrefs := h.refs
  simp only [hs, List.flatMap_cons, howed, hturn, List.cons_append, List.map_cons] at hdropped hrefs
  refine ⟨?_, fun q => ?_⟩
  · simp only [Drain.dropRef, List.flatMap_cons, Frame.owed]
    rwa [List.append_cons] at hdropped
  · have := hrefs q
    simp only [Drain.dropRef, List.flatMap_cons, Frame.owed, Heap.decref]
    by_cases hq : q = p
    · subst hq
      rw [List.count_cons_self] at this
      simp only [Heap.modify_ops_self, AIOOperation.inFlight] at this ⊢
      omega
    · rw [List.count_cons_of_ne (Ne.symm hq)] at this
      rwa [Heap.modify_ops_ne _ _ hq]

theorem Account.scanned (h : Account s) {f : Frame} {fs : List Frame} (hs : s.stack = f :: fs)
    (hf : f.phase = .scanning)
    (hfly : (s.cq.cqes (s.cq.size.slot f.scan.head)).userData ≠ cancelUserData →
      (s.heap.ops (s.cq.cqes (s.cq.size.slot f.scan.head)).userData).inFlight = true) :
    Account (s.scanned f fs) := by
  generalize he : s.cq.cqes (s.cq.size.slot f.scan.head) = e at hfly
  obtain ⟨hconsumed, hdelivered, hdropped, hrefs⟩ := h
  have htodo : f.todo = f.scan.batch := by
    simp only [Frame.todo, hf]
  have howed : f.owed = f.scan.batch := by
    simp only [Frame.owed, hf]
  simp only [hs, List.flatMap_cons, htodo, howed,
    List.map_append] at hconsumed hdelivered hdropped hrefs
  refine ⟨?_, ?_, ?_, fun p => ?_⟩ <;>
    simp only [Drain.scanned, he, List.flatMap_cons, Frame.todo, Frame.owed, hf, scanOne_batch,
      List.map_append, completions_append]
  · exact perm_scanned [e] hconsumed
  · exact perm_scanned _ hdelivered
  · exact perm_scanned _ hdropped
  · have := hrefs p
    by_cases hsent : e.userData = cancelUserData
    · simpa [scanOne, hsent, completions_cons_sentinel] using this
    · have hfly := hfly hsent
      simp only [scanOne, if_neg hsent, completions_cons_real [] hsent, completions_nil,
        List.map_singleton, List.count_append, List.count_singleton] at this ⊢
      by_cases hp : p = e.userData
      · subst hp
        -- the in-flight reference passes to the batch, which owes its `Py_DECREF`
        have hlanded : ((s.heap.ops e.userData).complete e.res).inFlight = false := by
          simp [AIOOperation.inFlight, AIOOperation.complete]
        rw [hfly, Bool.toNat_true] at this
        rw [finalise_ops_self, hlanded, if_pos (beq_self_eq_true _), Bool.toNat_false]
        show (s.heap.ops e.userData).refcnt = _
        omega
      · rw [finalise_ops_ne _ _ hp]
        rw [if_neg (by simpa using Ne.symm hp)]
        omega

theorem Account.others (h : Account s) {heap : Heap} {userRefs : OpPtr → ℕ}
    (hq : ∀ q, (heap.ops q).refcnt + (s.userRefs q + (s.heap.ops q).inFlight.toNat) =
      (s.heap.ops q).refcnt + (userRefs q + (heap.ops q).inFlight.toNat)) :
    Account { s with heap, userRefs } := by
  refine ⟨h.consumed, h.delivered, h.dropped, fun q => ?_⟩
  have hold := h.refs q
  have hnew := hq q
  show (heap.ops q).refcnt = userRefs q + (heap.ops q).inFlight.toNat +
    ((s.stack.flatMap Frame.owed).map Prod.fst).count q
  omega

theorem Account.step (h : Account s) (hring : RingInv s) (hlog : LogInv s) {a : Action}
    (hm : s.Moves a t) : Account t := by
  have hrem := hring.remaining_step hm
  obtain ⟨hconsumed, hdelivered, hdropped, hrefs⟩ := id h
  cases hm with
  | enter hpy => exact ⟨hconsumed, hdelivered, hdropped, hrefs⟩
  | @scan f fs hs hf hmore =>
    obtain ⟨f', fs', hs', hscan, hrem⟩ := hrem
    rw [hs] at hs'
    cases hs'
    refine h.scanned hs hf fun hne => ?_
    have := hlog.inFlight
    rw [hrem, completions_cons_real _ hne] at this
    exact this _ List.mem_cons_self
  | @commit f fs hs hf hmore =>
    have htodo : f.todo = f.scan.batch := by
      simp only [Frame.todo, hf]
    have howed : f.owed = f.scan.batch := by
      simp only [Frame.owed, hf]
    simp only [hs, List.flatMap_cons, htodo, howed] at hconsumed hdelivered hdropped hrefs
    exact ⟨hconsumed, hdelivered, hdropped, hrefs⟩
  | @skip f fs i p res hs hf hx hc =>
    have howed : f.owed = f.scan.batch.drop i := by
      simp only [Frame.owed, hf]
    obtain ⟨hdropped, hrefs⟩ := h.dropRef hs howed hx
    refine ⟨?_, ?_, hdropped, hrefs⟩
    · rw [hs] at hconsumed
      exact hconsumed
    · simp only [hs, List.flatMap_cons, Frame.todo, hf, f.drop_turn hx,
        List.cons_append] at hdelivered
      rw [List.append_cons] at hdelivered
      rw [List.map_append]
      exact hdelivered
  | @call f fs i p res callback hs hf hx hc =>
    have howed : f.owed = f.scan.batch.drop i := by
      simp only [Frame.owed, hf]
    simp only [hs, List.flatMap_cons, howed] at hconsumed hdropped hrefs
    refine ⟨hconsumed, ?_, hdropped, hrefs⟩
    simp only [hs, List.flatMap_cons, Frame.todo, hf, f.drop_turn hx,
      List.cons_append] at hdelivered
    rw [List.append_cons] at hdelivered
    rw [List.map_append]
    exact hdelivered
  | @callbackReturns f fs i p res raised hs hf hx =>
    have howed : f.owed = f.scan.batch.drop i := by
      simp only [Frame.owed, hf]
    obtain ⟨hdropped, hrefs⟩ := h.dropRef hs howed hx
    simp only [hs, List.flatMap_cons, Frame.todo, hf] at hconsumed hdelivered
    exact ⟨hconsumed, hdelivered, hdropped, hrefs⟩
  | @leave f fs hs hf =>
    have htodo : f.todo = [] := by
      simp only [Frame.todo, hf, List.drop_length]
    have howed : f.owed = [] := by
      simp only [Frame.owed, hf, List.drop_length]
    simp only [hs, List.flatMap_cons, htodo, howed,
      List.nil_append] at hconsumed hdelivered hdropped hrefs
    refine ⟨?_, hdelivered, hdropped, hrefs⟩
    rw [← List.append_assoc] at hconsumed
    rw [List.flatMap_append]
    simpa only [List.flatMap_cons, List.flatMap_nil, List.append_nil] using hconsumed
  | kernelPost hfull he => exact ⟨hconsumed, hdelivered, hdropped, hrefs⟩
  | @setCallback p callback =>
    refine h.others fun q => ?_
    by_cases hq : q = p
    · subst hq
      rw [Heap.modify_ops_self]
      rfl
    · rw [Heap.modify_ops_ne _ _ hq]
  | @claim self p hp hc =>
    refine h.others fun q => ?_
    by_cases hq : q = p
    · subst hq
      -- a claimed Operation was not in progress before, hence never done
      have hdone : (s.heap.ops q).done = false := by
        cases hb : (s.heap.ops q).done
        · rfl
        · rw [hlog.claimed q hb] at hc
          cases hc
      simp only [Heap.take_ops_self, Heap.setInProgress, Heap.modify_ops_self,
        AIOOperation.inFlight, hc, hdone, Bool.false_and, Bool.not_false, Bool.and_self,
        Bool.toNat_false, Bool.toNat_true]
      omega
    · rw [Heap.take_ops_ne _ _ hq, Heap.setInProgress, Heap.modify_ops_ne _ _ hq]
  | @incref p =>
    refine h.others fun q => ?_
    by_cases hq : q = p
    · subst hq
      simp only [Heap.incref, Heap.modify_ops_self, Function.update_self, AIOOperation.inFlight]
      omega
    · rw [Heap.incref, Heap.modify_ops_ne _ _ hq, Function.update_of_ne hq]
  | @decref p hp =>
    refine h.others fun q => ?_
    by_cases hq : q = p
    · subst hq
      have := hrefs q
      simp only [Heap.decref, Heap.modify_ops_self, Function.update_self,
        AIOOperation.inFlight] at this ⊢
      omega
    · rw [Heap.decref, Heap.modify_ops_ne _ _ hq, Function.update_of_ne hq]

theorem Init.ringInv (h : Init s) : RingInv s :=
  ⟨h.room, by simp [h.stack], by simp [h.stack]⟩

theorem Init.frameInv (h : Init s) : FrameInv s :=
  ⟨by simp [h.stack], by simp [h.finished]⟩

theorem Init.remaining (h : Init s) : s.remaining = s.cq.queue := by
  simp only [Drain.remaining, scanHead, h.stack]
  rfl

theorem Init.logInv (h : Init s) : LogInv s := by
  refine ⟨?_, ?_, ?_, h.claimed, ?_, ?_⟩
  · simp [h.taken, h.posted, h.remaining]
  · rw [h.remaining]
    exact h.inFlight
  · rw [h.remaining]
    exact h.distinct
  · simp [h.taken]
  · simp [h.taken]

theorem Init.account (h : Init s) : Account s := by
  refine ⟨?_, ?_, ?_, fun p => ?_⟩
  · simp [h.finished, h.stack, h.taken]
  · simp [h.delivered, h.stack, h.taken]
  · simp [h.dropped, h.stack, h.taken]
  · simp [h.refs, h.stack]

structure Inv (s : Drain) : Prop where
  ring : RingInv s
  frames : FrameInv s
  log : LogInv s
  account : Account s

theorem Inv.step (h : Inv s) {a : Action} (hs : s.step a = some t) : Inv t := by
  have hm := step_moves hs
  exact ⟨h.ring.step hm, h.frames.step h.ring hm, h.log.step h.ring hm,
    h.account.step h.ring h.log hm⟩

theorem inv_of_reachable (h : system.Reachable s) : Inv s :=
  h.invariant (I := Inv) (fun _ (hi : Init _) => ⟨hi.ringInv, hi.frameInv, hi.logInv, hi.account⟩)
    fun _ _ _ hi _ hs => hi.step hs

theorem Inv.batch_done (h : Inv s) {f : Frame} (hf : f ∈ s.stack) {x : OpPtr × Int32}
    (hx : x ∈ f.scan.batch) : (s.heap.ops x.1).context = none ∧ (s.heap.ops x.1).done = true := by
  rw [(h.frames.frames f hf).batch] at hx
  obtain ⟨e, he, hc⟩ := List.mem_filterMap.mp hx
  obtain ⟨hne, hc⟩ := Option.ite_none_left_eq_some.mp hc
  cases hc
  have hmem : e ∈ s.taken.map Prod.fst := by
    rw [← h.account.consumed.mem_iff]
    exact List.mem_append_right _ (List.mem_flatMap.mpr ⟨f, hf, he⟩)
  obtain ⟨y, hy, rfl⟩ := List.mem_map.mp hmem
  have hsettled := h.log.settled y hy hne
  exact ⟨hsettled.context, hsettled.done⟩

theorem Inv.batch_real (h : Inv s) {f : Frame} (hf : f ∈ s.stack) {x : OpPtr × Int32}
    (hx : x ∈ f.scan.batch) : x.1 ≠ cancelUserData := by
  rw [(h.frames.frames f hf).batch] at hx
  exact ne_cancel_of_mem_completions hx

theorem Inv.untouched (h : Inv s) {a : Action} (hs : s.step a = some t) (ha : a.OfDrain) :
    t.heap.ops cancelUserData = s.heap.ops cancelUserData := by
  have hdrop : ∀ {f : Frame} {fs : List Frame} {i : ℕ} {p : OpPtr} {res : Int32},
      s.stack = f :: fs → f.scan.batch[i]? = some (p, res) →
      (s.dropRef f fs i p).heap.ops cancelUserData = s.heap.ops cancelUserData := by
    intro f fs i p res hs hx
    have hne := h.batch_real (f := f) (by simp [hs]) (List.mem_of_getElem? hx)
    show (s.heap.decref p).ops cancelUserData = _
    exact Heap.modify_ops_ne _ _ hne.symm
  cases step_moves hs with
  | @scan f fs hst hf hmore =>
    simp only [scanned, scanOne]
    split_ifs with he
    · rfl
    · exact finalise_ops_ne _ _ (Ne.symm he)
  | skip hst hf hx hc => exact hdrop hst hx
  | callbackReturns hst hf hx => exact hdrop hst hx
  | commit | call | leave => rfl
  | enter | kernelPost | setCallback | claim | incref | decref => exact ha.elim

theorem step_delivered {a : Action} (hs : s.step a = some t) : ∃ ds,
    t.delivered = s.delivered ++ ds ∧ ∀ d ∈ ds, d.callback = (s.heap.ops d.op).callback := by
  cases step_moves hs with
  | skip hst hf hx hc | call hst hf hx hc =>
    refine ⟨_, rfl, fun d hd => ?_⟩
    rw [List.mem_singleton] at hd
    rw [hd]
    exact hc.symm
  | _ => exact ⟨[], by simp [dropRef, scanned], by simp⟩

theorem step_scan {f : Frame} {fs : List Frame} (hs : s.stack = f :: fs)
    (hf : f.phase = .scanning) (hm : f.scan.More f.tail f.max) :
    s.step .scan = some (s.scanned f fs) := by
  simp only [step, hs, if_pos (And.intro hf hm)]
  rfl

theorem step_commit {f : Frame} {fs : List Frame} (hs : s.stack = f :: fs)
    (hf : f.phase = .scanning) (hm : ¬f.scan.More f.tail f.max) :
    s.step .commit = some { s with
      cq := s.cq.commit f.scan.head
      stack := { f with phase := .delivering 0 } :: fs } := by
  simp only [step, hs, hf, hm, not_false_eq_true, and_self, if_true]

theorem step_callbackReturns {f : Frame} {fs : List Frame} {i : ℕ} {p : OpPtr} {res : Int32}
    (hs : s.stack = f :: fs) (hf : f.phase = .calling i)
    (hx : f.scan.batch[i]? = some (p, res)) (raised : Bool) :
    s.step (.callbackReturns raised) = some (s.dropRef f fs i p) := by
  simp only [step, hs, hf, hx, Option.map_some]

theorem step_leave {f : Frame} {fs : List Frame} (hs : s.stack = f :: fs)
    (hf : f.phase = .delivering f.scan.batch.length) :
    s.step .leave = some { s with
      stack := fs
      finished := s.finished ++ [⟨f.max, f.mine, f.called, f.scan.count.toInt32⟩] } := by
  simp only [step, hs, hf, if_true]

theorem exec_step {a : Action} {as : List Action} (h : s.step a = some t) :
    system.exec s (a :: as) = system.exec t as :=
  TransitionSystem.exec_cons (S := system) h

theorem turn {f : Frame} {fs : List Frame} {i : ℕ} (hs : s.stack = f :: fs)
    (hf : f.phase = .delivering i) (hi : i < f.scan.batch.length) :
    ∃ as t called, system.exec s as = some t ∧ as ≠ [] ∧ (∀ a ∈ as, a.OfDrain) ∧
      t.stack = { f with phase := .delivering (i + 1), called } :: fs ∧
      t.finished = s.finished ∧ t.cq = s.cq := by
  have hx : f.scan.batch[i]? = some (f.scan.batch[i].1, f.scan.batch[i].2) :=
    List.getElem?_eq_getElem hi
  cases hc : (s.heap.ops f.scan.batch[i].1).callback with
  | none =>
    have hskip : s.step .deliver = some { s.dropRef f fs i f.scan.batch[i].1 with
        delivered := s.delivered ++ [⟨f.scan.batch[i].1, f.scan.batch[i].2, none⟩] } := by
      simp only [step, hs, hf, hx, hc]
    exact ⟨[.deliver], _, f.called, exec_step hskip, by simp,
      by simp [Action.OfDrain], rfl, rfl, rfl⟩
  | some callback =>
    have hcall : s.step .deliver = some { s with
        stack := { f with phase := .calling i, called := f.called + 1 } :: fs
        delivered := s.delivered ++ [⟨f.scan.batch[i].1, f.scan.batch[i].2, some callback⟩] } := by
      simp only [step, hs, hf, hx, hc]
    have hreturn := step_callbackReturns (s := { s with
        stack := { f with phase := .calling i, called := f.called + 1 } :: fs
        delivered := s.delivered ++ [⟨f.scan.batch[i].1, f.scan.batch[i].2, some callback⟩] })
      rfl rfl hx false
    exact ⟨[.deliver, .callbackReturns false], _, f.called + 1,
      (exec_step hcall).trans (exec_step hreturn), by simp, by simp [Action.OfDrain], rfl, rfl, rfl⟩

theorem Inv.progress (h : Inv s) (hne : s.stack ≠ []) :
    ∃ a t, a.OfDrain ∧ s.step a = some t := by
  obtain ⟨f, fs, hs⟩ := List.exists_cons_of_ne_nil hne
  have hturns := (h.frames.frames f (by simp [hs])).turns
  cases hf : f.phase with
  | scanning =>
    by_cases hm : f.scan.More f.tail f.max
    · exact ⟨.scan, _, trivial, step_scan hs hf hm⟩
    · exact ⟨.commit, _, trivial, step_commit hs hf hm⟩
  | delivering i =>
    simp only [Frame.Turns, hf] at hturns
    by_cases hi : i = f.scan.batch.length
    · exact ⟨.leave, _, trivial, step_leave hs (hi ▸ hf)⟩
    · obtain ⟨as, u, called, hexec, hnil, hdrain, -⟩ := turn hs hf (by omega)
      obtain ⟨a, as, rfl⟩ := List.exists_cons_of_ne_nil hnil
      obtain ⟨t, ht, -⟩ := Option.bind_eq_some_iff.mp hexec
      exact ⟨a, t, hdrain a List.mem_cons_self, ht⟩
  | calling i =>
    simp only [Frame.Turns, hf] at hturns
    have hx : f.scan.batch[i]? = some (f.scan.batch[i].1, f.scan.batch[i].2) :=
      List.getElem?_eq_getElem hturns.2
    exact ⟨.callbackReturns false, _, trivial, step_callbackReturns hs hf hx false⟩

/-- The scan of a call that has room for everything in the ring. -/
theorem scan_all (n : ℕ) {f : Frame} {fs : List Frame} (hs : s.stack = f :: fs)
    (hf : f.phase = .scanning) (hn : (f.tail - f.scan.head).toNat = n)
    (hmax : f.scan.count.toNat + n ≤ f.max.toNat) :
    ∃ t g, system.exec s (List.replicate n .scan) = some t ∧ t.stack = g :: fs ∧
      g.phase = .scanning ∧ g.scan.head = f.tail ∧ g.tail = f.tail ∧ g.max = f.max ∧
      g.mine = f.mine ++ RingBuffer.window s.cq.size s.cq.cqes f.scan.head f.tail ∧
      t.cq = s.cq ∧ t.finished = s.finished := by
  induction n generalizing s f with
  | zero =>
    have heq := RingBuffer.sub_toNat_eq_zero.mp hn
    refine ⟨s, f, rfl, hs, hf, heq.symm, rfl, rfl, ?_, rfl, rfl⟩
    rw [heq, RingBuffer.window_self, List.append_nil]
  | succ n ih =>
    have hne : f.scan.head ≠ f.tail := by
      intro heq
      rw [heq, UInt32.sub_self] at hn
      cases hn
    have hm : f.scan.More f.tail f.max := ⟨hne, UInt32.lt_iff_toNat_lt.mpr (by omega)⟩
    have hlive := RingBuffer.sub_succ_toNat hne
    have hcount : (scanOne s.heap f.scan (s.cq.cqes (s.cq.size.slot f.scan.head))).2.count.toNat ≤
        f.scan.count.toNat + 1 := by
      unfold scanOne
      split_ifs
      · exact Nat.le_succ _
      · have := f.max.toNat_lt
        simp only [UInt32.toNat_add, UInt32.toNat_one]
        omega
    obtain ⟨t, g, hexec, hstack, hphase, hhead, htail, hgmax, hmine, hcq, hfin⟩ :=
      ih (s := s.scanned f fs) rfl hf
        (by simp only [scanOne_head]; omega) (by simp only; omega)
    refine ⟨t, g, (exec_step (step_scan hs hf hm)).trans hexec, hstack, hphase,
      hhead, htail, hgmax, ?_, hcq, hfin⟩
    rw [RingBuffer.window_pop _ hne, List.append_cons, hmine, scanOne_head]
    rfl

theorem deliver_all (n : ℕ) {f : Frame} {fs : List Frame} {i : ℕ} (hs : s.stack = f :: fs)
    (hf : f.phase = .delivering i) (hn : i + n = f.scan.batch.length) :
    ∃ as t called, system.exec s as = some t ∧ (∀ a ∈ as, a.OfDrain) ∧
      t.stack = { f with phase := .delivering f.scan.batch.length, called } :: fs ∧
      t.finished = s.finished ∧ t.cq = s.cq := by
  induction n generalizing s f i with
  | zero =>
    refine ⟨[], s, f.called, rfl, by simp, ?_, rfl, rfl⟩
    rw [hs, ← hn, Nat.add_zero, ← hf]
  | succ n ih =>
    obtain ⟨as, u, called, hexec, -, hdrain, hstack, hfin, hcq⟩ := turn hs hf (by omega)
    obtain ⟨bs, t, called', hexec', hdrain', hstack', hfin', hcq'⟩ :=
      ih hstack rfl (by simp only; omega)
    refine ⟨as ++ bs, t, called', ?_, ?_, hstack', hfin'.trans hfin, hcq'.trans hcq⟩
    · rw [TransitionSystem.exec_append, hexec, Option.bind_some, hexec']
    · intro a ha
      exact (List.mem_append.mp ha).elim (hdrain a) (hdrain' a)

/-- A drain that has room for the whole ring and whose callbacks just return consumes exactly
what the ring holds. -/
theorem drain_returns (hpy : s.InPython) (max : UInt32)
    (hmax : (s.cq.tail - s.cq.head).toNat ≤ max.toNat) :
    ∃ as t r, system.exec s (.enter max :: as) = some t ∧ (∀ a ∈ as, a.OfDrain) ∧
      t.stack = s.stack ∧ t.finished = s.finished ++ [r] ∧ r.max = max ∧
      r.mine = s.cq.queue ∧ t.cq = s.cq.commit s.cq.tail := by
  have henter : s.step (.enter max) = some { s with
      stack := { max, tail := s.cq.tail, scan := { head := s.cq.head } } :: s.stack } := by
    cases hs : s.stack with
    | nil => simp only [step, hs]
    | cons f fs =>
      obtain ⟨i, hi⟩ := hpy f (by simp [hs])
      simp only [step, hs, hi]
  obtain ⟨u, f, hscan, hstack, hphase, hhead, htail, hfmax, hmine, hcq, hfin⟩ :=
    scan_all (s.cq.tail - s.cq.head).toNat (s := { s with
      stack := { max, tail := s.cq.tail, scan := { head := s.cq.head } } :: s.stack })
      rfl rfl rfl (by simpa using hmax)
  have hmore : ¬f.scan.More f.tail f.max := by
    intro hm
    exact hm.1 (hhead.trans htail.symm)
  have hcommit := step_commit hstack hphase hmore
  obtain ⟨as, v, called, hdeliver, hdrain, hstack', hfin', hcq'⟩ :=
    deliver_all f.scan.batch.length (i := 0) (s := { u with
      cq := u.cq.commit f.scan.head
      stack := { f with phase := .delivering 0 } :: s.stack }) rfl rfl (Nat.zero_add _)
  have hleave := step_leave hstack' rfl
  refine ⟨List.replicate (s.cq.tail - s.cq.head).toNat .scan ++ (.commit :: (as ++ [.leave])),
    { v with
      stack := s.stack
      finished := v.finished ++ [⟨f.max, f.mine, called, f.scan.count.toInt32⟩] },
    ⟨f.max, f.mine, called, f.scan.count.toInt32⟩, ?_, ?_, rfl, ?_, hfmax, hmine, ?_⟩
  · rw [exec_step henter, TransitionSystem.exec_append, hscan, Option.bind_some,
      exec_step hcommit, TransitionSystem.exec_append, hdeliver, Option.bind_some,
      exec_step hleave]
    rfl
  · intro a ha
    simp only [List.mem_append, List.mem_cons, List.mem_replicate, List.not_mem_nil,
      or_false] at ha
    rcases ha with ⟨-, rfl⟩ | rfl | ha | rfl
    · trivial
    · trivial
    · exact hdrain a ha
    · trivial
  · simp only [hfin', hfin]
  · simp only [hcq', hcq, hhead]

/-- What holds at every moment of every run. -/
structure ExactlyOnce (s : Drain) : Prop where
  /-- Each CQE is either still in the ring or has been consumed. -/
  consumed : s.taken.map Prod.fst ++ s.remaining = s.posted
  /-- It has been consumed by one call, and its Operation is the subject of no other CQE. -/
  owner : (s.finished.flatMap Finished.mine ++ s.stack.flatMap Frame.mine).Perm
    (s.taken.map Prod.fst)
  distinct : ((completions (s.taken.map Prod.fst)).map Prod.fst).Nodup
  settled : ∀ x ∈ s.taken, x.1.userData ≠ cancelUserData →
    (s.heap.ops x.1.userData).Shows x.2 x.1.res
  /-- Turns taken and turns to come are one for each consumed completion, with its result. -/
  delivered : (s.delivered.map Delivery.completion ++ s.stack.flatMap Frame.todo).Perm
    (completions (s.taken.map Prod.fst))
  dropped : (s.dropped ++ (s.stack.flatMap Frame.owed).map Prod.fst).Perm
    ((completions (s.taken.map Prod.fst)).map Prod.fst)
  refs : ∀ p, (s.heap.ops p).refcnt = s.userRefs p + (s.heap.ops p).inFlight.toNat +
    ((s.stack.flatMap Frame.owed).map Prod.fst).count p
  /-- In whatever phase a call is, its whole batch has its results. -/
  batches : ∀ f ∈ s.stack, f.scan.batch = completions f.mine ∧
    f.scan.batch.length ≤ f.max.toNat ∧ f.called ≤ f.scan.batch.length ∧
    ∀ x ∈ f.scan.batch, (s.heap.ops x.1).context = none ∧ (s.heap.ops x.1).done = true
  returned : ∀ r ∈ s.finished, (completions r.mine).length ≤ r.max.toNat ∧
    r.called ≤ (completions r.mine).length ∧
    ((completions r.mine).length < 2 ^ 31 → r.ret.toInt = (completions r.mine).length)
  sentinel : (∀ d ∈ s.delivered, d.op ≠ cancelUserData) ∧ ∀ p ∈ s.dropped, p ≠ cancelUserData
  untouched : ∀ a t, s.step a = some t → a.OfDrain →
    t.heap.ops cancelUserData = s.heap.ops cancelUserData
  /-- A turn runs the callback that is set when it comes. -/
  invoked : ∀ a t, s.step a = some t → ∃ ds,
    t.delivered = s.delivered ++ ds ∧ ∀ d ∈ ds, d.callback = (s.heap.ops d.op).callback
  progress : s.stack ≠ [] → ∃ a t, a.OfDrain ∧ s.step a = some t

theorem toInt32_toInt_ofNat {n : ℕ} (h : n < 2 ^ 31) : (UInt32.ofNat n).toInt32.toInt = n := by
  rw [UInt32.toInt32_ofNat', Int32.toInt_ofNat_of_lt h]

/-- Draining is exactly-once under re-entrancy. -/
theorem drains_exactly_once (h : system.Reachable s) : s.ExactlyOnce := by
  have hinv := inv_of_reachable h
  have hturns : ∀ f ∈ s.stack, f.called ≤ f.scan.batch.length := by
    intro f hf
    have := (hinv.frames.frames f hf).turns
    unfold Frame.Turns at this
    split at this <;> omega
  refine ⟨hinv.log.consumed, hinv.account.consumed, hinv.log.takenDistinct, hinv.log.settled,
    hinv.account.delivered, hinv.account.dropped, hinv.account.refs, ?_, ?_, ⟨?_, ?_⟩,
    fun _ _ => hinv.untouched, fun _ _ => step_delivered, hinv.progress⟩
  · intro f hf
    have hok := hinv.frames.frames f hf
    exact ⟨hok.batch, hok.max, hturns f hf, fun x hx => hinv.batch_done hf hx⟩
  · intro r hr
    have hok := hinv.frames.finished r hr
    refine ⟨hok.max, hok.called, fun hlt => ?_⟩
    rw [hok.ret, toInt32_toInt_ofNat hlt]
  · intro d hd
    have hmem := hinv.account.delivered.subset
      (List.mem_append_left _ (List.mem_map_of_mem (f := Delivery.completion) hd))
    exact ne_cancel_of_mem_completions hmem
  · intro p hp
    have hmem := hinv.account.dropped.subset (List.mem_append_left _ hp)
    obtain ⟨x, hx, rfl⟩ := List.mem_map.mp hmem
    exact ne_cancel_of_mem_completions hx

/-- A ring before its first drain; every Operation is a read in flight, with one reference. -/
def start (cq : CqRing) (callback : Option Callback) : Drain :=
  { cq
    heap := ⟨fun p =>
      { fileno := 3, opcode := .read, bufSize := 64, callback, offset := p, inProgress := true },
      fun _ => 1⟩
    stack := [], userRefs := fun _ => 0, posted := cq.queue, taken := [], delivered := []
    dropped := [], finished := [] }

theorem start_init {cq : CqRing} {callback : Option Callback}
    (hroom : (cq.tail - cq.head).toNat ≤ 2 ^ cq.size.log)
    (hdistinct : ((completions cq.queue).map Prod.fst).Nodup) : system.init (start cq callback) :=
  ⟨hroom, fun _ _ => rfl, hdistinct, fun _ _ => rfl, fun _ => rfl, rfl, rfl, rfl, rfl, rfl, rfl⟩

/-- A ring of four about to wrap around 2^32: a completion, a sentinel, a completion. -/
def wrapping : CqRing :=
  { size := .four, head := 0xFFFFFFFE, tail := 1
    cqes := fun i => if i = 3 then ⟨cancelUserData, 0⟩ else ⟨i.toUInt64, 8⟩ }

/-- The first callback drains again, while the kernel posts one more completion. -/
def nestedRun : List Action :=
  [.enter 512, .scan, .scan, .scan, .commit, .deliver, .kernelPost ⟨64, -5⟩, .enter 1, .scan,
    .commit, .deliver, .callbackReturns true, .leave, .callbackReturns false, .deliver,
    .callbackReturns false, .leave]

theorem drains_exactly_once_nested :
    ∃ s, system.exec (start wrapping (some 7)) nestedRun = some s ∧
      s.delivered.map Delivery.completion = [(2, 8), (64, -5), (0, 8)] ∧
      s.dropped = [64, 2, 0] ∧
      (s.heap.ops 2).result = 8 ∧ (s.heap.ops 2).error = 0 ∧ (s.heap.ops 2).bufSize = 8 ∧
      (s.heap.ops 64).result = -5 ∧ (s.heap.ops 64).error = 5 ∧ (s.heap.ops 64).bufSize = 64 ∧
      s.ExactlyOnce := by
  have hrun : ((system.exec (start wrapping (some 7)) nestedRun).any fun s => decide (
      s.delivered.map Delivery.completion = [(2, 8), (64, -5), (0, 8)] ∧ s.dropped = [64, 2, 0] ∧
      (s.heap.ops 2).result = 8 ∧ (s.heap.ops 2).error = 0 ∧ (s.heap.ops 2).bufSize = 8 ∧
      (s.heap.ops 64).result = -5 ∧ (s.heap.ops 64).error = 5 ∧
      (s.heap.ops 64).bufSize = 64)) = true := by
    decide +kernel
  obtain ⟨s, hexec, hs⟩ := (Option.any_eq_true _ _).mp hrun
  obtain ⟨hdelivered, hdropped, hresult, herror, hsize, hresult', herror', hsize'⟩ :=
    of_decide_eq_true hs
  have hinit : system.init (start wrapping (some 7)) := start_init (by decide) (by decide)
  exact ⟨s, hexec, hdelivered, hdropped, hresult, herror, hsize, hresult', herror', hsize',
    drains_exactly_once (.exec (.init hinit) hexec)⟩

def full : CqRing :=
  { size := ⟨31, by decide⟩, head := 0, tail := 0x80000000, cqes := fun i => ⟨i.toUInt64, 0⟩ }

theorem full_completions : completions full.queue =
    (List.range (2 ^ 31)).map fun d => ((full.size.slot (0 + UInt32.ofNat d)).toUInt64, 0) := by
  have hqueue : full.queue = (List.range (2 ^ 31)).map fun d =>
      ⟨(full.size.slot (0 + UInt32.ofNat d)).toUInt64, 0⟩ := RingBuffer.contents_eq_map ..
  rw [completions_eq_map, hqueue, List.map_map]
  · rfl
  · intro e he
    rw [hqueue] at he
    obtain ⟨d, -, rfl⟩ := List.mem_map.mp he
    intro heq
    have := congrArg UInt64.toNat heq
    have hlt := (full.size.slot (0 + UInt32.ofNat d)).toNat_lt
    simp only [UInt32.toNat_toUInt64, cancelUserData] at this
    rw [this] at hlt
    exact absurd hlt (by decide)

theorem full_distinct : ((completions full.queue).map Prod.fst).Nodup := by
  rw [full_completions, List.map_map]
  refine List.Nodup.map_on ?_ List.nodup_range
  intro d hd d' hd' heq
  have := congrArg UInt64.toNat heq
  simp only [Function.comp_apply, UInt32.toNat_toUInt64, RingSize.slot_toNat, UInt32.zero_add,
    UInt32.toNat_ofNat'] at this
  rw [List.mem_range] at hd hd'
  have hlog : full.size.log = 31 := rfl
  rw [hlog] at this
  omega

/-- The cast to `int` turns a count of 2^31 negative. -/
theorem drain_returns_negative : ∃ s, system.Reachable s ∧ ∃ r ∈ s.finished,
    r.ret.toInt ≠ (completions r.mine).length := by
  have hinit : system.init (start full none) := start_init (by decide) full_distinct
  have hpy : (start full none).InPython := by
    intro f hf
    cases hf
  obtain ⟨as, t, r, hexec, -, -, hfin, -, hmine, -⟩ := drain_returns hpy 0xFFFFFFFF (by decide)
  have hreach : system.Reachable t := .exec (.init hinit) hexec
  have hmem : r ∈ t.finished := by
    rw [hfin]
    exact List.mem_append_right _ List.mem_cons_self
  have hlen : (completions r.mine).length = 2 ^ 31 := by
    rw [hmine]
    show (completions full.queue).length = _
    rw [full_completions, List.length_map, List.length_range]
  refine ⟨t, hreach, r, hmem, ?_⟩
  rw [((inv_of_reachable hreach).frames.finished r hmem).ret, hlen]
  decide

end Drain

end Caio.Uring
