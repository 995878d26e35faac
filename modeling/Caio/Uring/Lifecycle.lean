import Caio.Uring.Ownership

/-!
# linux_uring: the life cycle of an Operation

Every call and every kernel step keeps the balance of references, flags and
requests, over any number of Contexts and Operations.
-/

namespace Caio.Uring

/-! ## One Context -/

namespace Context

structure RingsOk (k : Context) : Prop where
  direct : k.sq.Direct k.sq.tail
  sqRoom : (k.sq.tail - k.sq.head).toNat ≤ 2 ^ k.sq.size.log
  cqRoom : (k.cq.tail - k.cq.head).toNat ≤ 2 ^ k.cq.size.log

variable {k : Context}

theorem Empty.carried (h : k.Empty) : k.carried = [] := by
  obtain ⟨hsq, hcq, hkernel, hbacklog⟩ := h
  simp only [Context.carried, SqRing.queue, CqRing.queue, hsq, hcq, hkernel, hbacklog,
    RingBuffer.window_self, List.map_nil, List.append_nil]

theorem Empty.requests (h : k.Empty) : k.requests = [] := by
  rw [Context.requests, h.carried, List.filter_nil]

theorem Empty.ringsOk (h : k.Empty) : k.RingsOk := by
  obtain ⟨hsq, hcq, -, -⟩ := h
  refine ⟨?_, ?_, ?_⟩
  · intro _ i hi
    rw [hsq, UInt32.sub_self] at hi
    exact absurd hi (Nat.not_lt_zero _)
  · rw [hsq, UInt32.sub_self]
    exact Nat.zero_le _
  · rw [hcq, UInt32.sub_self]
    exact Nat.zero_le _

theorem requests_perm {k k' : Context} (h : k'.carried.Perm k.carried) :
    k'.requests.Perm k.requests := h.filter _

theorem consume_carried {e : Sqe} {sq : SqRing} (h : k.sq.consume = some (e, sq)) :
    ({ k with sq, inKernel := k.inKernel ++ [e] } : Context).carried.Perm k.carried := by
  have hne : k.sq.head ≠ k.sq.tail := (Option.ite_none_left_eq_some.mp h).1
  have htail : sq.tail = k.sq.tail := by
    obtain ⟨-, h⟩ := Option.ite_none_left_eq_some.mp h
    cases h
    rfl
  refine List.perm_iff_count.mpr fun x => ?_
  simp only [carried, List.map_append, List.map_cons, List.map_nil, List.count_append,
    SqRing.queue_consume hne h, List.count_cons, List.count_nil, htail]
  omega

theorem consume_ringsOk (hk : k.RingsOk) {e : Sqe} {sq : SqRing}
    (h : k.sq.consume = some (e, sq)) :
    ({ k with sq, inKernel := k.inKernel ++ [e] } : Context).RingsOk := by
  obtain ⟨hne, h⟩ := Option.ite_none_left_eq_some.mp h
  cases h
  have hlive := RingBuffer.sub_succ_toNat hne
  refine ⟨?_, ?_, hk.cqRoom⟩
  · intro hn i hi
    refine hk.direct hn i ?_
    by_cases hi' : i = k.sq.head
    · subst hi'
      rw [UInt32.sub_self]
      show 0 < _
      omega
    · have := RingBuffer.sub_succ_toNat (h := k.sq.head) (t := i) (Ne.symm hi')
      have hi : (i - (k.sq.head + 1)).toNat < (k.sq.tail - (k.sq.head + 1)).toNat := hi
      omega
  · refine le_trans ?_ hk.sqRoom
    show (k.sq.tail - (k.sq.head + 1)).toNat ≤ _
    omega

theorem post_carried (k : Context) (e : Cqe) (late : Bool) :
    (k.post e late).carried.Perm (e.userData :: k.carried) := by
  refine List.perm_iff_count.mpr fun x => ?_
  unfold post
  split_ifs with h
  · simp only [carried, List.map_append, List.map_cons, List.map_nil, List.count_append,
      List.count_cons, List.count_nil]
    omega
  · simp only [carried, CqRing.queue_post e (not_or.mp h).1, List.map_append, List.map_cons,
      List.map_nil, List.count_append, List.count_cons, List.count_nil]
    omega

theorem room_post {r : CqRing} (e : Cqe) (h : ¬r.Full) :
    ((r.post e).tail - (r.post e).head).toNat ≤ 2 ^ (r.post e).size.log := by
  have hlt := CqRing.lt_of_not_full h
  have hpow := r.size.pow_le
  show (r.tail + 1 - r.head).toNat ≤ _
  rw [RingBuffer.sub_toNat_succ (by omega)]
  exact hlt

theorem post_ringsOk (hk : k.RingsOk) (e : Cqe) (late : Bool) : (k.post e late).RingsOk := by
  unfold post
  split_ifs with h
  · exact ⟨hk.direct, hk.sqRoom, hk.cqRoom⟩
  · exact ⟨hk.direct, hk.sqRoom, room_post e (not_or.mp h).1⟩

theorem complete_carried {i : ℕ} {e : Sqe} (h : k.inKernel[i]? = some e)
    (res : Int32) (late : Bool) :
    (({ k with inKernel := k.inKernel.eraseIdx i } : Context).post
      ⟨e.userData, res⟩ late).carried.Perm
      k.carried := by
  obtain ⟨hi, rfl⟩ := List.getElem?_eq_some_iff.mp h
  have herase := (((List.erase_getElem hi).cons k.inKernel[i]).symm.trans
    (List.perm_cons_erase (List.getElem_mem hi)).symm).map Sqe.userData
  refine (post_carried _ _ late).trans ?_
  refine List.perm_iff_count.mpr fun x => ?_
  have := herase.count_eq x
  simp only [carried, List.map_cons, List.count_append, List.count_cons] at this ⊢
  omega

theorem refill_spec (r : CqRing) (es : List Cqe)
    (hr : (r.tail - r.head).toNat ≤ 2 ^ r.size.log) :
    ((refill r es).1.queue ++ (refill r es).2) = r.queue ++ es ∧
      ((refill r es).1.tail - (refill r es).1.head).toNat ≤ 2 ^ (refill r es).1.size.log := by
  induction es generalizing r with
  | nil => exact ⟨rfl, hr⟩
  | cons e es ih =>
    unfold refill
    split_ifs with h
    · exact ⟨rfl, hr⟩
    · obtain ⟨hq, hroom⟩ := ih (r.post e) (room_post e h)
      rw [hq, CqRing.queue_post e h, List.append_assoc]
      exact ⟨rfl, hroom⟩

theorem moveBacklog_carried (hk : k.RingsOk) : k.moveBacklog.carried = k.carried := by
  have := (refill_spec k.cq k.backlog hk.cqRoom).1
  simp only [carried, moveBacklog, List.append_assoc]
  rw [← List.map_append, this, List.map_append]

theorem moveBacklog_ringsOk (hk : k.RingsOk) : k.moveBacklog.RingsOk :=
  ⟨hk.direct, hk.sqRoom, (refill_spec k.cq k.backlog hk.cqRoom).2⟩

theorem drained_requests {heap heap' : Heap} {cq : CqRing} {max : UInt32} {scan : Scan}
    {es : List Cqe} (h : Drained heap heap' k.cq cq max scan es) :
    k.requests.Perm (scan.batch.map Prod.fst ++ ({ k with cq } : Context).requests) := by
  refine List.perm_iff_count.mpr fun x => ?_
  rw [h.batch, map_fst_completions]
  simp only [requests, carried, h.queue, List.map_append, List.filter_append, List.count_append]
  omega

end Context

namespace World

/-! ## The invariant -/

structure Inv (s : World) : Prop where
  owner : Ownership s.heap (fun c => (s.ctxs c).requests) s.userRefs s.userCtxRefs s.deliveries
  rings : ∀ c, (s.ctxs c).RingsOk
  sentinel : (s.heap.ops cancelUserData).refcnt = 0

variable {s t : World} {c : CtxId}

theorem requests_setCtx (s : World) (c : CtxId) (k : Context) :
    (fun d => ((s.setCtx c k).ctxs d).requests) =
      Function.update (fun d => (s.ctxs d).requests) c k.requests := by
  funext d
  by_cases hd : d = c
  · subst hd
    simp [setCtx]
  · simp [setCtx, Function.update_of_ne hd]

theorem Inv.init (h : Init s) : Inv s := by
  have hnot : ∀ p, (s.heap.ops p).inFlight = false := by
    intro p
    simp [AIOOperation.inFlight, (h.ops p).2.1]
  refine ⟨⟨fun d => ?_, fun p d => ?_, fun p => ?_, fun p => ?_, fun p => ?_, fun d => ?_⟩,
    fun d => (h.ctxs d).ringsOk, (h.ops _).1⟩
  · rw [(h.ctxs d).requests]
    exact List.nodup_nil
  · rw [(h.ctxs d).requests, hnot]
    simp
  · rw [hnot, (h.ops p).2.2.2]
    rfl
  · rw [(h.ops p).2.2.1]
    exact fun hd => by cases hd
  · rw [(h.ops p).1, hnot, h.userRefs, h.deliveries]
    rfl
  · rw [h.ctxRefs, h.userCtxRefs, (h.ctxs d).requests]
    rfl

theorem Inv.ne_cancel (h : Inv s) {p : OpPtr} (hp : 0 < (s.heap.ops p).refcnt) :
    p ≠ cancelUserData := by
  intro heq
  rw [heq, h.sentinel] at hp
  exact absurd hp (Nat.lt_irrefl 0)

theorem Inv.refcnt_pos (h : Inv s) {p : OpPtr} (hp : 0 < s.userRefs p) :
    0 < (s.heap.ops p).refcnt := by
  have := h.owner.refs p
  omega

theorem Inv.ringsOk_setCtx (h : Inv s) {k : Context} (hok : k.RingsOk) (d : CtxId) :
    ((s.setCtx c k).ctxs d).RingsOk := by
  by_cases hd : d = c
  · subst hd
    simpa [setCtx] using hok
  · simpa [setCtx, Function.update_of_ne hd] using h.rings d

theorem Inv.setCtx (h : Inv s) {k : Context} (hreq : k.requests.Perm (s.ctxs c).requests)
    (hok : k.RingsOk) : Inv (s.setCtx c k) := by
  refine ⟨?_, h.ringsOk_setCtx hok, h.sentinel⟩
  rw [requests_setCtx]
  refine h.owner.perm fun d => ?_
  by_cases hd : d = c
  · subst hd
    rwa [Function.update_self]
  · rw [Function.update_of_ne hd]

/-! ## The kernel -/

theorem Inv.kernelStep (h : Inv s) {a : KernelStep} (hs : s.kernelStep c a = some t) : Inv t := by
  obtain ⟨-, hs⟩ := Option.ite_none_left_eq_some.mp hs
  cases a with
  | consume =>
    obtain ⟨⟨e, sq⟩, he, rfl⟩ := Option.map_eq_some_iff.mp hs
    exact h.setCtx (Context.requests_perm (Context.consume_carried he))
      (Context.consume_ringsOk (h.rings c) he)
  | transfer i data =>
    simp only at hs
    split at hs
    · cases hs
    · split_ifs at hs
      cases hs
      exact ⟨h.owner, h.rings, h.sentinel⟩
  | complete i res late =>
    simp only at hs
    split at hs
    case h_1 => cases hs
    case h_2 e he =>
      cases hs
      have hok : ({ s.ctxs c with
          inKernel := (s.ctxs c).inKernel.eraseIdx i } : Context).RingsOk :=
        ⟨(h.rings c).direct, (h.rings c).sqRoom, (h.rings c).cqRoom⟩
      exact h.setCtx (Context.requests_perm (Context.complete_carried he res late))
        (Context.post_ringsOk hok _ late)

theorem Inv.moveBacklog (h : Inv s) : Inv (s.setCtx c (s.ctxs c).moveBacklog) := by
  refine h.setCtx ?_ (Context.moveBacklog_ringsOk (h.rings c))
  rw [Context.requests, Context.moveBacklog_carried (h.rings c)]
  exact List.Perm.refl _

/-! ## Calls -/

theorem finaliseAll_refcnt (h : Heap) (batch : List (OpPtr × Int32)) (q : OpPtr) :
    ((h.finaliseAll batch).ops q).refcnt = (h.ops q).refcnt := by
  induction batch generalizing h with
  | nil => rfl
  | cons x xs ih =>
    refine (ih _).trans ?_
    by_cases hq : q = x.1
    · subst hq
      rw [finalise_ops_self]
      rfl
    · rw [finalise_ops_ne _ _ hq]

theorem drain_returns (s : World) (c : CtxId) (max : UInt32)
    (hsmall : (completions (s.ctxs c).cq.queue).length < 2 ^ 31) :
    ∃ n, (s.drain c max).2 = .ok n := by
  obtain ⟨heap, cq, scan, es, hrun, hd⟩ := drainCq_spec s.heap (s.ctxs c).cq max
  have hle : scan.batch.length ≤ (completions (s.ctxs c).cq.queue).length := by
    rw [hd.queue, completions_append, List.length_append, hd.batch]
    exact Nat.le_add_right _ _
  refine ⟨scan.batch.length, ?_⟩
  simp only [drain, hrun]
  exact Scan.ret_eq hd.count (by omega)

theorem Inv.drain (h : Inv s) (max : UInt32) : Inv (s.drain c max).1 := by
  obtain ⟨heap, cq, scan, es, hrun, hd⟩ := drainCq_spec s.heap (s.ctxs c).cq max
  simp only [World.drain, hrun]
  refine ⟨?_, ?_, ?_⟩
  · show Ownership heap (fun d => ((s.setCtx c { s.ctxs c with cq }).ctxs d).requests) s.userRefs
      s.userCtxRefs (s.deliveries ++ scan.batch)
    rw [requests_setCtx, hd.heap]
    exact h.owner.finaliseAll (Context.drained_requests hd)
  · refine h.ringsOk_setCtx ⟨(h.rings c).direct, (h.rings c).sqRoom, ?_⟩
    refine hd.room.trans ?_
    rw [hd.size]
    exact (h.rings c).cqRoom
  · show (heap.ops cancelUserData).refcnt = 0
    rw [hd.heap, finaliseAll_refcnt]
    exact h.sentinel

theorem staged_userData (heap : Heap) {staged : List OpPtr}
    (hop : ∀ p ∈ staged, p ≠ cancelUserData ∧ (submitSqe p (heap.ops p)).isSome) :
    ((staged.filterMap fun p => submitSqe p (heap.ops p)).map Sqe.userData).filter isOperation =
      staged := by
  induction staged with
  | nil => rfl
  | cons p ps ih =>
    obtain ⟨hne, hsome⟩ := hop p List.mem_cons_self
    obtain ⟨sqe, hsqe⟩ := Option.isSome_iff_exists.mp hsome
    have hreal : isOperation p = true := by simp [isOperation, hne]
    rw [List.filterMap_cons, hsqe, List.map_cons, submitSqe_userData hsqe, List.filter_cons, hreal,
      ih fun q hq => hop q (List.mem_cons_of_mem _ hq)]
    rfl

/-- What a call of `submit` on Context `c` has done when it has dealt with `looked`. -/
structure Submitted (s : World) (c : CtxId) (looked staged : List OpPtr) (ring : SqRing)
    (heap : Heap) : Prop where
  heap : heap = s.heap.claimAll c staged
  queue : ring.queue ring.tail = (s.ctxs c).sq.queue (s.ctxs c).sq.tail ++
    staged.filterMap fun p => submitSqe p (s.heap.ops p)
  nodup : staged.Nodup
  fresh : ∀ p ∈ staged, p ∈ looked ∧ (s.heap.ops p).inProgress = false ∧
    (submitSqe p (s.heap.ops p)).isSome
  direct : ring.Direct ring.tail
  room : (ring.tail - ring.head).toNat ≤ 2 ^ ring.size.log

/-- How the batch loop of `submit` ends: with the whole batch, or with the first Operation that
needs a slot when there is none. -/
theorem Inv.submitted (h : Inv s) (c : CtxId) (ops : List OpPtr) :
    ∃ ring heap result looked staged,
      Uring.submit c (s.ctxs c).sq s.heap ops = (ring, heap, result) ∧
      Submitted s c looked staged ring heap ∧
      ((looked = ops ∧ result = .ok staged.length) ∨
        ∃ p post, ops = looked ++ p :: post ∧ (heap.ops p).inProgress = false ∧
          result = .error (.overflowError "io_uring SQ ring full")) := by
  have hrings := h.rings c
  obtain ⟨s', staged, hend⟩ := submitLoop_spec c ops
    (s := ⟨(s.ctxs c).sq, s.heap, (s.ctxs c).sq.tail, (s.ctxs c).sq.head, 0⟩)
    hrings.direct rfl hrings.sqRoom
  -- `submitted` cannot wrap: each staged Operation has a slot of its own
  have hcount : ∀ args, Staged c ⟨(s.ctxs c).sq, s.heap, (s.ctxs c).sq.tail,
      (s.ctxs c).sq.head, 0⟩ s' args staged → s'.submitted.toNat = staged.length := by
    intro args hst
    have hlen := congrArg List.length hst.queue
    simp only [SqRing.queue, RingBuffer.window_length, List.length_append] at hlen
    have hmap : (staged.filterMap fun p => submitSqe p (s.heap.ops p)).length = staged.length :=
      List.filterMap_length_eq_length.mpr fun p hp => (hst.fresh p hp).2.2
    have hroom := hst.room
    have hpow := s'.ring.size.pow_le
    rw [hst.submitted, UInt32.zero_add, UInt32.toNat_ofNat']
    omega
  obtain ⟨hloop, hst⟩ | ⟨pre, p, post, rfl, hloop, -, hst, hp, -⟩ := hend
  · refine ⟨s'.ring.publish s'.tail, s'.heap, .ok staged.length, ops, staged, ?_,
      ⟨hst.heap, hst.queue, hst.nodup, hst.fresh, hst.direct, hst.room⟩, .inl ⟨rfl, rfl⟩⟩
    simp only [Uring.submit, hloop, hcount ops hst]
  · refine ⟨s'.ring.publish s'.tail, s'.heap, _, pre, staged, ?_,
      ⟨hst.heap, hst.queue, hst.nodup, hst.fresh, hst.direct, hst.room⟩,
      .inr ⟨p, post, rfl, hp, rfl⟩⟩
    simp only [Uring.submit, hloop]

theorem Submitted.inv {ring : SqRing} {heap : Heap} {looked staged : List OpPtr} (h : Inv s)
    (hsub : Submitted s c looked staged ring heap) (hne : ∀ p ∈ looked, p ≠ cancelUserData) :
    Inv { s.setCtx c { s.ctxs c with sq := ring } with heap } := by
  have hreal := staged_userData s.heap fun p hp =>
    ⟨hne p (hsub.fresh p hp).1, (hsub.fresh p hp).2.2⟩
  refine ⟨?_, h.ringsOk_setCtx ⟨hsub.direct, hsub.room, (h.rings c).cqRoom⟩, ?_⟩
  · show Ownership heap (fun d => ((s.setCtx c { s.ctxs c with sq := ring }).ctxs d).requests)
      s.userRefs s.userCtxRefs s.deliveries
    rw [requests_setCtx, hsub.heap]
    refine (h.owner.claimAll c (fun p hp => (hsub.fresh p hp).2.1) hsub.nodup).perm fun d => ?_
    by_cases hd : d = c
    · subst hd
      rw [Function.update_self, Function.update_self]
      refine List.perm_iff_count.mpr fun x => ?_
      simp only [Context.requests, Context.carried, hsub.queue, List.map_append,
        List.filter_append, hreal, List.count_append]
      omega
    · rw [Function.update_of_ne hd, Function.update_of_ne hd]
  · have hnot : cancelUserData ∉ staged := fun hmem => hne _ (hsub.fresh _ hmem).1 rfl
    show (heap.ops cancelUserData).refcnt = 0
    rw [hsub.heap, claimAll_ops_of_not_mem hnot]
    exact h.sentinel

theorem Inv.operations_real (h : Inv s) {args : List Arg} (hargs : ∀ a ∈ args, s.Holds a)
    {p : OpPtr} (hp : p ∈ operations args) : p ≠ cancelUserData := by
  obtain ⟨a, ha, hap⟩ := List.mem_filterMap.mp hp
  cases a with
  | operation q =>
    cases hap
    exact h.ne_cancel (h.refcnt_pos (hargs _ ha))
  | other => cases hap

theorem submit_cases (s : World) (c : CtxId) (args : List Arg) :
    (∃ result, s.submit c args = (s, result) ∧ ∀ msg, result ≠ .error (.overflowError msg)) ∨
      s.submit c args = s.submitOps c (operations args) := by
  unfold World.submit
  split_ifs
  · exact .inl ⟨_, rfl, by simp⟩
  · exact .inl ⟨_, rfl, by simp⟩
  · split
    · exact .inl ⟨_, rfl, by simp⟩
    · exact .inr rfl

theorem Inv.submit (h : Inv s) {args : List Arg} (hargs : ∀ a ∈ args, s.Holds a) :
    Inv (s.submit c args).1 := by
  obtain ⟨_, hres, -⟩ | hops := submit_cases s c args
  · rwa [hres]
  · obtain ⟨ring, heap, result, looked, staged, hrun, hsub, hend⟩ :=
      h.submitted c (operations args)
    have hlooked : ∀ p ∈ looked, p ∈ operations args := by
      obtain ⟨rfl, -⟩ | ⟨p, post, heq, -⟩ := hend
      · exact fun p hp => hp
      · rw [heq]
        exact fun p hp => List.mem_append_left _ hp
    have hinv := hsub.inv h fun p hp => h.operations_real hargs (hlooked p hp)
    rw [hops, submitOps, hrun]
    exact hinv

theorem cancel_sq {sq sq' : SqRing} {p : OpPtr} (h : cancelStage sq p = .ok sq') :
    (sq.tail - sq.head).toNat < 2 ^ sq.size.log ∧
      sq' = (sq.put sq.tail (cancelSqe p)).publish (sq.tail + 1) := by
  unfold cancelStage at h
  split_ifs at h with hfull
  cases h
  exact ⟨(RingBuffer.lt_entries_iff _).mp (UInt32.not_le.mp hfull), rfl⟩

theorem Inv.cancel (h : Inv s) (p : OpPtr) : Inv (s.cancel c p).1 := by
  unfold World.cancel
  split
  case h_1 => exact h
  case h_2 sq hsq =>
    obtain ⟨hfree, rfl⟩ := cancel_sq hsq
    obtain ⟨hdirect, hroom, hcq⟩ := h.rings c
    have hpow := (s.ctxs c).sq.size.pow_le
    have hqueue := SqRing.queue_put (cancelSqe p) hdirect hfree
    refine h.setCtx ?_ ⟨hdirect.put hfree, ?_, hcq⟩
    · refine List.perm_iff_count.mpr fun x => ?_
      have hsent : [(cancelSqe p).userData].filter isOperation = [] := by
        rw [cancelSqe]
        rfl
      simp only [Context.requests, Context.carried, SqRing.publish_tail, SqRing.publish_queue,
        hqueue, List.map_append, List.filter_append, List.map_singleton, hsent, List.append_nil]
    · show ((s.ctxs c).sq.tail + 1 -
        ((s.ctxs c).sq.put (s.ctxs c).sq.tail (cancelSqe p)).head).toNat ≤
        2 ^ ((s.ctxs c).sq.put (s.ctxs c).sq.tail (cancelSqe p)).size.log
      rw [SqRing.put_head, SqRing.put_size, RingBuffer.sub_toNat_succ (by omega)]
      exact hfree

theorem Inv.kept (c : CtxId) : Kept c Inv :=
  ⟨fun h hs => h.kernelStep hs, fun h => h.moveBacklog, fun max h => h.drain max⟩

theorem Inv.sameFlags (h : Inv s) {heap : Heap} {userRefs : OpPtr → ℕ}
    {deliveries : List (OpPtr × Int32)}
    (howner : Ownership heap (fun d => (s.ctxs d).requests) userRefs s.userCtxRefs deliveries)
    (hsent : (heap.ops cancelUserData).refcnt = 0) :
    Inv { s with heap, userRefs, deliveries } :=
  ⟨howner, h.rings, hsent⟩

theorem release_ops_ne (h : Heap) {p q : OpPtr} (hne : q ≠ p) :
    (h.release p).ops q = h.ops q := by
  unfold Heap.release Heap.dealloc Heap.decref
  split_ifs
  · rw [Heap.modify_ops_ne _ _ hne, Heap.xdecrefCtx_ops, Heap.modify_ops_ne _ _ hne]
  · rw [Heap.modify_ops_ne _ _ hne]

theorem Inv.newOp (h : Inv s) {p : OpPtr} {op : AIOOperation} (hop : op.inProgress = false)
    (hdone : op.done = false) (hctx : op.context = none) (href : op.refcnt = 1)
    (hs : s.newOp p op = some t) : Inv t := by
  obtain ⟨⟨hne, hfree⟩, heq⟩ := Option.ite_none_right_eq_some.mp hs
  cases heq
  refine ⟨h.owner.newOp hfree hop hdone hctx href, h.rings, ?_⟩
  show ((s.heap.modify p fun _ => op).ops cancelUserData).refcnt = 0
  rw [Heap.modify_ops_ne _ _ hne.symm]
  exact h.sentinel

theorem Inv.payload (h : Inv s) (p : OpPtr) : Inv (s.payload p).1 := by
  unfold World.payload
  split
  · exact ⟨h.owner, h.rings, h.sentinel⟩
  · exact h

theorem Inv.getValue (h : Inv s) (p : OpPtr) (new : BytesId) : Inv (s.getValue p new).1 := by
  unfold World.getValue
  split
  · exact ⟨h.owner, h.rings, h.sentinel⟩
  · exact ⟨h.owner, h.rings, h.sentinel⟩
  · exact h

theorem Inv.step (h : Inv s) {a : Action} (hs : s.step a = some t) : Inv t := by
  cases a with
  | newRead p nbytes fileno offset pyBuffer =>
    obtain ⟨-, hs⟩ := Option.ite_none_left_eq_some.mp hs
    have halloc : Inv (s.allocate pyBuffer (List.replicate nbytes 0)) :=
      ⟨h.owner, h.rings, h.sentinel⟩
    exact halloc.newOp rfl rfl rfl rfl hs
  | newWrite p payloadBytes fileno offset =>
    obtain ⟨-, hs⟩ := Option.ite_none_right_eq_some.mp hs
    exact h.newOp rfl rfl rfl rfl hs
  | newFsync p fileno => exact h.newOp rfl rfl rfl rfl hs
  | newFdsync p fileno => exact h.newOp rfl rfl rfl rfl hs
  | newBytes b content =>
    obtain ⟨-, hs⟩ := Option.ite_none_left_eq_some.mp hs
    cases hs
    exact ⟨h.owner, h.rings, h.sentinel⟩
  | newContext c k =>
    obtain ⟨⟨hdead, -, hempty⟩, hs⟩ := Option.ite_none_right_eq_some.mp hs
    cases hs
    have hnone : (s.ctxs c).requests = [] := by
      have := h.owner.ctxRefs c
      rw [hdead] at this
      exact List.eq_nil_of_length_eq_zero (by omega)
    refine ⟨?_, h.ringsOk_setCtx hempty.ringsOk, h.sentinel⟩
    have hsame : (fun d => ((s.setCtx c k).ctxs d).requests) = fun d => (s.ctxs d).requests := by
      rw [requests_setCtx, hempty.requests, ← hnone, Function.update_eq_self]
    show Ownership _ (fun d => ((s.setCtx c k).ctxs d).requests) _ _ _
    rw [hsame]
    refine h.owner.ctxs ?_
    rw [hnone]
    rfl
  | incref p =>
    obtain ⟨hp, hs⟩ := Option.ite_none_right_eq_some.mp hs
    cases hs
    refine h.sameFlags (h.owner.incref p) ?_
    rw [Heap.incref, Heap.modify_ops_ne _ _ (h.ne_cancel hp).symm]
    exact h.sentinel
  | decref p =>
    obtain ⟨hp, hs⟩ := Option.ite_none_right_eq_some.mp hs
    cases hs
    refine h.sameFlags (h.owner.decref hp) ?_
    rw [release_ops_ne _ (h.ne_cancel (h.refcnt_pos hp)).symm]
    exact h.sentinel
  | increfCtx c =>
    obtain ⟨hc, hs⟩ := Option.ite_none_right_eq_some.mp hs
    cases hs
    refine ⟨h.owner.ctxs ?_, h.rings, h.sentinel⟩
    have := h.owner.ctxRefs c
    omega
  | decrefCtx c =>
    obtain ⟨hc, hs⟩ := Option.ite_none_right_eq_some.mp hs
    cases hs
    refine ⟨h.owner.ctxs ?_, h.rings, h.sentinel⟩
    have := h.owner.ctxRefs c
    omega
  | setCallback p callback =>
    obtain ⟨hp, hs⟩ := Option.ite_none_right_eq_some.mp hs
    cases hs
    refine h.sameFlags (h.owner.setCallback p callback) ?_
    rw [Heap.modify_ops_ne _ _ (h.ne_cancel (h.refcnt_pos hp)).symm]
    exact h.sentinel
  | payload p =>
    obtain ⟨-, hs⟩ := Option.ite_none_right_eq_some.mp hs
    cases hs
    exact h.payload p
  | getValue p new =>
    obtain ⟨-, hs⟩ := Option.ite_none_right_eq_some.mp hs
    cases hs
    exact h.getValue p new
  | submit c args =>
    obtain ⟨⟨-, hargs⟩, hs⟩ := Option.ite_none_right_eq_some.mp hs
    cases hs
    exact h.submit hargs
  | cancel c p =>
    obtain ⟨-, hs⟩ := Option.ite_none_right_eq_some.mp hs
    cases hs
    exact h.cancel p
  | flush c needWakeup calls =>
    obtain ⟨-, hs⟩ := Option.ite_none_right_eq_some.mp hs
    obtain ⟨⟨u, r⟩, hu, rfl⟩ := Option.map_eq_some_iff.mp hs
    exact (Inv.kept c).flush h hu
  | processEvents c maxRequests minRequests tvSec turns =>
    obtain ⟨-, hs⟩ := Option.ite_none_right_eq_some.mp hs
    obtain ⟨⟨u, r⟩, hu, rfl⟩ := Option.map_eq_some_iff.mp hs
    exact (Inv.kept c).processEvents h hu
  | endTurn x =>
    obtain ⟨hx, hs⟩ := Option.ite_none_right_eq_some.mp hs
    cases hs
    refine h.sameFlags (h.owner.endTurn hx) ?_
    have hpos : 0 < (s.heap.ops x.1).refcnt := by
      have := h.owner.refs x.1
      have hcount := List.count_pos_iff.mpr (List.mem_map_of_mem (f := Prod.fst) hx)
      omega
    rw [release_ops_ne _ (h.ne_cancel hpos).symm]
    exact h.sentinel
  | kernel c a => exact h.kernelStep hs

theorem inv_of_reachable (h : system.Reachable s) : Inv s :=
  h.invariant (I := Inv) (fun _ hi => .init hi) fun _ _ _ hi _ hs => hi.step hs

/-! ## Done is for ever -/

theorem kernelStep_heap {a : KernelStep} (hs : s.kernelStep c a = some t) : t.heap = s.heap := by
  obtain ⟨-, hs⟩ := Option.ite_none_left_eq_some.mp hs
  cases a with
  | consume =>
    obtain ⟨_, -, rfl⟩ := Option.map_eq_some_iff.mp hs
    rfl
  | transfer i data =>
    simp only at hs
    split at hs
    · cases hs
    · split_ifs at hs
      cases hs
      rfl
  | complete i res late =>
    simp only at hs
    split at hs <;> cases hs
    rfl

theorem finaliseAll_done {h : Heap} {batch : List (OpPtr × Int32)} {p : OpPtr}
    (hp : (h.ops p).done = true) : ((h.finaliseAll batch).ops p).done = true := by
  induction batch generalizing h with
  | nil => exact hp
  | cons x xs ih =>
    refine ih ?_
    by_cases hx : p = x.1
    · subst hx
      rw [finalise_ops_self]
      rfl
    · rwa [finalise_ops_ne _ _ hx]

theorem done_kept (c : CtxId) (p : OpPtr) : Kept c fun s => (s.heap.ops p).done = true := by
  refine ⟨fun hp hs => ?_, fun hp => hp, fun {s} max hp => ?_⟩
  · rwa [kernelStep_heap hs]
  · obtain ⟨heap, cq, scan, es, hrun, hd⟩ := drainCq_spec s.heap (s.ctxs c).cq max
    simp only [World.drain, hrun]
    rw [hd.heap]
    exact finaliseAll_done hp

theorem release_done (h : Heap) (p q : OpPtr) : ((h.release p).ops q).done = (h.ops q).done := by
  by_cases hq : q = p
  · subst hq
    unfold Heap.release Heap.dealloc Heap.decref
    split_ifs
    · simp only [Heap.modify_ops_self, Heap.xdecrefCtx_ops]
    · rw [Heap.modify_ops_self]
  · rw [release_ops_ne _ hq]

theorem modify_done (h : Heap) (p q : OpPtr) {f : AIOOperation → AIOOperation}
    (hf : (f (h.ops p)).done = (h.ops p).done) : ((h.modify p f).ops q).done = (h.ops q).done := by
  by_cases hq : q = p
  · subst hq
    rw [Heap.modify_ops_self, hf]
  · rw [Heap.modify_ops_ne _ _ hq]

theorem newOp_done {p q : OpPtr} {op : AIOOperation} (hq : 0 < (s.heap.ops q).refcnt)
    (hs : s.newOp p op = some t) : (t.heap.ops q).done = (s.heap.ops q).done := by
  obtain ⟨⟨-, hfree⟩, heq⟩ := Option.ite_none_right_eq_some.mp hs
  cases heq
  have hne : q ≠ p := by
    intro heq
    rw [heq, hfree] at hq
    exact absurd hq (Nat.lt_irrefl 0)
  show ((s.heap.modify p fun _ => op).ops q).done = _
  rw [Heap.modify_ops_ne _ _ hne]

theorem Inv.step_done (h : Inv s) {a : Action} (hs : s.step a = some t) {p : OpPtr}
    (hlive : 0 < (s.heap.ops p).refcnt) (hp : (s.heap.ops p).done = true) :
    (t.heap.ops p).done = true := by
  cases a with
  | newRead q nbytes fileno offset pyBuffer =>
    obtain ⟨-, hs⟩ := Option.ite_none_left_eq_some.mp hs
    exact (newOp_done (s := s.allocate pyBuffer _) hlive hs).trans hp
  | newWrite q payloadBytes fileno offset =>
    obtain ⟨-, hs⟩ := Option.ite_none_right_eq_some.mp hs
    exact (newOp_done hlive hs).trans hp
  | newFsync q fileno | newFdsync q fileno => exact (newOp_done hlive hs).trans hp
  | newBytes b content =>
    obtain ⟨-, hs⟩ := Option.ite_none_left_eq_some.mp hs
    cases hs
    exact hp
  | newContext c k | increfCtx c | decrefCtx c =>
    obtain ⟨-, hs⟩ := Option.ite_none_right_eq_some.mp hs
    cases hs
    exact hp
  | incref q =>
    obtain ⟨-, hs⟩ := Option.ite_none_right_eq_some.mp hs
    cases hs
    show ((s.heap.incref q).ops p).done = true
    rwa [Heap.incref, modify_done s.heap q p rfl]
  | setCallback q callback =>
    obtain ⟨-, hs⟩ := Option.ite_none_right_eq_some.mp hs
    cases hs
    show ((s.heap.modify q fun op => op.setCallback callback).ops p).done = true
    rwa [modify_done s.heap q p rfl]
  | decref q | endTurn x =>
    obtain ⟨-, hs⟩ := Option.ite_none_right_eq_some.mp hs
    cases hs
    exact (release_done s.heap _ p).trans hp
  | payload q =>
    obtain ⟨-, hs⟩ := Option.ite_none_right_eq_some.mp hs
    cases hs
    unfold World.payload
    split <;> exact hp
  | getValue q new =>
    obtain ⟨-, hs⟩ := Option.ite_none_right_eq_some.mp hs
    cases hs
    unfold World.getValue
    split <;> exact hp
  | submit c args =>
    obtain ⟨-, hs⟩ := Option.ite_none_right_eq_some.mp hs
    cases hs
    obtain ⟨_, hres, -⟩ | hops := submit_cases s c args
    · rwa [hres]
    · obtain ⟨ring, heap, result, looked, staged, hrun, hsub, -⟩ :=
        h.submitted c (operations args)
      have hnot : p ∉ staged := by
        intro hmem
        rw [h.owner.done_false (hsub.fresh p hmem).2.1] at hp
        cases hp
      rw [hops, submitOps, hrun]
      show (heap.ops p).done = true
      rwa [hsub.heap, claimAll_ops_of_not_mem hnot]
  | cancel c q =>
    obtain ⟨-, hs⟩ := Option.ite_none_right_eq_some.mp hs
    cases hs
    unfold World.cancel
    split <;> exact hp
  | flush c needWakeup calls =>
    obtain ⟨-, hs⟩ := Option.ite_none_right_eq_some.mp hs
    obtain ⟨⟨u, r⟩, hu, rfl⟩ := Option.map_eq_some_iff.mp hs
    exact (done_kept c p).flush hp hu
  | processEvents c maxRequests minRequests tvSec turns =>
    obtain ⟨-, hs⟩ := Option.ite_none_right_eq_some.mp hs
    obtain ⟨⟨u, r⟩, hu, rfl⟩ := Option.map_eq_some_iff.mp hs
    exact (done_kept c p).processEvents hp hu
  | kernel c a => rwa [kernelStep_heap hs]

/-! ## The life cycle -/

/-- A batch that overflowed at `p`: what was staged before is published, all else is untouched. -/
def Overflowed (s t : World) (c : CtxId) (ops : List OpPtr) : Prop :=
  ∃ pre p post, ∃ staged : List OpPtr, ops = pre ++ p :: post ∧
    (∀ q ∈ staged, q ∈ pre) ∧ staged.Nodup ∧ p ∉ staged ∧
    (s.heap.ops p).inProgress = false ∧
    (∀ q ∈ staged, (s.heap.ops q).inProgress = false ∧
      t.heap.ops q = (s.heap.ops q).claimed c) ∧
    (∀ q, q ∉ staged → t.heap.ops q = s.heap.ops q) ∧
    (t.ctxs c).sq.queue (t.ctxs c).sq.tail = (s.ctxs c).sq.queue (s.ctxs c).sq.tail ++
      staged.filterMap fun q => submitSqe q (s.heap.ops q)

/-- What holds in every state between calls. -/
structure Lifecycle (s : World) : Prop where
  /-- An Operation in flight is carried once, by the Context in its `context` field; any other
  Operation is carried nowhere. -/
  carried : ∀ p c, p ≠ cancelUserData → (s.ctxs c).carried.count p =
    if (s.heap.ops p).inFlight = true ∧ (s.heap.ops p).context = some c then 1 else 0
  context : ∀ p, (s.heap.ops p).context.isSome = (s.heap.ops p).inFlight
  /-- The Context is referenced once for each request it carries. -/
  ctxRefs : ∀ c, s.heap.ctxRefs c = s.userCtxRefs c + (s.ctxs c).requests.length
  alive : ∀ p c, (s.heap.ops p).context = some c → 0 < s.heap.ctxRefs c
  /-- Turns of callback loops that have not ended hold the reference a little longer. -/
  refs : ∀ p, (s.heap.ops p).refcnt = s.userRefs p + (s.heap.ops p).inFlight.toNat +
    (s.deliveries.map Prod.fst).count p
  blocked : ∀ p bytes,
    ((∃ msg, (s.heap.ops p).getValue bytes = .error (.runtimeError msg)) ↔
      (s.heap.ops p).inFlight = true) ∧
    ((∃ msg, (s.heap.ops p).payload = .error (.runtimeError msg)) ↔
      (s.heap.ops p).inFlight = true)
  done : ∀ a t p, s.step a = some t → 0 < (s.heap.ops p).refcnt → (s.heap.ops p).done = true →
    (t.heap.ops p).done = true ∧ ∀ c, p ∉ (t.ctxs c).requests
  overflow : ∀ c args t msg, s.submit c args = (t, .error (.overflowError msg)) →
    Overflowed s t c (operations args)

theorem Inv.overflowed (h : Inv s) {args : List Arg} {msg : String}
    (hs : s.submit c args = (t, .error (.overflowError msg))) :
    Overflowed s t c (operations args) := by
  obtain ⟨result, hres, hnot⟩ | hops := submit_cases s c args
  · rw [hs] at hres
    cases hres
    exact absurd rfl (hnot msg)
  · obtain ⟨ring, heap, result, looked, staged, hrun, hsub, hend⟩ := h.submitted c (operations args)
    rw [hops, submitOps, hrun] at hs
    obtain ⟨rfl, hresult⟩ := Prod.mk.inj hs
    obtain ⟨-, hok⟩ | ⟨p, post, heq, hp, -⟩ := hend
    · rw [hok] at hresult
      cases hresult
    · have hout : ∀ q, q ∉ staged → heap.ops q = s.heap.ops q := by
        intro q hq
        rw [hsub.heap, claimAll_ops_of_not_mem hq]
      have hin : ∀ q ∈ staged, heap.ops q = (s.heap.ops q).claimed c := by
        intro q hq
        rw [hsub.heap, claimAll_ops_of_mem hq hsub.nodup]
      have hps : p ∉ staged := by
        intro hmem
        rw [hin p hmem] at hp
        cases hp
      refine ⟨looked, p, post, staged, heq, fun q hq => (hsub.fresh q hq).1, hsub.nodup, hps, ?_,
        fun q hq => ⟨(hsub.fresh q hq).2.1, hin q hq⟩, hout, ?_⟩
      · rwa [← hout p hps]
      · show ((s.setCtx c { s.ctxs c with sq := ring }).ctxs c).sq.queue
          ((s.setCtx c { s.ctxs c with sq := ring }).ctxs c).sq.tail = _
        rw [setCtx_ctxs_self]
        exact hsub.queue

/-- The life-cycle and ownership invariant, in every reachable state. -/
theorem operation_lifecycle (h : system.Reachable s) : s.Lifecycle := by
  have hinv := inv_of_reachable h
  refine ⟨fun p d hp => ?_, hinv.owner.context, hinv.owner.ctxRefs, fun p d hd => ?_,
    hinv.owner.refs, fun p bytes => ⟨AIOOperation.getValue_runtimeError_iff bytes _,
    AIOOperation.payload_runtimeError_iff _⟩, fun a t p hs hlive hp => ?_,
    fun d args t msg hs => hinv.overflowed hs⟩
  · have hcount : (s.ctxs d).carried.count p = (s.ctxs d).requests.count p := by
      have hreal : isOperation p = true := by simp [isOperation, hp]
      rw [Context.requests, List.count_filter hreal]
    rw [hcount]
    split_ifs with hc
    · exact List.count_eq_one_of_mem (hinv.owner.nodup d) ((hinv.owner.carries p d).mpr hc)
    · exact List.count_eq_zero.mpr fun hmem => hc ((hinv.owner.carries p d).mp hmem)
  · have hfly := hinv.owner.context p
    rw [hd] at hfly
    have hmem := (hinv.owner.carries p d).mpr ⟨hfly.symm, hd⟩
    have hpos := List.length_pos_of_mem hmem
    have := hinv.owner.ctxRefs d
    omega
  · have hdone := hinv.step_done hs hlive hp
    refine ⟨hdone, fun d hmem => ?_⟩
    have hfly := (((hinv.step hs).owner.carries p d).mp hmem).1
    simp [AIOOperation.inFlight, hdone] at hfly

/-- A Context with a ring of two slots about to wrap around. -/
def smallContext : Context :=
  { uringFd := 3, sqpoll := false
    sq := ⟨.two, true, 0xFFFFFFFF, 0xFFFFFFFF, fun _ => 0, fun _ => {}⟩
    cq := ⟨.four, 7, 7, fun _ => ⟨0, 0⟩⟩ }

/-- A batch with a duplicate overflows at the third Operation, which another Context then takes;
the first completes and is offered once more. -/
def overflowRun : List Action :=
  [.newContext 0 smallContext, .newContext 1 smallContext, .newFsync 16 5, .newFsync 32 5,
    .newFdsync 48 5, .submit 0 [.operation 16, .operation 16, .operation 32, .operation 48],
    .kernel 0 .consume, .submit 1 [.operation 32, .operation 48], .decref 32,
    .kernel 0 (.complete 0 (-5) false), .processEvents 0 0 0 0 [], .endTurn (16, -5),
    .submit 1 [.operation 16]]

theorem operation_lifecycle_overflow :
    ∃ s, system.exec initial overflowRun = some s ∧
      (s.ctxs 0).requests = [32] ∧ (s.ctxs 1).requests = [48] ∧ (s.heap.ops 32).refcnt = 1 ∧
      s.Lifecycle := by
  have hrun : (system.exec initial overflowRun).map (fun s =>
      ((s.ctxs 0).requests, (s.ctxs 1).requests, (s.heap.ops 32).refcnt)) =
        some ([32], [48], 1) := rfl
  obtain ⟨s, hs, hlog⟩ := Option.map_eq_some_iff.mp hrun
  simp only [Prod.mk.injEq] at hlog
  obtain ⟨h0, h1, href⟩ := hlog
  exact ⟨s, hs, h0, h1, href, operation_lifecycle (.exec (.init initial_init) hs)⟩

end World

end Caio.Uring
