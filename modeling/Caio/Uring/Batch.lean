import Caio.Uring.Complete

namespace Caio.Uring

def Heap.claim (h : Heap) (self : CtxId) (p : OpPtr) : Heap := (h.setInProgress p true).take self p

def Heap.claimAll (h : Heap) (self : CtxId) (staged : List OpPtr) : Heap :=
  staged.foldl (fun h p => h.claim self p) h

def AIOOperation.claimed (op : AIOOperation) (self : CtxId) : AIOOperation :=
  { op with inProgress := true, context := some self, refcnt := op.refcnt + 1 }

@[simp] theorem claim_ops_self (h : Heap) (self : CtxId) (p : OpPtr) :
    (h.claim self p).ops p = (h.ops p).claimed self := by
  rw [Heap.claim, Heap.take_ops_self, Heap.setInProgress, Heap.modify_ops_self]
  rfl

theorem claim_ops_ne (h : Heap) (self : CtxId) {p q : OpPtr} (hne : q ≠ p) :
    (h.claim self p).ops q = h.ops q := by
  rw [Heap.claim, Heap.take_ops_ne _ _ hne, Heap.setInProgress, Heap.modify_ops_ne _ _ hne]

theorem claimAll_ops_of_not_mem {h : Heap} {self : CtxId} {staged : List OpPtr} {q : OpPtr}
    (hq : q ∉ staged) : (h.claimAll self staged).ops q = h.ops q := by
  induction staged generalizing h with
  | nil => rfl
  | cons p ps ih =>
    obtain ⟨hne, hq⟩ := List.ne_and_not_mem_of_not_mem_cons hq
    exact (ih hq).trans (claim_ops_ne h self hne)

theorem claimAll_ops_of_mem {h : Heap} {self : CtxId} {staged : List OpPtr} {q : OpPtr}
    (hq : q ∈ staged) (hnodup : staged.Nodup) :
    (h.claimAll self staged).ops q = (h.ops q).claimed self := by
  induction staged generalizing h with
  | nil => cases hq
  | cons p ps ih =>
    obtain ⟨hp, hps⟩ := List.nodup_cons.mp hnodup
    rcases List.mem_cons.mp hq with rfl | hq
    · exact (claimAll_ops_of_not_mem hp).trans (claim_ops_self h self q)
    · have hne : q ≠ p := fun heq => hp (heq ▸ hq)
      exact (ih hq hps).trans (by rw [claim_ops_ne h self hne])

/-- What a run of the loop of `submit` on `args` does, up to where it stops. -/
structure Staged (ctx : CtxId) (s s' : SubmitLoop) (args staged : List OpPtr) : Prop where
  heap : s'.heap = s.heap.claimAll ctx staged
  queue : s'.ring.queue s'.tail =
    s.ring.queue s.tail ++ staged.filterMap fun p => submitSqe p (s.heap.ops p)
  nodup : staged.Nodup
  fresh : ∀ p ∈ staged, p ∈ args ∧ (s.heap.ops p).inProgress = false ∧
    (submitSqe p (s.heap.ops p)).isSome
  submitted : s'.submitted = s.submitted + UInt32.ofNat staged.length
  direct : s'.ring.Direct s'.tail
  room : (s'.tail - s'.ring.head).toNat ≤ 2 ^ s'.ring.size.log
  size : s'.ring.size = s.ring.size
  head : s'.ring.head = s.ring.head
  published : s'.ring.tail = s.ring.tail

theorem Staged.refl (self : CtxId) {s : SubmitLoop} (args : List OpPtr)
    (hd : s.ring.Direct s.tail) (hr : (s.tail - s.ring.head).toNat ≤ 2 ^ s.ring.size.log) :
    Staged self s s args [] :=
  ⟨rfl, by simp, List.nodup_nil, by simp, by simp, hd, hr, rfl, rfl, rfl⟩

theorem Staged.write {self : CtxId} {s s' : SubmitLoop} {args staged : List OpPtr} {sqe : Sqe}
    (hd : s.ring.Direct s.tail) (hfree : (s.tail - s.ring.head).toNat < 2 ^ s.ring.size.log)
    (h : Staged self { s with ring := s.ring.write s.tail sqe } s' args staged) :
    Staged self s s' args staged :=
  ⟨h.heap, by rw [h.queue, SqRing.queue_write sqe hd hfree], h.nodup, h.fresh, h.submitted,
    h.direct, h.room, h.size, h.head, h.published⟩

theorem Staged.mono {self : CtxId} {s s' : SubmitLoop} {args args' staged : List OpPtr}
    (hsub : args ⊆ args') (h : Staged self s s' args staged) : Staged self s s' args' staged :=
  { h with fresh := fun p hp => ⟨hsub (h.fresh p hp).1, (h.fresh p hp).2⟩ }

theorem Staged.cons {self : CtxId} {s s' : SubmitLoop} {p : OpPtr} {args staged : List OpPtr}
    {sqe : Sqe} (hp : (s.heap.ops p).inProgress = false)
    (hsqe : submitSqe p (s.heap.ops p) = some sqe) (hd : s.ring.Direct s.tail)
    (hfree : (s.tail - s.ring.head).toNat < 2 ^ s.ring.size.log)
    (h : Staged self (s.stage self p sqe) s' args staged) :
    Staged self s s' (p :: args) (p :: staged) := by
  have hne : ∀ q ∈ staged, q ≠ p := by
    rintro q hq rfl
    have := (h.fresh q hq).2.1
    simp only [SubmitLoop.stage, Heap.take_ops_self, Heap.setInProgress,
      Heap.modify_ops_self] at this
    cases this
  have hsame : ∀ q ∈ staged, (s.stage self p sqe).heap.ops q = s.heap.ops q :=
    fun q hq => claim_ops_ne s.heap self (hne q hq)
  refine ⟨h.heap, ?_, ?_, ?_, ?_, h.direct, h.room, ?_, ?_, ?_⟩
  · have hmap : staged.filterMap (fun q => submitSqe q ((s.stage self p sqe).heap.ops q)) =
        staged.filterMap fun q => submitSqe q (s.heap.ops q) :=
      List.filterMap_congr fun q hq => by rw [hsame q hq]
    rw [h.queue, hmap]
    simp only [SubmitLoop.stage]
    rw [SqRing.queue_put sqe hd hfree, List.filterMap_cons, hsqe, List.append_assoc]
    rfl
  · exact List.nodup_cons.mpr ⟨fun hmem => hne p hmem rfl, h.nodup⟩
  · intro q hq
    rcases List.mem_cons.mp hq with rfl | hq
    · exact ⟨List.mem_cons_self, hp, by rw [hsqe]; rfl⟩
    · obtain ⟨hargs, hfresh, hop⟩ := h.fresh q hq
      rw [hsame q hq] at hfresh hop
      exact ⟨List.mem_cons_of_mem _ hargs, hfresh, hop⟩
  · rw [h.submitted]
    simp only [SubmitLoop.stage, List.length_cons, UInt32.ofNat_add]
    rw [UInt32.add_assoc, UInt32.add_comm 1]
    rfl
  · rw [h.size]
    exact SqRing.put_size ..
  · rw [h.head]
    exact SqRing.put_head ..
  · rw [h.published]
    exact SqRing.put_tail ..

/-- How the loop ends: with the whole batch looked at, or at an unclaimed Operation that found
the ring full. -/
theorem submitLoop_spec (self : CtxId) (args : List OpPtr) {s : SubmitLoop}
    (hd : s.ring.Direct s.tail) (hhead : s.head = s.ring.head)
    (hr : (s.tail - s.ring.head).toNat ≤ 2 ^ s.ring.size.log) :
    ∃ s' staged,
      (submitLoop self s args = (s', .next) ∧ Staged self s s' args staged) ∨
      ∃ pre p post, args = pre ++ p :: post ∧ submitLoop self s args = (s', .overflow) ∧
        submitLoop self s pre = (s', .next) ∧ Staged self s s' pre staged ∧
        (s'.heap.ops p).inProgress = false ∧
        (s'.tail - s'.ring.head).toNat = 2 ^ s'.ring.size.log := by
  induction args generalizing s with
  | nil => exact ⟨s, [], .inl ⟨rfl, .refl self [] hd hr⟩⟩
  | cons p args ih =>
    -- what the rest of the batch does carries over once the first Operation is dealt with
    have hpass : ∀ {s₁ : SubmitLoop} (more : List OpPtr),
        submitOne self s p = (s₁, .next) → s₁.ring.Direct s₁.tail → s₁.head = s₁.ring.head →
        (s₁.tail - s₁.ring.head).toNat ≤ 2 ^ s₁.ring.size.log →
        (∀ {s' : SubmitLoop} {as staged : List OpPtr}, Staged self s₁ s' as staged →
          Staged self s s' (p :: as) (more ++ staged)) →
        ∃ s' staged,
          (submitLoop self s (p :: args) = (s', .next) ∧ Staged self s s' (p :: args) staged) ∨
          ∃ pre q post, p :: args = pre ++ q :: post ∧
            submitLoop self s (p :: args) = (s', .overflow) ∧
            submitLoop self s pre = (s', .next) ∧ Staged self s s' pre staged ∧
            (s'.heap.ops q).inProgress = false ∧
            (s'.tail - s'.ring.head).toNat = 2 ^ s'.ring.size.log := by
      intro s₁ more hone hd₁ hhead₁ hr₁ hlift
      have hstep : ∀ as, submitLoop self s (p :: as) = submitLoop self s₁ as := by
        intro as
        simp only [submitLoop, hone]
      obtain ⟨s', staged, ⟨hloop, hs⟩ | ⟨pre, q, post, rfl, hover, hnext, hs, hq, hfull⟩⟩ :=
        ih hd₁ hhead₁ hr₁
      · exact ⟨s', more ++ staged, .inl ⟨(hstep _).trans hloop, hlift hs⟩⟩
      · exact ⟨s', more ++ staged, .inr ⟨p :: pre, q, post, rfl, (hstep _).trans hover,
          (hstep _).trans hnext, hlift hs, hq, hfull⟩⟩
    obtain ⟨hp, hone⟩ | ⟨hp, hfull, hone⟩ | ⟨hp, hroom, hsqe, hone⟩ |
      ⟨hp, hroom, sqe, hsqe, hone⟩ :=
      submitOne_cases self s p
    · exact hpass [] hone hd hhead hr fun h => h.mono (List.subset_cons_self ..)
    · refine ⟨s, [], .inr ⟨[], p, args, rfl, ?_, rfl, .refl self [] hd hr, hp, ?_⟩⟩
      · simp only [submitLoop, hone]
      · rw [hhead, UInt32.le_iff_toNat_le, RingSize.entries_toNat] at hfull
        omega
    · have hfree := (RingBuffer.lt_entries_iff _).mp (hhead ▸ hroom)
      refine hpass [] hone hd.write hhead hr fun h => ?_
      exact (Staged.write hd hfree h).mono (List.subset_cons_self ..)
    · have hfree := (RingBuffer.lt_entries_iff _).mp (hhead ▸ hroom)
      have hpow := s.ring.size.pow_le
      refine hpass [p] hone (hd.put hfree) ?_ ?_ fun h => h.cons hp hsqe hd hfree
      · simpa [SubmitLoop.stage] using hhead
      · simp only [SubmitLoop.stage, SqRing.put_head, SqRing.put_size]
        rw [RingBuffer.sub_toNat_succ (by omega)]
        omega

/-- The scanning loop, with `n` CQEs from the local head to the snapshot of `cq_tail`. -/
def scanLoop (cq : CqRing) (max : UInt32) : ℕ → Heap → Scan → Heap × Scan
  | 0, h, s => (h, s)
  | n + 1, h, s =>
    if s.count < max then
      let r := scanOne h s (cq.cqes (cq.size.slot s.head))
      scanLoop cq max n r.1 r.2
    else (h, s)

/-- `uring_drain_cq` up to the callbacks, which are left to run for the batch of the result. -/
def drainCq (heap : Heap) (cq : CqRing) (max : UInt32) : Heap × CqRing × Scan :=
  let r := scanLoop cq max (cq.tail - cq.head).toNat heap { head := cq.head }
  (r.1, cq.commit r.2.head, r.2)

def Heap.finaliseAll (h : Heap) (batch : List (OpPtr × Int32)) : Heap :=
  batch.foldl (fun h x => h.finalise x.1 x.2) h

/-- What one drain consumes: a prefix of the queue, the longest with at most `max` real
completions. -/
structure Drained (heap heap' : Heap) (cq cq' : CqRing) (max : UInt32) (s : Scan)
    (es : List Cqe) : Prop where
  queue : cq.queue = es ++ cq'.queue
  batch : s.batch = completions es
  heap : heap' = heap.finaliseAll s.batch
  count : s.count.toNat = s.batch.length
  atMost : s.batch.length ≤ max.toNat
  rest : s.batch.length < max.toNat → cq'.queue = []
  room : (cq'.tail - cq'.head).toNat ≤ (cq.tail - cq.head).toNat
  size : cq'.size = cq.size
  tail : cq'.tail = cq.tail

theorem scanLoop_spec (cq : CqRing) (max : UInt32) (n : ℕ) {h : Heap} {s : Scan}
    (hn : (cq.tail - s.head).toNat = n) (hcount : s.count.toNat = s.batch.length)
    (hmax : s.batch.length ≤ max.toNat) :
    ∃ h' s' es, scanLoop cq max n h s = (h', s') ∧
      RingBuffer.window cq.size cq.cqes s.head cq.tail =
        es ++ RingBuffer.window cq.size cq.cqes s'.head cq.tail ∧
      s'.batch = s.batch ++ completions es ∧ h' = h.finaliseAll (completions es) ∧
      s'.count.toNat = s'.batch.length ∧ s'.batch.length ≤ max.toNat ∧
      (s'.batch.length < max.toNat → s'.head = cq.tail) ∧ (cq.tail - s'.head).toNat ≤ n := by
  induction n generalizing h s with
  | zero =>
    have heq := RingBuffer.sub_toNat_eq_zero.mp hn
    exact ⟨h, s, [], rfl, rfl, (List.append_nil _).symm, rfl, hcount, hmax, fun _ => heq.symm,
      hn.le⟩
  | succ n ih =>
    by_cases hlt : s.count < max
    · have hne : s.head ≠ cq.tail := by
        intro heq
        rw [heq, UInt32.sub_self] at hn
        cases hn
      have hlive := RingBuffer.sub_succ_toNat hne
      have hbound := max.toNat_lt
      have hltn := UInt32.lt_iff_toNat_lt.mp hlt
      generalize he : cq.cqes (cq.size.slot s.head) = e
      have hstep : scanLoop cq max (n + 1) h s =
          scanLoop cq max n (scanOne h s e).1 (scanOne h s e).2 := by
        rw [scanLoop, if_pos hlt, he]
      have hone : (scanOne h s e).2.count.toNat = (scanOne h s e).2.batch.length ∧
          (scanOne h s e).2.batch.length ≤ max.toNat ∧
          (scanOne h s e).1 = h.finaliseAll (completions [e]) := by
        unfold scanOne
        split_ifs with hsent
        · rw [completions_cons_sentinel _ hsent]
          exact ⟨hcount, hmax, rfl⟩
        · rw [completions_cons_real _ hsent]
          simp only [UInt32.toNat_add, UInt32.toNat_one, List.length_append, List.length_singleton]
          exact ⟨by omega, by omega, rfl⟩
      obtain ⟨h', s', es, hloop, hwindow, hbatch, hheap, hcount', hmax', hrest, hle⟩ :=
        ih (h := (scanOne h s e).1) (s := (scanOne h s e).2)
          (by rw [scanOne_head]; omega) hone.1 hone.2.1
      refine ⟨h', s', e :: es, hstep.trans hloop, ?_, ?_, ?_, hcount', hmax', hrest, by omega⟩
      · rw [RingBuffer.window_pop _ hne, he, List.cons_append, ← hwindow, scanOne_head]
      · rw [hbatch, scanOne_batch, List.append_assoc, ← completions_append]
        rfl
      · rw [hheap, hone.2.2, Heap.finaliseAll, Heap.finaliseAll, Heap.finaliseAll,
          ← List.foldl_append, ← completions_append]
        rfl
    · have hge := UInt32.not_lt.mp hlt
      rw [UInt32.le_iff_toNat_le] at hge
      have hstop : scanLoop cq max (n + 1) h s = (h, s) := by
        rw [scanLoop, if_neg hlt]
      exact ⟨h, s, [], hstop, rfl, (List.append_nil _).symm, rfl, hcount, hmax,
        fun hcon => absurd hcon (by omega), hn.le⟩

theorem drainCq_spec (heap : Heap) (cq : CqRing) (max : UInt32) :
    ∃ heap' cq' s es, drainCq heap cq max = (heap', cq', s) ∧
      Drained heap heap' cq cq' max s es := by
  obtain ⟨h', s', es, hloop, hwindow, hbatch, hheap, hcount, hmax, hrest, hle⟩ :=
    scanLoop_spec cq max _ (h := heap) (s := { head := cq.head }) rfl rfl (Nat.zero_le _)
  rw [List.nil_append] at hbatch
  refine ⟨h', cq.commit s'.head, s', es, ?_, hwindow, hbatch, ?_, hcount, hmax, ?_, hle, rfl, rfl⟩
  · rw [drainCq, hloop]
  · rw [hbatch, hheap]
  · intro hlt
    exact (RingBuffer.window_eq_nil_iff _).mpr (hrest hlt)

/-- The `return (int) count` of `uring_drain_cq` with its caller's test for a negative number. -/
def Scan.ret (s : Scan) : Except PyErr ℕ :=
  if s.count.toInt32 < 0 then .error .noException else .ok s.count.toInt32.toInt.toNat

theorem Scan.ret_eq {s : Scan} (hcount : s.count.toNat = s.batch.length)
    (hsmall : s.batch.length < 2 ^ 31) : s.ret = .ok s.batch.length := by
  have hint : s.count.toInt32.toInt = s.batch.length := by
    have := UInt32.toInt32_ofNat' (n := s.count.toNat)
    rw [UInt32.ofNat_toNat] at this
    rw [this, Int32.toInt_ofNat_of_lt (by omega), hcount]
  have hnonneg : ¬s.count.toInt32 < 0 := by
    rw [Int32.lt_iff_toInt_lt, hint]
    simp
  rw [Scan.ret, if_neg hnonneg, hint, Int.toNat_natCast]

/-- A drain whose snapshot of `cq_tail` may be older than the ring consumes from the head on, and
leaves what came after its snapshot unless it has reached `max`. -/
theorem drainCq_snapshot (heap : Heap) (cq : CqRing) {tail : UInt32} (max : UInt32)
    (hle : (cq.tail - tail).toNat ≤ (cq.tail - cq.head).toNat) :
    ∃ heap' head scan es,
      drainCq heap { cq with tail } max = (heap', ({ cq with tail } : CqRing).commit head, scan) ∧
      cq.queue = es ++ (cq.commit head).queue ∧ (cq.tail - head).toNat ≤ (cq.tail - cq.head).toNat ∧
      scan.batch = completions es ∧ scan.count.toNat = scan.batch.length ∧
      scan.batch.length ≤ max.toNat ∧ (scan.batch.length < max.toNat → head = tail) := by
  obtain ⟨heap', cq', scan, es, hrun, hd⟩ := drainCq_spec heap { cq with tail } max
  have hcq : cq' = ({ cq with tail } : CqRing).commit cq'.head := by
    have := congrArg (·.2.1) hrun
    rw [← show _ = cq' from this]
    rfl
  have hroom : (tail - cq'.head).toNat ≤ (tail - cq.head).toNat := by
    have := hd.room
    rwa [hd.tail] at this
  have hcut := RingBuffer.sub_toNat_cut hle
  have hleft : (cq.tail - cq'.head).toNat = (cq.tail - tail).toNat + (tail - cq'.head).toNat := by
    have hsplit : cq.tail - cq'.head = (cq.tail - tail) + (tail - cq'.head) := by grind
    have hlt := (cq.tail - cq.head).toNat_lt
    rw [hsplit, UInt32.toNat_add, Nat.mod_eq_of_lt (by omega)]
  have hscanned : RingBuffer.window cq.size cq.cqes cq.head tail =
      es ++ RingBuffer.window cq.size cq.cqes cq'.head tail := by
    have := hd.queue
    rw [hcq] at this
    exact this
  refine ⟨heap', cq'.head, scan, es, hcq ▸ hrun, ?_, by omega, hd.batch, hd.count, hd.atMost, ?_⟩
  · show RingBuffer.window cq.size cq.cqes cq.head cq.tail =
      es ++ RingBuffer.window cq.size cq.cqes cq'.head cq.tail
    rw [RingBuffer.window_cut _ hle, hscanned, List.append_assoc,
      ← RingBuffer.window_cut _ (by omega)]
  · intro hlt
    have hrest := hd.rest hlt
    rw [CqRing.queue, RingBuffer.window_eq_nil_iff, hd.tail] at hrest
    exact hrest

theorem finaliseAll_ops_of_not_mem {h : Heap} {batch : List (OpPtr × Int32)} {q : OpPtr}
    (hq : q ∉ batch.map Prod.fst) : (h.finaliseAll batch).ops q = h.ops q := by
  induction batch generalizing h with
  | nil => rfl
  | cons x xs ih =>
    rw [List.map_cons] at hq
    obtain ⟨hne, hq⟩ := List.ne_and_not_mem_of_not_mem_cons hq
    exact (ih hq).trans (finalise_ops_ne h x.2 hne)

theorem finaliseAll_ops_of_mem {h : Heap} {batch : List (OpPtr × Int32)} {x : OpPtr × Int32}
    (hx : x ∈ batch) (hnodup : (batch.map Prod.fst).Nodup) :
    (h.finaliseAll batch).ops x.1 = (h.ops x.1).complete x.2 := by
  induction batch generalizing h with
  | nil => cases hx
  | cons y ys ih =>
    rw [List.map_cons] at hnodup
    obtain ⟨hy, hys⟩ := List.nodup_cons.mp hnodup
    rcases List.mem_cons.mp hx with rfl | hx
    · exact (finaliseAll_ops_of_not_mem hy).trans (finalise_ops_self h x.1 x.2)
    · have hne : x.1 ≠ y.1 := fun heq => hy (heq ▸ List.mem_map_of_mem hx)
      exact (ih hx hys).trans (by rw [finalise_ops_ne h y.2 hne])

end Caio.Uring
