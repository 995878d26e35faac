import Caio.Uring.Lifecycle

namespace Caio.Uring

/-- Who may hold which bytes object. -/
structure Buffers (heap : Heap) (allocated own given : List BytesId) : Prop where
  read : ∀ p, 0 < (heap.ops p).refcnt → (heap.ops p).opcode = .read →
    (heap.ops p).pyBuffer = some (heap.ops p).buf ∧ (heap.ops p).buf ∈ allocated ∧
      (heap.ops p).buf ∉ own
  /-- Two read Operations never share a buffer. -/
  alone : ∀ p q, 0 < (heap.ops p).refcnt → 0 < (heap.ops q).refcnt →
    (heap.ops p).opcode = .read → (heap.ops q).opcode = .read →
    (heap.ops p).buf = (heap.ops q).buf → p = q
  other : ∀ p b, 0 < (heap.ops p).refcnt → (heap.ops p).opcode ≠ .read →
    (heap.ops p).pyBuffer = some b → b ∈ own ∨ b ∈ given
  ownAllocated : ∀ b ∈ own, b ∈ allocated
  givenAllocated : ∀ b ∈ given, b ∈ allocated

/-- Operations that are alive afterwards were so before, with the same buffers. -/
def Heap.SameBuffers (h h' : Heap) : Prop := ∀ p, 0 < (h'.ops p).refcnt →
  0 < (h.ops p).refcnt ∧ (h'.ops p).opcode = (h.ops p).opcode ∧ (h'.ops p).buf = (h.ops p).buf ∧
    (h'.ops p).pyBuffer = (h.ops p).pyBuffer

namespace Heap.SameBuffers

theorem refl (h : Heap) : h.SameBuffers h := fun _ hp => ⟨hp, rfl, rfl, rfl⟩

theorem trans {h₁ h₂ h₃ : Heap} (h12 : h₁.SameBuffers h₂) (h23 : h₂.SameBuffers h₃) :
    h₁.SameBuffers h₃ := by
  intro p hp
  obtain ⟨hp2, ho, hb, hy⟩ := h23 p hp
  obtain ⟨hp1, ho', hb', hy'⟩ := h12 p hp2
  exact ⟨hp1, ho.trans ho', hb.trans hb', hy.trans hy'⟩

theorem of_eq {h h' : Heap} (q : OpPtr) (hne : ∀ p, p ≠ q → h'.ops p = h.ops p)
    (hq : 0 < (h'.ops q).refcnt → 0 < (h.ops q).refcnt ∧ (h'.ops q).opcode = (h.ops q).opcode ∧
      (h'.ops q).buf = (h.ops q).buf ∧ (h'.ops q).pyBuffer = (h.ops q).pyBuffer) :
    h.SameBuffers h' := by
  intro p hp
  by_cases hpq : p = q
  · subst hpq
    exact hq hp
  · rw [hne p hpq] at hp ⊢
    exact ⟨hp, rfl, rfl, rfl⟩

theorem incref {h : Heap} {p : OpPtr} (hp : 0 < (h.ops p).refcnt) : h.SameBuffers (h.incref p) := by
  refine of_eq p (fun q hq => modify_ops_ne _ _ hq) fun _ => ?_
  rw [Heap.incref, modify_ops_self]
  exact ⟨hp, rfl, rfl, rfl⟩

theorem setCallback (h : Heap) (p : OpPtr) (callback : Callback) :
    h.SameBuffers (h.modify p fun op => op.setCallback callback) := by
  refine of_eq p (fun q hq => modify_ops_ne _ _ hq) fun hp => ?_
  rw [modify_ops_self] at hp ⊢
  exact ⟨hp, rfl, rfl, rfl⟩

theorem release (h : Heap) (p : OpPtr) : h.SameBuffers (h.release p) := by
  refine of_eq p (fun q hq => World.release_ops_ne h hq) fun hp => ?_
  unfold Heap.release at hp ⊢
  split_ifs at hp ⊢ with hone
  · rw [dealloc, modify_ops_self, xdecrefCtx_ops, decref, modify_ops_self] at hp
    exact absurd hp (by simp [hone])
  · rw [decref, modify_ops_self] at hp ⊢
    exact ⟨by simp only at hp; omega, rfl, rfl, rfl⟩

theorem claim {h : Heap} (self : CtxId) {p : OpPtr} (hp : 0 < (h.ops p).refcnt) :
    h.SameBuffers (h.claim self p) := by
  refine of_eq p (fun q hq => claim_ops_ne h self hq) fun _ => ?_
  rw [claim_ops_self]
  exact ⟨hp, rfl, rfl, rfl⟩

theorem claimAll {h : Heap} (self : CtxId) {staged : List OpPtr}
    (hlive : ∀ p ∈ staged, 0 < (h.ops p).refcnt) : h.SameBuffers (h.claimAll self staged) := by
  induction staged generalizing h with
  | nil => exact refl h
  | cons p ps ih =>
    have hone := claim (h := h) self (hlive p List.mem_cons_self)
    refine hone.trans (ih fun q hq => ?_)
    have hq' := hlive q (List.mem_cons_of_mem _ hq)
    by_cases hqp : q = p
    · subst hqp
      rw [claim_ops_self]
      exact Nat.succ_pos _
    · rwa [claim_ops_ne _ _ hqp]

theorem finaliseAll (h : Heap) (batch : List (OpPtr × Int32)) :
    h.SameBuffers (h.finaliseAll batch) := by
  induction batch generalizing h with
  | nil => exact refl h
  | cons x xs ih =>
    refine trans ?_ (ih _)
    refine of_eq x.1 (fun q hq => finalise_ops_ne h x.2 hq) fun hp => ?_
    rw [finalise_ops_self] at hp ⊢
    exact ⟨hp, rfl, rfl, rfl⟩

end Heap.SameBuffers

theorem Buffers.sameBuffers {heap heap' : Heap} {allocated own given : List BytesId}
    (h : Buffers heap allocated own given) (hsame : heap.SameBuffers heap') :
    Buffers heap' allocated own given := by
  refine ⟨fun p hp hop => ?_, fun p q hp hq hop hoq hbuf => ?_, fun p b hp hop hb => ?_,
    h.ownAllocated, h.givenAllocated⟩
  · obtain ⟨hp', ho, hb, hy⟩ := hsame p hp
    rw [hy, hb]
    exact h.read p hp' (ho ▸ hop)
  · obtain ⟨hp', ho, hb, -⟩ := hsame p hp
    obtain ⟨hq', ho', hb', -⟩ := hsame q hq
    exact h.alone p q hp' hq' (ho ▸ hop) (ho' ▸ hoq) (hb ▸ hb' ▸ hbuf)
  · obtain ⟨hp', ho, -, hy⟩ := hsame p hp
    exact h.other p b hp' (ho ▸ hop) (hy ▸ hb)

theorem Buffers.allocate {heap : Heap} {allocated own given : List BytesId}
    (h : Buffers heap allocated own given) (b : BytesId) :
    Buffers heap (b :: allocated) own given :=
  ⟨fun p hp hop => ⟨(h.read p hp hop).1, List.mem_cons_of_mem _ (h.read p hp hop).2.1,
    (h.read p hp hop).2.2⟩, h.alone, h.other,
    fun b hb => List.mem_cons_of_mem _ (h.ownAllocated b hb),
    fun b hb => List.mem_cons_of_mem _ (h.givenAllocated b hb)⟩

theorem Buffers.give {heap : Heap} {allocated own given : List BytesId}
    (h : Buffers heap allocated own given) {b : BytesId} (hb : b ∈ allocated) :
    Buffers heap allocated own (given ++ [b]) := by
  refine ⟨h.read, h.alone, fun p d hp hop hd => ?_, h.ownAllocated, fun d hd => ?_⟩
  · exact (h.other p d hp hop hd).imp id fun hmem => List.mem_append_left _ hmem
  · rcases List.mem_append.mp hd with hd | hd
    · exact h.givenAllocated d hd
    · rw [List.mem_singleton] at hd
      rwa [hd]

def Context.issued (k : Context) : List Sqe := k.sq.queue k.sq.tail ++ k.inKernel

theorem Context.mem_carried_of_issued {k : Context} {e : Sqe} (he : e ∈ k.issued) :
    e.userData ∈ k.carried := by
  have : k.carried = k.issued.map Sqe.userData ++ (k.cq.queue.map Cqe.userData ++
      k.backlog.map Cqe.userData) := by
    simp only [carried, issued, List.map_append, List.append_assoc]
  rw [this]
  exact List.mem_append_left _ (List.mem_map_of_mem he)

namespace World

variable {s t : World} {c : CtxId}

/-- A read request stores into the buffer of its Operation, which nobody has been given. -/
structure Target (s : World) (e : Sqe) : Prop where
  real : e.userData ≠ cancelUserData
  opcode : (s.heap.ops e.userData).opcode = .read
  buf : (s.heap.ops e.userData).buf = e.addr
  secret : e.addr ∉ s.given.map Prod.fst

structure Imm (s : World) : Prop where
  inv : Inv s
  buffers : Buffers s.heap s.allocated s.own (s.given.map Prod.fst)
  targets : ∀ c, ∀ e ∈ (s.ctxs c).issued, e.opcode = .read → s.Target e
  same : ∀ x ∈ s.given, s.bytes x.1 = x.2

theorem Inv.issued (h : Inv s) {e : Sqe} (he : e ∈ (s.ctxs c).issued)
    (hreal : e.userData ≠ cancelUserData) :
    (s.heap.ops e.userData).inFlight = true ∧ 0 < (s.heap.ops e.userData).refcnt := by
  have hmem : e.userData ∈ (s.ctxs c).requests :=
    List.mem_filter.mpr ⟨Context.mem_carried_of_issued he, by simp [isOperation, hreal]⟩
  have hfly := ((h.owner.carries _ c).mp hmem).1
  have := h.owner.refs e.userData
  rw [hfly, Bool.toNat_true] at this
  exact ⟨hfly, by omega⟩

/-- Steps that issue no new read, hand out nothing and store into nothing that was handed out. -/
theorem Imm.frame (h : Imm s) (hinv : Inv t) (hheap : s.heap.SameBuffers t.heap)
    (hissued : ∀ c, ∀ e ∈ (t.ctxs c).issued, e.opcode = .read → e ∈ (s.ctxs c).issued)
    (hgiven : t.given = s.given) (hbytes : ∀ x ∈ s.given, t.bytes x.1 = s.bytes x.1)
    (hallocated : t.allocated = s.allocated) (hown : t.own = s.own) : Imm t := by
  refine ⟨hinv, ?_, fun c e he hop => ?_, fun x hx => ?_⟩
  · rw [hallocated, hown, hgiven]
    exact h.buffers.sameBuffers hheap
  · obtain ⟨hreal, hread, hbuf, hsecret⟩ := h.targets c e (hissued c e he hop) hop
    obtain ⟨-, hopcode, hsamebuf, -⟩ := hheap _ (hinv.issued he hreal).2
    exact ⟨hreal, hopcode.trans hread, hsamebuf.trans hbuf, hgiven ▸ hsecret⟩
  · rw [hgiven] at hx
    rw [hbytes x hx]
    exact h.same x hx

theorem Imm.not_target (h : Imm s) {p : OpPtr} {b : BytesId} (hlive : 0 < (s.heap.ops p).refcnt)
    (hfly : (s.heap.ops p).inFlight = false) (hb : (s.heap.ops p).pyBuffer = some b)
    {e : Sqe} (he : e ∈ (s.ctxs c).issued) (hop : e.opcode = .read) : e.addr ≠ b := by
  intro heq
  obtain ⟨hreal, hread, hbuf, hsecret⟩ := h.targets c e he hop
  obtain ⟨hefly, helive⟩ := h.inv.issued he hreal
  by_cases hopcode : (s.heap.ops p).opcode = .read
  · have hpy := (h.buffers.read p hlive hopcode).1
    rw [hb, Option.some.injEq] at hpy
    -- two living read Operations never share a buffer, and this one is in flight, that one not
    have hsame := h.buffers.alone e.userData p helive hlive hread hopcode
      (hbuf.trans (heq.trans hpy))
    rw [hsame, hfly] at hefly
    cases hefly
  -- an object of Python code is no read buffer, one handed out already is no target
  · rcases h.buffers.other p b hlive hopcode hb with hown | hgiven
    · rw [← heq, ← hbuf] at hown
      exact (h.buffers.read _ helive hread).2.2 hown
    · exact hsecret (heq ▸ hgiven)

theorem Imm.give (h : Imm s) {b : BytesId} (hb : b ∈ s.allocated)
    (hnot : ∀ c, ∀ e ∈ (s.ctxs c).issued, e.opcode = .read → e.addr ≠ b) : Imm (s.give b) := by
  refine ⟨⟨h.inv.owner, h.inv.rings, h.inv.sentinel⟩, ?_, fun c e he hop => ?_, fun x hx => ?_⟩
  · show Buffers s.heap s.allocated s.own ((s.given ++ [(b, s.bytes b)]).map Prod.fst)
    rw [List.map_append]
    exact h.buffers.give hb
  · obtain ⟨hreal, hread, hbuf, hsecret⟩ := h.targets c e he hop
    refine ⟨hreal, hread, hbuf, ?_⟩
    show e.addr ∉ (s.given ++ [(b, s.bytes b)]).map Prod.fst
    rw [List.map_append, List.mem_append, not_or]
    exact ⟨hsecret, by simpa using hnot c e he hop⟩
  · rcases List.mem_append.mp hx with hx | hx
    · exact h.same x hx
    · rw [List.mem_singleton] at hx
      rw [hx]
      rfl

theorem Imm.accessor (h : Imm s) {p : OpPtr} {b : BytesId} (hlive : 0 < (s.heap.ops p).refcnt)
    (hfly : (s.heap.ops p).inFlight = false) (hb : (s.heap.ops p).pyBuffer = some b) :
    Imm (s.give b) := by
  refine h.give ?_ fun c e he hop => h.not_target hlive hfly hb he hop
  by_cases hopcode : (s.heap.ops p).opcode = .read
  · obtain ⟨hpy, hmem, -⟩ := h.buffers.read p hlive hopcode
    rw [hb, Option.some.injEq] at hpy
    rwa [hpy]
  · rcases h.buffers.other p b hlive hopcode hb with hown | hgiven
    · exact h.buffers.ownAllocated b hown
    · exact h.buffers.givenAllocated b hgiven

theorem Imm.allocate (h : Imm s) {b : BytesId} (hb : b ∉ s.allocated) (content : List UInt8) :
    Imm (s.allocate b content) := by
  refine ⟨⟨h.inv.owner, h.inv.rings, h.inv.sentinel⟩, h.buffers.allocate b, fun c e he hop => ?_,
    fun x hx => ?_⟩
  · obtain ⟨hreal, hread, hbuf, hsecret⟩ := h.targets c e he hop
    exact ⟨hreal, hread, hbuf, hsecret⟩
  · have hne : x.1 ≠ b := by
      intro heq
      exact hb (heq ▸ h.buffers.givenAllocated x.1 (List.mem_map_of_mem hx))
    show Function.update s.bytes b content x.1 = x.2
    rw [Function.update_of_ne hne]
    exact h.same x hx

theorem Imm.newOp (h : Imm s) {p : OpPtr} {op : AIOOperation} (hinv : Inv t)
    (hread : op.opcode = .read → op.pyBuffer = some op.buf ∧ op.buf ∈ s.allocated ∧
      op.buf ∉ s.own ∧ ∀ q, 0 < (s.heap.ops q).refcnt → (s.heap.ops q).opcode = .read →
        (s.heap.ops q).buf ≠ op.buf)
    (hother : ∀ b, op.opcode ≠ .read → op.pyBuffer = some b →
      b ∈ s.own ∨ b ∈ s.given.map Prod.fst)
    (hs : s.newOp p op = some t) : Imm t := by
  obtain ⟨⟨-, hfree⟩, heq⟩ := Option.ite_none_right_eq_some.mp hs
  cases heq
  refine ⟨hinv, ?_, fun c e he hop => ?_, h.same⟩
  · show Buffers (s.heap.modify p fun _ => op) s.allocated s.own (s.given.map Prod.fst)
    refine ⟨fun q hq hop => ?_, fun q r hq hr hoq hor hbuf => ?_, fun q b hq hop hb => ?_,
      h.buffers.ownAllocated, h.buffers.givenAllocated⟩
    · by_cases hqp : q = p
      · subst hqp
        rw [Heap.modify_ops_self] at hop ⊢
        obtain ⟨h1, h2, h3, -⟩ := hread hop
        exact ⟨h1, h2, h3⟩
      · rw [Heap.modify_ops_ne _ _ hqp] at hq hop ⊢
        exact h.buffers.read q hq hop
    · by_cases hqp : q = p <;> by_cases hrp : r = p
      · rw [hqp, hrp]
      · subst hqp
        rw [Heap.modify_ops_self] at hoq hbuf
        rw [Heap.modify_ops_ne _ _ hrp] at hr hor hbuf
        exact absurd hbuf.symm ((hread hoq).2.2.2 r hr hor)
      · subst hrp
        rw [Heap.modify_ops_self] at hor hbuf
        rw [Heap.modify_ops_ne _ _ hqp] at hq hoq hbuf
        exact absurd hbuf ((hread hor).2.2.2 q hq hoq)
      · rw [Heap.modify_ops_ne _ _ hqp] at hq hoq hbuf
        rw [Heap.modify_ops_ne _ _ hrp] at hr hor hbuf
        exact h.buffers.alone q r hq hr hoq hor hbuf
    · by_cases hqp : q = p
      · subst hqp
        rw [Heap.modify_ops_self] at hop hb
        exact hother b hop hb
      · rw [Heap.modify_ops_ne _ _ hqp] at hq hop hb
        exact h.buffers.other q b hq hop hb
  · obtain ⟨hreal, hopcode, hbuf, hsecret⟩ := h.targets c e he hop
    have hne : e.userData ≠ p := by
      intro heq
      have hlive := (h.inv.issued he hreal).2
      rw [heq, hfree] at hlive
      exact absurd hlive (Nat.lt_irrefl 0)
    refine ⟨hreal, ?_, ?_, hsecret⟩
    · show ((s.heap.modify p fun _ => op).ops e.userData).opcode = _
      rwa [Heap.modify_ops_ne _ _ hne]
    · show ((s.heap.modify p fun _ => op).ops e.userData).buf = _
      rwa [Heap.modify_ops_ne _ _ hne]

theorem issued_setCtx {k : Context} (hk : ∀ e ∈ k.issued, e ∈ (s.ctxs c).issued) (d : CtxId) :
    ∀ e ∈ ((s.setCtx c k).ctxs d).issued, e ∈ (s.ctxs d).issued := by
  by_cases hd : d = c
  · subst hd
    rwa [setCtx_ctxs_self]
  · rw [setCtx_ctxs_ne _ _ hd]
    exact fun e he => he

theorem post_issued (k : Context) (e : Cqe) (late : Bool) : (k.post e late).issued = k.issued := by
  unfold Context.post
  split <;> rfl

theorem kernelStep_issued {a : KernelStep} (hs : s.kernelStep c a = some t) (d : CtxId) :
    ∀ e ∈ (t.ctxs d).issued, e ∈ (s.ctxs d).issued := by
  obtain ⟨-, hs⟩ := Option.ite_none_left_eq_some.mp hs
  cases a with
  | consume =>
    obtain ⟨⟨e, sq⟩, he, rfl⟩ := Option.map_eq_some_iff.mp hs
    have hne : (s.ctxs c).sq.head ≠ (s.ctxs c).sq.tail := (Option.ite_none_left_eq_some.mp he).1
    have htail : sq.tail = (s.ctxs c).sq.tail := by
      obtain ⟨-, he⟩ := Option.ite_none_left_eq_some.mp he
      cases he
      rfl
    apply issued_setCtx
    intro y hy
    simp only [Context.issued, htail, List.mem_append, List.mem_singleton] at hy
    simp only [Context.issued, SqRing.queue_consume hne he, List.mem_append, List.mem_cons]
    rcases hy with hy | hy | hy
    · exact .inl (.inr hy)
    · exact .inr hy
    · exact .inl (.inl hy)
  | transfer i data =>
    simp only at hs
    split at hs
    case h_1 => cases hs
    case h_2 =>
      split_ifs at hs
      cases hs
      exact fun _ he => he
  | complete i res late =>
    simp only at hs
    split at hs
    case h_1 => cases hs
    case h_2 =>
      cases hs
      apply issued_setCtx
      intro y hy
      rw [post_issued] at hy
      rcases List.mem_append.mp hy with hy | hy
      · exact List.mem_append_left _ hy
      · exact List.mem_append_right _ (List.mem_of_mem_eraseIdx hy)

theorem Imm.kernelStep (h : Imm s) {a : KernelStep} (hs : s.kernelStep c a = some t) : Imm t := by
  have hinv := h.inv.kernelStep hs
  have hissued := kernelStep_issued hs
  obtain ⟨-, hs⟩ := Option.ite_none_left_eq_some.mp hs
  cases a with
  | consume =>
    obtain ⟨⟨e, sq⟩, he, rfl⟩ := Option.map_eq_some_iff.mp hs
    exact h.frame hinv (.refl _) (fun d x hx _ => hissued d x hx) rfl (fun _ _ => rfl) rfl rfl
  | transfer i data =>
    simp only at hs
    split at hs
    case h_1 => cases hs
    case h_2 e he =>
      split_ifs at hs with hop
      cases hs
      have hmem : e ∈ (s.ctxs c).issued := List.mem_append_right _ (List.mem_of_getElem? he)
      refine h.frame hinv (.refl _) (fun _ _ hx _ => hx) rfl (fun x hx => ?_) rfl rfl
      have hne : x.1 ≠ e.addr := by
        intro heq
        exact (h.targets c e hmem hop.1).secret (heq ▸ List.mem_map_of_mem hx)
      exact Function.update_of_ne hne ..
  | complete i res late =>
    simp only at hs
    split at hs
    case h_1 => cases hs
    case h_2 =>
      cases hs
      exact h.frame hinv (.refl _) (fun d x hx _ => hissued d x hx) rfl (fun _ _ => rfl) rfl rfl

theorem Imm.kept (c : CtxId) : Kept c Imm := by
  refine ⟨fun h hs => h.kernelStep hs, fun {s} h => ?_, fun {s} max h => ?_⟩
  · refine h.frame h.inv.moveBacklog (.refl _)
      (fun d x hx _ => issued_setCtx (fun y hy => ?_) d x hx) rfl (fun _ _ => rfl) rfl rfl
    exact hy
  · have hinv : Inv (s.drain c max).1 := h.inv.drain max
    obtain ⟨heap, cq, scan, es, hrun, hd⟩ := drainCq_spec s.heap (s.ctxs c).cq max
    simp only [World.drain, hrun] at hinv ⊢
    have hheap : s.heap.SameBuffers heap := by
      rw [hd.heap]
      exact .finaliseAll s.heap scan.batch
    refine h.frame hinv hheap (fun d x hx _ => issued_setCtx (fun y hy => ?_) d x hx) rfl
      (fun _ _ => rfl) rfl rfl
    exact hy

/-- A `submit()` that is passed a read Operation, not submitted yet, whose buffer has already
been returned by `payload` or `get_value()`. -/
def Exposed (s : World) : Action → Prop
  | .submit _ args => ∃ p ∈ operations args, (s.heap.ops p).inProgress = false ∧
      (s.heap.ops p).opcode = .read ∧ ∃ b ∈ s.given.map Prod.fst, (s.heap.ops p).pyBuffer = some b
  | _ => False

instance (s : World) (a : Action) : Decidable (s.Exposed a) := by
  cases a with
  | submit c args => exact inferInstanceAs (Decidable (∃ p ∈ operations args, _))
  | _ => exact isFalse id

theorem submitSqe_read {p : OpPtr} {op : AIOOperation} {e : Sqe} (h : submitSqe p op = some e)
    (hop : e.opcode = .read) : e.userData = p ∧ op.opcode = .read ∧ e.addr = op.buf := by
  refine ⟨submitSqe_userData h, ?_⟩
  unfold submitSqe at h
  split at h <;> cases h
  case h_1 hread => exact ⟨hread, rfl⟩
  all_goals cases hop

theorem Submitted.issued {ring : SqRing} {heap : Heap} {looked staged : List OpPtr}
    (hsub : Submitted s c looked staged ring heap) {d : CtxId} {e : Sqe}
    (he : e ∈ (({ s.setCtx c { s.ctxs c with sq := ring } with heap } : World).ctxs d).issued) :
    e ∈ (s.ctxs d).issued ∨ ∃ p ∈ staged, submitSqe p (s.heap.ops p) = some e := by
  by_cases hd : d = c
  · subst hd
    rw [show (({ s.setCtx d { s.ctxs d with sq := ring } with heap } : World).ctxs d) =
      { s.ctxs d with sq := ring } from setCtx_ctxs_self ..] at he
    simp only [Context.issued, hsub.queue, List.mem_append, List.mem_filterMap] at he ⊢
    rcases he with (he | he) | he
    · exact .inl (.inl he)
    · exact .inr he
    · exact .inl (.inr he)
  · rw [show (({ s.setCtx c { s.ctxs c with sq := ring } with heap } : World).ctxs d) =
      s.ctxs d from setCtx_ctxs_ne _ _ hd] at he
    exact .inl he

theorem Imm.submit (h : Imm s) {args : List Arg} (hargs : ∀ a ∈ args, s.Holds a)
    (hexp : ¬s.Exposed (.submit c args)) : Imm (s.submit c args).1 := by
  have hinv : Inv (s.submit c args).1 := h.inv.submit hargs
  obtain ⟨_, hres, -⟩ | hops := submit_cases s c args
  · rwa [hres]
  · obtain ⟨ring, heap, result, looked, staged, hrun, hsub, hend⟩ :=
      h.inv.submitted c (operations args)
    have hmem : ∀ p ∈ staged, p ∈ operations args := by
      intro p hp
      obtain ⟨rfl, -⟩ | ⟨q, post, heq, -⟩ := hend
      · exact (hsub.fresh p hp).1
      · rw [heq]
        exact List.mem_append_left _ (hsub.fresh p hp).1
    have hlive : ∀ p ∈ staged, 0 < (s.heap.ops p).refcnt := by
      intro p hp
      obtain ⟨a, ha, hap⟩ := List.mem_filterMap.mp (hmem p hp)
      cases a with
      | operation q =>
        cases hap
        exact h.inv.refcnt_pos (hargs _ ha)
      | other => cases hap
    have hheap : s.heap.SameBuffers heap := by
      rw [hsub.heap]
      exact .claimAll c hlive
    rw [hops, submitOps, hrun] at hinv ⊢
    refine ⟨hinv, h.buffers.sameBuffers hheap, fun d e he hop => ?_, h.same⟩
    rcases hsub.issued he with hold | ⟨p, hp, hsqe⟩
    · obtain ⟨hreal, hread, hbuf, hsecret⟩ := h.targets d e hold hop
      obtain ⟨-, hopcode, hsamebuf, -⟩ := hheap _ (hinv.issued he hreal).2
      exact ⟨hreal, hopcode.trans hread, hsamebuf.trans hbuf, hsecret⟩
    · obtain ⟨huser, hread, haddr⟩ := submitSqe_read hsqe hop
      have hreal : e.userData ≠ cancelUserData := by
        rw [huser]
        exact h.inv.operations_real hargs (hmem p hp)
      obtain ⟨-, hopcode, hsamebuf, -⟩ := hheap _ (hinv.issued he hreal).2
      rw [huser] at hopcode hsamebuf
      refine ⟨hreal, ?_, ?_, fun hgiven => ?_⟩
      · rw [huser]
        exact hopcode.trans hread
      · rw [huser, haddr]
        exact hsamebuf
      · have hpy := (h.buffers.read p (hlive p hp) hread).1
        rw [haddr] at hgiven
        exact hexp ⟨p, hmem p hp, (hsub.fresh p hp).2.1, hread, (s.heap.ops p).buf, hgiven, hpy⟩

theorem Inv.cancel_issued (h : Inv s) (p : OpPtr) (d : CtxId) :
    ∀ e ∈ ((s.cancel c p).1.ctxs d).issued, e ∈ (s.ctxs d).issued ∨ e = cancelSqe p := by
  intro e he
  unfold World.cancel at he
  split at he
  case h_1 => exact .inl he
  case h_2 sq hsq =>
    obtain ⟨hfree, rfl⟩ := cancel_sq hsq
    have hqueue := SqRing.queue_put (cancelSqe p) (h.rings c).direct hfree
    by_cases hd : d = c
    · subst hd
      rw [setCtx_ctxs_self] at he
      simp only [Context.issued, SqRing.publish_tail, SqRing.publish_queue, hqueue,
        List.mem_append, List.mem_singleton] at he ⊢
      rcases he with (he | he) | he
      · exact .inl (.inl he)
      · exact .inr he
      · exact .inl (.inr he)
    · rw [setCtx_ctxs_ne _ _ hd] at he
      exact .inl he

theorem Imm.init (h : Init s) : Imm s := by
  have hdead : ∀ p, ¬0 < (s.heap.ops p).refcnt := by
    intro p
    rw [(h.ops p).1]
    exact Nat.lt_irrefl 0
  refine ⟨.init h, ⟨fun p hp => absurd hp (hdead p), fun p q hp => absurd hp (hdead p),
    fun p b hp => absurd hp (hdead p), ?_, ?_⟩, fun c e he => ?_, ?_⟩
  · simp [h.own]
  · simp [h.given]
  · obtain ⟨hsq, -, hkernel, -⟩ := h.ctxs c
    simp only [Context.issued, SqRing.queue, hsq, hkernel, RingBuffer.window_self,
      List.append_nil, List.not_mem_nil] at he
  · simp [h.given]

theorem Imm.payload (h : Imm s) {p : OpPtr} (hp : 0 < s.userRefs p) : Imm (s.payload p).1 := by
  unfold World.payload
  split
  case h_1 b hb =>
    unfold AIOOperation.payload at hb
    split_ifs at hb with hfly
    split at hb <;> cases hb
    case h_2 hpy => exact h.accessor (h.inv.refcnt_pos hp) (Bool.eq_false_iff.mpr hfly) hpy
  case h_2 => exact h

theorem getValue_bytes {bytes : BytesId → List UInt8} {op : AIOOperation} {b : BytesId}
    (h : op.getValue bytes = .ok (.bytes b)) : op.inFlight = false ∧ op.pyBuffer = some b := by
  unfold AIOOperation.getValue at h
  split_ifs at h with hfly
  refine ⟨Bool.eq_false_iff.mpr hfly, ?_⟩
  cases hop : op.opcode <;> simp only [hop] at h
  case read =>
    cases hb : op.pyBuffer <;> simp only [hb] at h
    · cases h
    · split_ifs at h <;> cases h
      rfl
  all_goals cases h

theorem Imm.getValue (h : Imm s) {p : OpPtr} {new : BytesId} (hp : 0 < s.userRefs p)
    (hnew : new ∉ s.allocated) : Imm (s.getValue p new).1 := by
  unfold World.getValue
  split
  case h_1 b hb =>
    obtain ⟨hfly, hpy⟩ := getValue_bytes hb
    exact h.accessor (h.inv.refcnt_pos hp) hfly hpy
  case h_2 content hb =>
    refine (h.allocate hnew content).give List.mem_cons_self fun c e he hop heq => ?_
    obtain ⟨hreal, hread, hbuf, -⟩ := h.targets c e he hop
    refine hnew ?_
    rw [← heq, ← hbuf]
    exact (h.buffers.read _ (h.inv.issued he hreal).2 hread).2.1
  case h_3 => exact h

theorem Imm.step (h : Imm s) {a : Action} (hexp : ¬s.Exposed a) (hs : s.step a = some t) :
    Imm t := by
  have hinv := h.inv.step hs
  cases a with
  | newRead p nbytes fileno offset pyBuffer =>
    obtain ⟨hfresh, hs⟩ := Option.ite_none_left_eq_some.mp hs
    refine (h.allocate hfresh (List.replicate nbytes 0)).newOp hinv (fun _ => ?_)
      (fun _ hop => absurd rfl hop) hs
    refine ⟨rfl, List.mem_cons_self, fun hown => hfresh (h.buffers.ownAllocated _ hown), ?_⟩
    intro q hq hop heq
    have hbuf : (s.heap.ops q).buf = pyBuffer := heq
    exact hfresh (hbuf ▸ (h.buffers.read q hq hop).2.1)
  | newWrite p payloadBytes fileno offset =>
    obtain ⟨hheld, hs⟩ := Option.ite_none_right_eq_some.mp hs
    refine h.newOp hinv (fun hop => ?_) (fun b _ hb => ?_) hs
    · exact absurd (show UringOp.write = .read from hop) (by decide)
    · cases hb
      exact hheld
  | newFsync p fileno =>
    refine h.newOp hinv (fun hop => ?_) (fun b _ hb => ?_) hs
    · exact absurd (show UringOp.fsync = .read from hop) (by decide)
    · cases hb
  | newFdsync p fileno =>
    refine h.newOp hinv (fun hop => ?_) (fun b _ hb => ?_) hs
    · exact absurd (show UringOp.fdsync = .read from hop) (by decide)
    · cases hb
  | newBytes b content =>
    obtain ⟨hfresh, hs⟩ := Option.ite_none_left_eq_some.mp hs
    cases hs
    obtain ⟨-, hbuffers, htargets, hsame⟩ := h.allocate hfresh content
    refine ⟨hinv, ⟨fun p hp hop => ?_, hbuffers.alone, fun p d hp hop hd => ?_, fun d hd => ?_,
      hbuffers.givenAllocated⟩, fun c e he hop => ?_, hsame⟩
    · obtain ⟨h1, h2, h3⟩ := h.buffers.read p hp hop
      refine ⟨h1, List.mem_cons_of_mem _ h2, fun hmem => ?_⟩
      rcases List.mem_cons.mp hmem with heq | hmem
      · exact hfresh (heq ▸ h2)
      · exact h3 hmem
    · exact (h.buffers.other p d hp hop hd).imp (List.mem_cons_of_mem _) id
    · rcases List.mem_cons.mp hd with rfl | hd
      · exact List.mem_cons_self
      · exact List.mem_cons_of_mem _ (h.buffers.ownAllocated d hd)
    · obtain ⟨h1, h2, h3, h4⟩ := h.targets c e he hop
      exact ⟨h1, h2, h3, h4⟩
  | newContext c k =>
    obtain ⟨⟨-, -, hk⟩, hs⟩ := Option.ite_none_right_eq_some.mp hs
    cases hs
    refine h.frame hinv (.refl _) (fun d x hx _ => issued_setCtx (fun y hy => ?_) d x hx) rfl
      (fun _ _ => rfl) rfl rfl
    obtain ⟨hsq, -, hkernel, -⟩ := hk
    simp only [Context.issued, SqRing.queue, hsq, hkernel, RingBuffer.window_self,
      List.append_nil, List.not_mem_nil] at hy
  | incref p =>
    obtain ⟨hp, hs⟩ := Option.ite_none_right_eq_some.mp hs
    cases hs
    exact h.frame hinv (.incref hp) (fun _ _ hx _ => hx) rfl (fun _ _ => rfl) rfl rfl
  | decref p =>
    obtain ⟨hp, hs⟩ := Option.ite_none_right_eq_some.mp hs
    cases hs
    exact h.frame hinv (.release _ p) (fun _ _ hx _ => hx) rfl (fun _ _ => rfl) rfl rfl
  | endTurn x =>
    obtain ⟨hp, hs⟩ := Option.ite_none_right_eq_some.mp hs
    cases hs
    exact h.frame hinv (.release _ x.1) (fun _ _ hx _ => hx) rfl (fun _ _ => rfl) rfl rfl
  | increfCtx c | decrefCtx c =>
    obtain ⟨hp, hs⟩ := Option.ite_none_right_eq_some.mp hs
    cases hs
    exact h.frame hinv (.refl _) (fun _ _ hx _ => hx) rfl (fun _ _ => rfl) rfl rfl
  | setCallback p callback =>
    obtain ⟨hp, hs⟩ := Option.ite_none_right_eq_some.mp hs
    cases hs
    exact h.frame hinv (.setCallback _ p callback) (fun _ _ hx _ => hx) rfl (fun _ _ => rfl) rfl rfl
  | payload p =>
    obtain ⟨hp, hs⟩ := Option.ite_none_right_eq_some.mp hs
    cases hs
    exact h.payload hp
  | getValue p new =>
    obtain ⟨⟨hp, hnew⟩, hs⟩ := Option.ite_none_right_eq_some.mp hs
    cases hs
    exact h.getValue hp hnew
  | submit c args =>
    obtain ⟨⟨-, hargs⟩, hs⟩ := Option.ite_none_right_eq_some.mp hs
    cases hs
    exact h.submit hargs hexp
  | cancel c p =>
    obtain ⟨-, hs⟩ := Option.ite_none_right_eq_some.mp hs
    cases hs
    have hissued := h.inv.cancel_issued (c := c) p
    have hread : ∀ d, ∀ e ∈ ((s.cancel c p).1.ctxs d).issued, e.opcode = .read →
        e ∈ (s.ctxs d).issued := by
      intro d e he hop
      rcases hissued d e he with he | rfl
      · exact he
      · cases hop
    unfold World.cancel at hinv hread ⊢
    split
    case h_1 => exact h
    case h_2 sq hsq =>
      rw [hsq] at hinv hread
      exact h.frame hinv (.refl _) hread rfl (fun _ _ => rfl) rfl rfl
  | flush c needWakeup calls =>
    obtain ⟨-, hs⟩ := Option.ite_none_right_eq_some.mp hs
    obtain ⟨⟨u, r⟩, hu, rfl⟩ := Option.map_eq_some_iff.mp hs
    exact (Imm.kept c).flush h hu
  | processEvents c maxRequests minRequests tvSec turns =>
    obtain ⟨-, hs⟩ := Option.ite_none_right_eq_some.mp hs
    obtain ⟨⟨u, r⟩, hu, rfl⟩ := Option.map_eq_some_iff.mp hs
    exact (Imm.kept c).processEvents h hu
  | kernel c a => exact h.kernelStep hs

/-- As long as no read is submitted whose buffer has been handed out, no bytes object returned by
an accessor ever changes, and no request the kernel holds reaches one. -/
theorem returned_bytes_immutable (h : system.ReachableBy (fun s a => ¬s.Exposed a) s) :
    (∀ x ∈ s.given, s.bytes x.1 = x.2) ∧
    ∀ c, ∀ e ∈ (s.ctxs c).inKernel, e.opcode = .read → e.addr ∉ s.given.map Prod.fst := by
  have himm := h.invariant (I := Imm) (fun _ (hi : Init _) => .init hi)
    fun _ _ _ hi hc hs => hi.step hc hs
  refine ⟨himm.same, fun c e he hop => ?_⟩
  exact (himm.targets c e (List.mem_append_right _ he) hop).secret

def context : Context :=
  { uringFd := 3, sqpoll := false
    sq := ⟨.two, true, 0, 0, fun _ => 0, fun _ => {}⟩
    cq := ⟨.four, 0, 0, fun _ => ⟨0, 0⟩⟩ }

/-- A read of two bytes that completes, and is offered again. -/
def readRun : List Action :=
  [.newContext 0 context, .newRead 16 2 5 0 4096, .submit 0 [.operation 16], .payload 16,
    .kernel 0 .consume, .kernel 0 (.transfer 0 [65, 66]), .kernel 0 (.complete 0 2 false),
    .processEvents 0 0 0 0 [], .getValue 16 8192, .submit 0 [.operation 16]]

theorem returned_bytes_immutable_after_read :
    ∃ s, system.exec initial readRun = some s ∧ s.given = [(4096, [65, 66])] ∧
      s.bytes 4096 = [65, 66] := by
  have hrun : (system.exec initial readRun).map (fun s => s.given) = some [(4096, [65, 66])] := by
    decide +kernel
  have hmeets : system.Meets (fun s a => ¬s.Exposed a) initial readRun := by decide +kernel
  obtain ⟨s, hs, hgiven⟩ := Option.map_eq_some_iff.mp hrun
  have himm := returned_bytes_immutable (.exec (.init initial_init) hmeets hs)
  exact ⟨s, hs, hgiven, himm.1 (4096, [65, 66]) (by rw [hgiven]; exact List.mem_cons_self)⟩

/-- The buffer of a read that has not been submitted is returned, then the kernel writes to it. -/
theorem returned_bytes_change :
    ∃ s, system.Reachable s ∧ ∃ x ∈ s.given, s.bytes x.1 ≠ x.2 := by
  have hrun : (system.exec initial [.newContext 0 context, .newRead 16 2 5 0 4096, .payload 16,
      .submit 0 [.operation 16], .kernel 0 .consume, .kernel 0 (.transfer 0 [65, 66])]).map
        (fun s => (s.given, s.bytes 4096)) = some ([(4096, [0, 0])], [65, 66]) := by
    decide +kernel
  obtain ⟨s, hs, hlog⟩ := Option.map_eq_some_iff.mp hrun
  obtain ⟨hgiven, hbytes⟩ := Prod.mk.inj hlog
  refine ⟨s, .exec (.init initial_init) hs, (4096, [0, 0]), ?_, ?_⟩
  · rw [hgiven]
    exact List.mem_cons_self
  · rw [hbytes]
    decide

end World

end Caio.Uring
