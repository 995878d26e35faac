import Mathlib.Data.List.Nodup
import Caio.Uring.World

namespace Caio.Uring

/-- The balance between the Operations and the requests `req c` of every Context. -/
structure Ownership (heap : Heap) (req : CtxId → List OpPtr) (userRefs : OpPtr → ℕ)
    (userCtxRefs : CtxId → ℕ) (deliveries : List (OpPtr × Int32)) : Prop where
  nodup : ∀ c, (req c).Nodup
  carries : ∀ p c, p ∈ req c ↔ (heap.ops p).inFlight = true ∧ (heap.ops p).context = some c
  context : ∀ p, (heap.ops p).context.isSome = (heap.ops p).inFlight
  claimed : ∀ p, (heap.ops p).done = true → (heap.ops p).inProgress = true
  refs : ∀ p, (heap.ops p).refcnt =
    userRefs p + (heap.ops p).inFlight.toNat + (deliveries.map Prod.fst).count p
  ctxRefs : ∀ c, heap.ctxRefs c = userCtxRefs c + (req c).length

/-- Two heaps that differ in reference counts, callbacks and buffers only. -/
structure Heap.SameFlags (h h' : Heap) : Prop where
  flags : ∀ p, (h'.ops p).inProgress = (h.ops p).inProgress ∧ (h'.ops p).done = (h.ops p).done ∧
    (h'.ops p).context = (h.ops p).context
  ctxRefs : h'.ctxRefs = h.ctxRefs

theorem Heap.SameFlags.inFlight {h h' : Heap} (hs : h.SameFlags h') (p : OpPtr) :
    (h'.ops p).inFlight = (h.ops p).inFlight := by
  simp only [AIOOperation.inFlight, (hs.flags p).1, (hs.flags p).2.1]

theorem Heap.SameFlags.modify (h : Heap) (p : OpPtr) (f : AIOOperation → AIOOperation)
    (hf : (f (h.ops p)).inProgress = (h.ops p).inProgress ∧ (f (h.ops p)).done = (h.ops p).done ∧
      (f (h.ops p)).context = (h.ops p).context) : h.SameFlags (h.modify p f) := by
  refine ⟨fun q => ?_, rfl⟩
  by_cases hq : q = p
  · subst hq
    rwa [modify_ops_self]
  · rw [modify_ops_ne _ _ hq]
    exact ⟨rfl, rfl, rfl⟩

theorem Heap.release_spec {h : Heap} {p : OpPtr}
    (hc : (h.ops p).refcnt = 1 → (h.ops p).context = none) :
    h.SameFlags (h.release p) ∧ ∀ q, ((h.release p).ops q).refcnt =
      if q = p then (h.ops p).refcnt - 1 else (h.ops q).refcnt := by
  have hdecref : h.SameFlags (h.decref p) := .modify h p _ ⟨rfl, rfl, rfl⟩
  have hcount : ∀ q, ((h.decref p).ops q).refcnt =
      if q = p then (h.ops p).refcnt - 1 else (h.ops q).refcnt := by
    intro q
    split_ifs with hq
    · subst hq
      rw [decref, modify_ops_self]
    · rw [decref, modify_ops_ne _ _ hq]
  unfold release
  split_ifs with hone
  · have hnone : ((h.decref p).ops p).context = none := by
      rw [decref, modify_ops_self]
      exact hc hone
    have hsame : (h.decref p).SameFlags ((h.decref p).dealloc p) := by
      rw [dealloc, hnone]
      exact .modify _ p _ ⟨rfl, rfl, hnone.symm⟩
    refine ⟨⟨fun q => ?_, hsame.ctxRefs.trans hdecref.ctxRefs⟩, fun q => ?_⟩
    · obtain ⟨h1, h2, h3⟩ := hsame.flags q
      obtain ⟨g1, g2, g3⟩ := hdecref.flags q
      exact ⟨h1.trans g1, h2.trans g2, h3.trans g3⟩
    · rw [← hcount q, dealloc, hnone]
      by_cases hq : q = p
      · subst hq
        rw [modify_ops_self]
        rfl
      · rw [modify_ops_ne _ _ hq]
        rfl
  · exact ⟨hdecref, hcount⟩

namespace Ownership

variable {heap heap' : Heap} {req req' : CtxId → List OpPtr} {userRefs userRefs' : OpPtr → ℕ}
  {userCtxRefs : CtxId → ℕ} {deliveries deliveries' : List (OpPtr × Int32)}

theorem not_inFlight_of_context (h : Ownership heap req userRefs userCtxRefs deliveries)
    {p : OpPtr} (hp : (heap.ops p).inFlight = false) : (heap.ops p).context = none := by
  have := h.context p
  rw [hp] at this
  exact Option.isSome_eq_false_iff.mp this |> Option.isNone_iff_eq_none.mp

theorem context_none (h : Ownership heap req userRefs userCtxRefs deliveries)
    {p : OpPtr} (hp : (heap.ops p).inProgress = false) : (heap.ops p).context = none :=
  h.not_inFlight_of_context (by simp [AIOOperation.inFlight, hp])

theorem done_false (h : Ownership heap req userRefs userCtxRefs deliveries)
    {p : OpPtr} (hp : (heap.ops p).inProgress = false) : (heap.ops p).done = false := by
  cases hb : (heap.ops p).done
  · rfl
  · rw [h.claimed p hb] at hp
    cases hp

theorem perm (h : Ownership heap req userRefs userCtxRefs deliveries)
    (hreq : ∀ c, (req' c).Perm (req c)) :
    Ownership heap req' userRefs userCtxRefs deliveries :=
  ⟨fun c => (hreq c).nodup_iff.mpr (h.nodup c), fun p c => ((hreq c).mem_iff).trans (h.carries p c),
    h.context, h.claimed, h.refs, fun c => by rw [h.ctxRefs, (hreq c).length_eq]⟩

theorem sameFlags (h : Ownership heap req userRefs userCtxRefs deliveries)
    (hsame : heap.SameFlags heap')
    (hrefs : ∀ p, (heap'.ops p).refcnt =
      userRefs' p + (heap.ops p).inFlight.toNat + (deliveries'.map Prod.fst).count p) :
    Ownership heap' req userRefs' userCtxRefs deliveries' := by
  refine ⟨h.nodup, fun p c => ?_, fun p => ?_, fun p => ?_, fun p => ?_, fun c => ?_⟩
  · rw [hsame.inFlight, (hsame.flags p).2.2]
    exact h.carries p c
  · rw [hsame.inFlight, (hsame.flags p).2.2]
    exact h.context p
  · rw [(hsame.flags p).1, (hsame.flags p).2.1]
    exact h.claimed p
  · rw [hsame.inFlight]
    exact hrefs p
  · rw [hsame.ctxRefs]
    exact h.ctxRefs c

theorem setCallback (h : Ownership heap req userRefs userCtxRefs deliveries) (p : OpPtr)
    (callback : Callback) :
    Ownership (heap.modify p fun op => op.setCallback callback) req userRefs userCtxRefs
      deliveries := by
  refine h.sameFlags (.modify heap p _ ⟨rfl, rfl, rfl⟩) fun q => ?_
  by_cases hq : q = p
  · subst hq
    rw [Heap.modify_ops_self]
    exact h.refs q
  · rw [Heap.modify_ops_ne _ _ hq]
    exact h.refs q

theorem incref (h : Ownership heap req userRefs userCtxRefs deliveries) (p : OpPtr) :
    Ownership (heap.incref p) req (Function.update userRefs p (userRefs p + 1)) userCtxRefs
      deliveries := by
  refine h.sameFlags (.modify heap p _ ⟨rfl, rfl, rfl⟩) fun q => ?_
  have := h.refs q
  by_cases hq : q = p
  · subst hq
    rw [Heap.incref, Heap.modify_ops_self, Function.update_self]
    show (heap.ops q).refcnt + 1 = _
    omega
  · rwa [Heap.incref, Heap.modify_ops_ne _ _ hq, Function.update_of_ne hq]

/-- The last reference never belongs to a request. -/
theorem context_of_last (h : Ownership heap req userRefs userCtxRefs deliveries) {p : OpPtr}
    (hp : 0 < userRefs p + (deliveries.map Prod.fst).count p) (hlast : (heap.ops p).refcnt = 1) :
    (heap.ops p).context = none := by
  apply h.not_inFlight_of_context
  have := h.refs p
  cases hb : (heap.ops p).inFlight
  · rfl
  · rw [hb, Bool.toNat_true] at this
    omega

theorem decref (h : Ownership heap req userRefs userCtxRefs deliveries) {p : OpPtr}
    (hp : 0 < userRefs p) :
    Ownership (heap.release p) req (Function.update userRefs p (userRefs p - 1)) userCtxRefs
      deliveries := by
  obtain ⟨hsame, hcount⟩ := Heap.release_spec (h.context_of_last (p := p) (by omega))
  refine h.sameFlags hsame fun q => ?_
  have := h.refs q
  rw [hcount q]
  by_cases hq : q = p
  · subst hq
    rw [if_pos rfl, Function.update_self]
    omega
  · rwa [if_neg hq, Function.update_of_ne hq]

theorem endTurn (h : Ownership heap req userRefs userCtxRefs deliveries) {x : OpPtr × Int32}
    (hx : x ∈ deliveries) :
    Ownership (heap.release x.1) req userRefs userCtxRefs (deliveries.erase x) := by
  have hcons := (List.perm_cons_erase hx).map Prod.fst
  have hcount : ∀ q, (deliveries.map Prod.fst).count q =
      ((deliveries.erase x).map Prod.fst).count q + if q = x.1 then 1 else 0 := by
    intro q
    rw [hcons.count_eq, List.map_cons, List.count_cons]
    by_cases hq : q = x.1
    · simp [hq]
    · simp [hq, Ne.symm hq]
  have hpos : 0 < userRefs x.1 + (deliveries.map Prod.fst).count x.1 := by
    rw [hcount, if_pos rfl]
    omega
  obtain ⟨hsame, hrel⟩ := Heap.release_spec (h.context_of_last hpos)
  refine h.sameFlags hsame fun q => ?_
  have := h.refs q
  have hq := hcount q
  rw [hrel q]
  split_ifs with heq
  · subst heq
    rw [if_pos rfl] at hq
    omega
  · rw [if_neg heq] at hq
    omega

theorem claim (h : Ownership heap req userRefs userCtxRefs deliveries) (self : CtxId) {p : OpPtr}
    (hp : (heap.ops p).inProgress = false) :
    Ownership (heap.claim self p) (Function.update req self (req self ++ [p])) userRefs
      userCtxRefs deliveries := by
  have hdone := h.done_false hp
  have hfly : ((heap.ops p).claimed self).inFlight = true := by
    simp [AIOOperation.claimed, AIOOperation.inFlight, hdone]
  have hnot : (heap.ops p).inFlight = false := by
    simp [AIOOperation.inFlight, hp]
  have hnew : ∀ c, p ∉ req c := by
    intro c hc
    rw [((h.carries p c).mp hc).1] at hnot
    cases hnot
  refine ⟨fun c => ?_, fun q c => ?_, fun q => ?_, fun q => ?_, fun q => ?_, fun c => ?_⟩
  · by_cases hc : c = self
    · subst hc
      rw [Function.update_self]
      exact List.Nodup.append (h.nodup c) (List.nodup_singleton p) (by simpa using hnew c)
    · rw [Function.update_of_ne hc]
      exact h.nodup c
  · by_cases hq : q = p
    · subst hq
      rw [claim_ops_self, hfly]
      by_cases hc : c = self
      · subst hc
        simp [AIOOperation.claimed]
      · simp [AIOOperation.claimed, Function.update_of_ne hc, hnew c, Ne.symm hc]
    · rw [claim_ops_ne _ _ hq, ← h.carries q c]
      by_cases hc : c = self
      · subst hc
        simp [hq]
      · rw [Function.update_of_ne hc]
  · by_cases hq : q = p
    · subst hq
      rw [claim_ops_self, hfly]
      rfl
    · rw [claim_ops_ne _ _ hq]
      exact h.context q
  · by_cases hq : q = p
    · subst hq
      rw [claim_ops_self]
      exact fun _ => rfl
    · rw [claim_ops_ne _ _ hq]
      exact h.claimed q
  · have := h.refs q
    by_cases hq : q = p
    · subst hq
      rw [claim_ops_self, hfly]
      rw [hnot] at this
      simp only [AIOOperation.claimed, Bool.toNat_true, Bool.toNat_false] at this ⊢
      omega
    · rwa [claim_ops_ne _ _ hq]
  · have hctx : (heap.claim self p).ctxRefs = (heap.increfCtx self).ctxRefs := by
      have hnone := h.context_none hp
      simp only [Heap.claim, Heap.take, Heap.setInProgress, Heap.incref, Heap.modify_ops_self,
        hnone]
      rfl
    rw [hctx]
    by_cases hc : c = self
    · subst hc
      simp only [Heap.increfCtx, Function.update_self, List.length_append, List.length_singleton]
      have := h.ctxRefs c
      omega
    · simp only [Heap.increfCtx, Function.update_of_ne hc]
      exact h.ctxRefs c

theorem claimAll (h : Ownership heap req userRefs userCtxRefs deliveries) (self : CtxId)
    {staged : List OpPtr} (hfresh : ∀ p ∈ staged, (heap.ops p).inProgress = false)
    (hnodup : staged.Nodup) :
    Ownership (heap.claimAll self staged) (Function.update req self (req self ++ staged)) userRefs
      userCtxRefs deliveries := by
  induction staged generalizing heap req with
  | nil =>
    rw [List.append_nil, Function.update_eq_self]
    exact h
  | cons p ps ih =>
    obtain ⟨hp, hps⟩ := List.nodup_cons.mp hnodup
    have hone := h.claim self (hfresh p List.mem_cons_self)
    have hrest := ih hone (fun q hq => by
      have hne : q ≠ p := fun heq => hp (heq ▸ hq)
      rw [claim_ops_ne _ _ hne]
      exact hfresh q (List.mem_cons_of_mem _ hq)) hps
    rw [Function.update_self, Function.update_idem, List.append_assoc] at hrest
    exact hrest

/-- A completion ends its request and leaves one turn of a callback loop to come. -/
theorem finalise (h : Ownership heap req userRefs userCtxRefs deliveries) {c : CtxId}
    {x : OpPtr × Int32} {rest : List OpPtr} (hreq : (req c).Perm (x.1 :: rest)) :
    Ownership (heap.finalise x.1 x.2) (Function.update req c rest) userRefs userCtxRefs
      (deliveries ++ [x]) := by
  obtain ⟨hfly, hctx⟩ := (h.carries x.1 c).mp (hreq.mem_iff.mpr List.mem_cons_self)
  obtain ⟨hx, hrest⟩ := List.nodup_cons.mp (hreq.nodup_iff.mp (h.nodup c))
  have hlanded : ((heap.ops x.1).complete x.2).inFlight = false := by
    simp [AIOOperation.inFlight, AIOOperation.complete]
  refine ⟨fun d => ?_, fun q d => ?_, fun q => ?_, fun q => ?_, fun q => ?_, fun d => ?_⟩
  · by_cases hd : d = c
    · subst hd
      rwa [Function.update_self]
    · rw [Function.update_of_ne hd]
      exact h.nodup d
  · by_cases hq : q = x.1
    · subst hq
      rw [finalise_ops_self, hlanded]
      by_cases hd : d = c
      · subst hd
        simp [hx]
      · have hother : x.1 ∉ req d := by
          intro hmem
          have := ((h.carries x.1 d).mp hmem).2
          rw [hctx, Option.some.injEq] at this
          exact hd this.symm
        simp [Function.update_of_ne hd, hother]
    · rw [finalise_ops_ne _ _ hq, ← h.carries q d]
      by_cases hd : d = c
      · subst hd
        rw [Function.update_self, hreq.mem_iff, List.mem_cons]
        simp [hq]
      · rw [Function.update_of_ne hd]
  · by_cases hq : q = x.1
    · subst hq
      rw [finalise_ops_self, hlanded]
      rfl
    · rw [finalise_ops_ne _ _ hq]
      exact h.context q
  · by_cases hq : q = x.1
    · subst hq
      rw [finalise_ops_self]
      exact fun _ => (Bool.and_eq_true_iff.mp hfly).1
    · rw [finalise_ops_ne _ _ hq]
      exact h.claimed q
  · have := h.refs q
    rw [List.map_append, List.count_append, List.map_singleton, List.count_singleton]
    by_cases hq : q = x.1
    · subst hq
      rw [finalise_ops_self, hlanded, if_pos (beq_self_eq_true _), Bool.toNat_false]
      rw [hfly, Bool.toNat_true] at this
      show (heap.ops x.1).refcnt = _
      omega
    · rw [finalise_ops_ne _ _ hq, if_neg (by simpa using Ne.symm hq)]
      exact this
  · have hheap : (heap.finalise x.1 x.2).ctxRefs = (heap.xdecrefCtx (some c)).ctxRefs := by
      rw [Heap.finalise, hctx]
      rfl
    have hlen := hreq.length_eq
    have := h.ctxRefs d
    rw [hheap]
    by_cases hd : d = c
    · subst hd
      simp only [Heap.xdecrefCtx, Function.update_self, List.length_cons] at hlen ⊢
      omega
    · simp only [Heap.xdecrefCtx, Function.update_of_ne hd]
      exact this

theorem finaliseAll (h : Ownership heap req userRefs userCtxRefs deliveries) {c : CtxId}
    {batch : List (OpPtr × Int32)} {rest : List OpPtr}
    (hreq : (req c).Perm (batch.map Prod.fst ++ rest)) :
    Ownership (heap.finaliseAll batch) (Function.update req c rest) userRefs userCtxRefs
      (deliveries ++ batch) := by
  induction batch generalizing heap req deliveries with
  | nil =>
    rw [List.append_nil]
    refine h.perm fun d => ?_
    by_cases hd : d = c
    · subst hd
      rw [Function.update_self]
      exact hreq.symm
    · rw [Function.update_of_ne hd]
  | cons x xs ih =>
    have hone := h.finalise (x := x) hreq
    have hrest := ih hone (by rw [Function.update_self]; exact .refl _)
    rwa [Function.update_idem, List.append_assoc] at hrest

theorem newOp (h : Ownership heap req userRefs userCtxRefs deliveries) {p : OpPtr}
    {op : AIOOperation} (hp : (heap.ops p).refcnt = 0) (hop : op.inProgress = false)
    (hdone : op.done = false) (hctx : op.context = none) (href : op.refcnt = 1) :
    Ownership (heap.modify p fun _ => op) req
      (Function.update userRefs p 1) userCtxRefs deliveries := by
  have hrefs := h.refs p
  have hnot : (heap.ops p).inFlight = false := by
    cases hb : (heap.ops p).inFlight
    · rfl
    · rw [hb, Bool.toNat_true] at hrefs
      omega
  have hnew : op.inFlight = false := by
    simp [AIOOperation.inFlight, hop]
  refine ⟨h.nodup, fun q c => ?_, fun q => ?_, fun q => ?_, fun q => ?_, h.ctxRefs⟩ <;>
    by_cases hq : q = p
  · subst hq
    rw [h.carries, hnot, Heap.modify_ops_self, hnew]
    simp
  · rw [Heap.modify_ops_ne _ _ hq]
    exact h.carries q c
  · subst hq
    rw [Heap.modify_ops_self, hnew, hctx]
    rfl
  · rw [Heap.modify_ops_ne _ _ hq]
    exact h.context q
  · subst hq
    rw [Heap.modify_ops_self, hdone]
    exact fun hd => nomatch hd
  · rw [Heap.modify_ops_ne _ _ hq]
    exact h.claimed q
  · subst hq
    rw [Heap.modify_ops_self, Function.update_self, hnew, href, Bool.toNat_false]
    omega
  · rw [Heap.modify_ops_ne _ _ hq, Function.update_of_ne hq]
    exact h.refs q

theorem ctxs (h : Ownership heap req userRefs userCtxRefs deliveries) {c : CtxId}
    {ctxRefs userCtxRefs' : ℕ} (hc : ctxRefs = userCtxRefs' + (req c).length) :
    Ownership { heap with ctxRefs := Function.update heap.ctxRefs c ctxRefs } req userRefs
      (Function.update userCtxRefs c userCtxRefs') deliveries := by
  refine ⟨h.nodup, h.carries, h.context, h.claimed, h.refs, fun d => ?_⟩
  show Function.update heap.ctxRefs c ctxRefs d = _
  by_cases hd : d = c
  · subst hd
    rwa [Function.update_self, Function.update_self]
  · rw [Function.update_of_ne hd, Function.update_of_ne hd]
    exact h.ctxRefs d

end Ownership

end Caio.Uring
