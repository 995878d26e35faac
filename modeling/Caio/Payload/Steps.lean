import Caio.Payload.Counts

namespace Caio.Payload

open Counting ObjectGraph

theorem count_some (f x : ObjId) : (some f).toList.count x = if x = f then 1 else 0 := by
  rw [Option.toList_some, List.count_singleton]
  by_cases hx : x = f
  · rw [if_pos hx, hx, if_pos (beq_self_eq_true f)]
  · rw [if_neg hx, if_neg fun heq => hx (beq_iff_eq.mp heq).symm]

theorem mem_traverse {op : Operation} {x : ObjId} : x ∈ (Obj.operation op).traverse ↔
    op.callback = some x ∨ op.pyBuffer = some x ∨ op.ctx = some x := by
  show x ∈ op.callback.toList ++ op.pyBuffer.toList ++ op.ctx.toList ↔ _
  rw [List.mem_append, List.mem_append, Option.mem_toList, Option.mem_toList, Option.mem_toList,
    or_assoc]

theorem refs_operation (op : Operation) (p x : ObjId) : (Obj.operation op).refs p x =
    op.callback.toList.count x + op.pyBuffer.toList.count x + op.ctx.toList.count x +
      op.workerCtx.toList.count x + if x = p then op.inFlight.toNat else 0 := by
  show (op.callback.toList ++ op.pyBuffer.toList ++ op.ctx.toList).count x + _ + _ = _
  rw [List.count_append, List.count_append]
  rfl

namespace State

variable {b : Backend} {s t : State} {p x y f k : ObjId} {o : Obj} {op : Operation}

theorem xdecref_eq (s : State) (o : Option ObjId) :
    s.xdecref o = { s with refcnt := fun x => s.refcnt x - o.toList.count x } := by
  cases o with
  | none => rfl
  | some k =>
    have hdrop : drop s.refcnt k = fun x => s.refcnt x - (some k).toList.count x := by
      funext x
      rw [drop_apply, count_some]
    rw [← hdrop]
    rfl

theorem Keeps.refl (s : State) : Keeps s s :=
  ⟨fun _ hx => .inl hx, fun _ op hp hfreed => ⟨op, hp, hfreed⟩, fun _ _ hv => .inl hv⟩

theorem Inv.acquire (h : Inv s) (hx : s.Reachable x) :
    Inv (s.acquire x) ∧ Keeps s (s.acquire x) := by
  have ho := List.getElem?_eq_getElem (h.lt_length hx)
  apply h.setCounts ho
  · intro y
    rw [bump_apply, bump_apply]
    omega
  · intro y hy
    rw [bump_apply] at hy
    by_cases hyx : y = x
    · rw [hyx]
      exact hx
    · rw [if_neg hyx] at hy
      exact reachable_of_users hy

theorem Inv.release (h : Inv s) (hx : 0 < s.users x) :
    Inv (s.release x) ∧ Keeps s (s.release x) := by
  have ho := List.getElem?_eq_getElem (h.lt_length (reachable_of_users hx))
  apply h.setCounts ho
  · intro y
    have hle := h.refs_le ho x
    rw [drop_apply, drop_apply]
    split_ifs with hyx
    · rw [hyx]
      omega
    · rfl
  · intro y hy
    rw [drop_apply] at hy
    exact reachable_of_users (Nat.lt_of_lt_of_le hy (Nat.sub_le ..))

theorem Inv.new (h : Inv s) (ho : o = .other [] ∨ o = .context) :
    Inv (s.new o) ∧ Keeps s (s.new o) := by
  have hempty : o.traverse = [] ∧ o.workerRefs = [] ∧ o.isInFlight = false ∧
      (∀ op, o ≠ .operation op) ∧ ∀ q, o ≠ .memoryview q := by
    rcases ho with rfl | rfl
    · exact ⟨rfl, rfl, rfl, (fun op heq => by cases heq), fun q heq => by cases heq⟩
    · exact ⟨rfl, rfl, rfl, (fun op heq => by cases heq), fun q heq => by cases heq⟩
  obtain ⟨htraverse, hworker, hflight, hop, hview⟩ := hempty
  apply h.append [o]
  · intro x
    have hzero : inEdges Obj.traverse [o] x = 0 := by
      apply inEdges_eq_zero
      intro o' ho' hx
      rw [List.mem_singleton.mp ho', htraverse] at hx
      cases hx
    show bump s.refcnt s.objs.length x + _ = _ + bump s.users s.objs.length x + _
    rw [bump_apply, bump_apply, hzero]
    omega
  · intro o' ho'
    rw [List.mem_singleton.mp ho']
    exact ⟨hworker, hflight⟩
  · intro o' ho' x hx
    rw [List.mem_singleton.mp ho', htraverse] at hx
    cases hx
  · intro x hx
    change 0 < bump s.users s.objs.length x at hx
    rw [bump_apply] at hx
    by_cases hxn : x = s.objs.length
    · exact .inr (Nat.le_of_eq hxn.symm)
    · rw [if_neg hxn] at hx
      exact .inl (reachable_of_users hx)
  · intro x hx
    change 0 < bump s.refcnt s.objs.length x at hx
    show x < s.objs.length + 1
    rw [bump_apply] at hx
    by_cases hxn : x = s.objs.length
    · rw [hxn]
      exact Nat.lt_succ_self _
    · rw [if_neg hxn] at hx
      exact Nat.lt_succ_of_lt (h.bound x hx)
  · exact fun op hmem => absurd (List.mem_singleton.mp hmem).symm (hop op)
  · exact fun q hmem => absurd (List.mem_singleton.mp hmem).symm (hview q)

theorem Inv.read (h : Inv s) (hs : s.step b .read = some t) : Inv t ∧ Keeps s t := by
  cases hs
  apply h.append [.operation { pyBuffer := some (s.objs.length + 1) }, .memoryview s.objs.length]
  · intro x
    have hedges : inEdges Obj.traverse
        [.operation { pyBuffer := some (s.objs.length + 1) }, .memoryview s.objs.length] x =
        (some (s.objs.length + 1)).toList.count x := rfl
    show bump (bump s.refcnt s.objs.length) (s.objs.length + 1) x + s.users x =
      s.refcnt x + bump s.users s.objs.length x + _
    rw [hedges, count_some, bump_apply, bump_apply, bump_apply]
    omega
  · intro o ho
    rcases List.mem_cons.mp ho with rfl | ho
    · exact ⟨rfl, rfl⟩
    · rw [List.mem_singleton.mp ho]
      exact ⟨rfl, rfl⟩
  · intro o ho x hx
    rcases List.mem_cons.mp ho with rfl | ho
    · rw [List.mem_singleton.mp hx]
      exact Nat.le_succ _
    · rw [List.mem_singleton.mp ho] at hx
      cases hx
  · intro x hx
    change 0 < bump s.users s.objs.length x at hx
    rw [bump_apply] at hx
    by_cases hxn : x = s.objs.length
    · exact .inr (Nat.le_of_eq hxn.symm)
    · rw [if_neg hxn] at hx
      exact .inl (reachable_of_users hx)
  · intro x hx
    change 0 < bump (bump s.refcnt s.objs.length) (s.objs.length + 1) x at hx
    show x < s.objs.length + 2
    rw [bump_apply, bump_apply] at hx
    by_cases hold : 0 < s.refcnt x
    · exact Nat.lt_add_right _ (h.bound x hold)
    · split_ifs at hx with h1 h2 h2
      · rw [h1]
        exact Nat.lt_add_of_pos_right (by decide)
      · rw [h1]
        exact Nat.lt_add_of_pos_right (by decide)
      · rw [h2]
        exact Nat.lt_succ_self _
      · exact absurd hx hold
  · intro op hmem
    rcases List.mem_cons.mp hmem with heq | hmem
    · cases heq
      exact ⟨rfl, rfl, rfl⟩
    · cases List.mem_singleton.mp hmem
  · intro q hmem
    rcases List.mem_cons.mp hmem with heq | hmem
    · cases heq
    · cases List.mem_singleton.mp hmem
      refine ⟨{ pyBuffer := some (s.objs.length + 1) }, ?_, rfl⟩
      rw [List.getElem?_append_right (Nat.le_refl _), Nat.sub_self]
      rfl

theorem onOperation_eq_some {f : Operation → Option State} (h : s.onOperation p f = some t) :
    ∃ op, s.objs[p]? = some (.operation op) ∧ f op = some t := by
  unfold onOperation at h
  split at h
  case h_1 op hp => exact ⟨op, hp, h⟩
  case h_2 => cases h

theorem onOther_eq_some {f : List ObjId → Option State} (h : s.onOther y f = some t) :
    ∃ refs, s.objs[y]? = some (.other refs) ∧ f refs = some t := by
  unfold onOther at h
  split at h
  case h_1 refs hy => exact ⟨refs, hy, h⟩
  case h_2 => cases h

theorem Inv.store (h : Inv s) (hs : s.step b (.store y x) = some t) : Inv t ∧ Keeps s t := by
  obtain ⟨refs, hy, hs⟩ := onOther_eq_some hs
  obtain ⟨⟨-, hx⟩, hs⟩ := Option.ite_none_right_eq_some.mp hs
  cases hs
  apply h.setOther hy
  · intro z
    show bump s.refcnt x z + _ = _
    rw [bump_apply, List.count_cons]
    by_cases hz : z = x
    · rw [if_pos hz, hz, if_pos (beq_self_eq_true x)]
      omega
    · rw [if_neg hz, if_neg fun heq => hz (beq_iff_eq.mp heq).symm]
      rfl
  · intro z hz
    rcases List.mem_cons.mp hz with rfl | hz
    · exact .inr (reachable_of_users hx)
    · exact .inl hz

theorem Inv.delete (h : Inv s) (hs : s.step b (.delete y x) = some t) : Inv t ∧ Keeps s t := by
  obtain ⟨refs, hy, hs⟩ := onOther_eq_some hs
  obtain ⟨⟨-, hx⟩, hs⟩ := Option.ite_none_right_eq_some.mp hs
  cases hs
  apply h.setOther hy
  · intro z
    have hle := h.refs_le hy z
    have hcount : refs.count z ≤ (Obj.other refs).refs y z := by
      show _ ≤ refs.count z + _ + _
      omega
    show drop s.refcnt x z + _ = _
    rw [drop_apply, List.count_erase]
    by_cases hz : z = x
    · have hpos := List.count_pos_iff.mpr hx
      rw [if_pos hz, hz, if_pos (beq_self_eq_true x)]
      rw [hz] at hle hcount
      omega
    · rw [if_neg hz, if_neg fun heq => hz (beq_iff_eq.mp heq).symm]
      rfl
  · exact fun z hz => .inl (List.mem_of_mem_erase hz)

theorem Inv.setCallback (h : Inv s) (hs : s.step b (.setCallback p f) = some t) :
    Inv t ∧ Keeps s t := by
  obtain ⟨op, hp, hs⟩ := onOperation_eq_some hs
  obtain ⟨⟨-, hf⟩, hs⟩ := Option.ite_none_right_eq_some.mp hs
  cases hs
  rw [xdecref_eq]
  apply h.setOperation hp { op with callback := some f }
  · intro x
    have hle := h.refs_le hp x
    rw [refs_operation] at hle
    rw [refs_operation, refs_operation, count_some]
    show bump s.refcnt f x - op.callback.toList.count x + s.users x + _ =
      s.refcnt x + s.users x + _
    rw [bump_apply]
    dsimp only
    omega
  · exact fun x hx => reachable_of_users hx
  · intro x hx
    rcases mem_traverse.mp hx with hx | hx
    · cases hx
      exact .inr (reachable_of_users hf)
    · exact .inl (mem_traverse.mpr (.inr hx))
  · exact fun x hx => .inl hx
  · exact .inl
  · exact h.fresh p op hp
  · rfl

theorem Inv.payload (h : Inv s) (hs : s.step b (.payload p) = some t) : Inv t ∧ Keeps s t := by
  obtain ⟨op, hp, hs⟩ := onOperation_eq_some hs
  obtain ⟨hx, hs⟩ := Option.ite_none_right_eq_some.mp hs
  split at hs
  · cases hs
    exact ⟨h, .refl s⟩
  · split at hs
    case h_1 =>
      cases hs
      exact ⟨h, .refl s⟩
    case h_2 v hv =>
      cases hs
      exact h.acquire (.edge (reachable_of_users hx) hp (mem_traverse.mpr (.inr (.inl hv))))

theorem Inv.submit (h : Inv s) (hs : s.step b (.submit k p) = some t) : Inv t ∧ Keeps s t := by
  obtain ⟨op, hp, hs⟩ := onOperation_eq_some hs
  obtain ⟨⟨hx, hk, -, hfree⟩, hs⟩ := Option.ite_none_right_eq_some.mp hs
  obtain ⟨hctx, hflight⟩ := h.fresh p op hp hfree
  have ht : t = ((s.setObj p (.operation
      { op with inProgress := true, ctx := some k, inFlight := true })).incref k).incref p := by
    rw [hctx] at hs
    cases b with
    | threadAio => exact (Option.some.inj hs).symm
    | linuxAio => exact (Option.some.inj hs).symm
  subst ht
  apply h.setOperation hp { op with inProgress := true, ctx := some k, inFlight := true }
  · intro x
    rw [refs_operation, refs_operation, count_some, hctx, hflight]
    show bump (bump s.refcnt k) p x + s.users x + _ = s.refcnt x + s.users x + _
    rw [bump_apply, bump_apply]
    simp only [Option.toList_none, List.count_nil, Bool.toNat_false, Bool.toNat_true, ite_self]
    omega
  · exact fun x hx => reachable_of_users hx
  · intro x hx
    rcases mem_traverse.mp hx with hx | hx | hx
    · exact .inl (mem_traverse.mpr (.inl hx))
    · exact .inl (mem_traverse.mpr (.inr (.inl hx)))
    · cases hx
      exact .inr (reachable_of_users hk)
  · exact fun x hx => .inl hx
  · exact fun _ => .inr (reachable_of_users hx)
  · exact fun heq => by cases heq
  · rfl

/-- A step for an Operation in flight that gives up references of the kernel or the worker. -/
theorem Inv.advance (h : Inv s) (hp : s.objs[p]? = some (.operation op)) (op' : Operation)
    (hflight : op.inFlight = true) {refcnt : ObjId → ℕ}
    (hcounts : ∀ x, refcnt x + (Obj.operation op).refs p x =
      s.refcnt x + (Obj.operation op').refs p x)
    (hedges : ∀ x ∈ (Obj.operation op').traverse, x ∈ (Obj.operation op).traverse)
    (hworker : ∀ x, op'.workerCtx = some x → op.workerCtx = some x ∨ op.ctx = some x)
    (hprogress : op'.inProgress = op.inProgress) (hfreed : op'.freed = op.freed) :
    Inv { s with objs := s.objs.set p (.operation op'), refcnt } ∧
      Keeps s { s with objs := s.objs.set p (.operation op'), refcnt } := by
  have hreach : s.Reachable p := reachable_of_inFlight hp hflight
  apply h.setOperation hp op'
  · intro x
    have := hcounts x
    omega
  · exact fun x hx => reachable_of_users hx
  · exact fun x hx => .inl (hedges x hx)
  · exact fun x hx => (hworker x hx).imp_right fun hctx =>
      .edge hreach hp (mem_traverse.mpr (.inr (.inr hctx)))
  · exact fun _ => .inl hflight
  · intro hfree
    have := (h.fresh p op hp (hprogress ▸ hfree)).2
    rw [hflight] at this
    cases this
  · exact hfreed

theorem Inv.take (h : Inv s) (hs : s.step b (.take p) = some t) : Inv t ∧ Keeps s t := by
  obtain ⟨op, hp, hs⟩ := onOperation_eq_some hs
  obtain ⟨⟨-, hflight, -, hworker⟩, hs⟩ := Option.ite_none_right_eq_some.mp hs
  cases hs
  apply h.advance hp { op with ctx := none, workerCtx := op.ctx } hflight
  · intro x
    rw [refs_operation, refs_operation, hworker]
    simp only [Option.toList_none, List.count_nil]
    omega
  · intro x hx
    rcases mem_traverse.mp hx with hx | hx | hx
    · exact mem_traverse.mpr (.inl hx)
    · exact mem_traverse.mpr (.inr (.inl hx))
    · cases hx
  · exact fun x hx => .inr hx
  · rfl
  · rfl

theorem Inv.complete (h : Inv s) (hs : s.step b (.complete p) = some t) : Inv t ∧ Keeps s t := by
  obtain ⟨op, hp, hs⟩ := onOperation_eq_some hs
  obtain ⟨⟨hflight, -⟩, hs⟩ := Option.ite_none_right_eq_some.mp hs
  cases b with
  | threadAio =>
    obtain ⟨-, hs⟩ := Option.ite_none_left_eq_some.mp hs
    cases hs
    apply h.advance hp { op with done := true } hflight
    · exact fun x => rfl
    · exact fun x hx => hx
    · exact fun x hx => .inl hx
    · rfl
    · rfl
  | linuxAio =>
    cases hs
    rw [xdecref_eq]
    apply h.advance hp { op with ctx := none, done := true } hflight
    · intro x
      have hle := h.refs_le hp x
      rw [refs_operation] at hle
      rw [refs_operation, refs_operation]
      show s.refcnt x - op.ctx.toList.count x + _ = _
      simp only [Option.toList_none, List.count_nil]
      omega
    · intro x hx
      rcases mem_traverse.mp hx with hx | hx | hx
      · exact mem_traverse.mpr (.inl hx)
      · exact mem_traverse.mpr (.inr (.inl hx))
      · cases hx
    · exact fun x hx => .inl hx
    · rfl
    · rfl

theorem Inv.callback (h : Inv s) (hs : s.step b (.callback p) = some t) : Inv t ∧ Keeps s t := by
  obtain ⟨op, hp, hs⟩ := onOperation_eq_some hs
  obtain ⟨⟨hflight, -⟩, hs⟩ := Option.ite_none_right_eq_some.mp hs
  obtain ⟨f, hf, rfl⟩ := Option.map_eq_some_iff.mp hs
  exact h.acquire (.edge (reachable_of_inFlight hp hflight) hp (mem_traverse.mpr (.inl hf)))

theorem Inv.releaseCtx (h : Inv s) (hs : s.step b (.releaseCtx p) = some t) :
    Inv t ∧ Keeps s t := by
  obtain ⟨op, hp, hs⟩ := onOperation_eq_some hs
  obtain ⟨⟨hflight, -⟩, hs⟩ := Option.ite_none_right_eq_some.mp hs
  obtain ⟨k, hk, rfl⟩ := Option.map_eq_some_iff.mp hs
  apply h.advance hp { op with workerCtx := none } hflight
  · intro x
    have hle := h.refs_le hp x
    rw [refs_operation, hk, count_some] at hle
    rw [refs_operation, refs_operation, hk, count_some]
    show drop s.refcnt k x + _ = _
    rw [drop_apply]
    simp only [Option.toList_none, List.count_nil]
    omega
  · exact fun x hx => hx
  · exact fun x hx => by cases hx
  · rfl
  · rfl

theorem Inv.releaseOp (h : Inv s) (hs : s.step b (.releaseOp p) = some t) : Inv t ∧ Keeps s t := by
  obtain ⟨op, hp, hs⟩ := onOperation_eq_some hs
  obtain ⟨⟨hflight, -⟩, hs⟩ := Option.ite_none_right_eq_some.mp hs
  cases hs
  apply h.advance hp { op with inFlight := false } hflight
  · intro x
    have hle := h.refs_le hp x
    rw [refs_operation, hflight] at hle
    rw [refs_operation, refs_operation, hflight]
    show drop s.refcnt p x + _ = _
    rw [drop_apply]
    simp only [Bool.toNat_false, Bool.toNat_true, ite_self] at hle ⊢
    omega
  · exact fun x hx => hx
  · exact fun x hx => .inl hx
  · rfl
  · rfl

end State

end Caio.Payload
