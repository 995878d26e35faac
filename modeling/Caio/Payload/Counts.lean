import Caio.Lib.Table
import Caio.Payload.Objects

namespace Caio.Payload

open Counting ObjectGraph

/-- The references to `x` that object `p` accounts for. -/
def Obj.refs (o : Obj) (p x : ObjId) : ℕ :=
  o.traverse.count x + o.workerRefs.count x + if x = p then o.isInFlight.toNat else 0

namespace State

variable {b : Backend} {s t : State} {p q x y v : ObjId} {o o' : Obj} {op op' : Operation}

structure Inv (s : State) : Prop where
  counts : ∀ x, s.refcnt x = s.external x + inEdges Obj.traverse s.objs x
  bound : ∀ x, 0 < s.refcnt x → x < s.objs.length
  viewed : ∀ (v p : ObjId), s.objs[v]? = some (.memoryview p) →
    ∃ op, s.objs[p]? = some (.operation op)
  freed : ∀ (p : ObjId) (op : Operation), s.objs[p]? = some (.operation op) → op.freed = true →
    ¬ s.Reachable p
  fresh : ∀ (p : ObjId) (op : Operation), s.objs[p]? = some (.operation op) →
    op.inProgress = false → op.ctx = none ∧ op.inFlight = false

theorem Init.inv (h : Init s) : Inv s := by
  have hnone : ∀ (p : ObjId) (o : Obj), s.objs[p]? ≠ some o := fun p o ho => by
    rw [h.objs] at ho
    cases ho
  refine ⟨fun x => ?_, fun x hx => ?_, fun v p hv => absurd hv (hnone v _),
    fun p op hp => absurd hp (hnone p _), fun p op hp => absurd hp (hnone p _)⟩
  · rw [external, h.objs, h.refcnt, h.users]
    rfl
  · rw [h.refcnt] at hx
    exact absurd hx (Nat.lt_irrefl 0)

theorem reachable_of_users (h : 0 < s.users x) : s.Reachable x := by
  apply Reach.root
  show 0 < s.users x + _ + _
  omega

theorem reachable_of_inFlight (hp : s.objs[p]? = some o) (h : o.isInFlight = true) :
    s.Reachable p := by
  apply Reach.root
  show 0 < s.users p + (s.objs[p]?.any Obj.isInFlight).toNat + _
  rw [hp, Option.any_some, h, Bool.toNat_true]
  omega

theorem reachable_of_workerRefs (hp : s.objs[p]? = some o) (h : x ∈ o.workerRefs) :
    s.Reachable x := by
  apply Reach.root
  have := inEdges_pos hp h
  show 0 < s.users x + _ + inEdges Obj.workerRefs s.objs x
  omega

theorem Inv.refcnt_pos (h : Inv s) (hx : s.Reachable x) : 0 < s.refcnt x := by
  rw [h.counts]
  cases hx with
  | root hx => exact Nat.lt_of_lt_of_le hx (Nat.le_add_right ..)
  | edge _ ho hmem => exact Nat.lt_of_lt_of_le (inEdges_pos ho hmem) (Nat.le_add_left ..)

theorem Inv.lt_length (h : Inv s) (hx : s.Reachable x) : x < s.objs.length :=
  h.bound x (h.refcnt_pos hx)

theorem inFlight_set (hp : s.objs[p]? = some o) (o' : Obj) (x : ObjId) :
    ((s.objs.set p o')[x]?.any Obj.isInFlight).toNat + (if x = p then o.isInFlight.toNat else 0) =
      (s.objs[x]?.any Obj.isInFlight).toNat + if x = p then o'.isInFlight.toNat else 0 := by
  by_cases hx : x = p
  · rw [hx, Table.getElem?_set_self hp, hp, if_pos rfl, if_pos rfl]
    exact Nat.add_comm ..
  · rw [List.getElem?_set_ne (Ne.symm hx), if_neg hx, if_neg hx]

theorem Inv.refs_le (h : Inv s) (hp : s.objs[p]? = some o) (x : ObjId) :
    s.users x + o.refs p x ≤ s.refcnt x := by
  have hedges := count_le_inEdges Obj.traverse hp x
  have hworker := count_le_inEdges Obj.workerRefs hp x
  have hflight : (if x = p then o.isInFlight.toNat else 0) ≤
      (s.objs[x]?.any Obj.isInFlight).toNat := by
    by_cases hx : x = p
    · rw [if_pos hx, hx, hp]
      exact Nat.le_refl _
    · rw [if_neg hx]
      exact Nat.zero_le _
  rw [h.counts, external, Obj.refs]
  omega

/-- What a step that frees no buffer leaves. -/
structure Keeps (s t : State) : Prop where
  reach : ∀ x, t.Reachable x → s.Reachable x ∨ s.objs.length ≤ x
  operation : ∀ (p : ObjId) (op' : Operation), t.objs[p]? = some (.operation op') →
    op'.freed = true → ∃ op, s.objs[p]? = some (.operation op) ∧ op.freed = true
  memoryview : ∀ (v p : ObjId), t.objs[v]? = some (.memoryview p) →
    s.objs[v]? = some (.memoryview p) ∨ ∃ op, t.objs[p]? = some (.operation op) ∧ op.freed = false

theorem Inv.set (h : Inv s) (hp : s.objs[p]? = some o) (o' : Obj) {refcnt users : ObjId → ℕ}
    (hcounts : ∀ x, refcnt x + s.users x + o.refs p x = s.refcnt x + users x + o'.refs p x)
    (husers : ∀ x, 0 < users x → s.Reachable x)
    (hedges : ∀ x ∈ o'.traverse, x ∈ o.traverse ∨ s.Reachable x)
    (hworker : ∀ x ∈ o'.workerRefs, x ∈ o.workerRefs ∨ s.Reachable x)
    (hflight : o'.isInFlight = true → o.isInFlight = true ∨ s.Reachable p)
    (hop : ∀ op', o' = .operation op' →
      (op'.inProgress = false → op'.ctx = none ∧ op'.inFlight = false) ∧
      ∃ op, o = .operation op ∧ (op'.freed = true → op.freed = true ∨ ¬ s.Reachable p))
    (hop' : ∀ op, o = .operation op → ∃ op', o' = .operation op')
    (hview : ∀ q, o' = .memoryview q → o = .memoryview q) :
    Inv { objs := s.objs.set p o', refcnt, users } ∧
      ∀ x, Reachable { objs := s.objs.set p o', refcnt, users } x → s.Reachable x := by
  have hcases : ∀ {x : ObjId} {o'' : Obj}, (s.objs.set p o')[x]? = some o'' →
      x = p ∧ o'' = o' ∨ x ≠ p ∧ s.objs[x]? = some o'' := Table.getElem?_set_cases
  have hworker' : ∀ x ∈ o'.workerRefs, s.Reachable x := fun x hx =>
    (hworker x hx).elim (reachable_of_workerRefs hp) id
  have hflight' : o'.isInFlight = true → s.Reachable p := fun hf =>
    (hflight hf).elim (reachable_of_inFlight hp) id
  have hreach : ∀ x, Reachable { objs := s.objs.set p o', refcnt, users } x → s.Reachable x := by
    intro x hx
    apply Reach.mono (P := s.Reachable) _ _ hx
    · intro x hx
      change 0 < users x + ((s.objs.set p o')[x]?.any Obj.isInFlight).toNat +
        inEdges Obj.workerRefs (s.objs.set p o') x at hx
      by_cases hu : 0 < users x
      · exact husers x hu
      · by_cases hw : x ∈ o'.workerRefs
        · exact hworker' x hw
        · by_cases hf : x = p ∧ o'.isInFlight = true
          · rw [hf.1]
            exact hflight' hf.2
          · -- the rest was there before
            have hset := inEdges_set Obj.workerRefs hp o' x
            have hold := inFlight_set hp o' x
            rw [List.count_eq_zero.mpr hw] at hset
            have hzero : (if x = p then o'.isInFlight.toNat else 0) = 0 := by
              by_cases hxp : x = p
              · have hno : o'.isInFlight = false := Bool.not_eq_true _ ▸ fun hyes => hf ⟨hxp, hyes⟩
                rw [if_pos hxp, hno]
                rfl
              · exact if_neg hxp
            rw [hzero] at hold
            apply Reach.root
            show 0 < s.users x + (s.objs[x]?.any Obj.isInFlight).toNat +
              inEdges Obj.workerRefs s.objs x
            omega
    · intro y x o'' hy ho hmem
      rcases hcases ho with ⟨rfl, rfl⟩ | ⟨-, ho⟩
      · rcases hedges x hmem with hold | hnew
        · exact .edge hy hp hold
        · exact hnew
      · exact .edge hy ho hmem
  refine ⟨⟨fun x => ?_, fun x hx => ?_, fun v q hv => ?_, fun q op hq hfreed => ?_,
    fun q op hq => ?_⟩, hreach⟩
  · have hset := inEdges_set Obj.traverse hp o' x
    have hset' := inEdges_set Obj.workerRefs hp o' x
    have hflight' := inFlight_set hp o' x
    have hdiff := hcounts x
    have hold := h.counts x
    rw [external] at hold
    rw [Obj.refs, Obj.refs] at hdiff
    show refcnt x = users x + ((s.objs.set p o')[x]?.any Obj.isInFlight).toNat +
      inEdges Obj.workerRefs (s.objs.set p o') x + inEdges Obj.traverse (s.objs.set p o') x
    omega
  · show x < (s.objs.set p o').length
    rw [List.length_set]
    change 0 < refcnt x at hx
    by_cases hold : 0 < s.refcnt x
    · exact h.bound x hold
    · have hle := h.refs_le hp x
      have hdiff := hcounts x
      -- an object that had no reference gets its first one here, from something within reach
      have hpos : 0 < users x + o'.refs p x := by omega
      have hnone : x ∉ o.traverse := by
        intro hmem
        have := List.count_pos_iff.mpr hmem
        rw [Obj.refs] at hle
        omega
      apply h.lt_length
      by_cases hu : 0 < users x
      · exact husers x hu
      · by_cases hw : x ∈ o'.workerRefs
        · exact hworker' x hw
        · by_cases he : x ∈ o'.traverse
          · exact (hedges x he).resolve_left hnone
          · rw [Obj.refs, List.count_eq_zero.mpr hw, List.count_eq_zero.mpr he] at hpos
            by_cases hxp : x = p
            · rw [if_pos hxp] at hpos
              rw [hxp]
              apply hflight'
              cases hf : o'.isInFlight with
              | true => rfl
              | false =>
                rw [hf, Bool.toNat_false] at hpos
                omega
            · rw [if_neg hxp] at hpos
              omega
  · rcases hcases hv with ⟨rfl, heq⟩ | ⟨-, hv⟩
    · have hold := hview q heq.symm
      subst hold
      obtain ⟨op, hq⟩ := h.viewed v q hp
      by_cases hqv : q = v
      · rw [hqv, hp] at hq
        cases hq
      · exact ⟨op, (List.getElem?_set_ne (Ne.symm hqv)).trans hq⟩
    · obtain ⟨op, hq⟩ := h.viewed v q hv
      by_cases hqp : q = p
      · subst hqp
        obtain ⟨op', rfl⟩ := hop' op (Option.some.inj (hp.symm.trans hq))
        exact ⟨op', Table.getElem?_set_self hp _⟩
      · exact ⟨op, (List.getElem?_set_ne (Ne.symm hqp)).trans hq⟩
  · intro hx
    rcases hcases hq with ⟨rfl, rfl⟩ | ⟨-, hq⟩
    · obtain ⟨-, op', rfl, hcause⟩ := hop op rfl
      rcases hcause hfreed with hold | hnew
      · exact h.freed q op' hp hold (hreach q hx)
      · exact hnew (hreach q hx)
    · exact h.freed q op hq hfreed (hreach q hx)
  · rcases hcases hq with ⟨rfl, rfl⟩ | ⟨-, hq⟩
    · exact (hop op rfl).1
    · exact h.fresh q op hq

theorem keeps_set (hp : s.objs[p]? = some o) (o' : Obj) {refcnt users : ObjId → ℕ}
    (hreach : ∀ x, Reachable { objs := s.objs.set p o', refcnt, users } x → s.Reachable x)
    (hop : ∀ op', o' = .operation op' → ∃ op, o = .operation op ∧ op'.freed = op.freed)
    (hview : ∀ q, o' = .memoryview q → o = .memoryview q) :
    Keeps s { objs := s.objs.set p o', refcnt, users } := by
  have hcases : ∀ {x : ObjId} {o'' : Obj}, (s.objs.set p o')[x]? = some o'' →
      x = p ∧ o'' = o' ∨ x ≠ p ∧ s.objs[x]? = some o'' := Table.getElem?_set_cases
  refine ⟨fun x hx => .inl (hreach x hx), fun q op' hq hfreed => ?_, fun v q hv => ?_⟩
  · rcases hcases hq with ⟨rfl, rfl⟩ | ⟨-, hq⟩
    · obtain ⟨op, rfl, heq⟩ := hop op' rfl
      exact ⟨op, hp, heq ▸ hfreed⟩
    · exact ⟨op', hq, hfreed⟩
  · rcases hcases hv with ⟨rfl, heq⟩ | ⟨-, hv⟩
    · have hold := hview q heq.symm
      exact .inl (hold ▸ hp)
    · exact .inl hv

theorem Inv.setCounts (h : Inv s) (hp : s.objs[p]? = some o) {refcnt users : ObjId → ℕ}
    (hcounts : ∀ x, refcnt x + s.users x = s.refcnt x + users x)
    (husers : ∀ x, 0 < users x → s.Reachable x) :
    Inv { s with refcnt, users } ∧ Keeps s { s with refcnt, users } := by
  have hdiff : ∀ x, refcnt x + s.users x + o.refs p x = s.refcnt x + users x + o.refs p x := by
    intro x
    rw [hcounts]
  have hset := h.set hp o hdiff husers (fun x hx => .inl hx) (fun x hx => .inl hx) .inl
    (fun op ho => ⟨h.fresh p op (ho ▸ hp), op, ho, .inl⟩) (fun op ho => ⟨op, ho⟩) fun q ho => ho
  have hkeeps := keeps_set hp o hset.2 (fun op ho => ⟨op, ho, rfl⟩) fun q ho => ho
  rw [Table.set_self hp] at hset hkeeps
  exact ⟨hset.1, hkeeps⟩

theorem Inv.setOperation (h : Inv s) (hp : s.objs[p]? = some (.operation op)) (op' : Operation)
    {refcnt users : ObjId → ℕ}
    (hcounts : ∀ x, refcnt x + s.users x + (Obj.operation op).refs p x =
      s.refcnt x + users x + (Obj.operation op').refs p x)
    (husers : ∀ x, 0 < users x → s.Reachable x)
    (hedges : ∀ x ∈ (Obj.operation op').traverse, x ∈ (Obj.operation op).traverse ∨ s.Reachable x)
    (hworker : ∀ x, op'.workerCtx = some x → op.workerCtx = some x ∨ s.Reachable x)
    (hflight : op'.inFlight = true → op.inFlight = true ∨ s.Reachable p)
    (hfresh : op'.inProgress = false → op'.ctx = none ∧ op'.inFlight = false)
    (hfreed : op'.freed = op.freed) :
    Inv { objs := s.objs.set p (.operation op'), refcnt, users } ∧
      Keeps s { objs := s.objs.set p (.operation op'), refcnt, users } := by
  have hview : ∀ q, Obj.operation op' = .memoryview q → Obj.operation op = .memoryview q :=
    fun q heq => by cases heq
  have hset := h.set hp (.operation op') hcounts husers hedges
    (fun x hx => (hworker x (Option.mem_toList.mp hx)).imp_left Option.mem_toList.mpr) hflight
    (fun op'' heq => by
      cases heq
      exact ⟨hfresh, op, rfl, fun hf => .inl (hfreed ▸ hf)⟩) (fun _ _ => ⟨op', rfl⟩) hview
  refine ⟨hset.1, keeps_set hp _ hset.2 (fun op'' heq => ?_) hview⟩
  cases heq
  exact ⟨op, rfl, hfreed⟩

theorem Inv.setOther {refs refs' : List ObjId} (h : Inv s) (hp : s.objs[p]? = some (.other refs))
    {refcnt : ObjId → ℕ} (hcounts : ∀ x, refcnt x + refs.count x = s.refcnt x + refs'.count x)
    (hedges : ∀ x ∈ refs', x ∈ refs ∨ s.Reachable x) :
    Inv { s with objs := s.objs.set p (.other refs'), refcnt } ∧
      Keeps s { s with objs := s.objs.set p (.other refs'), refcnt } := by
  have hop : ∀ op, Obj.other refs' ≠ .operation op := fun op heq => by cases heq
  have hop' : ∀ op, Obj.other refs = .operation op → ∃ op', Obj.other refs' = .operation op' :=
    fun op heq => by cases heq
  have hview : ∀ q, Obj.other refs' = .memoryview q → Obj.other refs = .memoryview q :=
    fun q heq => by cases heq
  have hdiff : ∀ x, refcnt x + s.users x + (Obj.other refs).refs p x =
      s.refcnt x + s.users x + (Obj.other refs').refs p x := by
    intro x
    have hold : ∀ refs, (Obj.other refs).refs p x = refs.count x := fun refs => by
      rw [Obj.refs]
      show refs.count x + 0 + (if x = p then 0 else 0) = _
      rw [ite_self]
      rfl
    have := hcounts x
    rw [hold, hold]
    omega
  have hset := h.set hp (.other refs') hdiff (fun x hx => reachable_of_users hx) hedges
    (fun x hx => by cases hx) (fun heq => by cases heq)
      (fun op heq => absurd heq (hop op)) hop' hview
  exact ⟨hset.1, keeps_set hp _ hset.2 (fun op heq => absurd heq (hop op)) hview⟩

theorem Inv.append (h : Inv s) (os : List Obj) {refcnt users : ObjId → ℕ}
    (hcounts : ∀ x, refcnt x + s.users x = s.refcnt x + users x + inEdges Obj.traverse os x)
    (hplain : ∀ o ∈ os, o.workerRefs = [] ∧ o.isInFlight = false)
    (hedges : ∀ o ∈ os, ∀ x ∈ o.traverse, s.objs.length ≤ x)
    (husers : ∀ x, 0 < users x → s.Reachable x ∨ s.objs.length ≤ x)
    (hbound : ∀ x, 0 < refcnt x → x < s.objs.length + os.length)
    (hops : ∀ op, Obj.operation op ∈ os → op.freed = false ∧ op.ctx = none ∧ op.inFlight = false)
    (hviews : ∀ q, Obj.memoryview q ∈ os →
      ∃ op, (s.objs ++ os)[q]? = some (.operation op) ∧ op.freed = false) :
    Inv { objs := s.objs ++ os, refcnt, users } ∧
      Keeps s { objs := s.objs ++ os, refcnt, users } := by
  have hold : ∀ {x : ObjId} {o : Obj}, s.objs[x]? = some o → (s.objs ++ os)[x]? = some o :=
    fun ho => (List.getElem?_append_left (Table.lt_length ho)).trans ho
  have hcases : ∀ {x : ObjId} {o : Obj}, (s.objs ++ os)[x]? = some o →
      s.objs[x]? = some o ∨ s.objs.length ≤ x ∧ o ∈ os := by
    intro x o ho
    rw [List.getElem?_append] at ho
    split_ifs at ho with hx
    · exact .inl ho
    · exact .inr ⟨Nat.le_of_not_lt hx, List.mem_of_getElem? ho⟩
  have hworker : ∀ x, inEdges Obj.workerRefs (s.objs ++ os) x =
    inEdges Obj.workerRefs s.objs x := by
    intro x
    have hzero : inEdges Obj.workerRefs os x = 0 := by
      apply inEdges_eq_zero
      intro o ho hx
      rw [(hplain o ho).1] at hx
      cases hx
    rw [inEdges_append, hzero]
    rfl
  have hflight : ∀ x : ObjId,
    (s.objs ++ os)[x]?.any Obj.isInFlight = s.objs[x]?.any Obj.isInFlight := by
    intro x
    rw [List.getElem?_append]
    split_ifs with hx
    · rfl
    · rw [List.getElem?_eq_none (Nat.le_of_not_lt hx), Option.any_none]
      cases ho : os[x - s.objs.length]? with
      | none => rfl
      | some o =>
        rw [Option.any_some]
        exact (hplain o (List.mem_of_getElem? ho)).2
  have hreach : ∀ x, Reachable { objs := s.objs ++ os, refcnt, users } x →
      s.Reachable x ∨ s.objs.length ≤ x := by
    intro x hx
    apply Reach.mono (P := fun x => s.Reachable x ∨ s.objs.length ≤ x) _ _ hx
    · intro x hx
      change 0 < users x + ((s.objs ++ os)[x]?.any Obj.isInFlight).toNat +
        inEdges Obj.workerRefs (s.objs ++ os) x at hx
      rw [hflight, hworker] at hx
      by_cases hu : 0 < users x
      · exact husers x hu
      · apply Or.inl
        apply Reach.root
        show 0 < s.users x + (s.objs[x]?.any Obj.isInFlight).toNat +
          inEdges Obj.workerRefs s.objs x
        omega
    · intro y x o hy ho hmem
      rcases hcases ho with ho | ⟨-, ho⟩
      · rcases hy with hy | hy
        · exact .inl (.edge hy ho hmem)
        · have := Table.lt_length ho
          omega
      · exact .inr (hedges o ho x hmem)
  refine ⟨⟨fun x => ?_, fun x hx => ?_, fun v q hv => ?_, fun q op hq hfreed hx => ?_,
    fun q op hq hfresh => ?_⟩, hreach, fun q op hq hfreed => ?_,
    fun v q hv => ?_⟩
  · have hdiff := hcounts x
    have hbefore := h.counts x
    rw [external] at hbefore
    show refcnt x = users x + ((s.objs ++ os)[x]?.any Obj.isInFlight).toNat +
      inEdges Obj.workerRefs (s.objs ++ os) x + inEdges Obj.traverse (s.objs ++ os) x
    rw [hflight, hworker, inEdges_append]
    omega
  · show x < (s.objs ++ os).length
    rw [List.length_append]
    exact hbound x hx
  · rcases hcases hv with hv | ⟨-, hv⟩
    · obtain ⟨op, hq⟩ := h.viewed v q hv
      exact ⟨op, hold hq⟩
    · obtain ⟨op, hq, -⟩ := hviews q hv
      exact ⟨op, hq⟩
  · rcases hcases hq with hq | ⟨-, hq⟩
    · rcases hreach q hx with hx | hx
      · exact h.freed q op hq hfreed hx
      · have := Table.lt_length hq
        omega
    · rw [(hops op hq).1] at hfreed
      cases hfreed
  · rcases hcases hq with hq | ⟨-, hq⟩
    · exact h.fresh q op hq hfresh
    · exact (hops op hq).2
  · rcases hcases hq with hq | ⟨-, hq⟩
    · exact ⟨op, hq, hfreed⟩
    · rw [(hops op hq).1] at hfreed
      cases hfreed
  · rcases hcases hv with hv | ⟨-, hv⟩
    · exact .inl hv
    · exact .inr (hviews q hv)

end State

end Caio.Payload
