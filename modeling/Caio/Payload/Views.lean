import Caio.Payload.Steps

namespace Caio.Payload

open Counting ObjectGraph

namespace State

variable {b : Backend} {s t : State} {p x y v : ObjId} {o : Obj} {op : Operation} {a : Action}

def Action.clears? : Action → Option ObjId
  | .dealloc x | .collect _ x => some x
  | _ => none

theorem step_keeps (h : Inv s) (hs : s.step b a = some t) (ha : a.clears? = none) :
    Inv t ∧ Keeps s t := by
  cases a with
  | newOther =>
    cases hs
    exact h.new (.inl rfl)
  | newContext =>
    cases hs
    exact h.new (.inr rfl)
  | read => exact h.read hs
  | incref x =>
    obtain ⟨hx, hs⟩ := Option.ite_none_right_eq_some.mp hs
    cases hs
    exact h.acquire (reachable_of_users hx)
  | decref x =>
    obtain ⟨hx, hs⟩ := Option.ite_none_right_eq_some.mp hs
    cases hs
    exact h.release hx
  | load y x =>
    obtain ⟨refs, hy, hs⟩ := onOther_eq_some hs
    obtain ⟨⟨huser, hx⟩, hs⟩ := Option.ite_none_right_eq_some.mp hs
    cases hs
    exact h.acquire (.edge (reachable_of_users huser) hy hx)
  | store y x => exact h.store hs
  | delete y x => exact h.delete hs
  | setCallback p f => exact h.setCallback hs
  | payload p => exact h.payload hs
  | submit k p => exact h.submit hs
  | take p => exact h.take hs
  | complete p => exact h.complete hs
  | callback p => exact h.callback hs
  | releaseCtx p => exact h.releaseCtx hs
  | releaseOp p => exact h.releaseOp hs
  | dealloc x | collect S x => cases ha

theorem Inv.clears (h : Inv s) (hs : s.step b a = some t) (ha : a.clears? = some x) :
    ∃ o, s.objs[x]? = some o ∧ ¬ s.Reachable x ∧ t = s.tpClear x o := by
  cases a with
  | dealloc y =>
    cases ha
    obtain ⟨o, ho, hs⟩ := Option.bind_eq_some_iff.mp hs
    obtain ⟨hzero, hs⟩ := Option.ite_none_right_eq_some.mp hs
    refine ⟨o, ho, fun hx => ?_, (Option.some.inj hs).symm⟩
    have := h.refcnt_pos hx
    omega
  | collect S y =>
    cases ha
    obtain ⟨o, ho, hs⟩ := Option.bind_eq_some_iff.mp hs
    obtain ⟨⟨hmem, hgarbage⟩, hs⟩ := Option.ite_none_right_eq_some.mp hs
    exact ⟨o, ho, hgarbage.not_reach h.counts hmem, (Option.some.inj hs).symm⟩
  | _ => cases ha

theorem clear_refs (o : Obj) (p x : ObjId) :
    o.clear.refs p x + o.traverse.count x = o.refs p x ∧ o.clear.traverse = [] ∧
      o.clear.workerRefs = o.workerRefs ∧ o.clear.isInFlight = o.isInFlight := by
  have hempty : o.clear.traverse = [] ∧ o.clear.workerRefs = o.workerRefs ∧
      o.clear.isInFlight = o.isInFlight := by
    cases o with
    | operation op => exact ⟨rfl, rfl, rfl⟩
    | memoryview q => exact ⟨rfl, rfl, rfl⟩
    | context => exact ⟨rfl, rfl, rfl⟩
    | other refs => exact ⟨rfl, rfl, rfl⟩
  refine ⟨?_, hempty⟩
  rw [Obj.refs, Obj.refs, hempty.1, hempty.2.1, hempty.2.2, List.count_nil]
  omega

theorem Inv.tpClear (h : Inv s) (hx : s.objs[x]? = some o) (hout : ¬ s.Reachable x) :
    Inv (s.tpClear x o) ∧ ∀ y, (s.tpClear x o).Reachable y → s.Reachable y := by
  apply h.set hx o.clear
  · intro y
    have hle := h.refs_le hx y
    obtain ⟨hrefs, -⟩ := clear_refs o x y
    show s.refcnt y - o.traverse.count y + s.users y + _ = s.refcnt y + s.users y + _
    omega
  · exact fun y hy => reachable_of_users hy
  · intro y hy
    rw [(clear_refs o x y).2.1] at hy
    cases hy
  · intro y hy
    rw [(clear_refs o x y).2.2.1] at hy
    exact .inl hy
  · intro hf
    rw [(clear_refs o x x).2.2.2] at hf
    exact .inl hf
  · intro op' heq
    cases o with
    | operation op =>
      cases heq
      exact ⟨fun hfree => ⟨rfl, (h.fresh x op hx hfree).2⟩, op, rfl, fun _ => .inr hout⟩
    | memoryview q => cases heq
    | context => cases heq
    | other refs => cases heq
  · intro op heq
    rw [heq]
    exact ⟨_, rfl⟩
  · intro q heq
    cases o with
    | operation op => cases heq
    | memoryview q' => exact heq
    | context => cases heq
    | other refs => cases heq

/-- What is in reach stays in reach when an object that is not is cleared. -/
theorem reachable_tpClear (hx : s.objs[x]? = some o) (hout : ¬ s.Reachable x) (hy : s.Reachable y) :
    (s.tpClear x o).Reachable y := by
  have hboth : s.Reachable y ∧ (s.tpClear x o).Reachable y := by
    apply Reach.mono (P := fun y => s.Reachable y ∧ (s.tpClear x o).Reachable y) _ _ hy
    · intro y hroot
      refine ⟨.root hroot, .root ?_⟩
      have hworker := inEdges_set Obj.workerRefs hx o.clear y
      have hflight := inFlight_set hx o.clear y
      rw [(clear_refs o x y).2.2.1] at hworker
      rw [(clear_refs o x y).2.2.2] at hflight
      change 0 < s.users y + (s.objs[y]?.any Obj.isInFlight).toNat +
        inEdges Obj.workerRefs s.objs y at hroot
      show 0 < s.users y + ((s.objs.set x o.clear)[y]?.any Obj.isInFlight).toNat +
        inEdges Obj.workerRefs (s.objs.set x o.clear) y
      omega
    · intro z y o' hz ho' hmem
      have hzx : x ≠ z := fun heq => hout (heq ▸ hz.1)
      exact ⟨.edge hz.1 ho' hmem, .edge hz.2 ((List.getElem?_set_ne hzx).trans ho') hmem⟩
  exact hboth.2

theorem inv {C : State → Action → Prop} (h : (system b).ReachableBy C s) : Inv s := by
  apply h.invariant (fun _ => Init.inv)
  intro s a t h _ hs
  cases ha : a.clears? with
  | none => exact (step_keeps h hs ha).1
  | some x =>
    obtain ⟨o, hx, hout, rfl⟩ := h.clears hs ha
    exact (h.tpClear hx hout).1

/-- No view that can be reached is over a buffer that has been freed. -/
def ViewsOk (s : State) : Prop :=
  ∀ (v p : ObjId) (op : Operation), s.objs[v]? = some (.memoryview p) →
    s.objs[p]? = some (.operation op) → s.Reachable v → op.freed = false

/-- No Operation is cleared while a view over its buffer can be reached. -/
def Careful (s : State) (a : Action) : Prop :=
  ∀ x, a.clears? = some x → ∀ v : ObjId, s.objs[v]? = some (.memoryview x) → ¬ s.Reachable v

theorem Inv.viewsOk_step (h : Inv s) (hviews : s.ViewsOk) (hcareful : Careful s a)
    (hs : s.step b a = some t) : t.ViewsOk := by
  intro v p op hv hp hreach
  cases hfreed : op.freed with
  | false => rfl
  | true =>
    cases ha : a.clears? with
    | none =>
      obtain ⟨-, hkeeps⟩ := step_keeps h hs ha
      obtain ⟨op', hp', hfreed'⟩ := hkeeps.operation p op hp hfreed
      rcases hkeeps.memoryview v p hv with hv | ⟨op'', hp'', hnot⟩
      · rcases hkeeps.reach v hreach with hreach | hlen
        · exact (hviews v p op' hv hp' hreach).symm.trans hfreed' |>.symm
        · have := Table.lt_length hv
          omega
      · cases hp.symm.trans hp''
        exact hnot.symm.trans hfreed |>.symm
    | some x =>
      obtain ⟨o, hx, hout, rfl⟩ := h.clears hs ha
      have hreach' := (h.tpClear hx hout).2 v hreach
      have hv' : s.objs[v]? = some (.memoryview p) := by
        rcases Table.getElem?_set_cases hv with ⟨rfl, heq⟩ | ⟨-, hv⟩
        · cases o with
          | memoryview q =>
            cases heq
            exact hx
          | operation _ | context | other _ => cases heq
        · exact hv
      rcases Table.getElem?_set_cases hp with ⟨rfl, -⟩ | ⟨-, hp⟩
      · exact absurd hreach' (hcareful p ha v hv')
      · exact (hviews v p op hv' hp hreach').symm.trans hfreed |>.symm

theorem Inv.not_viewsOk (h : Inv s) (hcareful : ¬ Careful s a) (hs : s.step b a = some t) :
    ¬ t.ViewsOk := by
  intro hviews
  obtain ⟨x, hx⟩ := Classical.not_forall.mp hcareful
  obtain ⟨ha, hrest⟩ := Classical.not_imp.mp hx
  obtain ⟨v, hv⟩ := Classical.not_forall.mp hrest
  obtain ⟨hview, hreach⟩ := Classical.not_imp.mp hv
  obtain ⟨o, ho, hout, rfl⟩ := h.clears hs ha
  obtain ⟨op, hop⟩ := h.viewed v x hview
  cases ho.symm.trans hop
  have hvx : x ≠ v := fun heq => hout (heq ▸ Classical.not_not.mp hreach)
  have hok := hviews v x _ ((List.getElem?_set_ne hvx).trans hview) (Table.getElem?_set_self hop _)
    (reachable_tpClear hop hout (Classical.not_not.mp hreach))
  cases hok

theorem viewsOk (h : (system b).ReachableBy Careful s) : s.ViewsOk := by
  apply h.invariant_with (fun _ => inv)
  · intro s h v p op hv
    rw [h.objs] at hv
    cases hv
  · exact fun s a t h hviews hcareful hs => h.viewsOk_step hviews hcareful hs

/-- The buffer of an Operation that the kernel or a worker has is never freed. -/
theorem Inv.not_freed (h : Inv s) (hp : s.objs[p]? = some (.operation op))
    (hflight : op.inFlight = true) : op.freed = false := by
  cases hfreed : op.freed with
  | false => rfl
  | true => exact absurd (reachable_of_inFlight hp hflight) (h.freed p op hp hfreed)

/-- In runs that clear no Operation with a view in reach, no view in reach is without its buffer,
and no Operation in flight is. A step keeps to that exactly if it is careful. -/
theorem buffer_outlives_views (b : Backend) {s : State} (h : (system b).ReachableBy Careful s) :
    s.ViewsOk ∧
    (∀ (p : ObjId) (op : Operation), s.objs[p]? = some (.operation op) → op.inFlight = true →
      op.freed = false) ∧
    ∀ (a : Action) (t : State), s.step b a = some t → (Careful s a ↔ t.ViewsOk) := by
  have hinv := inv h
  have hviews := viewsOk h
  refine ⟨hviews, fun p op => hinv.not_freed, fun a t hs => ⟨fun ha => ?_, fun ht => ?_⟩⟩
  · exact hinv.viewsOk_step hviews ha hs
  · by_cases ha : Careful s a
    · exact ha
    · exact absurd ht (hinv.not_viewsOk ha hs)

def empty : State := ⟨[], fun _ => 0, fun _ => 0⟩

theorem empty_init : Init empty := ⟨rfl, fun _ => rfl, fun _ => rfl⟩

/-- An Operation is completed while Python code keeps only the view. -/
def viewRun : List Action :=
  [.read, .payload 0, .newContext, .submit 2 0, .decref 0, .complete 0]

theorem meets_of_no_clear {as : List Action} (has : ∀ a ∈ as, a.clears? = none) (s : State) :
    (system b).Meets Careful s as := by
  induction as generalizing s with
  | nil => trivial
  | cons a as ih =>
    refine ⟨fun x hx => ?_, ?_⟩
    · rw [has a List.mem_cons_self] at hx
      cases hx
    · split
      · trivial
      · exact ih (fun a ha => has a (List.mem_cons_of_mem _ ha)) _

theorem buffer_outlives_views_inFlight : ∃ s, (system .linuxAio).exec empty viewRun = some s ∧
    s.Reachable 1 ∧ ∃ op, s.objs[0]? = some (.operation op) ∧ op.inFlight = true ∧
      op.freed = false := by
  have hrun : (((system .linuxAio).exec empty viewRun).any fun s => decide (0 < s.users 1) &&
      s.objs[0]?.any Obj.isInFlight) = true := by decide +kernel
  obtain ⟨s, hexec, hs⟩ := (Option.any_eq_true _ _).mp hrun
  obtain ⟨husers, hflight⟩ := Bool.and_eq_true_iff.mp hs
  obtain ⟨o, ho, hflight⟩ := (Option.any_eq_true _ _).mp hflight
  have hmeets : (system .linuxAio).Meets Careful empty viewRun :=
    meets_of_no_clear (by decide) empty
  obtain ⟨-, hkept, -⟩ := buffer_outlives_views .linuxAio (.exec (.init empty_init) hmeets hexec)
  refine ⟨s, hexec, reachable_of_users (of_decide_eq_true husers), ?_⟩
  cases o with
  | operation op => exact ⟨op, ho, hflight, hkept 0 op ho hflight⟩
  | memoryview _ | context | other _ => cases hflight

def danglingRun : List Action := [.read, .payload 0, .decref 0, .dealloc 0]

/-- The view can be reached, and its buffer has been freed. -/
theorem view_outlives_buffer :
    (∃ s, (system .threadAio).Reachable s ∧ s.Reachable 1 ∧ s.objs =
      [.operation { freed := true }, .memoryview 0]) ∧
    (∃ s, (system .linuxAio).Reachable s ∧ s.Reachable 1 ∧ s.objs =
      [.operation { freed := true }, .memoryview 0]) ∧
    ¬ ∀ (b : Backend) (s : State), (system b).Reachable s → s.ViewsOk := by
  have hrun : ∀ b, ∃ s, (system b).Reachable s ∧ s.Reachable 1 ∧ s.objs =
      [.operation { freed := true }, .memoryview 0] := by
    intro b
    have hexec : (((system b).exec empty danglingRun).any fun s => decide (0 < s.users 1 ∧ s.objs =
        [.operation { freed := true }, .memoryview 0])) = true := by
      cases b
      · decide +kernel
      · decide +kernel
    obtain ⟨s, hexec, hs⟩ := (Option.any_eq_true _ _).mp hexec
    obtain ⟨husers, hobjs⟩ := of_decide_eq_true hs
    exact ⟨s, .exec (.init empty_init) hexec, reachable_of_users husers, hobjs⟩
  refine ⟨hrun .threadAio, hrun .linuxAio, fun hall => ?_⟩
  obtain ⟨s, hs, hreach, hobjs⟩ := hrun .threadAio
  have hok := hall .threadAio s hs 1 0 { freed := true }
  rw [hobjs] at hok
  cases hok rfl rfl hreach

end State

end Caio.Payload
