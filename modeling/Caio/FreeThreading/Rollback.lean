import Caio.FreeThreading.Steps

namespace Caio.FreeThreading

namespace State

variable {b : Backend} {s t : State} {c i j : ℕ} {d : Call} {e : Job} {p : OpPtr} {k : CtxId}

/-- An accepted Operation has its Context, and a reference to it, until it is completed. -/
structure Kept (s : State) : Prop where
  ctx : ∀ e ∈ s.jobs, e.Ok s.ctx
  refs : ∀ k, s.ctxUsers k + s.jobs.countP (·.inFlight k) ≤ s.ctxRefs k

theorem Inv.inFlight_le (h : Inv .linuxAio s) (k : CtxId) :
    s.jobs.countP (·.inFlight k) ≤ Preimages.count s.ctx k := by
  have hnodup : ((s.jobs.filter (·.inFlight k)).map Job.op).Nodup := by
    apply List.nodup_iff_count_le_one.mpr
    intro p
    have hle : ((s.jobs.filter (·.inFlight k)).map Job.op).count p ≤ s.jobs.countP (·.isOn p) := by
      rw [List.count, List.countP_map]
      apply Nat.le_trans (List.filter_sublist.countP_le)
      apply Nat.le_of_eq
      exact List.countP_congr fun e _ => beq_iff_eq.trans decide_eq_true_iff.symm
    have hclaims := claimCount_le h p
    unfold claimCount at hclaims
    omega
  have hctx : ∀ p ∈ (s.jobs.filter (·.inFlight k)).map Job.op, s.ctx p = some k := by
    intro p hp
    obtain ⟨e, he, rfl⟩ := List.mem_map.mp hp
    obtain ⟨he, hin⟩ := List.mem_filter.mp he
    obtain ⟨hk, hpc⟩ := Bool.and_eq_true_iff.mp hin
    have hok := h.intact.jobs e he
    rcases h.refs.2.2 e he with hqueued | hcompleted
    · rw [Job.Ok, hqueued] at hok
      exact hok.trans (congrArg some (of_decide_eq_true hk))
    · exact absurd hcompleted (of_decide_eq_true hpc)
  have hle := Preimages.length_le_count h.refs.1 hnodup hctx
  rw [List.length_map, ← List.countP_eq_length_filter] at hle
  exact hle

theorem Inv.kept (h : Inv b s) : s.Kept := by
  refine ⟨h.intact.jobs, fun k => ?_⟩
  cases b with
  | threadAio =>
    have := h.refs k
    omega
  | linuxAio =>
    have := h.refs.2.1 k
    have := h.inFlight_le k
    omega

theorem not_intact {a : Action} (hcareful : ¬ Careful s a) (hs : s.step b a = some t) :
    ¬ t.Intact := by
  intro hintact
  unfold Careful at hcareful
  split at hcareful
  case h_1 c =>
    obtain ⟨d, hd, hs⟩ := onCall_eq_some hs
    split at hs
    case h_1 p ps hpc =>
      cases hs
      have hnone : Function.update s.ctx p none p = none := Function.update_self ..
      rw [hd, Option.bind_some, hpc] at hcareful
      have hlive : s.live p = true := by
        change ¬ (!s.live p) = true at hcareful
        rw [Bool.not_eq_true, Bool.not_eq_false'] at hcareful
        exact hcareful
      rcases Bool.or_eq_true_iff.mp hlive with hcall | hjob
      · obtain ⟨d', hd', hmem⟩ := List.any_eq_true.mp hcall
        have hheld : ∃ x ∈ s.calls.set c { d with pc := .rollback ps }, p ∈ x.held := by
          obtain ⟨i, hi⟩ := List.mem_iff_getElem?.mp hd'
          by_cases hic : c = i
          · subst hic
            cases hi.symm.trans hd
            refine ⟨_, List.mem_of_getElem? (Table.getElem?_set_self hd _), ?_⟩
            rw [Call.held, held_rollback]
            have := of_decide_eq_true hmem
            rw [Call.held, hpc] at this
            exact this
          · exact ⟨d', List.mem_of_getElem? ((List.getElem?_set_ne hic).trans hi),
              of_decide_eq_true hmem⟩
        obtain ⟨x, hx, hp⟩ := hheld
        cases hnone.symm.trans (hintact.calls x hx p hp)
      · obtain ⟨e, he, hmem⟩ := List.any_eq_true.mp hjob
        obtain ⟨hop, hqueued⟩ := of_decide_eq_true hmem
        have hok := hintact.jobs e he
        rw [Job.Ok, hqueued, hop] at hok
        cases hnone.symm.trans hok
    case h_2 => cases hs
  case h_2 => exact hcareful trivial

/-- In runs without a rollback that clears the pointer of another claim, an accepted Operation keeps
its Context and a reference to it. A step leaves all claims their pointers exactly if it is
careful. -/
theorem rollback_keeps_claims (b : Backend) {s : State} (h : (system b).ReachableBy Careful s) :
    s.Kept ∧ s.Intact ∧ ∀ (a : Action) (t : State), s.step b a = some t →
      (Careful s a ↔ t.Intact) := by
  have hinv := inv h
  refine ⟨hinv.kept, hinv.intact, fun a t hs => ⟨fun ha => (hinv.step ha hs).intact, fun ht => ?_⟩⟩
  by_cases ha : Careful s a
  · exact ha
  · exact absurd ht (not_intact ha hs)

def new : State where
  inProgress := fun _ => false
  ctx := fun _ => none
  ctxRefs := fun _ => 1
  ctxUsers := fun _ => 1
  calls := []
  jobs := []

theorem new_init : Init new := ⟨fun _ => rfl, fun _ => rfl, rfl, rfl, rfl⟩

/-- Contexts 1 and 2 claim Operation 7 one after the other; Context 1 is refused. -/
def claims : List Action :=
  [.submit 1 [7], .submit 2 [7], .next 0, .setContext 0]

/-- In linux_aio, with the rollback over before the second claim. -/
def inOrder : List Action :=
  claims ++ [.next 0, .queue 0 0, .unclaim 0, .clearContext 0, .next 1, .setContext 1, .next 1,
    .queue 1 1]

/-- The second claim comes between the two stores of the rollback. -/
def overtaken (b : Backend) : List Action :=
  claims ++ (if b = .linuxAio then [.next 0] else []) ++
    [.queue 0 0, .unclaim 0, .next 1, .setContext 1] ++
    (if b = .linuxAio then [.next 1] else []) ++ [.queue 1 1, .clearContext 0]

theorem rollback_keeps_claims_inOrder : ∃ s, (system .linuxAio).exec new inOrder = some s ∧
    s.jobs = [⟨2, 7, .queued⟩] ∧ s.ctx 7 = some 2 ∧ 2 ≤ s.ctxRefs 2 := by
  have hmeets : (system .linuxAio).Meets Careful new inOrder := by decide +kernel
  have hrun : (((system .linuxAio).exec new inOrder).any fun s =>
      decide (s.jobs = [⟨2, 7, .queued⟩] ∧ s.ctxUsers 2 = 1)) = true := by decide +kernel
  obtain ⟨s, hexec, hs⟩ := (Option.any_eq_true _ _).mp hrun
  obtain ⟨hjobs, husers⟩ := of_decide_eq_true hs
  obtain ⟨⟨hctx, hrefs⟩, -, -⟩ :=
    rollback_keeps_claims .linuxAio (.exec (.init new_init) hmeets hexec)
  refine ⟨s, hexec, hjobs, ?_, ?_⟩
  · have hok := hctx ⟨2, 7, .queued⟩ (by rw [hjobs]; exact List.mem_cons_self)
    exact hok
  · have hle := hrefs 2
    rw [hjobs, husers] at hle
    exact hle

/-- The Operation that Context 2 has accepted loses its Context: the worker of thread_aio reads
`NULL`, and in linux_aio the reference to the Context is gone. -/
theorem rollback_clears_claim :
    (∃ s, (system .threadAio).Reachable s ∧ s.jobs = [⟨2, 7, .taken none⟩]) ∧
    (∃ s, (system .linuxAio).Reachable s ∧ s.jobs = [⟨2, 7, .queued⟩] ∧ s.ctx 7 = none ∧
      s.ctxRefs 2 = s.ctxUsers 2) ∧
    ¬ ∀ (b : Backend) (s : State), (system b).Reachable s → s.Kept := by
  have hthread : (((system .threadAio).exec new (overtaken .threadAio ++ [.take 0])).any fun s =>
      decide (s.jobs = [⟨2, 7, .taken none⟩])) = true := by decide +kernel
  have hlinux : (((system .linuxAio).exec new (overtaken .linuxAio)).any fun s => decide (
      s.jobs = [⟨2, 7, .queued⟩] ∧ s.ctx 7 = none ∧ s.ctxRefs 2 = s.ctxUsers 2)) = true := by
    decide +kernel
  obtain ⟨s, hexec, hs⟩ := (Option.any_eq_true _ _).mp hthread
  obtain ⟨u, hexec', hu⟩ := (Option.any_eq_true _ _).mp hlinux
  have hreach : (system .threadAio).Reachable s := .exec (.init new_init) hexec
  have hjobs := of_decide_eq_true hs
  refine ⟨⟨s, hreach, hjobs⟩, ⟨u, .exec (.init new_init) hexec', of_decide_eq_true hu⟩,
    fun hall => ?_⟩
  have hok := (hall .threadAio s hreach).ctx ⟨2, 7, .taken none⟩ (by
    rw [hjobs]
    exact List.mem_cons_self)
  cases hok

end State

end Caio.FreeThreading
