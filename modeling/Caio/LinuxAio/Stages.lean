import Caio.Lib.OneShot
import Caio.LinuxAio.Finalise
import Caio.LinuxAio.Value

namespace Caio.LinuxAio

open OneShot

namespace AIOOperation

/-- A value of `get_value()`, by the content of `self->buffer`. -/
abbrev Answer := Option (List UInt8) → Except PyErr Value

def stage (op : AIOOperation) : Stage Answer :=
  .ofFlags op.inProgress op.done fun buffer => op.getValue buffer

end AIOOperation

namespace World

variable {s t : World} {p : OpPtr}

def Lives (s : World) (p : OpPtr) : Prop := 0 < (s.heap.ops p).refcnt

def stage (s : World) (p : OpPtr) : Stage AIOOperation.Answer := (s.heap.ops p).stage

def fresh : TransitionSystem World Action :=
  system.startingIn fun s => ∀ p, (s.heap.ops p).done = false

theorem finalised_of_done (h : fresh.Reachable s) (p : OpPtr) (hdone : (s.heap.ops p).done = true) :
    0 < s.finalisations p := by
  apply h.invariant (I := fun s => (s.heap.ops p).done = true → 0 < s.finalisations p)
  · intro s hs hp
    rw [hs.2 p] at hp
    cases hp
  · intro s a t ih _ hs
    cases step_touches hs with
    | submit k args answer hheap hfinalised =>
      intro hp
      rw [finalisations, hfinalised]
      apply ih
      rw [hheap] at hp
      rcases submit_ops s.heap k (s.ctxs k) args answer p with ⟨-, -, hop⟩ | ⟨-, -, hop⟩ | ⟨-, hop⟩
      all_goals
        rw [hop] at hp
        exact hp
    | settle i c ev left hc hpc hheap hfinalised =>
      intro hp
      rw [finalisations, hfinalised, List.countP_append]
      by_cases hev : ev.data = p
      · have hone : [(c.method, ev)].countP (·.2.data = p) = 1 :=
          List.countP_eq_length.mpr (by simp [hev])
        omega
      · rw [hheap, settle_ops, if_neg (Ne.symm hev)] at hp
        exact Nat.lt_add_right _ (ih hp)
    | quiet hheap hfinalised =>
      intro hp
      rw [finalisations, hfinalised]
      obtain ⟨callback, refcnt, hop⟩ := hheap p
      rw [hop] at hp
      exact ih hp
  · exact hdone

theorem done_false (h : fresh.Reachable s) (hzero : s.finalisations p = 0) :
    (s.heap.ops p).done = false := by
  cases hdone : (s.heap.ops p).done with
  | false => rfl
  | true => exact absurd (finalised_of_done h p hdone) (hzero ▸ Nat.lt_irrefl 0)

theorem finalisations_of_free (h : Accounted s p) (hfree : (s.heap.ops p).inProgress = false) :
    s.finalisations p = 0 := by
  have hclaimed := h.claimed
  have hplaces := h.places
  rw [hfree, Bool.toNat_false] at hclaimed
  omega

theorem lives_of_inFlight (h : fresh.Reachable s) (hfly : s.stage p = .inFlight) : s.Lives p := by
  obtain ⟨hactive, hdone⟩ := Stage.ofFlags_eq_inFlight_iff.mp hfly
  have hacc := accounted (.of_startingIn h) p
  have hzero : s.finalisations p = 0 := by
    by_contra hne
    obtain ⟨x, hx, hp⟩ := List.countP_pos_iff.mp (Nat.pos_of_ne_zero hne)
    have hshows := (shown (.of_startingIn h) x.1 x.2 hx).1
    rw [of_decide_eq_true hp, hdone] at hshows
    cases hshows
  have hclaimed := hacc.claimed
  have hfinalised := hacc.finalised
  have hrefs := hacc.refs
  rw [hactive, Bool.toNat_true] at hclaimed
  show 0 < (s.heap.ops p).refcnt
  omega

theorem forwards (h : fresh.Reachable s) {a : Action} (hs : s.step a = some t) (p : OpPtr) :
    s.stage p ≤ t.stage p := by
  have hacc := accounted (.of_startingIn h)
  cases step_touches hs with
  | submit k args answer hheap =>
    rw [stage, stage, hheap]
    rcases submit_ops s.heap k (s.ctxs k) args answer p with
      ⟨-, hfree, hop⟩ | ⟨-, hfree, hop⟩ | ⟨-, hop⟩
    · rw [hop]
      exact Stage.ofFlags_le (done_false h (finalisations_of_free (hacc p) hfree)) fun _ => rfl
    · rw [hop]
      exact Stage.ofFlags_le (done_false h (finalisations_of_free (hacc p) hfree)) fun hp => by
        rw [hfree] at hp
        cases hp
    · rw [hop]
  | settle i c ev left hc hpc hheap =>
    rw [stage, stage, hheap, settle_ops]
    split_ifs with hev
    · subst hev
      have hzero : s.finalisations ev.data = 0 := by
        apply finalisations_eq_zero (hacc ev.data) hc
        rw [hpc]
        exact List.mem_cons_self
      exact Stage.ofFlags_le (done_false h hzero) id
    · exact le_rfl
  | quiet hheap =>
    obtain ⟨callback, refcnt, hop⟩ := hheap p
    rw [stage, stage, hop]
    exact le_rfl

theorem tasks : Tasks fresh Lives stage := by
  apply Tasks.of_step
  · intro s hs p
    exact Stage.ofFlags_eq_idle (hs.1.inProgress p) (hs.2 p)
  · intro s hs p hfly
    exact lives_of_inFlight hs hfly
  · intro s a t hs hstep p _ _
    exact forwards hs hstep p

end World

end Caio.LinuxAio
