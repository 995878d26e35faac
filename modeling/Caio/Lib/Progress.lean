import Mathlib.Order.WellFounded
import Caio.Lib.Transition

namespace TransitionSystem

variable {σ α : Type*} {S : TransitionSystem σ α} {internal : α → Prop} {I : σ → Prop} {μ : σ → ℕ}
  {s t : σ}

/-- No step is left that the system makes by itself. -/
def Quiet (S : TransitionSystem σ α) (internal : α → Prop) (s : σ) : Prop :=
  ∀ a, internal a → S.step s a = none

/-- In the states that meet `I`, the steps of the system lower `μ`. -/
structure Lowers (S : TransitionSystem σ α) (internal : α → Prop) (I : σ → Prop) (μ : σ → ℕ) :
    Prop where
  keep : ∀ s a t, I s → internal a → S.step s a = some t → I t
  lower : ∀ s a t, I s → internal a → S.step s a = some t → μ t < μ s

theorem Lowers.keep_exec (h : Lowers S internal I μ) {as : List α} (has : ∀ a ∈ as, internal a)
    (hs : I s) (hrun : S.exec s as = some t) : I t :=
  exec_invariant (fun u a v ha hu hv => h.keep u a v hu (has a ha) hv) hs hrun

theorem Lowers.length_add_le (h : Lowers S internal I μ) {as : List α}
    (has : ∀ a ∈ as, internal a) (hs : I s) (hrun : S.exec s as = some t) :
    as.length + μ t ≤ μ s := by
  induction as generalizing s with
  | nil =>
    cases hrun
    exact Nat.le_of_eq (Nat.zero_add _)
  | cons a as ih =>
    obtain ⟨u, hu, ht⟩ := Option.bind_eq_some_iff.mp hrun
    have ha := has a List.mem_cons_self
    have hlt := h.lower s a u hs ha hu
    have hle := ih (fun b hb => has b (List.mem_cons_of_mem a hb)) (h.keep s a u hs ha hu) ht
    rw [List.length_cons]
    omega

theorem Lowers.exists_quiet (h : Lowers S internal I μ) (hs : I s) :
    ∃ as t, (∀ a ∈ as, internal a) ∧ S.exec s as = some t ∧ S.Quiet internal t := by
  induction hn : μ s using Nat.strongRecOn generalizing s with
  | ind n ih =>
    by_cases hquiet : S.Quiet internal s
    · exact ⟨[], s, fun _ ha => absurd ha List.not_mem_nil, rfl, hquiet⟩
    · simp only [Quiet, not_forall] at hquiet
      obtain ⟨a, ha, hsome⟩ := hquiet
      obtain ⟨u, hu⟩ := Option.ne_none_iff_exists'.mp hsome
      have hlt : μ u < n := hn ▸ h.lower s a u hs ha hu
      obtain ⟨as, t, has, hrun, ht⟩ := ih (μ u) hlt (h.keep s a u hs ha hu) rfl
      refine ⟨a :: as, t, fun b hb => ?_, (exec_cons hu).trans hrun, ht⟩
      rcases List.mem_cons.mp hb with rfl | hb
      · exact ha
      · exact has b hb

/-- Where some step leads down as long as the goal is not reached, a run reaches it. -/
theorem exists_run {β : Type*} [LT β] [WellFoundedLT β] {μ : σ → β} {goal : σ → Prop}
    (hstep : ∀ s, I s → ¬goal s → ∃ a t, S.step s a = some t ∧ I t ∧ μ t < μ s) (hs : I s) :
    ∃ as t, S.exec s as = some t ∧ I t ∧ goal t := by
  induction hn : μ s using WellFoundedLT.induction generalizing s with
  | ind n ih =>
    by_cases hgoal : goal s
    · exact ⟨[], s, rfl, hs, hgoal⟩
    · obtain ⟨a, u, hu, hI, hlt⟩ := hstep s hs hgoal
      obtain ⟨as, t, hrun, ht, hreached⟩ := ih (μ u) (hn ▸ hlt) hI rfl
      exact ⟨a :: as, t, (exec_cons hu).trans hrun, ht, hreached⟩

end TransitionSystem
