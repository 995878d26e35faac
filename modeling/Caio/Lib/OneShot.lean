import Mathlib.Order.Basic
import Caio.Lib.Transition

namespace OneShot

inductive Stage (ρ : Type*)
  | idle
  | inFlight
  | done (answer : ρ)

namespace Stage

variable {ρ : Type*}

def rank : Stage ρ → ℕ
  | idle => 0
  | inFlight => 1
  | done _ => 2

/-- Later stages are greater, and no answer turns into another one. -/
instance : PartialOrder (Stage ρ) where
  le x y := x = y ∨ x.rank < y.rank
  le_refl _ := .inl rfl
  le_trans := by
    rintro x y z (rfl | hxy) (rfl | hyz)
    · exact .inl rfl
    · exact .inr hyz
    · exact .inr hxy
    · exact .inr (Nat.lt_trans hxy hyz)
  le_antisymm := by
    rintro x y (rfl | hxy) (heq | hyx)
    · rfl
    · rfl
    · exact heq.symm
    · exact absurd hyx (Nat.lt_asymm hxy)

/-- The stage that two flags and a field show. -/
def ofFlags (taken ended : Bool) (answer : ρ) : Stage ρ :=
  if ended then .done answer else if taken then .inFlight else .idle

variable {taken taken' ended ended' : Bool} {answer answer' : ρ}

theorem ofFlags_eq_idle (htaken : taken = false) (hended : ended = false) :
    ofFlags taken ended answer = idle := by
  rw [htaken, hended]
  rfl

theorem ofFlags_eq_inFlight_iff :
    ofFlags taken ended answer = inFlight ↔ taken = true ∧ ended = false := by
  unfold ofFlags
  cases ended <;> cases taken <;> simp

/-- A task that has not ended may be taken up or end. -/
theorem ofFlags_le (hended : ended = false) (htaken : taken = true → taken' = true) :
    ofFlags taken ended answer ≤ ofFlags taken' ended' answer' := by
  subst hended
  cases ended' with
  | true => cases taken <;> exact .inr (Nat.lt_of_sub_eq_succ rfl)
  | false =>
    cases taken with
    | true =>
      rw [htaken rfl]
      exact le_rfl
    | false =>
      cases taken' with
      | false => exact le_rfl
      | true => exact .inr Nat.one_pos

end Stage

variable {σ α ι ρ : Type*} {S : TransitionSystem σ α} {lives : σ → ι → Prop}
  {stage : σ → ι → Stage ρ}

/-- `S` keeps one-shot tasks: a task in flight is alive, and in every run a task goes only forwards
as long as it lives. -/
structure Tasks (S : TransitionSystem σ α) (lives : σ → ι → Prop) (stage : σ → ι → Stage ρ) :
    Prop where
  new : ∀ s, S.init s → ∀ i, stage s i = .idle
  alive : ∀ s, S.Reachable s → ∀ i, stage s i = .inFlight → lives s i
  forwards : ∀ s as t, S.Reachable s → S.exec s as = some t → ∀ i,
    S.Visits (lives · i) s as → stage s i ≤ stage t i

theorem Tasks.of_step (hnew : ∀ s, S.init s → ∀ i, stage s i = .idle)
    (halive : ∀ s, S.Reachable s → ∀ i, stage s i = .inFlight → lives s i)
    (hstep : ∀ s a t, S.Reachable s → S.step s a = some t → ∀ i, lives s i → lives t i →
      stage s i ≤ stage t i) : Tasks S lives stage := by
  refine ⟨hnew, halive, fun s as t hs hrun i => ?_⟩
  induction as generalizing s with
  | nil =>
    cases hrun
    exact fun _ => le_rfl
  | cons a as ih =>
    obtain ⟨u, hu, ht⟩ := Option.bind_eq_some_iff.mp hrun
    simp only [TransitionSystem.Visits, hu]
    rintro ⟨hlive, hrest⟩
    have hnext : lives u i := by
      cases as with
      | nil => exact hrest
      | cons b bs => exact hrest.1
    exact (hstep s a u hs hu i hlive hnext).trans (ih u (.step hs trivial hu) ht hrest)

end OneShot
