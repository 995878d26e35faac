import Mathlib.Logic.Function.Basic
import Caio.Lib.Transition

@[ext]
structure Mutex (ι : Type*) where
  owner : Option ι
  /-- Whether a party is between its `lock` and its `unlock`. -/
  inside : ι → Bool

namespace Mutex

variable {ι : Type*} [DecidableEq ι]

inductive Action (ι : Type*)
  | acquire (i : ι)
  | release (i : ι)
  /-- The party goes on without the unlock. -/
  | abandon (i : ι)

def step (m : Mutex ι) : Action ι → Option (Mutex ι)
  | .acquire i =>
    if m.owner = none then some ⟨some i, Function.update m.inside i true⟩ else none
  | .release i => if m.inside i then some ⟨none, Function.update m.inside i false⟩ else none
  | .abandon i =>
    if m.inside i then some { m with inside := Function.update m.inside i false } else none

def system : TransitionSystem (Mutex ι) (Action ι) where
  init m := m.owner = none ∧ ∀ i, m.inside i = false
  step := step

/-- Every party that goes out gives the lock back. -/
def Tidy (_ : Mutex ι) : Action ι → Prop
  | .abandon _ => False
  | _ => True

variable {m n : Mutex ι} {i j : ι}

theorem owner_of_inside (h : system.Reachable m) : ∀ i, m.inside i = true → m.owner = some i := by
  refine h.invariant (I := fun m : Mutex ι => ∀ i, m.inside i = true → m.owner = some i)
    ?_ ?_
  · rintro m ⟨-, hout⟩ i hi
    exact absurd (hi.symm.trans (hout i)) Bool.false_ne_true.symm
  intro m a n h _ hs i hi
  cases a with
  | acquire j =>
    obtain ⟨hfree, hs⟩ := Option.ite_none_right_eq_some.mp hs
    cases hs
    by_cases hij : i = j
    · rw [hij]
    · have howner := h i ((Function.update_of_ne hij ..).symm.trans hi)
      rw [hfree] at howner
      cases howner
  | release j =>
    obtain ⟨hj, hs⟩ := Option.ite_none_right_eq_some.mp hs
    cases hs
    by_cases hij : i = j
    · subst hij
      exact absurd ((Function.update_self ..).symm.trans hi) Bool.false_ne_true
    · have howner := (h i ((Function.update_of_ne hij ..).symm.trans hi)).symm.trans (h j hj)
      exact absurd (Option.some.inj howner) hij
  | abandon j =>
    obtain ⟨hj, hs⟩ := Option.ite_none_right_eq_some.mp hs
    cases hs
    by_cases hij : i = j
    · subst hij
      exact absurd ((Function.update_self ..).symm.trans hi) Bool.false_ne_true
    · exact h i ((Function.update_of_ne hij ..).symm.trans hi)

/-- The owner is inside, as long as nobody leaves with the lock. -/
theorem inside_of_owner (h : system.ReachableBy Tidy m) :
    ∀ i, m.owner = some i → m.inside i = true := by
  refine h.invariant (I := fun m : Mutex ι => ∀ i, m.owner = some i → m.inside i = true)
    ?_ ?_
  · rintro m ⟨hfree, -⟩ i hi
    exact absurd (hi.symm.trans hfree) (Option.some_ne_none i)
  intro m a n h htidy hs i hi
  cases a with
  | acquire j =>
    obtain ⟨-, hs⟩ := Option.ite_none_right_eq_some.mp hs
    cases hs
    cases hi
    exact Function.update_self ..
  | release j =>
    obtain ⟨-, hs⟩ := Option.ite_none_right_eq_some.mp hs
    cases hs
    cases hi
  | abandon j => exact htidy.elim

/-- A lock whose owner has gone away. -/
def Abandoned (m : Mutex ι) (i : ι) : Prop := m.owner = some i ∧ ∀ j, m.inside j = false

theorem abandoned (h : system.Reachable m) (howner : m.owner = some i)
    (hout : m.inside i = false) : m.Abandoned i := by
  refine ⟨howner, fun j => Bool.not_eq_true _ ▸ fun hj => ?_⟩
  have hij := Option.some.inj (howner.symm.trans (owner_of_inside h j hj))
  rw [← hij, hout] at hj
  cases hj

theorem Abandoned.step_eq_none (h : m.Abandoned i) (a : Action ι) : m.step a = none := by
  cases a with
  | acquire j =>
    apply if_neg
    rw [h.1]
    exact Option.some_ne_none i
  | release j | abandon j =>
    apply if_neg
    rw [h.2 j]
    exact Bool.false_ne_true

end Mutex
