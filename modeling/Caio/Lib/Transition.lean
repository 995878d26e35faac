import Mathlib.Logic.Basic
import Mathlib.Data.List.Basic

/-!
# Guarded transition systems

A system is an executable step function: `step s a` is `some t` when action `a`
is enabled in state `s`. Invariants are proved over runs whose steps all meet a
condition `C`; `Reachable` is the case without a condition.
-/

structure TransitionSystem (σ α : Type*) where
  init : σ → Prop
  step : σ → α → Option σ

namespace TransitionSystem

variable {σ α τ β : Type*} (S : TransitionSystem σ α)

/-- Replay of a list of actions; `none` when one of them is disabled. -/
def exec : σ → List α → Option σ
  | s, [] => some s
  | s, a :: as => (S.step s a).bind fun t => exec t as

/-- States reached by runs in which every step meets `C`. -/
inductive ReachableBy (C : σ → α → Prop) : σ → Prop
  | init {s : σ} : S.init s → ReachableBy C s
  | step {s t : σ} {a : α} : ReachableBy C s → C s a → S.step s a = some t → ReachableBy C t

abbrev Reachable : σ → Prop := S.ReachableBy fun _ _ => True

variable {S} {C D : σ → α → Prop} {s t : σ}

/-- What holds initially and is preserved by every allowed step holds of every run. -/
theorem ReachableBy.invariant {I : σ → Prop} (hinit : ∀ s, S.init s → I s)
    (hstep : ∀ s a t, I s → C s a → S.step s a = some t → I t)
    (h : S.ReachableBy C s) : I s := by
  induction h with
  | init h => exact hinit _ h
  | step _ hc hs ih => exact hstep _ _ _ ih hc hs

/-- The step case may use an invariant that is already known. -/
theorem ReachableBy.invariant_with {I J : σ → Prop} (hJ : ∀ s, S.ReachableBy C s → J s)
    (hinit : ∀ s, S.init s → I s)
    (hstep : ∀ s a t, J s → I s → C s a → S.step s a = some t → I t)
    (h : S.ReachableBy C s) : I s := by
  induction h with
  | init h => exact hinit _ h
  | step hr hc hs ih => exact hstep _ _ _ (hJ _ hr) ih hc hs

theorem ReachableBy.mono (hCD : ∀ s a, C s a → D s a) (h : S.ReachableBy C s) :
    S.ReachableBy D s := by
  induction h with
  | init h => exact .init h
  | step _ hc hs ih => exact .step ih (hCD _ _ hc) hs

theorem ReachableBy.reachable (h : S.ReachableBy C s) : S.Reachable s :=
  h.mono fun _ _ _ => trivial

theorem exec_append (as bs : List α) (s : σ) :
    S.exec s (as ++ bs) = (S.exec s as).bind fun t => S.exec t bs := by
  induction as generalizing s with
  | nil => rfl
  | cons a as ih =>
    simp only [List.cons_append, exec, Option.bind_assoc, ih]

theorem exec_cons {a : α} {as : List α} (h : S.step s a = some t) :
    S.exec s (a :: as) = S.exec t as := by
  rw [exec, h]
  rfl

theorem exec_singleton {a : α} (h : S.step s a = some t) : S.exec s [a] = some t := by
  rw [exec, h]
  rfl

/-- What the actions of a replay preserve, the replay preserves. -/
theorem exec_invariant {I : σ → Prop} {as : List α}
    (hstep : ∀ s a t, a ∈ as → I s → S.step s a = some t → I t) (hs : I s)
    (hrun : S.exec s as = some t) : I t := by
  induction as generalizing s with
  | nil =>
    cases hrun
    exact hs
  | cons a as ih =>
    obtain ⟨u, hu, ht⟩ := Option.bind_eq_some_iff.mp hrun
    exact ih (fun s b t hb => hstep s b t (List.mem_cons_of_mem _ hb))
      (hstep s a u List.mem_cons_self hs hu) ht

/-- `S` from the initial states that meet `P` only. -/
def startingIn (S : TransitionSystem σ α) (P : σ → Prop) : TransitionSystem σ α :=
  ⟨fun s => S.init s ∧ P s, S.step⟩

theorem Reachable.of_startingIn {P : σ → Prop} (h : (S.startingIn P).Reachable s) :
    S.Reachable s := by
  induction h with
  | init h => exact .init h.1
  | step _ hc hs ih => exact .step ih hc hs

/-- `S` in states that meet `P` only. -/
def within (S : TransitionSystem σ α) (P : σ → Prop) [DecidablePred P] : TransitionSystem σ α :=
  ⟨fun s => S.init s ∧ P s, fun s a => (S.step s a).filter fun t => decide (P t)⟩

theorem within_step {P : σ → Prop} [DecidablePred P] {a : α} :
    (S.within P).step s a = some t ↔ S.step s a = some t ∧ P t := by
  refine Option.filter_eq_some_iff.trans (and_congr_right fun _ => ?_)
  exact decide_eq_true_iff

theorem Reachable.of_within {P : σ → Prop} [DecidablePred P] (h : (S.within P).Reachable s) :
    S.Reachable s ∧ P s := by
  induction h with
  | init h => exact ⟨.init h.1, h.2⟩
  | step _ _ hs ih =>
    obtain ⟨hs, hP⟩ := within_step.mp hs
    exact ⟨.step ih.1 trivial hs, hP⟩

theorem ReachableBy.within {P : σ → Prop} [DecidablePred P]
    (hP : ∀ s, S.ReachableBy C s → P s) (h : S.ReachableBy C s) : (S.within P).Reachable s := by
  induction h with
  | init h => exact .init ⟨h, hP _ (.init h)⟩
  | step hr hc hs ih => exact .step ih trivial (within_step.mpr ⟨hs, hP _ (.step hr hc hs)⟩)

/-- Every step of the replay meets `C`. -/
def Meets (S : TransitionSystem σ α) (C : σ → α → Prop) : σ → List α → Prop
  | _, [] => True
  | s, a :: as => C s a ∧
    match S.step s a with
    | none => True
    | some t => Meets S C t as

instance Meets.decidable (S : TransitionSystem σ α) (C : σ → α → Prop)
    [∀ s a, Decidable (C s a)] : ∀ s as, Decidable (S.Meets C s as)
  | _, [] => isTrue trivial
  | s, a :: as =>
    have : Decidable (match S.step s a with
        | none => True
        | some t => S.Meets C t as) :=
      match S.step s a with
      | none => isTrue trivial
      | some t => Meets.decidable S C t as
    inferInstanceAs (Decidable (_ ∧ _))

theorem Meets.mono (hCD : ∀ s a, C s a → D s a) {as : List α} (h : S.Meets C s as) :
    S.Meets D s as := by
  induction as generalizing s with
  | nil => trivial
  | cons a as ih =>
    refine ⟨hCD s a h.1, ?_⟩
    have hrest := h.2
    cases hs : S.step s a with
    | none => trivial
    | some t =>
      rw [hs] at hrest
      exact ih hrest

theorem ReachableBy.exec {as : List α} (hs : S.ReachableBy C s) (hC : S.Meets C s as)
    (h : S.exec s as = some t) : S.ReachableBy C t := by
  induction as generalizing s with
  | nil =>
    cases h
    exact hs
  | cons a as ih =>
    obtain ⟨u, hu, ht⟩ := Option.bind_eq_some_iff.mp h
    obtain ⟨ha, hrest⟩ := hC
    rw [hu] at hrest
    exact ih (.step hs ha hu) hrest ht

theorem Reachable.exec {as : List α} (hs : S.Reachable s) (h : S.exec s as = some t) :
    S.Reachable t := by
  apply exec_invariant (I := S.Reachable) ?_ hs h
  intro u a v _ hu hv
  exact .step hu trivial hv

/-- Every state that the replay passes through, the first and the last included, meets `P`. -/
def Visits (S : TransitionSystem σ α) (P : σ → Prop) : σ → List α → Prop
  | s, [] => P s
  | s, a :: as => P s ∧
    match S.step s a with
    | none => True
    | some t => Visits S P t as

instance Visits.decidable (S : TransitionSystem σ α) (P : σ → Prop) [∀ s, Decidable (P s)] :
    ∀ s as, Decidable (S.Visits P s as)
  | s, [] => inferInstanceAs (Decidable (P s))
  | s, a :: as =>
    have : Decidable (match S.step s a with
        | none => True
        | some t => S.Visits P t as) :=
      match S.step s a with
      | none => isTrue trivial
      | some t => Visits.decidable S P t as
    inferInstanceAs (Decidable (_ ∧ _))

/-- Where a step keeps `P` exactly under the condition `C`, a run stays in `P` exactly if all its
steps meet `C`. -/
theorem visits_iff_meets {I P : σ → Prop}
    (hstep : ∀ s a t, I s → P s → S.step s a = some t → I t ∧ (P t ↔ C s a))
    {as : List α} (hI : I s) (hP : P s) (hrun : S.exec s as = some t) :
    S.Visits P s as ↔ S.Meets C s as := by
  induction as generalizing s with
  | nil => exact iff_of_true hP trivial
  | cons a as ih =>
    obtain ⟨u, hu, ht⟩ := Option.bind_eq_some_iff.mp hrun
    obtain ⟨hIu, hiff⟩ := hstep _ _ _ hI hP hu
    simp only [Visits, Meets, hu]
    constructor
    · rintro ⟨-, hrest⟩
      have hPu : P u := by
        cases as with
        | nil => exact hrest
        | cons b bs => exact hrest.1
      exact ⟨hiff.mp hPu, (ih hIu hPu ht).mp hrest⟩
    · rintro ⟨hC, hrest⟩
      exact ⟨hP, (ih hIu (hiff.mpr hC) ht).mpr hrest⟩

/-- Forward simulation: every step of `A` is matched by a run of `B` (possibly empty). -/
structure Refines (A : TransitionSystem σ α) (B : TransitionSystem τ β)
    (R : σ → τ → Prop) : Prop where
  init : ∀ s, A.init s → ∃ t, B.init t ∧ R s t
  step : ∀ s a s' t, R s t → A.step s a = some s' → ∃ bs t', B.exec t bs = some t' ∧ R s' t'

/-- A simulation of the runs under a condition, which may use what is known of both sides. -/
theorem ReachableBy.simulate {A : TransitionSystem σ α} {B : TransitionSystem τ β}
    {C : σ → α → Prop} {R : σ → τ → Prop} (hinit : ∀ s, A.init s → ∃ t, B.init t ∧ R s t)
    (hstep : ∀ s a s' t, B.Reachable t → R s t → C s a → A.step s a = some s' →
      ∃ bs t', B.exec t bs = some t' ∧ R s' t')
    {s : σ} (h : A.ReachableBy C s) : ∃ t, B.Reachable t ∧ R s t := by
  induction h with
  | init h =>
    obtain ⟨t, ht, hst⟩ := hinit _ h
    exact ⟨t, .init ht, hst⟩
  | step _ hc hs ih =>
    obtain ⟨t, ht, hst⟩ := ih
    obtain ⟨bs, t', he, hst'⟩ := hstep _ _ _ _ ht hst hc hs
    exact ⟨t', ht.exec he, hst'⟩

theorem Refines.reachable {A : TransitionSystem σ α} {B : TransitionSystem τ β}
    {R : σ → τ → Prop} (hR : Refines A B R) {s : σ} (h : A.Reachable s) :
    ∃ t, B.Reachable t ∧ R s t :=
  h.simulate hR.init fun s a s' t _ hst _ hs => hR.step s a s' t hst hs

/-- A simulation by an abstraction function, under which a step is one step or none. -/
theorem Refines.of_abs {A : TransitionSystem σ α} {B : TransitionSystem τ β} {f : σ → τ}
    (hinit : ∀ s, A.init s → B.init (f s))
    (hstep : ∀ s a t, A.step s a = some t → f t = f s ∨ ∃ b, B.step (f s) b = some (f t)) :
    Refines A B fun s t => t = f s where
  init s hs := ⟨f s, hinit s hs, rfl⟩
  step := by
    rintro s a t - rfl hs
    rcases hstep s a t hs with heq | ⟨b, hb⟩
    · exact ⟨[], f s, rfl, heq.symm⟩
    · exact ⟨[b], f t, exec_singleton hb, rfl⟩

/-- A run under a condition, seen through an abstraction function under which a step is one step or
none. -/
theorem ReachableBy.abs {A : TransitionSystem σ α} {B : TransitionSystem τ β} {C : σ → α → Prop}
    {D : τ → β → Prop} {f : σ → τ} (hinit : ∀ s, A.init s → B.init (f s))
    (hstep : ∀ s a t, A.ReachableBy C s → C s a → A.step s a = some t →
      f t = f s ∨ ∃ b, D (f s) b ∧ B.step (f s) b = some (f t))
    {s : σ} (h : A.ReachableBy C s) : B.ReachableBy D (f s) := by
  induction h with
  | init h => exact .init (hinit _ h)
  | step hr hc hs ih =>
    rcases hstep _ _ _ hr hc hs with heq | ⟨b, hb, hs⟩
    · exact heq ▸ ih
    · exact .step ih hb hs

end TransitionSystem
