import Caio.Lib.Transition

structure Sleepers where
  /-- Items that nobody has taken. -/
  items : ℕ
  looking : ℕ
  asleep : ℕ
  closed : Bool
deriving DecidableEq

attribute [ext] Sleepers

namespace Sleepers

inductive Action
  /-- A new item, with a signal that wakes one worker if any is asleep. -/
  | produce
  | consume
  /-- A worker finds nothing. -/
  | sleep
  /-- A worker wakes up without a signal. -/
  | stir
  /-- A worker comes to look. -/
  | arrive
  /-- Everybody is woken, and nobody sleeps again. -/
  | close
  | leave

def step (s : Sleepers) : Action → Option Sleepers
  | .produce =>
    if s.closed then none
    else if s.asleep = 0 then some { s with items := s.items + 1 }
    else some { s with items := s.items + 1, looking := s.looking + 1, asleep := s.asleep - 1 }
  | .consume =>
    if 0 < s.items ∧ 0 < s.looking then
      some { s with items := s.items - 1, looking := s.looking - 1 }
    else none
  | .sleep =>
    if s.closed = false ∧ s.items = 0 ∧ 0 < s.looking then
      some { s with looking := s.looking - 1, asleep := s.asleep + 1 }
    else none
  | .stir =>
    if 0 < s.asleep then some { s with looking := s.looking + 1, asleep := s.asleep - 1 }
    else none
  | .arrive => some { s with looking := s.looking + 1 }
  | .close => some { s with looking := s.looking + s.asleep, asleep := 0, closed := true }
  | .leave =>
    if s.closed ∧ 0 < s.looking then some { s with looking := s.looking - 1 } else none

def system : TransitionSystem Sleepers Action where
  init s := s.asleep = 0
  step := step

section Rules

variable {s t : Sleepers}

theorem step_produce (hopen : s.closed = false) (hclosed : t.closed = s.closed)
    (hitems : t.items = s.items + 1) (h : s.asleep = 0 ∧ t.asleep = 0 ∧ t.looking = s.looking ∨
      s.asleep = t.asleep + 1 ∧ t.looking = s.looking + 1) : s.step .produce = some t := by
  simp only [step]
  rw [if_neg (by rw [hopen]; exact Bool.false_ne_true)]
  rcases h with ⟨hzero, hzero', hlook⟩ | ⟨hasleep, hlook⟩
  · rw [if_pos hzero]
    exact congrArg some (Sleepers.ext hitems.symm hlook.symm (hzero.trans hzero'.symm) hclosed.symm)
  · rw [if_neg (by omega)]
    refine congrArg some (Sleepers.ext hitems.symm hlook.symm ?_ hclosed.symm)
    show s.asleep - 1 = t.asleep
    omega

theorem step_consume (hclosed : t.closed = s.closed) (hitems : s.items = t.items + 1)
    (hlook : s.looking = t.looking + 1) (hasleep : t.asleep = s.asleep) :
    s.step .consume = some t := by
  simp only [step]
  rw [if_pos ⟨by omega, by omega⟩]
  refine congrArg some (Sleepers.ext ?_ ?_ hasleep.symm hclosed.symm)
  · show s.items - 1 = t.items
    omega
  · show s.looking - 1 = t.looking
    omega

theorem step_sleep (hopen : s.closed = false) (hclosed : t.closed = s.closed)
    (hempty : s.items = 0) (hitems : t.items = s.items) (hlook : s.looking = t.looking + 1)
    (hasleep : t.asleep = s.asleep + 1) : s.step .sleep = some t := by
  simp only [step]
  rw [if_pos ⟨hopen, hempty, by omega⟩]
  refine congrArg some (Sleepers.ext hitems.symm ?_ hasleep.symm hclosed.symm)
  show s.looking - 1 = t.looking
  omega

theorem step_stir (hclosed : t.closed = s.closed) (hitems : t.items = s.items)
    (hlook : t.looking = s.looking + 1) (hasleep : s.asleep = t.asleep + 1) :
    s.step .stir = some t := by
  simp only [step]
  rw [if_pos (by omega)]
  refine congrArg some (Sleepers.ext hitems.symm hlook.symm ?_ hclosed.symm)
  show s.asleep - 1 = t.asleep
  omega

theorem step_arrive (hclosed : t.closed = s.closed) (hitems : t.items = s.items)
    (hlook : t.looking = s.looking + 1) (hasleep : t.asleep = s.asleep) :
    s.step .arrive = some t :=
  congrArg some (Sleepers.ext hitems.symm hlook.symm hasleep.symm hclosed.symm)

theorem step_close (hclosed : t.closed = true) (hitems : t.items = s.items)
    (hlook : t.looking = s.looking + s.asleep) (hasleep : t.asleep = 0) :
    s.step .close = some t :=
  congrArg some (Sleepers.ext hitems.symm hlook.symm hasleep.symm hclosed.symm)

theorem step_leave (h : s.closed = true) (hclosed : t.closed = s.closed)
    (hitems : t.items = s.items) (hlook : s.looking = t.looking + 1)
    (hasleep : t.asleep = s.asleep) : s.step .leave = some t := by
  simp only [step]
  rw [if_pos ⟨h, by omega⟩]
  refine congrArg some (Sleepers.ext hitems.symm ?_ hasleep.symm hclosed.symm)
  show s.looking - 1 = t.looking
  omega

end Rules

/-- While a worker sleeps, there is for every item a worker who will look. -/
def Covered (s : Sleepers) : Prop := 0 < s.asleep → s.closed = false ∧ s.items ≤ s.looking

variable {s t : Sleepers}

theorem Covered.step (h : s.Covered) {a : Action} (hs : s.step a = some t) : t.Covered := by
  cases a with
  | produce =>
    obtain ⟨hopen, hs⟩ := Option.ite_none_left_eq_some.mp hs
    split at hs
    · rename_i hzero
      cases hs
      exact fun hpos => absurd hzero (Nat.ne_of_gt hpos)
    · rename_i hpos
      cases hs
      have hle := (h (Nat.pos_of_ne_zero hpos)).2
      exact fun _ => ⟨Bool.not_eq_true _ ▸ hopen, Nat.succ_le_succ hle⟩
  | consume =>
    obtain ⟨-, hs⟩ := Option.ite_none_right_eq_some.mp hs
    cases hs
    exact fun hpos => ⟨(h hpos).1, Nat.sub_le_sub_right (h hpos).2 1⟩
  | sleep =>
    obtain ⟨⟨hopen, hzero, -⟩, hs⟩ := Option.ite_none_right_eq_some.mp hs
    cases hs
    exact fun _ => ⟨hopen, hzero ▸ Nat.zero_le _⟩
  | stir =>
    obtain ⟨hpos, hs⟩ := Option.ite_none_right_eq_some.mp hs
    cases hs
    exact fun _ => ⟨(h hpos).1, Nat.le_succ_of_le (h hpos).2⟩
  | arrive =>
    cases hs
    exact fun hpos => ⟨(h hpos).1, Nat.le_succ_of_le (h hpos).2⟩
  | close =>
    cases hs
    exact fun hpos => absurd hpos (Nat.lt_irrefl 0)
  | leave =>
    obtain ⟨⟨hclosed, -⟩, hs⟩ := Option.ite_none_right_eq_some.mp hs
    cases hs
    exact fun hpos => absurd (hclosed.symm.trans (h hpos).1) Bool.false_ne_true.symm

theorem covered (h : system.Reachable s) : s.Covered :=
  h.invariant (fun _ hinit hpos => absurd hinit (Nat.ne_of_gt hpos))
    fun _ _ _ h _ hs => h.step hs

end Sleepers
