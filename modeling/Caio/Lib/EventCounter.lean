import Mathlib.Data.List.Basic

structure EventCounter (ε : Type*) where
  value : ℕ
  /-- Announced events whose signal is still to come. -/
  pending : List ε

namespace EventCounter

variable {ε : Type*} {c d : EventCounter ε}

def announce (c : EventCounter ε) (e : ε) : EventCounter ε := { c with pending := c.pending ++ [e] }

/-- The signal for the announced events that are not among `rest`. -/
def signal [DecidableEq ε] (c : EventCounter ε) (rest : List ε) : Option (EventCounter ε) :=
  if rest.Sublist c.pending ∧ rest ≠ c.pending then some ⟨c.value + 1, rest⟩ else none

def read (c : EventCounter ε) : EventCounter ε := { c with value := 0 }

/-- Whoever waits for a value above zero gets one. -/
def Awake (c : EventCounter ε) : Prop := 0 < c.value ∨ c.pending ≠ []

@[simp] theorem awake_announce (c : EventCounter ε) (e : ε) : (c.announce e).Awake :=
  .inr (List.append_ne_nil_of_right_ne_nil _ (List.cons_ne_nil _ _))

theorem value_signal [DecidableEq ε] {rest : List ε} (h : c.signal rest = some d) :
    0 < d.value := by
  obtain ⟨-, h⟩ := Option.ite_none_right_eq_some.mp h
  cases h
  exact Nat.succ_pos _

end EventCounter
