import Mathlib.Algebra.BigOperators.Group.List.Basic
import Mathlib.Algebra.GroupWithZero.Nat
import Mathlib.Data.List.Count
import Mathlib.Logic.Function.Basic

namespace Counting

variable {α : Type*} {l : List α} {i : ℕ} {a : α}

theorem countP_set (h : l[i]? = some a) (b : α) (p : α → Bool) :
    (l.set i b).countP p + (p a).toNat = l.countP p + (p b).toNat := by
  obtain ⟨hlt, rfl⟩ := List.getElem?_eq_some_iff.mp h
  have hpos := List.boole_getElem_le_countP (p := p) (l := l) hlt
  have hnum : ∀ b : Bool, b.toNat = if b = true then 1 else 0 := by decide
  rw [List.countP_set hlt, hnum, hnum]
  omega

theorem countP_cons (a : α) (l : List α) (p : α → Bool) :
    (a :: l).countP p = l.countP p + (p a).toNat := by
  rw [List.countP_cons]
  cases p a <;> rfl

theorem countP_one (a : α) (p : α → Bool) : [a].countP p = (p a).toNat :=
  (countP_cons a [] p).trans (Nat.zero_add _)

theorem countP_set_of_eq (h : l[i]? = some a) {b : α} {p : α → Bool} (hp : p b = p a) :
    (l.set i b).countP p = l.countP p := by
  have := countP_set h b p
  rw [hp] at this
  exact Nat.add_right_cancel this

theorem countP_append_one (l : List α) (a : α) (p : α → Bool) :
    (l ++ [a]).countP p = l.countP p + (p a).toNat := by
  rw [List.countP_append, countP_one]

theorem countP_erase [BEq α] [LawfulBEq α] (h : a ∈ l) (p : α → Bool) :
    (l.erase a).countP p + (p a).toNat = l.countP p := by
  rw [(List.perm_cons_erase h).countP_eq p, countP_cons]

theorem sum_map_set (h : l[i]? = some a) (b : α) (f : α → ℕ) :
    ((l.set i b).map f).sum + f a = (l.map f).sum + f b := by
  induction l generalizing i with
  | nil => cases h
  | cons x xs ih =>
    cases i with
    | zero =>
      cases h
      simp only [List.set_cons_zero, List.map_cons, List.sum_cons]
      omega
    | succ i =>
      have := ih h
      simp only [List.set_cons_succ, List.map_cons, List.sum_cons]
      omega

theorem le_sum_map (h : l[i]? = some a) (f : α → ℕ) : f a ≤ (l.map f).sum := by
  induction l generalizing i with
  | nil => cases h
  | cons x xs ih =>
    rw [List.map_cons, List.sum_cons]
    cases i with
    | zero =>
      cases h
      exact Nat.le_add_right ..
    | succ i => exact Nat.le_trans (ih h) (Nat.le_add_left ..)

theorem add_le_sum_map {j : ℕ} {b : α} (hi : l[i]? = some a) (hj : l[j]? = some b) (hij : i ≠ j)
    (f : α → ℕ) : f a + f b ≤ (l.map f).sum := by
  induction l generalizing i j with
  | nil => cases hi
  | cons x xs ih =>
    rw [List.map_cons, List.sum_cons]
    cases i with
    | zero =>
      cases hi
      cases j with
      | zero => exact absurd rfl hij
      | succ j =>
        have := le_sum_map (l := xs) hj f
        omega
    | succ i =>
      cases j with
      | zero =>
        cases hj
        have := le_sum_map (l := xs) hi f
        omega
      | succ j =>
        have := ih hi hj fun heq => hij (congrArg (· + 1) heq)
        omega

theorem countP_pos_of_getElem? (h : l[i]? = some a) {p : α → Bool} (hp : p a = true) :
    0 < l.countP p := List.countP_pos_iff.mpr ⟨a, List.mem_of_getElem? h, hp⟩

/-- Entries that a count of at most one sees are the same entry. -/
theorem eq_of_countP_le_one {p : α → Bool} {j : ℕ} {b : α} (hl : l.countP p ≤ 1)
    (hi : l[i]? = some a) (hj : l[j]? = some b) (ha : p a = true) (hb : p b = true) : i = j := by
  induction l generalizing i j with
  | nil => cases hi
  | cons x xs ih =>
    rw [List.countP_cons] at hl
    cases i with
    | zero =>
      cases j with
      | zero => rfl
      | succ j =>
        cases hi
        have := countP_pos_of_getElem? (l := xs) hj hb
        rw [if_pos ha] at hl
        omega
    | succ i =>
      cases j with
      | zero =>
        cases hj
        have := countP_pos_of_getElem? (l := xs) hi ha
        rw [if_pos hb] at hl
        omega
      | succ j => exact congrArg (· + 1) (ih (Nat.le_trans (Nat.le_add_right ..) hl) hi hj)

section Keys

variable {β : Type*} [DecidableEq β]

/-- One more, or one less, at one index. -/
def bump (f : β → ℕ) (y : β) : β → ℕ := Function.update f y (f y + 1)

def drop (f : β → ℕ) (y : β) : β → ℕ := Function.update f y (f y - 1)

theorem bump_apply (f : β → ℕ) (y z : β) :
    bump f y z = f z + if z = y then 1 else 0 := by
  unfold bump
  by_cases h : z = y
  · subst h
    rw [Function.update_self, if_pos rfl]
  · rw [Function.update_of_ne h, if_neg h, Nat.add_zero]

theorem drop_apply (f : β → ℕ) (y z : β) :
    drop f y z = f z - if z = y then 1 else 0 := by
  unfold drop
  by_cases h : z = y
  · subst h
    rw [Function.update_self, if_pos rfl]
  · rw [Function.update_of_ne h, if_neg h, Nat.sub_zero]

variable {key : α → β → Bool} {y : β} {b : α}

/-- The new entry counts for one key, the old one for none. -/
theorem countP_set_bump (h : l[i]? = some a) (ha : ∀ z, key a z = false)
    (hb : ∀ z, key b z = decide (z = y)) :
    (fun z => (l.set i b).countP (key · z)) = bump (fun z => l.countP (key · z)) y := by
  funext z
  have := countP_set h b (key · z)
  rw [ha, hb] at this
  rw [bump_apply]
  by_cases hz : z = y
  · rw [decide_eq_true hz] at this
    rw [if_pos hz]
    exact this
  · rw [decide_eq_false hz] at this
    rw [if_neg hz]
    exact this

/-- The old entry counts for one key, the new one for none. -/
theorem countP_set_drop (h : l[i]? = some a) (ha : ∀ z, key a z = decide (z = y))
    (hb : ∀ z, key b z = false) :
    (fun z => (l.set i b).countP (key · z)) = drop (fun z => l.countP (key · z)) y := by
  funext z
  have := countP_set h b (key · z)
  rw [ha, hb] at this
  rw [drop_apply]
  by_cases hz : z = y
  · rw [decide_eq_true hz] at this
    rw [if_pos hz]
    exact Nat.eq_sub_of_add_eq this
  · rw [decide_eq_false hz] at this
    rw [if_neg hz]
    exact this

theorem countP_append_bump (l : List α) (hb : ∀ z, key b z = decide (z = y)) :
    (fun z => (l ++ [b]).countP (key · z)) = bump (fun z => l.countP (key · z)) y := by
  funext z
  rw [countP_append_one, hb, bump_apply]
  by_cases hz : z = y
  · rw [decide_eq_true hz, if_pos hz]
    rfl
  · rw [decide_eq_false hz, if_neg hz]
    rfl

theorem countP_key_pos (h : l[i]? = some a) (ha : ∀ z, key a z = decide (z = y)) :
    0 < l.countP (key · y) := countP_pos_of_getElem? h (by rw [ha]; exact decide_eq_true rfl)

end Keys

end Counting
