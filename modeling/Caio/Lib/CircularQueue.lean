import Mathlib.Data.List.Basic
import Mathlib.Logic.Function.Basic

structure CircularQueue (α : Type*) where
  slots : ℕ → α
  size : ℕ
  head : ℕ
  tail : ℕ
  count : ℕ
  head_lt : head < size
  count_le : count ≤ size
  tail_eq : tail = (head + count) % size

namespace CircularQueue

variable {α : Type*} (q : CircularQueue α)

theorem size_pos : 0 < q.size := Nat.zero_lt_of_lt q.head_lt

def empty (slots : ℕ → α) (size : ℕ) (h : 0 < size) : CircularQueue α where
  slots := slots
  size := size
  head := 0
  tail := 0
  count := 0
  head_lt := h
  count_le := Nat.zero_le size
  tail_eq := (Nat.zero_mod size).symm

/-- A new last entry, if there is room. -/
def push (a : α) : Option (CircularQueue α) :=
  if h : q.count = q.size then none
  else
    some { q with
      slots := Function.update q.slots q.tail a
      tail := (q.tail + 1) % q.size
      count := q.count + 1
      count_le := Nat.lt_of_le_of_ne q.count_le h
      tail_eq := by rw [q.tail_eq, Nat.mod_add_mod, Nat.add_assoc] }

/-- The first entry, and the queue without it. -/
def pop : Option (α × CircularQueue α) :=
  if h : q.count = 0 then none
  else
    some (q.slots q.head, { q with
      head := (q.head + 1) % q.size
      count := q.count - 1
      head_lt := Nat.mod_lt _ q.size_pos
      count_le := Nat.le_trans (Nat.sub_le _ _) q.count_le
      tail_eq := by
        rw [q.tail_eq, Nat.mod_add_mod, Nat.add_assoc,
          Nat.add_sub_cancel' (Nat.pos_of_ne_zero h)] })

def contents : List α := (List.range q.count).map fun i => q.slots ((q.head + i) % q.size)

variable {q} {q' : CircularQueue α} {a : α}

@[simp] theorem length_contents : q.contents.length = q.count := by
  rw [contents, List.length_map, List.length_range]

/-- Places that are less than a round apart are different ones. -/
theorem place_ne {i : ℕ} (hi : i < q.count) (hcount : q.count < q.size) :
    (q.head + i) % q.size ≠ q.tail := by
  rw [q.tail_eq]
  intro heq
  have hdvd : q.size ∣ q.head + q.count - (q.head + i) :=
    Nat.dvd_of_mod_eq_zero (Nat.sub_mod_eq_zero_of_mod_eq heq.symm)
  rw [Nat.add_sub_add_left] at hdvd
  exact absurd (Nat.le_of_dvd (by omega) hdvd) (by omega)

theorem push_eq_none : q.push a = none ↔ q.count = q.size := by
  unfold push
  by_cases h : q.count = q.size
  · exact iff_of_true (dif_pos h) h
  · rw [dif_neg h]
    exact iff_of_false (Option.some_ne_none _) h

theorem pop_eq_none : q.pop = none ↔ q.contents = [] := by
  rw [← List.length_eq_zero_iff, length_contents]
  unfold pop
  by_cases h : q.count = 0
  · exact iff_of_true (dif_pos h) h
  · rw [dif_neg h]
    exact iff_of_false (Option.some_ne_none _) h

theorem push_eq_some (h : q.push a = some q') :
    q.contents.length < q.size ∧ q'.size = q.size ∧ q'.contents = q.contents ++ [a] := by
  unfold push at h
  split_ifs at h with hfull
  cases h
  have hlt := Nat.lt_of_le_of_ne q.count_le hfull
  refine ⟨length_contents ▸ hlt, rfl, ?_⟩
  simp only [contents, List.range_succ, List.map_append, List.map_singleton]
  congr 1
  · apply List.map_congr_left
    intro i hi
    exact Function.update_of_ne (place_ne (List.mem_range.mp hi) hlt) ..
  · rw [← q.tail_eq, Function.update_self]

theorem pop_eq_some (h : q.pop = some (a, q')) :
    q'.size = q.size ∧ q.contents = a :: q'.contents := by
  unfold pop at h
  split_ifs at h with hzero
  cases h
  obtain ⟨n, hn⟩ := Nat.exists_eq_succ_of_ne_zero hzero
  refine ⟨rfl, ?_⟩
  simp only [contents, hn, Nat.succ_sub_one, List.range_succ_eq_map, List.map_cons, List.map_map]
  congr 1
  · rw [Nat.add_zero, Nat.mod_eq_of_lt q.head_lt]
  · apply List.map_congr_left
    intro i _
    show q.slots ((q.head + (i + 1)) % q.size) = q.slots (((q.head + 1) % q.size + i) % q.size)
    rw [Nat.mod_add_mod, Nat.add_assoc, Nat.add_comm 1 i]

end CircularQueue
