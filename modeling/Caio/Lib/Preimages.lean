import Mathlib.Data.Set.Card

namespace Preimages

variable {α β : Type*} {f : α → Option β}

/-- How many places have the value `y`. -/
noncomputable def count (f : α → Option β) (y : β) : ℕ := Set.ncard {x | f x = some y}

def Finite (f : α → Option β) : Prop := Set.Finite {x | f x ≠ none}

theorem finite_none : Finite fun _ : α => (none : Option β) := by
  have hempty : {x : α | (none : Option β) ≠ none} = ∅ := by
    ext x
    exact iff_of_false (fun h => h rfl) (Set.notMem_empty x)
  rw [Finite, hempty]
  exact Set.finite_empty

theorem count_none (y : β) : count (fun _ : α => none) y = 0 := by
  have hempty : {x : α | (none : Option β) = some y} = ∅ := by
    ext x
    exact iff_of_false (fun h => by cases h) (Set.notMem_empty x)
  rw [count, hempty, Set.ncard_empty]

theorem Finite.preimage (h : Finite f) (y : β) : Set.Finite {x | f x = some y} := by
  apply Set.Finite.subset h
  intro x hx hnone
  cases hnone.symm.trans hx

section Update

variable [DecidableEq α]

theorem Finite.update (h : Finite f) (x : α) (v : Option β) : Finite (Function.update f x v) := by
  apply (Set.Finite.insert x h).subset
  intro z hz
  by_cases hzx : z = x
  · exact .inl hzx
  · refine .inr fun hnone => hz ?_
    rw [Function.update_of_ne hzx]
    exact hnone

variable [DecidableEq β]

theorem Finite.count_eq (h : Finite f) (x : α) (y : β) :
    count f y = Set.ncard {z | f z = some y ∧ z ≠ x} + (decide (f x = some y)).toNat := by
  have hfinite : Set.Finite {z | f z = some y ∧ z ≠ x} := (h.preimage y).subset fun z hz => hz.1
  by_cases hx : f x = some y
  · have hinsert : {z | f z = some y} = insert x {z | f z = some y ∧ z ≠ x} := by
      ext z
      by_cases hzx : z = x
      · exact iff_of_true (hzx ▸ hx) (.inl hzx)
      · exact ⟨fun hz => .inr ⟨hz, hzx⟩, fun hz => (hz.resolve_left hzx).1⟩
    rw [count, hinsert, Set.ncard_insert_of_notMem (fun hz => hz.2 rfl) hfinite, decide_eq_true hx]
    rfl
  · have hsame : {z | f z = some y} = {z | f z = some y ∧ z ≠ x} := by
      ext z
      exact ⟨fun hz => ⟨hz, fun hzx => hx (hzx ▸ hz)⟩, fun hz => hz.1⟩
    rw [decide_eq_false hx, count, hsame]
    rfl

theorem count_update (h : Finite f) (x : α) (v : Option β) (y : β) :
    count (Function.update f x v) y + (decide (f x = some y)).toNat =
      count f y + (decide (v = some y)).toNat := by
  have hsame : {z | Function.update f x v z = some y ∧ z ≠ x} = {z | f z = some y ∧ z ≠ x} := by
    ext z
    refine and_congr_left fun hzx => ?_
    rw [Function.update_of_ne hzx]
  rw [(h.update x v).count_eq x y, h.count_eq x y, hsame, Function.update_self]
  omega

end Update

theorem length_le_count (h : Finite f) {l : List α} (hl : l.Nodup) {y : β}
    (hy : ∀ x ∈ l, f x = some y) : l.length ≤ count f y := by
  classical
  calc
    l.length = l.toFinset.card := (List.toFinset_card_of_nodup hl).symm
    _ = Set.ncard (l.toFinset : Set α) := (Set.ncard_coe_finset _).symm
    _ ≤ count f y := by
      apply Set.ncard_le_ncard _ (h.preimage y)
      intro x hx
      exact hy x (List.mem_toFinset.mp hx)

end Preimages
