import Mathlib.Data.List.Basic
import Mathlib.Data.List.Induction
import Mathlib.Data.List.Nodup
import Mathlib.Logic.Function.Basic

namespace Table

variable {α : Type*} {l : List α} {i j : ℕ} {a b : α}

theorem lt_length (h : l[i]? = some a) : i < l.length := (List.getElem?_eq_some_iff.mp h).1

theorem getElem?_set_self (h : l[i]? = some a) (b : α) : (l.set i b)[i]? = some b :=
  List.getElem?_set_self (lt_length h)

theorem set_self (h : l[i]? = some a) : l.set i a = l := by
  obtain ⟨hlt, rfl⟩ := List.getElem?_eq_some_iff.mp h
  exact List.set_getElem_self hlt

theorem getElem?_set_cases (h : (l.set i b)[j]? = some a) :
    j = i ∧ a = b ∨ j ≠ i ∧ l[j]? = some a := by
  by_cases hj : j = i
  · have hlt : i < l.length := by
      have := lt_length h
      rw [List.length_set] at this
      omega
    rw [hj, List.getElem?_set_self hlt] at h
    exact .inl ⟨hj, (Option.some.inj h).symm⟩
  · rw [List.getElem?_set_ne (Ne.symm hj)] at h
    exact .inr ⟨hj, h⟩

theorem mem_set_cases (h : a ∈ l.set i b) : a = b ∨ ∃ j, j ≠ i ∧ l[j]? = some a := by
  obtain ⟨j, hj⟩ := List.mem_iff_getElem?.mp h
  exact (getElem?_set_cases hj).imp And.right fun hs => ⟨j, hs⟩

theorem getElem?_append_one (l : List α) (a : α) : (l ++ [a])[l.length]? = some a := by
  rw [List.getElem?_append_right (Nat.le_refl _), Nat.sub_self]
  rfl

theorem getElem?_append_one_cases (h : (l ++ [b])[j]? = some a) :
    l[j]? = some a ∨ j = l.length ∧ a = b := by
  by_cases hj : j < l.length
  · rw [List.getElem?_append_left hj] at h
    exact .inl h
  · have hlt := lt_length h
    rw [List.length_append, List.length_singleton] at hlt
    have hend : j = l.length := by omega
    rw [hend, getElem?_append_one] at h
    exact .inr ⟨hend, (Option.some.inj h).symm⟩

theorem getElem?_append_of_some (h : l[i]? = some a) (b : α) : (l ++ [b])[i]? = some a := by
  rw [List.getElem?_append_left (lt_length h)]
  exact h

theorem map_set_of_eq {β : Type*} {f : α → β} (h : l[i]? = some a) (hf : f b = f a) :
    (l.set i b).map f = l.map f := by
  rw [List.map_set, hf]
  apply set_self
  rw [List.getElem?_map, h]
  rfl

/-- An update that keeps `P` of the entry it replaces keeps it of every entry. -/
theorem set_keeps {P : α → Prop} (hi : l[i]? = some a) {a' : α} (hkeep : P a → P a')
    (hj : l[j]? = some b) (hb : P b) : ∃ b', (l.set i a')[j]? = some b' ∧ P b' := by
  by_cases hij : i = j
  · subst hij
    rw [hi, Option.some.injEq] at hj
    exact ⟨a', getElem?_set_self hi a', hkeep (hj ▸ hb)⟩
  · exact ⟨b, by rwa [List.getElem?_set_ne hij], hb⟩

/-- A replacement as an update of what is read off the entries. -/
theorem lookup_set {β : Type*} (g : Option α → β) (h : l[i]? = some a) (b : α) :
    (fun j : ℕ => g (l.set i b)[j]?) = Function.update (fun j : ℕ => g l[j]?) i (g (some b)) := by
  funext j
  by_cases hij : j = i
  · rw [hij, Function.update_self, getElem?_set_self h]
  · rw [Function.update_of_ne hij, List.getElem?_set_ne (Ne.symm hij)]

theorem lookup_set_of_eq {β : Type*} (g : Option α → β) (h : l[i]? = some a) {b : α}
    (hb : g (some b) = g (some a)) : (fun j : ℕ => g (l.set i b)[j]?) = fun j : ℕ => g l[j]? := by
  rw [lookup_set g h, hb, ← h, Function.update_eq_self]

/-- A new entry, which is read off the table as an update. -/
theorem lookup_append {β : Type*} (g : Option α → β) (l : List α) (b : α) :
    (fun j : ℕ => g (l ++ [b])[j]?) =
      Function.update (fun j : ℕ => g l[j]?) l.length (g (some b)) := by
  funext j
  by_cases hj : j = l.length
  · rw [hj, Function.update_self, getElem?_append_one]
  · rw [Function.update_of_ne hj]
    rcases Nat.lt_or_gt_of_ne hj with hlt | hgt
    · rw [List.getElem?_append_left hlt]
    · rw [List.getElem?_eq_none (Nat.le_of_lt hgt), List.getElem?_eq_none]
      rw [List.length_append]
      exact hgt

theorem lookup_append_of_eq {β : Type*} (g : Option α → β) (l : List α) {b : α}
    (hb : g (some b) = g none) : (fun j : ℕ => g (l ++ [b])[j]?) = fun j : ℕ => g l[j]? := by
  have hend : g (some b) = g l[l.length]? :=
    hb.trans (congrArg g (List.getElem?_eq_none (Nat.le_refl _)).symm)
  rw [lookup_append, hend, Function.update_eq_self]

variable {p : α → Bool}

def indices (p : α → Bool) (l : List α) : List ℕ :=
  (List.range l.length).filter fun j => l[j]?.any p

theorem mem_indices : j ∈ indices p l ↔ l[j]?.any p = true := by
  rw [indices, List.mem_filter, List.mem_range]
  refine and_iff_right_of_imp fun h => ?_
  obtain ⟨a, ha, -⟩ := (Option.any_eq_true _ _).mp h
  exact lt_length ha

theorem nodup_indices (p : α → Bool) (l : List α) : (indices p l).Nodup :=
  List.nodup_range.filter _

theorem indices_append (p : α → Bool) (l m : List α) :
    indices p (l ++ m) = indices p l ++ (indices p m).map (l.length + ·) := by
  rw [indices, List.length_append, List.range_add, List.filter_append, List.filter_map]
  congr 1
  · apply List.filter_congr
    intro j hj
    rw [List.getElem?_append_left (List.mem_range.mp hj)]
  · congr 1
    apply List.filter_congr
    intro j _
    show (l ++ m)[l.length + j]?.any p = m[j]?.any p
    rw [List.getElem?_append_right (Nat.le_add_right ..), Nat.add_sub_cancel_left]

theorem indices_eq_nil (h : ∀ a ∈ l, p a = false) : indices p l = [] := by
  apply List.eq_nil_iff_forall_not_mem.mpr
  intro j hj
  obtain ⟨a, ha, hp⟩ := (Option.any_eq_true _ _).mp (mem_indices.mp hj)
  rw [h a (List.mem_of_getElem? ha)] at hp
  cases hp

theorem indices_eq_range (h : ∀ a ∈ l, p a = true) : indices p l = List.range l.length := by
  apply List.filter_eq_self.mpr
  intro j hj
  rw [List.getElem?_eq_getElem (List.mem_range.mp hj)]
  exact h _ (List.getElem_mem _)

theorem indices_append_of_not {m : List α} (l : List α) (h : ∀ a ∈ m, p a = false) :
    indices p (l ++ m) = indices p l := by
  rw [indices_append, indices_eq_nil h, List.map_nil, List.append_nil]

theorem indices_append_of_all {m : List α} (l : List α) (h : ∀ a ∈ m, p a = true) :
    indices p (l ++ m) = indices p l ++ (List.range m.length).map (l.length + ·) := by
  rw [indices_append, indices_eq_range h]

theorem length_indices (p : α → Bool) (l : List α) : (indices p l).length = l.countP p := by
  induction l using List.reverseRecOn with
  | nil => rfl
  | append_singleton l a ih =>
    rw [indices_append, List.length_append, List.length_map, ih, List.countP_append,
      List.countP_singleton]
    cases ha : p a with
    | true =>
      rw [indices_eq_range fun b hb => List.mem_singleton.mp hb ▸ ha]
      rfl
    | false =>
      rw [indices_eq_nil fun b hb => List.mem_singleton.mp hb ▸ ha]
      rfl

theorem indices_set_of_eq (h : l[i]? = some a) (hb : p b = p a) :
    indices p (l.set i b) = indices p l := by
  have hlook := lookup_set_of_eq (Option.any p) h hb
  rw [indices, List.length_set]
  exact List.filter_congr fun j _ => congrFun hlook j

theorem indices_set_head (h : l[i]? = some a) (hb : p b = false) {is : List ℕ}
    (hhead : indices p l = i :: is) : indices p (l.set i b) = is := by
  have hnodup : (i :: is).Nodup := hhead ▸ nodup_indices p l
  have hfilter : indices p (l.set i b) = (indices p l).filter (· ≠ i) := by
    rw [indices, indices, List.length_set, List.filter_filter]
    apply List.filter_congr
    intro j _
    by_cases hj : j = i
    · rw [hj, getElem?_set_self h]
      simp [hb]
    · rw [List.getElem?_set_ne (Ne.symm hj)]
      simp [hj]
  rw [hfilter, hhead, List.filter_cons_of_neg (by simp)]
  apply List.filter_eq_self.mpr
  intro j hj
  have hne : j ≠ i := fun heq => (List.nodup_cons.mp hnodup).1 (heq ▸ hj)
  exact decide_eq_true hne

end Table
