import Mathlib.Data.List.Basic
import Mathlib.Data.List.Count
import Mathlib.Data.List.Perm.Basic

namespace Journal

variable {ε : Type*}

/-- The entries of party `j`, in their order. -/
def entries (log : List (ℕ × ε)) (j : ℕ) : List ε :=
  log.filterMap fun e => if e.1 = j then some e.2 else none

def write (log : List (ℕ × ε)) (j : ℕ) (es : List ε) : List (ℕ × ε) := log ++ es.map (Prod.mk j)

variable (log : List (ℕ × ε)) (j : ℕ) (es : List ε)

theorem entries_write_self : entries (write log j es) j = entries log j ++ es := by
  have hsome : (fun e : ℕ × ε => if e.1 = j then some e.2 else none) ∘ Prod.mk j = some := by
    funext e
    exact if_pos rfl
  rw [entries, write, List.filterMap_append, List.filterMap_map, hsome, List.filterMap_some]
  rfl

theorem entries_write_ne {k : ℕ} (hk : k ≠ j) : entries (write log j es) k = entries log k := by
  have hnone : (fun e : ℕ × ε => if e.1 = k then some e.2 else none) ∘ Prod.mk j =
      fun _ => none := by
    funext e
    exact if_neg (Ne.symm hk)
  rw [entries, write, List.filterMap_append, List.filterMap_map, hnone,
    List.filterMap_eq_nil_iff.mpr fun _ _ => rfl, List.append_nil]
  rfl

/-- A party that has not come up yet has written nothing. -/
theorem entries_eq_nil (h : ∀ e ∈ log, e.1 < j) : entries log j = [] :=
  List.filterMap_eq_nil_iff.mpr fun e he => if_neg (Nat.ne_of_lt (h e he))

/-- Two logs in which each party has the same entries differ in the order of the parties only. -/
theorem perm_of_entries {l l' : List (ℕ × ε)} (h : ∀ j, entries l j = entries l' j) :
    l.Perm l' := by
  classical
  have hcount (l : List (ℕ × ε)) (j : ℕ) (a : ε) : l.count (j, a) = (entries l j).count a := by
    induction l with
    | nil => rfl
    | cons e l ih =>
      obtain ⟨k, b⟩ := e
      rw [List.count_cons, ih]
      by_cases hk : k = j
      · have hcons : entries ((k, b) :: l) j = b :: entries l j :=
          List.filterMap_cons_some (if_pos hk)
        rw [hcons, List.count_cons]
        simp only [beq_iff_eq, Prod.mk.injEq, hk, true_and]
      · have hcons : entries ((k, b) :: l) j = entries l j :=
          List.filterMap_cons_none (if_neg hk)
        rw [hcons, if_neg (by simp [hk])]
        rfl
  rw [List.perm_iff_count]
  rintro ⟨j, a⟩
  rw [hcount, hcount, h]

end Journal
