import Caio.Lib.Counting

namespace ObjectGraph

open Counting

variable {ο : Type*} (edges : ο → List ℕ) (g : List ο)

def edgesAt (y : ℕ) : List ℕ :=
  match g[y]? with
  | none => []
  | some o => edges o

/-- How many references to `x` the objects have. -/
def inEdges (x : ℕ) : ℕ := (g.map fun o => (edges o).count x).sum

inductive Reach (root : ℕ → Prop) : ℕ → Prop
  | root {x : ℕ} : root x → Reach root x
  | edge {y x : ℕ} {o : ο} : Reach root y → g[y]? = some o → x ∈ edges o → Reach root x

/-- All references to the objects in `S` are references between them. -/
structure Garbage (refcnt : ℕ → ℕ) (S : List ℕ) : Prop where
  nodup : S.Nodup
  counted : ∀ x ∈ S, refcnt x = (S.map fun y => (edgesAt edges g y).count x).sum

instance (refcnt : ℕ → ℕ) (S : List ℕ) : Decidable (Garbage edges g refcnt S) :=
  decidable_of_iff (S.Nodup ∧ ∀ x ∈ S, refcnt x = (S.map fun y => (edgesAt edges g y).count x).sum)
    ⟨fun h => ⟨h.1, h.2⟩, fun h => ⟨h.nodup, h.counted⟩⟩

variable {edges g} {root : ℕ → Prop} {refcnt : ℕ → ℕ} {S : List ℕ} {x y : ℕ} {o : ο}

theorem edgesAt_eq (h : g[y]? = some o) : edgesAt edges g y = edges o := by
  rw [edgesAt, h]

theorem inEdges_set (edges : ο → List ℕ) (h : g[y]? = some o) (o' : ο) (x : ℕ) :
    inEdges edges (g.set y o') x + (edges o).count x = inEdges edges g x + (edges o').count x :=
  sum_map_set h o' fun o => (edges o).count x

theorem inEdges_append (g' : List ο) (x : ℕ) :
    inEdges edges (g ++ g') x = inEdges edges g x + inEdges edges g' x := by
  rw [inEdges, List.map_append, List.sum_append]
  rfl

theorem count_le_inEdges (edges : ο → List ℕ) (h : g[y]? = some o) (x : ℕ) :
    (edges o).count x ≤ inEdges edges g x :=
  le_sum_map h fun o => (edges o).count x

theorem inEdges_eq_zero (h : ∀ o ∈ g, x ∉ edges o) : inEdges edges g x = 0 := by
  induction g with
  | nil => rfl
  | cons o g ih =>
    have hrest := ih fun o' ho' => h o' (List.mem_cons_of_mem _ ho')
    rw [inEdges] at hrest ⊢
    rw [List.map_cons, List.sum_cons, hrest, List.count_eq_zero.mpr (h o List.mem_cons_self)]

theorem inEdges_pos (h : g[y]? = some o) (hx : x ∈ edges o) : 0 < inEdges edges g x :=
  Nat.lt_of_lt_of_le (List.count_pos_iff.mpr hx) (count_le_inEdges edges h x)

/-- What a new graph reaches, given that its roots and its references could be reached. -/
theorem Reach.mono {g' : List ο} {root' : ℕ → Prop} {P : ℕ → Prop}
    (hroot : ∀ x, root' x → P x)
    (hedge : ∀ y x o, P y → g'[y]? = some o → x ∈ edges o → P x)
    (h : Reach edges g' root' x) : P x := by
  induction h with
  | root hx => exact hroot _ hx
  | edge _ ho hx ih => exact hedge _ _ _ ih ho hx

/-- Different objects have no more references together than all objects. -/
theorem sum_edgesAt_le (edges : ο → List ℕ) (g : List ο) (hS : S.Nodup) (x : ℕ) :
    (S.map fun y => (edgesAt edges g y).count x).sum ≤ inEdges edges g x := by
  have hvalues : ∀ (l : List ℕ) (T : List ℕ), T.Nodup →
    (T.map fun y => l[y]?.getD 0).sum ≤ l.sum := by
    intro l T hT
    induction T generalizing l with
    | nil => exact Nat.zero_le _
    | cons y T ih =>
      obtain ⟨hy, hT⟩ := List.nodup_cons.mp hT
      rw [List.map_cons, List.sum_cons]
      cases hl : l[y]? with
      | none =>
        rw [Option.getD_none, Nat.zero_add]
        exact ih l hT
      | some n =>
        -- the others do not see that entry `y` becomes 0
        have hrest : (T.map fun z => l[z]?.getD 0) = T.map fun z => (l.set y 0)[z]?.getD 0 := by
          apply List.map_congr_left
          intro z hz
          rw [List.getElem?_set_ne fun heq : y = z => hy (heq ▸ hz)]
        have hset := sum_map_set hl 0 id
        rw [List.map_id, List.map_id] at hset
        have hle := ih (l.set y 0) hT
        rw [Option.getD_some, hrest]
        simp only [id] at hset
        omega
  have hcount : ∀ y, (edgesAt edges g y).count x =
    (g.map fun o => (edges o).count x)[y]?.getD 0 := by
    intro y
    rw [edgesAt, List.getElem?_map]
    cases g[y]? with
    | none => rfl
    | some o => rfl
  simp only [hcount]
  exact hvalues _ S hS

theorem Garbage.not_reach {ext : ℕ → ℕ} (hS : Garbage edges g refcnt S)
    (hcounts : ∀ x, refcnt x = ext x + inEdges edges g x) (hx : x ∈ S) :
    ¬ Reach edges g (fun x => 0 < ext x) x := by
  intro hreach
  have hroots : ∀ x, 0 < ext x → x ∉ S := by
    intro x hext hx
    have hcounted := hS.counted x hx
    have hle := sum_edgesAt_le edges g hS.nodup x
    have := hcounts x
    omega
  have hedges : ∀ y x o, y ∉ S → g[y]? = some o → x ∈ edges o → x ∉ S := by
    intro y x o hy ho hmem hx
    have hle := sum_edgesAt_le edges g (List.nodup_cons.mpr ⟨hy, hS.nodup⟩) x
    rw [List.map_cons, List.sum_cons, edgesAt_eq ho, ← hS.counted x hx] at hle
    have hpos := List.count_pos_iff.mpr hmem
    have := hcounts x
    have := sum_edgesAt_le edges g hS.nodup x
    have := hS.counted x hx
    omega
  exact hreach.mono hroots hedges hx

end ObjectGraph
