import Mathlib.Logic.Relation
import Mathlib.Order.WellFounded
import Mathlib.Tactic.SplitIfs

namespace WaitFor

open Relation

variable {α : Type*} {r r' : α → α → Prop} {a b x : α}

def Ranked (r : α → α → Prop) : Prop := ∃ rank : α → ℕ, ∀ x y, r x y → rank y < rank x

theorem Ranked.not_transGen (h : Ranked r) (x : α) : ¬TransGen r x x := by
  obtain ⟨rank, hrank⟩ := h
  have hlt : ∀ y, TransGen r x y → rank y < rank x := by
    intro y hy
    induction hy with
    | single hxy => exact hrank x _ hxy
    | tail _ hyz ih => exact (hrank _ _ hyz).trans ih
  exact fun hx => Nat.lt_irrefl _ (hlt x hx)

theorem Ranked.mono (h : Ranked r) (hsub : ∀ x y, r' x y → r x y) : Ranked r' := by
  obtain ⟨rank, hrank⟩ := h
  exact ⟨rank, fun x y hxy => hrank x y (hsub x y hxy)⟩

/-- `a` may wait for `b` as long as `b` does not wait for it. -/
theorem Ranked.insert (h : Ranked r) (hnot : ¬ReflTransGen r b a)
    (hsub : ∀ x y, r' x y → r x y ∨ x = a ∧ y = b) : Ranked r' := by
  classical
  obtain ⟨rank, hrank⟩ := h
  -- whoever waits for `a` moves up by more than the rank of `b`
  refine ⟨fun x => if ReflTransGen r x a then rank x + rank b + 1 else rank x, fun x y hxy => ?_⟩
  rcases hsub x y hxy with hold | ⟨rfl, rfl⟩
  · have hlt := hrank x y hold
    by_cases hy : ReflTransGen r y a
    · simp only [if_pos hy, if_pos (ReflTransGen.head hold hy)]
      omega
    · simp only [if_neg hy]
      split_ifs
      · omega
      · exact hlt
  · simp only [if_neg hnot, if_pos (ReflTransGen.refl (r := r) (a := x))]
    omega

/-- Of finitely many parties that may wait one waits for none of the others. -/
theorem Ranked.exists_last (h : Ranked r) {p : α → Prop} (hp : ∃ x, p x) :
    ∃ x, p x ∧ ∀ y, p y → ¬r x y := by
  obtain ⟨rank, hrank⟩ := h
  obtain ⟨x, hx, hmin⟩ := (measure rank).wf.has_min {x | p x} hp
  exact ⟨x, hx, fun y hy hxy => hmin y hy (hrank x y hxy)⟩

theorem transGen_of_edge (hreach : ReflTransGen r b a) (hsub : ∀ x y, r x y → r' x y)
    (hnew : r' a b) : TransGen r' b b := TransGen.tail' (ReflTransGen.mono hsub _ _ hreach) hnew

end WaitFor
