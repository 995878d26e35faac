import Mathlib.Tactic.SplitIfs
import Caio.Lib.Counting
import Caio.PythonAio.Context

namespace Caio.PythonAio

/-- Claims before and after scheduling, by Operation and by Context. -/
@[ext]
structure Ledger where
  /-- `operation.in_progress` -/
  claimed : OpId → Bool
  /-- Claims of calls that have no job yet. -/
  held : OpId → ℕ
  scheduled : OpId → ℕ
  counted : OpId → ℕ
  reserved : CtxId → ℕ
  /-- Jobs that have not released their slot. -/
  running : CtxId → ℕ
  /-- `_in_progress` -/
  slots : CtxId → Int
  max : CtxId → Int

namespace Ledger

open Counting

inductive Entry
  | claim (k : CtxId) (p : OpId)
  | schedule (k : CtxId) (p : OpId)
  | rollback (k : CtxId) (p : OpId)
  | release (k : CtxId)

def step (l : Ledger) : Entry → Option Ledger
  | .claim k p =>
    if l.claimed p = false ∧ l.slots k < l.max k then
      some { l with
        claimed := Function.update l.claimed p true
        held := bump l.held p
        reserved := bump l.reserved k
        slots := Function.update l.slots k (l.slots k + 1) }
    else none
  | .schedule k p =>
    if 0 < l.held p ∧ 0 < l.reserved k then
      some { l with
        held := drop l.held p
        scheduled := bump l.scheduled p
        counted := bump l.counted p
        reserved := drop l.reserved k
        running := bump l.running k }
    else none
  | .rollback k p =>
    if 0 < l.held p ∧ 0 < l.reserved k then
      some { l with
        claimed := Function.update l.claimed p false
        held := drop l.held p
        reserved := drop l.reserved k
        slots := Function.update l.slots k (l.slots k - 1) }
    else none
  | .release k =>
    if 0 < l.running k then
      some { l with
        running := drop l.running k
        slots := Function.update l.slots k (l.slots k - 1) }
    else none

structure Init (l : Ledger) : Prop where
  claimed : ∀ p, l.claimed p = false
  held : ∀ p, l.held p = 0
  scheduled : ∀ p, l.scheduled p = 0
  counted : ∀ p, l.counted p = 0
  reserved : ∀ k, l.reserved k = 0
  running : ∀ k, l.running k = 0
  slots : ∀ k, l.slots k = 0
  max : ∀ k, 0 < l.max k

def system : TransitionSystem Ledger Entry := ⟨Init, step⟩

/-- An Operation has one claim or job, or none, and a Context a slot for each that is open. -/
structure Balanced (l : Ledger) : Prop where
  owner : ∀ p, l.held p + l.scheduled p = (l.claimed p).toNat
  counted : ∀ p, l.counted p = l.scheduled p
  slots : ∀ k, l.slots k = l.reserved k + l.running k
  room : ∀ k, l.slots k ≤ l.max k

variable {l m : Ledger}

theorem Init.balanced (h : Init l) : Balanced l := by
  refine ⟨fun p => ?_, fun p => ?_, fun k => ?_, fun k => ?_⟩
  · rw [h.held, h.scheduled, h.claimed]
    rfl
  · rw [h.counted, h.scheduled]
  · rw [h.slots, h.reserved, h.running]
    rfl
  · rw [h.slots]
    exact Int.le_of_lt (h.max k)

theorem toNat_update (f : OpId → Bool) (p q : OpId) (b : Bool) :
    (Function.update f p b q).toNat = if q = p then b.toNat else (f q).toNat := by
  by_cases h : q = p
  · subst h
    rw [Function.update_self, if_pos rfl]
  · rw [Function.update_of_ne h, if_neg h]

theorem slots_update (f : CtxId → Int) (k j : CtxId) (x : Int) :
    Function.update f k x j = if j = k then x else f j := by
  by_cases h : j = k
  · subst h
    rw [Function.update_self, if_pos rfl]
  · rw [Function.update_of_ne h, if_neg h]

theorem Balanced.step (h : Balanced l) {e : Entry} (hs : l.step e = some m) : Balanced m := by
  have hone : ∀ q, (l.claimed q).toNat ≤ 1 := fun q => Bool.toNat_le _
  cases e with
  | claim k p =>
    obtain ⟨⟨hfree, hroom⟩, hs⟩ := Option.ite_none_right_eq_some.mp hs
    cases hs
    refine ⟨fun q => ?_, h.counted, fun j => ?_, fun j => ?_⟩
    · have howner := h.owner q
      simp only [bump_apply, toNat_update]
      split_ifs with hq
      · rw [hq, hfree] at howner
        rw [hq]
        simp only [Bool.toNat_false] at howner
        simp only [Bool.toNat_true]
        omega
      · exact howner
    · have hslots := h.slots j
      simp only [bump_apply, slots_update]
      split_ifs with hj
      · rw [hj] at hslots ⊢
        omega
      · exact hslots
    · have hle := h.room j
      simp only [slots_update]
      split_ifs with hj
      · rw [hj]
        omega
      · exact hle
  | schedule k p =>
    obtain ⟨⟨hheld, hreserved⟩, hs⟩ := Option.ite_none_right_eq_some.mp hs
    cases hs
    refine ⟨fun q => ?_, fun q => ?_, fun j => ?_, h.room⟩
    · have howner := h.owner q
      simp only [bump_apply, drop_apply]
      split_ifs with hq
      · rw [hq] at howner ⊢
        omega
      · exact howner
    · simp only [bump_apply, h.counted q]
    · have hslots := h.slots j
      simp only [bump_apply, drop_apply]
      split_ifs with hj
      · rw [hj] at hslots ⊢
        omega
      · exact hslots
  | rollback k p =>
    obtain ⟨⟨hheld, hreserved⟩, hs⟩ := Option.ite_none_right_eq_some.mp hs
    cases hs
    refine ⟨fun q => ?_, h.counted, fun j => ?_, fun j => ?_⟩
    · have howner := h.owner q
      have hle := hone q
      simp only [drop_apply, toNat_update]
      split_ifs with hq
      · rw [hq] at howner hle ⊢
        simp only [Bool.toNat_false]
        omega
      · exact howner
    · have hslots := h.slots j
      simp only [drop_apply, slots_update]
      split_ifs with hj
      · rw [hj] at hslots ⊢
        omega
      · exact hslots
    · have hle := h.room j
      simp only [slots_update]
      split_ifs with hj
      · rw [hj] at hle ⊢
        omega
      · exact hle
  | release k =>
    obtain ⟨hrunning, hs⟩ := Option.ite_none_right_eq_some.mp hs
    cases hs
    refine ⟨h.owner, h.counted, fun j => ?_, fun j => ?_⟩
    · have hslots := h.slots j
      simp only [drop_apply, slots_update]
      split_ifs with hj
      · rw [hj] at hslots ⊢
        omega
      · exact hslots
    · have hle := h.room j
      simp only [slots_update]
      split_ifs with hj
      · rw [hj] at hle ⊢
        omega
      · exact hle

theorem balanced (h : system.Reachable l) : Balanced l :=
  h.invariant (fun _ hi => Init.balanced hi) fun _ _ _ hb _ hs => hb.step hs

end Ledger

end Caio.PythonAio
