import Mathlib.Logic.Function.Basic
import Mathlib.Logic.Relation
import Mathlib.Order.Defs.PartialOrder
import Mathlib.Tactic.SplitIfs

namespace LockOrder

variable {Thread Lock Rank : Type*}

section Holders

variable [DecidableEq Lock]

/-- A step of thread `t`, from the locks in `ls` to those in `ls'`. -/
inductive Step (owner owner' : Lock → Option Thread) (t : Thread) (ls ls' : List Lock) : Prop
  | same (howner : owner' = owner) (hheld : ls' = ls)
  | acquire (l : Lock) (hfree : owner l = none) (howner : owner' = Function.update owner l (some t))
    (hheld : ls' = l :: ls)
  | release (l : Lock) (howner : owner' = Function.update owner l none) (hheld : ls = l :: ls')

variable {owner owner' : Lock → Option Thread} {held : Thread → List Lock} {t : Thread} {l : Lock}

/-- A step leaves the locks of the other threads to them. -/
theorem Step.owner_iff {ls ls' : List Lock} (h : Step owner owner' t ls ls')
    (hheld : ∀ l ∈ ls, owner l = some t) {u : Thread} (hu : u ≠ t) (m : Lock) :
    owner' m = some u ↔ owner m = some u := by
  cases h with
  | same howner => rw [howner]
  | acquire l hfree howner =>
    rw [howner]
    by_cases hm : m = l
    · rw [hm, Function.update_self, hfree]
      exact iff_of_false (fun heq => hu (Option.some.inj heq).symm) (Option.some_ne_none u).symm
    · rw [Function.update_of_ne hm]
  | release l howner hls =>
    rw [howner]
    by_cases hm : m = l
    · have hmine : owner l = some t := hheld l (hls ▸ List.mem_cons_self)
      rw [hm, Function.update_self, hmine]
      exact iff_of_false (Option.some_ne_none u).symm fun heq => hu (Option.some.inj heq).symm
    · rw [Function.update_of_ne hm]

variable [DecidableEq Thread]

/-- What a thread holds is what the locks say, and no lock is held twice. -/
def Exclusive (owner : Lock → Option Thread) (held : Thread → List Lock) : Prop :=
  ∀ t l, (held t).count l = if owner l = some t then 1 else 0

theorem Exclusive.mem_iff (h : Exclusive owner held) : l ∈ held t ↔ owner l = some t := by
  rw [← List.count_pos_iff, h]
  split_ifs with howner
  · exact iff_of_true Nat.one_pos howner
  · exact iff_of_false (Nat.lt_irrefl 0) howner

theorem Step.count {ls ls' : List Lock} (h : Step owner owner' t ls ls')
    (hcount : ∀ l, ls.count l = if owner l = some t then 1 else 0) (m : Lock) :
    ls'.count m = if owner' m = some t then 1 else 0 := by
  cases h with
  | same howner hheld =>
    rw [howner, hheld]
    exact hcount m
  | acquire l hfree howner hheld =>
    rw [howner, hheld, List.count_cons, hcount]
    by_cases hm : m = l
    · rw [hm, hfree, Function.update_self, if_pos rfl, if_pos (beq_self_eq_true l),
        if_neg (Option.some_ne_none t).symm]
    · rw [Function.update_of_ne hm, if_neg fun heq => hm (beq_iff_eq.mp heq).symm, Nat.add_zero]
  | release l howner hheld =>
    have hm' := hcount m
    rw [hheld, List.count_cons] at hm'
    rw [howner]
    by_cases hm : m = l
    · rw [hm, if_pos (beq_self_eq_true l)] at hm'
      rw [hm, Function.update_self, if_neg (Option.some_ne_none t).symm]
      split_ifs at hm'
      omega
    · rw [if_neg fun heq => hm (beq_iff_eq.mp heq).symm, Nat.add_zero] at hm'
      rw [Function.update_of_ne hm]
      exact hm'

theorem Exclusive.step {ls : List Lock} (h : Exclusive owner held)
    (hstep : Step owner owner' t (held t) ls) : Exclusive owner' (Function.update held t ls) := by
  intro u m
  by_cases hu : u = t
  · rw [hu, Function.update_self]
    exact hstep.count (h t) m
  · have howner := hstep.owner_iff (fun l hl => h.mem_iff.mp hl) hu m
    rw [Function.update_of_ne hu, if_congr howner rfl rfl]
    exact h u m

end Holders

variable (owner : Lock → Option Thread) (wants : Thread → Option Lock)

/-- `t` wants a lock that `u` holds. -/
def WaitsFor (t u : Thread) : Prop := ∃ l, wants t = some l ∧ owner l = some u

/-- A circle of threads, one or more, each of which waits for the next. -/
def Deadlock : Prop := ∃ t, Relation.TransGen (WaitsFor owner wants) t t

/-- Locks are taken in the order of their ranks. -/
def Ascending [LT Rank] (rank : Lock → Rank) : Prop :=
  ∀ t l l', owner l = some t → wants t = some l' → rank l < rank l'

variable {owner wants}

/-- A thread that waits for itself is a circle of one. -/
theorem Deadlock.of_self {t : Thread} {l : Lock} (hwants : wants t = some l)
    (howner : owner l = some t) : Deadlock owner wants :=
  ⟨t, .single ⟨l, hwants, howner⟩⟩

/-- Along a chain of waiting threads the ranks do not fall: the lock that its first thread wants
ranks no higher than one that its last thread holds. -/
theorem Ascending.le_of_chain [Preorder Rank] {rank : Lock → Rank}
    (h : Ascending owner wants rank) {t u : Thread}
    (hchain : Relation.TransGen (WaitsFor owner wants) t u) :
    ∃ l l', wants t = some l ∧ owner l' = some u ∧ rank l ≤ rank l' := by
  -- on the chain from its first thread, whose wait stays the same
  induction hchain with
  | single hwait =>
    obtain ⟨l, hwants, howner⟩ := hwait
    exact ⟨l, l, hwants, howner, le_rfl⟩
  | tail _ hwait ih =>
    obtain ⟨l, l', hwants, howner, hle⟩ := ih
    obtain ⟨m, hwants', howner'⟩ := hwait
    exact ⟨l, m, hwants, howner', le_trans hle (le_of_lt (h _ l' m howner hwants'))⟩

theorem Ascending.not_deadlock [Preorder Rank] {rank : Lock → Rank}
    (h : Ascending owner wants rank) : ¬Deadlock owner wants := by
  rintro ⟨t, hcircle⟩
  obtain ⟨l, l', hwants, howner, hle⟩ := h.le_of_chain hcircle
  exact lt_irrefl _ (lt_of_le_of_lt hle (h t l' l howner hwants))

end LockOrder
