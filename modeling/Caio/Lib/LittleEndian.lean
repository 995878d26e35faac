import Mathlib.Algebra.Group.Nat.Defs
import Mathlib.Logic.Function.Basic

namespace LittleEndian

abbrev Memory := ℕ → UInt8

/-- The number in the `width` bytes from `addr` on. -/
def load (mem : Memory) (addr : ℕ) : ℕ → ℕ
  | 0 => 0
  | width + 1 => (mem addr).toNat + 256 * load mem (addr + 1) width

/-- The `width` low bytes of a number. -/
def store (mem : Memory) (addr : ℕ) : ℕ → ℕ → Memory
  | 0, _ => mem
  | width + 1, n =>
    store (Function.update mem addr (UInt8.ofNat n)) (addr + 1) width (n / 256)

variable {mem mem' : Memory} {addr width : ℕ}

theorem load_congr (h : ∀ i < width, mem (addr + i) = mem' (addr + i)) :
    load mem addr width = load mem' addr width := by
  induction width generalizing addr with
  | zero => rfl
  | succ width ih =>
    have hfirst := h 0 (Nat.succ_pos width)
    have hrest : load mem (addr + 1) width = load mem' (addr + 1) width := by
      apply ih
      intro i hi
      have := h (i + 1) (Nat.succ_lt_succ hi)
      rwa [← Nat.add_assoc, Nat.add_right_comm] at this
    rw [Nat.add_zero] at hfirst
    rw [load, load, hfirst, hrest]

/-- A wide load reads the fields that lie side by side. -/
theorem load_add (mem : Memory) (addr m n : ℕ) :
    load mem addr (m + n) = load mem addr m + 256 ^ m * load mem (addr + m) n := by
  induction m generalizing addr with
  | zero => rw [Nat.zero_add, load, Nat.zero_add, Nat.pow_zero, Nat.one_mul, Nat.add_zero]
  | succ m ih =>
    rw [Nat.succ_add, load, load, ih, Nat.pow_succ, Nat.mul_add, Nat.add_assoc, Nat.add_assoc,
      Nat.add_comm 1 m, Nat.mul_comm (256 ^ m) 256, Nat.mul_assoc]

theorem store_of_lt {i n : ℕ} (h : i < addr) : store mem addr width n i = mem i := by
  induction width generalizing mem addr n with
  | zero => rfl
  | succ width ih =>
    rw [store, ih (Nat.lt_succ_of_lt h)]
    exact Function.update_of_ne (Nat.ne_of_lt h) ..

theorem store_of_le {i n : ℕ} (h : addr + width ≤ i) : store mem addr width n i = mem i := by
  induction width generalizing mem addr n with
  | zero => rfl
  | succ width ih =>
    rw [store, ih (by omega)]
    exact Function.update_of_ne (by omega) ..

theorem load_store_of_disjoint {at' width' n : ℕ}
    (h : addr + width ≤ at' ∨ at' + width' ≤ addr) :
    load (store mem at' width' n) addr width = load mem addr width := by
  apply load_congr
  intro i hi
  rcases h with h | h
  · exact store_of_lt (by omega)
  · exact store_of_le (by omega)

/-- A load at the address of a store, of its width or narrower. -/
theorem load_store_of_le {k n : ℕ} (h : k ≤ width) :
    load (store mem addr width n) addr k = n % 256 ^ k := by
  induction k generalizing mem addr width n with
  | zero => rw [load, Nat.pow_zero, Nat.mod_one]
  | succ k ih =>
    cases width with
    | zero => exact absurd h (Nat.not_succ_le_zero k)
    | succ width =>
      have hbyte : (UInt8.ofNat n).toNat = n % 256 := UInt8.toNat_ofNat'
      rw [load, store, store_of_lt (Nat.lt_succ_self addr), Function.update_self, hbyte,
        ih (Nat.le_of_succ_le_succ h), Nat.pow_succ', Nat.mod_mul]

end LittleEndian
