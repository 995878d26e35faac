import Mathlib.Data.List.Basic
import Mathlib.Data.Nat.ModEq
import Mathlib.Logic.Function.Basic

/-- A number of slots: a power of two that a 32-bit counter can hold. -/
structure RingSize where
  log : ℕ
  log_le : log ≤ 31
deriving DecidableEq, Repr

namespace RingSize

/-- Rings of two and of four slots. -/
def two : RingSize := ⟨1, by decide⟩

def four : RingSize := ⟨2, by decide⟩

variable (n : RingSize)

def entries : UInt32 := UInt32.ofNat (2 ^ n.log)

def mask : UInt32 := n.entries - 1

def slot (i : UInt32) : UInt32 := i &&& n.mask

theorem pow_le : 2 ^ n.log ≤ 2 ^ 31 := Nat.pow_le_pow_right (by decide) n.log_le

@[simp] theorem entries_toNat : n.entries.toNat = 2 ^ n.log := by
  have h := n.pow_le
  rw [entries, UInt32.toNat_ofNat', Nat.mod_eq_of_lt (by omega)]

@[simp] theorem mask_toNat : n.mask.toNat = 2 ^ n.log - 1 := by
  have h := n.pow_le
  have h' := Nat.two_pow_pos n.log
  rw [mask, UInt32.toNat_sub, entries_toNat, UInt32.toNat_one]
  omega

@[simp] theorem slot_toNat (i : UInt32) : (n.slot i).toNat = i.toNat % 2 ^ n.log := by
  rw [slot, UInt32.toNat_and, mask_toNat, Nat.and_two_pow_sub_one_eq_mod]

/-- The mask forgets multiples of the ring size, and 2^32 is one of them. -/
theorem slot_add_toNat (h d : UInt32) :
    (n.slot (h + d)).toNat = (h.toNat + d.toNat) % 2 ^ n.log := by
  have hd : 2 ^ n.log ∣ 2 ^ 32 := Nat.pow_dvd_pow 2 (by have := n.log_le; omega)
  rw [slot_toNat, UInt32.toNat_add, Nat.mod_mod_of_dvd _ hd]

/-- Indices less than one revolution away from `h` are in different slots. -/
theorem slot_injective {h i j : UInt32} (hi : (i - h).toNat < 2 ^ n.log)
    (hj : (j - h).toNat < 2 ^ n.log) (hs : n.slot i = n.slot j) : i = j := by
  have hi' : h + (i - h) = i := by grind
  have hj' : h + (j - h) = j := by grind
  have hij : h.toNat + (i - h).toNat ≡ h.toNat + (j - h).toNat [MOD 2 ^ n.log] := by
    rw [Nat.ModEq, ← slot_add_toNat, ← slot_add_toNat, hi', hj', hs]
  have hd : (i - h).toNat = (j - h).toNat :=
    (Nat.ModEq.add_left_cancel' _ hij).eq_of_lt_of_lt hi hj
  rw [← hi', ← hj', UInt32.toNat_inj.mp hd]

end RingSize

namespace RingBuffer

variable {β : Type*} (n : RingSize)

theorem sub_toNat_eq_zero {h t : UInt32} : (t - h).toNat = 0 ↔ t = h := by
  rw [← UInt32.toNat_zero, UInt32.toNat_inj]
  grind

theorem sub_toNat_succ {h t : UInt32} (hlt : (t - h).toNat < 2 ^ 31) :
    (t + 1 - h).toNat = (t - h).toNat + 1 := by
  have h1 : t + 1 - h = t - h + 1 := by grind
  rw [h1, UInt32.toNat_add, UInt32.toNat_one]
  omega

theorem sub_succ_toNat {h t : UInt32} (hne : h ≠ t) :
    (t - h).toNat = (t - (h + 1)).toNat + 1 := by
  have hpos : (t - h).toNat ≠ 0 := fun h0 => hne (sub_toNat_eq_zero.mp h0).symm
  have hlt := (t - h).toNat_lt
  have h1 : t - (h + 1) = t - h - 1 := by grind
  rw [h1, UInt32.toNat_sub (t - h) 1, UInt32.toNat_one]
  omega

/-- An index between `head` and `tail` cuts the distance in two. -/
theorem sub_toNat_cut {h m t : UInt32} (hle : (t - m).toNat ≤ (t - h).toNat) :
    (m - h).toNat + (t - m).toNat = (t - h).toNat := by
  have hcut : m - h = t - h - (t - m) := by grind
  rw [hcut, UInt32.toNat_sub_of_le _ _ (UInt32.le_iff_toNat_le.mpr hle)]
  exact Nat.sub_add_cancel hle

theorem succ_add_ofNat (h : UInt32) (d : ℕ) :
    h + 1 + UInt32.ofNat d = h + UInt32.ofNat (d + 1) := by
  rw [UInt32.ofNat_add, UInt32.add_assoc, UInt32.add_comm 1]
  rfl

/-- The test the producer makes: with fewer than `entries` live there is a free slot. -/
theorem lt_entries_iff {h t : UInt32} : t - h < n.entries ↔ (t - h).toNat < 2 ^ n.log := by
  rw [UInt32.lt_iff_toNat_lt, RingSize.entries_toNat]

/-- `c` consecutive entries from `head` on. -/
def contents (mem : UInt32 → β) (head : UInt32) : ℕ → List β
  | 0 => []
  | c + 1 => mem (n.slot head) :: contents mem (head + 1) c

def window (mem : UInt32 → β) (head tail : UInt32) : List β :=
  contents n mem head (tail - head).toNat

@[simp] theorem contents_length (mem : UInt32 → β) (head : UInt32) (c : ℕ) :
    (contents n mem head c).length = c := by
  induction c generalizing head with
  | zero => rfl
  | succ c ih => simp [contents, ih]

@[simp] theorem window_length (mem : UInt32 → β) (head tail : UInt32) :
    (window n mem head tail).length = (tail - head).toNat := contents_length ..

@[simp] theorem window_self (mem : UInt32 → β) (head : UInt32) : window n mem head head = [] := by
  simp [window, contents]

theorem window_eq_nil_iff {mem : UInt32 → β} {head tail : UInt32} :
    window n mem head tail = [] ↔ head = tail := by
  refine ⟨fun h => ?_, fun h => by rw [h, window_self]⟩
  have hl := congrArg List.length h
  rw [window_length] at hl
  exact (sub_toNat_eq_zero.mp hl).symm

/-- Reading the oldest entry and advancing `head` takes the head of the queue. -/
theorem window_pop {mem : UInt32 → β} {head tail : UInt32} (hne : head ≠ tail) :
    window n mem head tail = mem (n.slot head) :: window n mem (head + 1) tail := by
  rw [window, sub_succ_toNat hne, contents, window]

theorem contents_eq_map (mem : UInt32 → β) (head : UInt32) (c : ℕ) :
    contents n mem head c = (List.range c).map fun d => mem (n.slot (head + UInt32.ofNat d)) := by
  induction c generalizing head with
  | zero => rfl
  | succ c ih =>
    rw [contents, ih, List.range_succ_eq_map, List.map_cons, List.map_map]
    congr 1
    · simp
    · refine List.map_congr_left fun d _ => ?_
      rw [Function.comp_apply, succ_add_ofNat]

theorem contents_add (mem : UInt32 → β) (head : UInt32) (c d : ℕ) :
    contents n mem head (c + d) =
      contents n mem head c ++ contents n mem (head + UInt32.ofNat c) d := by
  induction c generalizing head with
  | zero => simp [contents]
  | succ c ih => rw [Nat.succ_add, contents, contents, ih, succ_add_ofNat, List.cons_append]

/-- The queue up to an index and the queue from it on. -/
theorem window_cut {mem : UInt32 → β} {head m tail : UInt32}
    (hle : (tail - m).toNat ≤ (tail - head).toNat) :
    window n mem head tail = window n mem head m ++ window n mem m tail := by
  have hcancel : head + (m - head) = m := by grind
  rw [window, ← sub_toNat_cut hle, contents_add, UInt32.ofNat_toNat, hcancel]
  rfl

theorem contents_congr {mem mem' : UInt32 → β} {head : UInt32} {c : ℕ}
    (h : ∀ d < c, mem (n.slot (head + UInt32.ofNat d)) = mem' (n.slot (head + UInt32.ofNat d))) :
    contents n mem head c = contents n mem' head c := by
  induction c generalizing head with
  | zero => rfl
  | succ c ih =>
    rw [contents, contents, ih]
    · congr 1
      simpa using h 0 (Nat.succ_pos c)
    · intro d hd
      rw [succ_add_ofNat]
      exact h (d + 1) (by omega)

theorem window_congr {mem mem' : UInt32 → β} {head tail : UInt32}
    (h : ∀ i, (i - head).toNat < (tail - head).toNat → mem (n.slot i) = mem' (n.slot i)) :
    window n mem head tail = window n mem' head tail := by
  refine contents_congr n fun d hd => h _ ?_
  have hlt := (tail - head).toNat_lt
  have hcancel : head + UInt32.ofNat d - head = UInt32.ofNat d := by grind
  rw [hcancel, UInt32.toNat_ofNat', Nat.mod_eq_of_lt (by omega)]
  exact hd

theorem window_update {mem : UInt32 → β} {head tail i : UInt32} (v : β)
    (hlow : (tail - head).toNat ≤ (i - head).toNat) (hhigh : (i - head).toNat < 2 ^ n.log) :
    window n (Function.update mem (n.slot i) v) head tail = window n mem head tail := by
  refine window_congr n fun j hj => Function.update_of_ne (fun hs => ?_) _ _
  have := n.slot_injective (h := head) (by omega) hhigh hs
  subst this
  omega

theorem contents_succ_last (mem : UInt32 → β) (head : UInt32) (c : ℕ) :
    contents n mem head (c + 1) =
      contents n mem head c ++ [mem (n.slot (head + UInt32.ofNat c))] := by
  induction c generalizing head with
  | zero => simp [contents]
  | succ c ih =>
    rw [contents, ih, contents, succ_add_ofNat, List.cons_append]

/-- Advancing `tail` over a slot appends what the slot holds. -/
theorem window_succ {mem : UInt32 → β} {head tail : UInt32} (hlt : (tail - head).toNat < 2 ^ 31) :
    window n mem head (tail + 1) = window n mem head tail ++ [mem (n.slot tail)] := by
  have hcancel : head + (tail - head) = tail := by grind
  rw [window, sub_toNat_succ hlt, contents_succ_last, window, UInt32.ofNat_toNat, hcancel]

/-- Writing the slot at `tail` and advancing `tail` appends the value. -/
theorem window_push {mem : UInt32 → β} {head tail : UInt32} (v : β)
    (hlt : (tail - head).toNat < 2 ^ n.log) :
    window n (Function.update mem (n.slot tail) v) head (tail + 1) =
      window n mem head tail ++ [v] := by
  have h31 := n.pow_le
  rw [window_succ n (by omega), window_update n v le_rfl hlt, Function.update_self]

end RingBuffer
