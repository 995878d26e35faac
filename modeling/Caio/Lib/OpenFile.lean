import Mathlib.Data.List.GetD

structure OpenFile (α : Type*) where
  content : List α
  pos : ℕ
deriving DecidableEq, Repr

namespace OpenFile

variable {α : Type*} [Zero α]

/-- The next `n` elements from `offset` on, or fewer at the end of the file. -/
def pread (content : List α) (offset n : ℕ) : List α := (content.drop offset).take n

/-- `data` in its place; a gap behind the end is filled with zeros. -/
def pwrite (content : List α) (offset : ℕ) (data : List α) : List α :=
  if data = [] then content
  else content.take offset ++ List.replicate (offset - content.length) 0 ++ data ++
    content.drop (offset + data.length)

variable (f : OpenFile α)

def lseek (pos : ℕ) : OpenFile α := { f with pos }

def read (n : ℕ) : List α × OpenFile α :=
  let data := pread f.content f.pos n
  (data, { f with pos := f.pos + data.length })

def write (data : List α) : OpenFile α :=
  { content := pwrite f.content f.pos data, pos := f.pos + data.length }

omit [Zero α] in
theorem getElem?_pread (content : List α) (offset n i : ℕ) :
    (pread content offset n)[i]? = if i < n then content[offset + i]? else none := by
  rw [pread, List.getElem?_take, List.getElem?_drop]

/-- A write changes what it covers, wherever the file has ended. -/
theorem getD_pwrite (content : List α) (offset : ℕ) (data : List α) (i : ℕ) :
    (pwrite content offset data).getD i 0 =
      if offset ≤ i ∧ i < offset + data.length then data.getD (i - offset) 0
      else content.getD i 0 := by
  unfold pwrite
  split
  · rename_i hnil
    rw [hnil, List.length_nil, if_neg (by omega)]
  · have hfill : (content.take offset ++ List.replicate (offset - content.length) 0).length =
        offset := by
      rw [List.length_append, List.length_take, List.length_replicate]
      omega
    rw [List.append_assoc]
    by_cases hbefore : i < offset
    · rw [List.getD_append _ _ _ _ (hfill.symm ▸ hbefore), if_neg (by omega)]
      by_cases hend : i < content.length
      · rw [List.getD_append _ _ _ _ (by rw [List.length_take]; omega), List.getD_eq_getElem?_getD,
          List.getElem?_take_of_lt hbefore, List.getD_eq_getElem?_getD]
      · -- in the gap
        rw [List.getD_append_right _ _ _ _ (by rw [List.length_take]; omega),
          List.getD_replicate _ (by rw [List.length_take]; omega),
          List.getD_eq_default _ _ (by omega)]
    · rw [List.getD_append_right _ _ _ _ (by omega), hfill]
      by_cases hafter : i < offset + data.length
      · rw [List.getD_append _ _ _ _ (by omega), if_pos ⟨by omega, hafter⟩]
      · rw [List.getD_append_right _ _ _ _ (by omega), if_neg (by omega),
          List.getD_eq_getElem?_getD, List.getElem?_drop, List.getD_eq_getElem?_getD]
        congr 2
        omega

end OpenFile
