import Mathlib.Data.List.Basic

/-! Files as lists of bytes: overwriting from a position on, cutting or padding to a length,
and reading a range. Each operation is given by the element it has at every index.
-/
namespace CandyFs.ByteList

variable {α : Type}

def readAt (file : List α) (pos size : Nat) : List α := (file.drop pos).take size

section
variable {file : List α} {pos n i : Nat}

theorem length_readAt : (readAt file pos n).length = min n (file.length - pos) := by
  simp [readAt]

theorem getElem?_readAt : (readAt file pos n)[i]? = if i < n then file[pos + i]? else none := by
  rw [readAt,List.getElem?_take,List.getElem?_drop]

theorem range_map_eq {f : Nat → α} (length : file.length = n)
    (bytes : ∀ i < n, file[i]? = some (f i)) : (List.range n).map f = file := by
  apply List.ext_getElem?
  intro i
  by_cases inside : i < n
  · rw [bytes i inside,List.getElem?_map,List.getElem?_range inside]
    rfl
  · rw [List.getElem?_eq_none (by simp; omega),List.getElem?_eq_none (by omega)]

theorem getElem?_range_map {f : Nat → α} :
    ((List.range n).map f)[i]? = if i < n then some (f i) else none := by
  by_cases inside : i < n
  · rw [if_pos inside,List.getElem?_map,List.getElem?_range inside]
    rfl
  · rw [if_neg inside,List.getElem?_eq_none (by simp; omega)]

end

variable [Zero α]

/-- Cut to `n` elements, or padded with zeros up to `n`. -/
def resize (file : List α) (n : Nat) : List α := file.take n ++ List.replicate (n - file.length) 0

/-- `data` written at `pos`; a file that ends before `pos` is padded first. -/
def writeAt (file : List α) (pos : Nat) (data : List α) : List α :=
  resize file pos ++ data ++ file.drop (pos + data.length)

section
variable {file data : List α} {pos n i : Nat}

@[simp] theorem length_resize : (resize file n).length = n := by
  simp only [resize,List.length_append,List.length_take,List.length_replicate]
  omega

theorem getElem?_resize :
    (resize file n)[i]? = if i < n then some (file[i]?.getD 0) else none := by
  by_cases inside : i < n
  · rw [if_pos inside,resize,List.getElem?_append]
    by_cases old : i < file.length
    · rw [if_pos (by simp; omega)]
      simp [inside,old]
    · rw [if_neg (by simp; omega),List.getElem?_replicate,List.getElem?_eq_none (by omega),
        if_pos (by simp; omega)]
      rfl
  · rw [if_neg inside,List.getElem?_eq_none (by rw [length_resize]; omega)]

@[simp] theorem resize_length : resize file file.length = file := by simp [resize]

theorem length_writeAt : (writeAt file pos data).length = max file.length (pos + data.length) := by
  simp only [writeAt,List.length_append,length_resize,List.length_drop]
  omega

theorem getElem?_writeAt : (writeAt file pos data)[i]? =
    if i < pos then some (file[i]?.getD 0) else if i < pos + data.length then data[i - pos]?
    else file[i]? := by
  rw [writeAt,List.append_assoc,List.getElem?_append,length_resize]
  split
  · rename_i before
    rw [getElem?_resize,if_pos before]
  · rw [List.getElem?_append]
    by_cases inside : i < pos + data.length
    · rw [if_pos (by omega),if_pos inside]
    · rw [if_neg (by omega),if_neg inside,List.getElem?_drop]
      congr 1
      omega

end

end CandyFs.ByteList
