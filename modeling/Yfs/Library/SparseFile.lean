import Mathlib.Data.List.Basic

/-!
# Sparse files

The reference semantics of a file as a byte string, over any alphabet with a
blank: an unwritten position reads as the blank.  `write` and `resize` are given
position by position; both are also concatenations of pieces of the old file.
-/

namespace SparseFile

variable {α : Type} (blank : α) {old data : List α}

/-- The symbol at a position, the blank past the end. -/
def read (content : List α) (i : Nat) : α :=
  content[i]?.getD blank

/-- Write `data` at `off`. -/
def write (old : List α) (off : Nat) (data : List α) : List α :=
  (List.range (max old.length (off + data.length))).map fun i =>
    if off ≤ i ∧ i < off + data.length then read blank data (i - off)
    else read blank old i

/-- Cut or extend to `size`. -/
def resize (old : List α) (size : Nat) : List α :=
  (List.range size).map (read blank old)

theorem read_of_lt {i : Nat} (inside : i < old.length) : read blank old i = old[i] := by
  rw [read, List.getElem?_eq_getElem inside]
  rfl

theorem read_of_ge {i : Nat} (outside : old.length ≤ i) : read blank old i = blank := by
  rw [read, List.getElem?_eq_none outside]
  rfl

@[simp]
theorem length_write (off : Nat) :
    (write blank old off data).length = max old.length (off + data.length) := by
  rw [write, List.length_map, List.length_range]

@[simp]
theorem length_resize (size : Nat) : (resize blank old size).length = size := by
  rw [resize, List.length_map, List.length_range]

/-- Two files of one length that read the same are equal. -/
theorem ext_read {first second : List α} (length : first.length = second.length)
    (same : ∀ i < first.length, read blank first i = read blank second i) :
    first = second := by
  apply List.ext_getElem length
  intro i inFirst inSecond
  rw [← read_of_lt blank inFirst, ← read_of_lt blank inSecond]
  exact same i inFirst

theorem read_write {off i : Nat} :
    read blank (write blank old off data) i =
      if off ≤ i ∧ i < off + data.length then read blank data (i - off)
      else read blank old i := by
  by_cases inside : i < (write blank old off data).length
  · rw [read_of_lt blank inside]
    simp only [write, List.getElem_map, List.getElem_range]
  · rw [read_of_ge blank (Nat.le_of_not_lt inside)]
    rw [length_write] at inside
    rw [if_neg (by omega), read_of_ge blank (by omega)]

theorem read_resize {size i : Nat} :
    read blank (resize blank old size) i =
      if i < size then read blank old i else blank := by
  by_cases inside : i < size
  · rw [read_of_lt blank (by rwa [length_resize]), if_pos inside]
    simp only [resize, List.getElem_map, List.getElem_range]
  · rw [read_of_ge blank (by rw [length_resize]; exact Nat.le_of_not_lt inside), if_neg inside]

theorem read_append {first second : List α} {i : Nat} :
    read blank (first ++ second) i =
      if i < first.length then read blank first i
      else read blank second (i - first.length) := by
  unfold read
  by_cases inside : i < first.length
  · rw [List.getElem?_append_left inside, if_pos inside]
  · rw [List.getElem?_append_right (Nat.le_of_not_lt inside), if_neg inside]

theorem read_replicate {count i : Nat} :
    read blank (List.replicate count blank) i = blank := by
  unfold read
  rw [List.getElem?_replicate]
  split <;> rfl

theorem read_take {count i : Nat} :
    read blank (old.take count) i = if i < count then read blank old i else blank := by
  unfold read
  rw [List.getElem?_take]
  split <;> rfl

theorem read_drop {count i : Nat} :
    read blank (old.drop count) i = read blank old (count + i) := by
  unfold read
  rw [List.getElem?_drop]

/-- A write is a prefix of the old file filled up with blanks, the data, and what
the data leaves of the end. -/
theorem write_eq (off : Nat) :
    write blank old off data =
      old.take off ++ List.replicate (off - old.length) blank ++ data ++
        old.drop (off + data.length) := by
  apply ext_read blank
  · simp only [length_write, List.length_append, List.length_take, List.length_replicate,
      List.length_drop]
    omega
  · intro i inside
    rw [read_write]
    simp only [read_append, read_take, read_drop, read_replicate, List.length_append,
      List.length_take, List.length_replicate]
    have start : min off old.length + (off - old.length) = off := by omega
    rw [start]
    by_cases before : i < off
    · rw [if_neg (by omega), if_pos (by omega), if_pos before]
      by_cases kept : i < old.length
      · rw [if_pos (by omega)]
        rw [if_pos before]
      · rw [if_neg (by omega), read_of_ge blank (by omega)]
    · by_cases written : i < off + data.length
      · rw [if_pos (by omega), if_pos (by omega), if_neg before]
      · rw [if_neg (by omega), if_neg (by omega)]
        congr 1
        omega

theorem resize_eq (size : Nat) :
    resize blank old size = old.take size ++ List.replicate (size - old.length) blank := by
  apply ext_read blank
  · rw [length_resize, List.length_append, List.length_take, List.length_replicate]
    omega
  · intro i inside
    rw [length_resize] at inside
    rw [read_resize, read_append, read_take, read_replicate, List.length_take,
      if_pos inside]
    by_cases kept : i < old.length
    · rw [if_pos (by omega)]
    · rw [if_neg (by omega), read_of_ge blank (by omega)]

end SparseFile
