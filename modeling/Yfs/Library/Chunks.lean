import Mathlib.Data.List.Basic

/-!
# Lists cut into pieces of equal size

Reading position `index` of a concatenation of pieces of size `size` reads
position `index % size` of piece `index / size`.
-/

namespace Chunks

variable {α β : Type*} {size : Nat}

theorem getElem?_flatMap (pieces : α → List β) (positive : 0 < size)
    (lengths : ∀ item, (pieces item).length = size) (items : List α)
    (index : Nat) :
    (items.flatMap pieces)[index]? =
      (items[index / size]?).bind fun item => (pieces item)[index % size]? := by
  induction items generalizing index with
  | nil => simp
  | cons item items ih =>
      rw [List.flatMap_cons]
      by_cases inside : index < size
      · rw [List.getElem?_append_left (by rw [lengths]; exact inside),
          Nat.div_eq_of_lt inside, Nat.mod_eq_of_lt inside]
        rfl
      · have atLeast : size ≤ index := Nat.le_of_not_lt inside
        have quotient : index / size = (index - size) / size + 1 := by
          rw [← Nat.div_eq_sub_div positive atLeast]
        have remainder : index % size = (index - size) % size :=
          Nat.mod_eq_sub_mod atLeast
        rw [List.getElem?_append_right (by rw [lengths]; exact atLeast),
          lengths, ih, quotient, remainder]
        rfl

/-- Equal pieces that agree with a list position by position, as far as the
list goes, concatenate to an extension of it. -/
theorem take_flatMap_eq (pieces : α → List β) (positive : 0 < size)
    (lengths : ∀ item, (pieces item).length = size) (items : List α)
    (values : List β)
    (agree : ∀ index (inside : index < values.length),
      (items[index / size]?).bind (fun item => (pieces item)[index % size]?) =
        some values[index]) :
    (items.flatMap pieces).take values.length = values := by
  apply List.ext_getElem?
  intro index
  by_cases inside : index < values.length
  · rw [List.getElem?_take_of_lt inside, getElem?_flatMap pieces positive
      lengths, agree index inside, List.getElem?_eq_getElem inside]
  · rw [List.getElem?_take_eq_none (Nat.le_of_not_lt inside),
      List.getElem?_eq_none (Nat.le_of_not_lt inside)]

end Chunks
