import Mathlib.Data.List.TakeDrop

/-!
# Delimited input

An input stream as `std::getline` with a delimiter sees it: the characters left
and whether the stream is still good.  A good stream reads up to the delimiter,
which it drops, or to the end, where it goes bad.  A bad stream reads nothing and
leaves the token as it was.
-/

namespace Delimited

variable {α : Type} [DecidableEq α]

structure Stream (α : Type) where
  rest : List α
  good : Bool

/-- `getline(stream, token, delimiter)`: whether the stream is not failed, the
token, and the stream. -/
def getline (delimiter : α) (stream : Stream α) (token : List α) :
    Bool × List α × Stream α :=
  if stream.good then
    match stream.rest.dropWhile (· ≠ delimiter) with
    | _ :: rest => (true, stream.rest.takeWhile (· ≠ delimiter), ⟨rest, true⟩)
    | [] => (decide (stream.rest ≠ []), stream.rest, ⟨[], false⟩)
  else (false, token, stream)

variable {delimiter : α}

theorem takeWhile_append {token rest : List α} (free : delimiter ∉ token) :
    (token ++ delimiter :: rest).takeWhile (· ≠ delimiter) = token := by
  induction token with
  | nil => simp
  | cons head tail ih =>
      have different : head ≠ delimiter := fun same => free (same ▸ List.mem_cons_self)
      have tailFree : delimiter ∉ tail := fun member =>
        free (List.mem_cons_of_mem _ member)
      rw [List.cons_append, List.takeWhile_cons_of_pos (by simpa using different),
        ih tailFree]

theorem dropWhile_append {token rest : List α} (free : delimiter ∉ token) :
    (token ++ delimiter :: rest).dropWhile (· ≠ delimiter) = delimiter :: rest := by
  induction token with
  | nil => simp
  | cons head tail ih =>
      have different : head ≠ delimiter := fun same => free (same ▸ List.mem_cons_self)
      have tailFree : delimiter ∉ tail := fun member =>
        free (List.mem_cons_of_mem _ member)
      rw [List.cons_append, List.dropWhile_cons_of_pos (by simpa using different),
        ih tailFree]

/-- A token followed by the delimiter is read whole. -/
theorem getline_append {token rest : List α} (free : delimiter ∉ token)
    (old : List α) :
    getline delimiter ⟨token ++ delimiter :: rest, true⟩ old =
      (true, token, ⟨rest, true⟩) := by
  simp only [getline, dropWhile_append free, takeWhile_append free, if_true]

/-- Nothing is left to read. -/
theorem getline_nil (old : List α) :
    getline delimiter ⟨[], true⟩ old = (false, [], ⟨[], false⟩) := by
  simp [getline]

/-- Reading never makes the input longer. -/
theorem length_getline_le (stream : Stream α) (old : List α) :
    (getline delimiter stream old).2.2.rest.length ≤ stream.rest.length := by
  unfold getline
  split
  · have shorter : (stream.rest.dropWhile (· ≠ delimiter)).length ≤
        stream.rest.length := (List.dropWhile_sublist _).length_le
    split
    · rename_i remaining
      rw [remaining, List.length_cons] at shorter
      exact Nat.le_of_succ_le shorter
    · exact Nat.zero_le _
  · exact Nat.le_refl _

/-- A token is taken from the input. -/
theorem length_getline_add (stream : Stream α) :
    (getline delimiter stream []).2.1.length +
      (getline delimiter stream []).2.2.rest.length ≤ stream.rest.length := by
  unfold getline
  split
  · have parts := congrArg List.length
      (List.takeWhile_append_dropWhile (p := (· ≠ delimiter)) (l := stream.rest))
    rw [List.length_append] at parts
    split
    · rename_i remaining
      rw [remaining, List.length_cons] at parts
      dsimp only
      omega
    · exact Nat.le_refl _
  · exact Nat.le_of_eq (Nat.zero_add _)

theorem length_getline_lt (stream : Stream α)
    (nonempty : (getline delimiter stream []).2.1 ≠ []) :
    (getline delimiter stream []).2.2.rest.length < stream.rest.length := by
  have taken : (getline delimiter stream []).2.1.length +
      (getline delimiter stream []).2.2.rest.length ≤ stream.rest.length :=
    length_getline_add stream
  have positive := List.length_pos_iff.mpr nonempty
  omega

end Delimited
