import Mathlib.Data.Finset.Card
import Mathlib.Data.List.Range
import Mathlib.Order.Interval.Finset.Nat

/-!
# First-fit allocation from an interval

An allocator that hands out the lowest free number of an interval `[low, high)`,
`used` being the set of numbers taken.  Taking `count` numbers one after the
other gives the first `count` entries of the ascending list of free numbers.
-/

namespace FirstFit

/-- `first` is the lowest number of `[low, high)` outside `used`. -/
structure IsFirst (low high : Nat) (used : Finset Nat) (first : Nat) : Prop where
  low_le : low ≤ first
  lt_high : first < high
  free : first ∉ used
  least : ∀ number, low ≤ number → number < first → number ∈ used

theorem IsFirst.mono {low high larger : Nat} {used : Finset Nat} {first : Nat}
    (isFirst : IsFirst low high used first) (le : high ≤ larger) :
    IsFirst low larger used first where
  low_le := isFirst.low_le
  lt_high := lt_of_lt_of_le isFirst.lt_high le
  free := isFirst.free
  least := isFirst.least

/-- Once an initial part of the interval is taken, the number after it is first. -/
theorem isFirst_Ico {low high first : Nat} (lowLe : low ≤ first)
    (ltHigh : first < high) : IsFirst low high (Finset.Ico low first) first where
  low_le := lowLe
  lt_high := ltHigh
  free := by simp
  least := fun _ numberLow less => Finset.mem_Ico.mpr ⟨numberLow, less⟩

theorem exists_isFirst {low high number : Nat} {used : Finset Nat}
    (lowLe : low ≤ number) (ltHigh : number < high) (free : number ∉ used) :
    ∃ first, first ≤ number ∧ IsFirst low high used first := by
  have some_free : ∃ candidate, low ≤ candidate ∧ candidate ∉ used :=
    ⟨number, lowLe, free⟩
  classical
  have spec := Nat.find_spec some_free
  have le_number : Nat.find some_free ≤ number :=
    Nat.find_min' some_free ⟨lowLe, free⟩
  refine ⟨Nat.find some_free, le_number, spec.1,
    lt_of_le_of_lt le_number ltHigh, spec.2, ?_⟩
  intro other otherLow otherLt
  by_contra otherFree
  exact Nat.find_min some_free otherLt ⟨otherLow, otherFree⟩

/-- The numbers of `[low, high)` outside `used`, ascending. -/
def freeList (low high : Nat) (used : Finset Nat) : List Nat :=
  (List.range' low (high - low)).filter fun number => number ∉ used

variable {low high : Nat} {used : Finset Nat}

@[simp]
theorem mem_freeList {number : Nat} :
    number ∈ freeList low high used ↔
      (low ≤ number ∧ number < high) ∧ number ∉ used := by
  simp only [freeList, List.mem_filter, List.mem_range'_1, decide_eq_true_eq]
  constructor
  · rintro ⟨bounds, free⟩
    exact ⟨⟨bounds.1, by omega⟩, free⟩
  · rintro ⟨bounds, free⟩
    exact ⟨⟨bounds.1, by omega⟩, free⟩

theorem pairwise_freeList : (freeList low high used).Pairwise (· < ·) :=
  List.Pairwise.filter _ List.pairwise_lt_range'

theorem nodup_freeList : (freeList low high used).Nodup :=
  pairwise_freeList.imp Nat.ne_of_lt

/-- Used and free numbers together fill the interval. -/
theorem length_freeList_add_card (within : used ⊆ Finset.Ico low high) :
    (freeList low high used).length + used.card = high - low := by
  have free : (freeList low high used).toFinset = Finset.Ico low high \ used := by
    ext number
    simp
  rw [← List.toFinset_card_of_nodup nodup_freeList, free,
    Finset.card_sdiff_of_subset within, Nat.card_Ico]
  have bound := Finset.card_le_card within
  rw [Nat.card_Ico] at bound
  omega

/-- The entry after the first `count` free numbers is the first fit once these
are taken. -/
theorem isFirst_getElem {count : Nat}
    (inside : count < (freeList low high used).length) :
    IsFirst low high
      (used ∪ ((freeList low high used).take count).toFinset)
      (freeList low high used)[count] := by
  have member := List.getElem_mem inside
  rw [mem_freeList] at member
  have ordered := List.pairwise_iff_getElem.mp
    (pairwise_freeList : (freeList low high used).Pairwise (· < ·))
  refine ⟨member.1.1, member.1.2, ?_, ?_⟩
  · simp only [Finset.mem_union, List.mem_toFinset, not_or]
    refine ⟨member.2, ?_⟩
    intro taken
    obtain ⟨index, indexLt, equal⟩ := List.mem_take_iff_getElem.mp taken
    have less := ordered index count (by omega) inside (by omega)
    omega
  · intro number numberLow numberLt
    simp only [Finset.mem_union, List.mem_toFinset]
    by_cases isUsed : number ∈ used
    · exact Or.inl isUsed
    · right
      have free : number ∈ freeList low high used :=
        mem_freeList.mpr ⟨⟨numberLow, lt_trans numberLt member.1.2⟩, isUsed⟩
      obtain ⟨index, indexLt, equal⟩ := List.mem_iff_getElem.mp free
      have before : index < count := by
        by_contra notBefore
        rcases Nat.lt_or_eq_of_le (Nat.le_of_not_lt notBefore) with less | same
        · have := ordered count index inside indexLt less
          omega
        · subst same
          omega
      exact List.mem_take_iff_getElem.mpr ⟨index, by omega, equal⟩

end FirstFit
