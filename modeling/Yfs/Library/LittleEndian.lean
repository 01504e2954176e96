import Mathlib.Data.Nat.Bits

/-!
# Bits of bytes and little-endian words

Single bits of a byte are read and written through a 32-bit integer, as C's
integer promotion does, and a 32-bit word is stored as four bytes, least
significant first.
-/

namespace LittleEndian

/-- `b & (1 << k)` is nonzero, the byte being promoted to a signed int. -/
def testBit (byte : BitVec 8) (bit : Nat) : Bool :=
  byte.signExtend 32 &&& (1#32 <<< bit) != 0#32

/-- `b |= (1 << k)` on a signed byte. -/
def setBit (byte : BitVec 8) (bit : Nat) : BitVec 8 :=
  (byte.signExtend 32 ||| (1#32 <<< bit)).setWidth 8

/-- `b &= ~(1 << k)` on a signed byte. -/
def clearBit (byte : BitVec 8) (bit : Nat) : BitVec 8 :=
  (byte.signExtend 32 &&& ~~~(1#32 <<< bit)).setWidth 8

theorem getLsbD_one_shiftLeft {bit index : Nat} (indexLt : index < 32) :
    (1#32 <<< bit).getLsbD index = decide (index = bit) := by
  simp only [BitVec.getLsbD_shiftLeft, BitVec.getLsbD_one]
  by_cases equal : index = bit
  · simp [equal] at indexLt ⊢
    exact indexLt
  · simp [equal]
    omega

theorem getLsbD_promoted (byte : BitVec 8) {index : Nat} (indexLt : index < 8) :
    (byte.signExtend 32).getLsbD index = byte.getLsbD index := by
  have inside : index < 32 := by omega
  rw [BitVec.getLsbD_signExtend]
  simp only [inside, indexLt, decide_true, Bool.true_and, if_true]

/-- The promoted test reads exactly the bit, also for the sign bit. -/
theorem testBit_eq (byte : BitVec 8) {bit : Nat} (bitLt : bit < 8) :
    testBit byte bit = byte.getLsbD bit := by
  have selected : ∀ index < 32,
      (byte.signExtend 32 &&& (1#32 <<< bit)).getLsbD index =
        (decide (index = bit) && byte.getLsbD bit) := by
    intro index indexLt
    rw [BitVec.getLsbD_and, getLsbD_one_shiftLeft indexLt]
    by_cases equal : index = bit
    · subst equal
      rw [getLsbD_promoted byte bitLt]
      simp
    · simp [equal]
  unfold testBit
  cases value : byte.getLsbD bit with
  | false =>
      have zero : byte.signExtend 32 &&& (1#32 <<< bit) = 0#32 := by
        apply BitVec.eq_of_getLsbD_eq
        intro index indexLt
        rw [selected index indexLt]
        simp [value]
      simp [zero]
  | true =>
      have nonzero : byte.signExtend 32 &&& (1#32 <<< bit) ≠ 0#32 := by
        intro zero
        have bitValue := selected bit (by omega)
        rw [zero] at bitValue
        simp [value] at bitValue
      simpa using nonzero

theorem getLsbD_setBit (byte : BitVec 8) {bit index : Nat}
    (indexLt : index < 8) :
    (setBit byte bit).getLsbD index =
      (byte.getLsbD index || decide (index = bit)) := by
  have inside : index < 32 := by omega
  simp only [setBit, BitVec.getLsbD_setWidth, indexLt, decide_true,
    Bool.true_and, BitVec.getLsbD_or, getLsbD_promoted byte indexLt,
    getLsbD_one_shiftLeft inside]

theorem getLsbD_clearBit (byte : BitVec 8) {bit index : Nat}
    (indexLt : index < 8) :
    (clearBit byte bit).getLsbD index =
      (byte.getLsbD index && decide (index ≠ bit)) := by
  have inside : index < 32 := by omega
  simp only [clearBit, BitVec.getLsbD_setWidth, indexLt, inside, decide_true,
    Bool.true_and, BitVec.getLsbD_and, BitVec.getLsbD_not,
    getLsbD_promoted byte indexLt, getLsbD_one_shiftLeft inside, decide_not]

/-- Byte `index` of a 32-bit word. -/
def byteOf (word : BitVec 32) (index : Nat) : BitVec 8 :=
  word.extractLsb' (8 * index) 8

/-- The word whose bytes are `bytes 0` to `bytes 3`. -/
def ofBytes (bytes : Nat → BitVec 8) : BitVec 32 :=
  bytes 3 ++ bytes 2 ++ bytes 1 ++ bytes 0

@[simp]
theorem ofBytes_byteOf (word : BitVec 32) : ofBytes (byteOf word) = word := by
  apply BitVec.eq_of_getLsbD_eq
  intro index indexLt
  simp only [ofBytes, byteOf, BitVec.getLsbD_append, BitVec.getLsbD_extractLsb']
  by_cases first : index < 8
  · simp [first]
  by_cases second : index - 8 < 8
  · simp [first, second]
    congr 1
    omega
  by_cases third : index - 8 - 8 < 8
  · simp [first, second, third]
    congr 1
    omega
  · have fourth : index - 8 - 8 - 8 < 8 := by omega
    simp [first, second, third, fourth]
    congr 1
    omega

theorem byteOf_ofBytes (bytes : Nat → BitVec 8) {index : Nat} (inside : index < 4) :
    byteOf (ofBytes bytes) index = bytes index := by
  apply BitVec.eq_of_getLsbD_eq
  intro bit bitLt
  simp only [ofBytes, byteOf, BitVec.getLsbD_append, BitVec.getLsbD_extractLsb', bitLt,
    decide_true, Bool.true_and]
  rcases (by omega : index = 0 ∨ index = 1 ∨ index = 2 ∨ index = 3) with
    rfl | rfl | rfl | rfl
  · simp [bitLt]
  · simp [show ¬8 + bit < 8 by omega, show 8 + bit - 8 = bit by omega, bitLt]
  · simp [show ¬16 + bit < 8 by omega, show ¬16 + bit - 8 < 8 by omega,
      show 16 + bit - 8 - 8 = bit by omega, bitLt]
  · simp [show ¬24 + bit < 8 by omega, show ¬24 + bit - 8 < 8 by omega,
      show ¬24 + bit - 8 - 8 < 8 by omega, show 24 + bit - 8 - 8 - 8 = bit by omega]

theorem ofBytes_congr {first second : Nat → BitVec 8}
    (same : ∀ index < 4, first index = second index) :
    ofBytes first = ofBytes second := by
  simp [ofBytes, same]

end LittleEndian
