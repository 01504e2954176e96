import Mathlib.Data.List.TakeWhile
import Mathlib.Data.Nat.Digits.Defs
import Mathlib.Data.Nat.Digits.Lemmas

/-!
# Decimal text

Printing a number in decimal and reading it back as `atoi` does: white space, an
optional sign, then digits up to the first other character.  The value saturates
at the bounds of a 64-bit `long` and is then cut to 32 bits.
-/

namespace Decimal

def digit (value : Nat) : BitVec 8 := BitVec.ofNat 8 (48 + value)

def isDigit (byte : BitVec 8) : Bool := 48 ≤ byte.toNat && byte.toNat ≤ 57

/-- The decimal representation, without leading zeros. -/
def print (number : Nat) : List (BitVec 8) :=
  if number = 0 then [digit 0] else (Nat.digits 10 number).reverse.map digit

/-- The value of a string of digits. -/
def read (text : List (BitVec 8)) : Nat :=
  text.foldl (fun value byte => 10 * value + (byte.toNat - 48)) 0

def isSpace (byte : BitVec 8) : Bool :=
  byte.toNat = 32 || (9 ≤ byte.toNat && byte.toNat ≤ 13)

/-- The optional sign: whether it is a minus, and what follows. -/
def sign : List (BitVec 8) → Bool × List (BitVec 8)
  | [] => (false, [])
  | byte :: rest =>
      if byte = 45 then (true, rest)
      else if byte = 43 then (false, rest)
      else (false, byte :: rest)

/-- `strtol(text, NULL, 10)`. -/
def strtol (text : List (BitVec 8)) : Int :=
  let (negative, digits) := sign (text.dropWhile isSpace)
  let magnitude : Int := read (digits.takeWhile isDigit)
  if negative then max (-magnitude) (-2 ^ 63) else min magnitude (2 ^ 63 - 1)

/-- `atoi(text)`. -/
def atoi (text : List (BitVec 8)) : BitVec 32 :=
  BitVec.ofInt 32 (strtol text)

theorem toNat_digit {value : Nat} (small : value < 10) :
    (digit value).toNat = 48 + value := by
  rw [digit, BitVec.toNat_ofNat, Nat.mod_eq_of_lt (by omega)]

theorem isDigit_digit {value : Nat} (small : value < 10) :
    isDigit (digit value) = true := by
  simp only [isDigit, toNat_digit small, Bool.and_eq_true, decide_eq_true_eq]
  omega

theorem isDigit_of_mem_print {number : Nat} {byte : BitVec 8}
    (member : byte ∈ print number) : isDigit byte = true := by
  rw [print] at member
  split at member
  · obtain rfl := List.mem_singleton.mp member
    rfl
  · obtain ⟨value, isDigit, rfl⟩ := List.mem_map.mp member
    exact isDigit_digit (Nat.digits_lt_base (by decide) (List.mem_reverse.mp isDigit))

theorem print_ne_nil (number : Nat) : print number ≠ [] := by
  rw [print]
  split
  · exact List.cons_ne_nil _ _
  · rename_i nonzero
    simpa using Nat.digits_ne_nil_iff_ne_zero.mpr nonzero

/-- The lowest digit comes first in `Nat.digits`. -/
theorem read_reverse_digits {digits : List Nat} (small : ∀ value ∈ digits, value < 10) :
    read (digits.reverse.map digit) = Nat.ofDigits 10 digits := by
  induction digits with
  | nil => rfl
  | cons value rest ih =>
      have valueSmall := small value List.mem_cons_self
      have restRead := ih fun other member => small other (List.mem_cons_of_mem _ member)
      rw [read] at restRead
      rw [read, List.reverse_cons, List.map_append, List.foldl_append, restRead,
        List.map_singleton, List.foldl_cons, List.foldl_nil, toNat_digit valueSmall,
        Nat.ofDigits_cons]
      omega

/-- Reading back what was printed. -/
theorem read_print (number : Nat) : read (print number) = number := by
  rw [print]
  split
  · rename_i zero
    rw [zero]
    rfl
  · rw [read_reverse_digits fun value member =>
      Nat.digits_lt_base (by decide) member, Nat.ofDigits_digits]

/-- A digit is neither white space nor a sign. -/
theorem isSpace_of_isDigit {byte : BitVec 8} (digit : isDigit byte = true) :
    isSpace byte = false ∧ byte ≠ 45 ∧ byte ≠ 43 := by
  simp only [isDigit, Bool.and_eq_true, decide_eq_true_eq] at digit
  refine ⟨?_, ?_, ?_⟩
  · simp only [isSpace, Bool.or_eq_false_iff, Bool.and_eq_false_iff,
      decide_eq_false_iff_not]
    omega
  · rintro rfl
    exact absurd digit.1 (by decide)
  · rintro rfl
    exact absurd digit.1 (by decide)

theorem strtol_print {number : Nat} (inside : number < 2 ^ 63) :
    strtol (print number) = number := by
  have digits : ∀ byte ∈ print number, isDigit byte = true :=
    fun byte => isDigit_of_mem_print
  have value := read_print number
  cases text : print number with
  | nil => exact absurd text (print_ne_nil number)
  | cons byte rest =>
      rw [text] at digits value
      obtain ⟨notSpace, notMinus, notPlus⟩ :=
        isSpace_of_isDigit (digits byte List.mem_cons_self)
      have unspaced : (byte :: rest).dropWhile isSpace = byte :: rest :=
        List.dropWhile_cons_of_neg (by rw [notSpace]; decide)
      have unsigned : sign (byte :: rest) = (false, byte :: rest) := by
        rw [sign, if_neg notMinus, if_neg notPlus]
      have all : (byte :: rest).takeWhile isDigit = byte :: rest :=
        List.takeWhile_eq_self_iff.mpr digits
      rw [strtol, unspaced, unsigned]
      simp only [all, value, Bool.false_eq_true, if_false]
      omega

/-- `atoi` inverts printing for numbers that fit in an `int`. -/
theorem atoi_print {number : Nat} (inside : number < 2 ^ 31) :
    (atoi (print number)).signExtend 64 = BitVec.ofNat 64 number := by
  rw [atoi, strtol_print (by omega), BitVec.ofInt_natCast]
  have positive : (BitVec.ofNat 32 number).msb = false := by
    rw [BitVec.msb_eq_false_iff_two_mul_lt, BitVec.toNat_ofNat,
      Nat.mod_eq_of_lt (by omega)]
    omega
  rw [BitVec.signExtend_eq_setWidth_of_msb_false positive]
  apply BitVec.eq_of_toNat_eq
  rw [BitVec.toNat_setWidth, BitVec.toNat_ofNat, BitVec.toNat_ofNat,
    Nat.mod_eq_of_lt (show number < 2 ^ 32 by omega)]

end Decimal
