import Yfs.Library.ClientLogic
import Yfs.YfsClient

/-!
# The tester of the extent store

`part1_tester.cc` creates files of random types, fills them with random numbers, reads
them back, does the same with two large files, and removes them again.  It prints a score
of 100 unless it finds an error.

Each call of `rand` is taken from a sequence of arbitrary numbers.
-/

namespace Yfs.Part1Tester

open ClientServer

/-- `FILE_NUM`. -/
abbrev fileNum : Nat := 50

/-- `LARGE_FILE_SIZE`. -/
abbrev largeFileSize : Nat := 512 * 64

/-- What the tester does not determine itself. -/
structure Chances where
  /-- `rand()` in each round of `test_create_and_getattr`. -/
  types : Nat → Nat
  /-- `rand()` in each round of `test_put_and_get` that writes a number. -/
  numbers : Nat → Nat
  /-- `rand()` in the two loops of `test_indirect`. -/
  letters1 : Nat → Nat
  letters2 : Nat → Nat
  /-- The characters in memory between the end of `temp1`, which has no NUL at its end, and
  the next NUL; and those behind `temp2`. -/
  beyond1 : CString
  beyond2 : CString
  /-- The array `contents` before it is set. -/
  unset : Nat → Nat

/-- The type of the file that a round creates. -/
def kind (chances : Chances) (i : Nat) : BitVec 32 :=
  if chances.types i % 10 < 3 then tDir else tFile

/-- A round of `test_create_and_getattr`, the two branches of which differ in the type
only. -/
def createRound (chances : Chances) (i : Nat) (_ : Unit) : Client (Nat × Unit) := do
  let (_, id) ← ExtentClient.create (kind chances i)
  -- `(int)id == 0`
  if id.setWidth 32 = (0 : BitVec 32) then return (1, ())
  else
    let (r, a) ← ExtentClient.getattr id
    if r ≠ .OK then return (2, ())
    else if a.type ≠ kind chances i then return (3, ())
    else return (0, ())

/-- The tests return a code, zero for success, and the total score. -/
def testCreateAndGetattr (chances : Chances) (score : Nat) : Client (Nat × Nat) := do
  let (code, _) ← Program.rounds (createRound chances) fileNum 0 ()
  if code ≠ 0 then return (code, score) else return (0, score + 40)

/-- `std::string buf(temp1)` for a buffer of random letters. -/
def largeText (rand : Nat → Nat) (beyond : CString) : List Byte :=
  ((List.range largeFileSize).map fun i => BitVec.ofNat 8 (97 + rand i % 26)) ++ beyond.text

def testIndirect (chances : Chances) (score : Nat) : Client (Nat × Nat) := do
  let (_, id1) ← ExtentClient.create tFile
  let buf := largeText chances.letters1 chances.beyond1
  let r ← ExtentClient.put id1 buf
  if r ≠ .OK then return (1, score)
  else
    let (_, id2) ← ExtentClient.create tFile
    let buf2 := largeText chances.letters2 chances.beyond2
    let r ← ExtentClient.put id2 buf2
    if r ≠ .OK then return (2, score)
    else
      let (r, got) ← ExtentClient.get id1
      if r ≠ .OK then return (3, score)
      else if buf ≠ got then return (4, score)
      else
        let (r, got) ← ExtentClient.get id2
        if r ≠ .OK then return (5, score)
        else if buf2 ≠ got then return (6, score)
        else return (0, score + 10)

/-- `(extentid_t)(i + 2)`. -/
def idOf (i : Nat) : ExtentId :=
  BitVec.ofNat 64 (i + 2)

/-- A round of the first loop of `test_put_and_get`. -/
def putRound (chances : Chances) (i : Nat) (contents : Nat → Nat) :
    Client (Nat × (Nat → Nat)) := do
  let (r, a) ← ExtentClient.getattr (idOf i)
  if r ≠ .OK then return (1, contents)
  else if a.type = tFile then
    let rnum := chances.numbers i % 10000
    let r ← ExtentClient.put (idOf i) (Decimal.print rnum)
    if r ≠ .OK then return (2, contents)
    else return (0, Function.update contents i rnum)
  else return (0, contents)

/-- A round of the second loop. -/
def getRound (i : Nat) (contents : Nat → Nat) : Client (Nat × (Nat → Nat)) := do
  let (r, a) ← ExtentClient.getattr (idOf i)
  if r ≠ .OK then return (3, contents)
  else if a.type = tFile then
    let (r, buf) ← ExtentClient.get (idOf i)
    if r ≠ .OK then return (4, contents)
    else if buf ≠ Decimal.print (contents i) then return (5, contents)
    else return (0, contents)
  else return (0, contents)

/-- The code of `test_indirect` is ignored. -/
def testPutAndGet (chances : Chances) (score : Nat) : Client (Nat × Nat) := do
  let (code, contents) ← Program.rounds (putRound chances) fileNum 0 chances.unset
  if code ≠ 0 then return (code, score)
  else
    let (code, _) ← Program.rounds getRound fileNum 0 contents
    if code ≠ 0 then return (code, score)
    else
      let (_, score) ← testIndirect chances (score + 30)
      return (0, score)

def removeRound (i : Nat) (_ : Unit) : Client (Nat × Unit) := do
  let r ← ExtentClient.remove (idOf i)
  if r ≠ .OK then return (1, ())
  else
    let (_, a) ← ExtentClient.getattr (idOf i)
    if a.type ≠ 0 then return (2, ()) else return (0, ())

def testRemove (score : Nat) : Client (Nat × Nat) := do
  let (code, _) ← Program.rounds removeRound fileNum 0 ()
  if code ≠ 0 then return (code, score) else return (0, score + 20)

/-- `main`, with the score that it prints. -/
def main (chances : Chances) : Client Nat := do
  let (code, score) ← testCreateAndGetattr chances 0
  if code ≠ 0 then return score
  else
    let (code, score) ← testPutAndGet chances score
    if code ≠ 0 then return score
    else
      let (_, score) ← testRemove score
      return score

end Yfs.Part1Tester
