import Yfs.Part1Tester
import Yfs.Room
import Yfs.YfsRuns

/-!
# The tester finds no error

Whatever `rand` returns, and whatever memory holds, every check of the tester succeeds.
-/

namespace Yfs.Part1Tester

open ClientServer
open ClientServer.Program (Ensures)

section Contents

/-- Few inodes have room whatever they hold, as each is small enough for a file. -/
theorem hasRoom_of_few {contents : Contents} (few : contents.created < 100)
    (fits : ∀ id type data, contents.ledger id = some (type, data) →
      data.length ≤ maxFile * blockSize) : contents.HasRoom := by
  refine ⟨fits, ?_⟩
  have each : ∀ id ∈ Finset.range (contents.created + 1),
      contents.blocksOf id ≤ blocksFor (maxFile * blockSize) := by
    intro id _
    rw [Contents.blocksOf]
    cases held : contents.ledger id with
    | none => exact Nat.zero_le _
    | some entry => exact blocksFor_mono (fits id entry.1 entry.2 held)
  calc
    ∑ id ∈ Finset.range (contents.created + 1), contents.blocksOf id ≤
        (contents.created + 1) * blocksFor (maxFile * blockSize) := by
      have bound := Finset.sum_le_card_nsmul _ _ _ each
      rw [Finset.card_range] at bound
      exact bound
    _ ≤ 100 * blocksFor (maxFile * blockSize) := Nat.mul_le_mul_right _ few
    _ ≤ maxBlocks := by decide

/-- The store while it is tested: the files of the first test have their types. -/
structure Tested (chances : Chances) (files created : Nat) (contents : Contents) : Prop where
  made : contents.created = created
  few : created < 100
  older : files < created
  typed : ∀ i < files, ∃ data, contents.ledger (i + 2) = some (kind chances i, data)
  fits : ∀ id type data, contents.ledger id = some (type, data) →
    data.length ≤ maxFile * blockSize

variable {chances : Chances} {files created : Nat} {contents written : Contents}

theorem Tested.hasRoom (tested : Tested chances files created contents) : contents.HasRoom := by
  apply hasRoom_of_few _ tested.fits
  rw [tested.made]
  exact tested.few

/-- A new file has the next number. -/
theorem Tested.create (tested : Tested chances files created contents)
    (few : created + 1 < 100) (type : BitVec 32) :
    ∃ next, contents.create type = .ok (BitVec.ofNat 64 (created + 1), next) ∧
      Tested chances files (created + 1) next ∧
      next.ledger (created + 1) = some (type, []) ∧
      ∀ id, id ≠ created + 1 → next.ledger id = contents.ledger id := by
  have inside : created + 1 < inodeNum := few.trans (by decide)
  have older := tested.older
  refine ⟨⟨created + 1, Function.update contents.ledger (created + 1) (some (type, []))⟩,
    by rw [Contents.create, tested.made, if_pos inside], ?_, Function.update_self _ _ _,
    fun id different => Function.update_of_ne different _ _⟩
  constructor
  · rfl
  · exact few
  · exact older.trans (Nat.lt_succ_self created)
  · intro i isFile
    have different : i + 2 ≠ created + 1 := by omega
    simpa only [Function.update_of_ne different] using tested.typed i isFile
  · intro id kind data held
    by_cases isNew : id = created + 1
    · simp only [isNew, Function.update_self, Option.some.injEq, Prod.mk.injEq] at held
      rw [← held.2]
      exact Nat.zero_le _
    · simp only [Function.update_of_ne isNew] at held
      exact tested.fits id kind data held

/-- Other bytes in a file. -/
theorem Tested.put (tested : Tested chances files created contents) {id : ExtentId}
    {type : BitVec 32} {old data : List Byte}
    (held : contents.ledger (inumOf id) = some (type, old))
    (short : data.length ≤ maxFile * blockSize) :
    ∃ next, contents.put id data = .ok next ∧ Tested chances files created next ∧
      next.ledger (inumOf id) = some (type, data) ∧
      ∀ other, other ≠ inumOf id → next.ledger other = contents.ledger other := by
  refine ⟨⟨contents.created, Function.update contents.ledger (inumOf id) (some (type, data))⟩,
    by rw [Contents.put, held], ?_, Function.update_self _ _ _,
    fun other different => Function.update_of_ne different _ _⟩
  constructor
  · exact tested.made
  · exact tested.few
  · exact tested.older
  · intro i isFile
    obtain ⟨bytes, heldFile⟩ := tested.typed i isFile
    by_cases same : i + 2 = inumOf id
    · rw [same, held] at heldFile
      cases heldFile
      refine ⟨data, ?_⟩
      rw [same]
      exact Function.update_self _ _ _
    · refine ⟨bytes, ?_⟩
      simpa only [Function.update_of_ne same] using heldFile
  · intro other kind bytes heldOther
    by_cases same : other = inumOf id
    · simp only [same, Function.update_self, Option.some.injEq, Prod.mk.injEq] at heldOther
      rw [← heldOther.2]
      exact short
    · simp only [Function.update_of_ne same] at heldOther
      exact tested.fits other kind bytes heldOther

theorem inumOf_idOf {i : Nat} (few : i < fileNum) : inumOf (idOf i) = i + 2 := by
  apply inumOf_ofNat
  simp only [fileNum, inodeNum] at few ⊢
  omega

theorem kind_fitsShort (chances : Chances) (i : Nat) : FitsShort (kind chances i) := by
  rw [kind]
  split
  · decide
  · decide

theorem Tested.typeOf (tested : Tested chances files created contents) {i : Nat}
    (isFile : i < files) (few : i < fileNum) : contents.typeOf (idOf i) = kind chances i := by
  obtain ⟨data, held⟩ := tested.typed i isFile
  rw [Contents.typeOf, inumOf_idOf few, held]
  rfl

end Contents

section Rounds

variable {clock : Nat → BitVec 32} {chances : Chances} {map : ExtentMap} {i : Nat}

theorem idOf_setWidth_ne_zero {i : Nat} (small : i + 2 < 100) :
    (BitVec.ofNat 64 (i + 2)).setWidth 32 ≠ (0 : BitVec 32) := by
  intro zero
  have toNat := congrArg BitVec.toNat zero
  rw [BitVec.toNat_setWidth, BitVec.toNat_ofNat] at toNat
  change (i + 2) % 2 ^ 64 % 2 ^ 32 = 0 at toNat
  omega

/-- A round of the first test. -/
theorem ensures_createRound {contents : Contents} (shows : map.Shows contents)
    (tested : Tested chances i (i + 1) contents) (few : i < fileNum) :
    Ensures (ExtentMap.serve clock) (createRound chances i ()) map
      (fun result after => result.1 = 0 ∧
        ∃ contents, after.Shows contents ∧ Tested chances (i + 1) (i + 2) contents)
      (fun _ => False) := by
  have small : i + 2 < 100 := by
    simp only [fileNum] at few
    omega
  obtain ⟨next, create, grown, isNew, -⟩ := tested.create small (kind chances i)
  have typed : Tested chances (i + 1) (i + 2) next := by
    refine ⟨grown.made, small, Nat.lt_succ_self _, fun j isFile => ?_, grown.fits⟩
    rcases Nat.lt_succ_iff_lt_or_eq.mp isFile with older | rfl
    · exact grown.typed j older
    · exact ⟨[], isNew⟩
  rw [createRound]
  apply ensures_create_room shows (kind_fitsShort chances i) create
  intro after showsAfter
  dsimp only
  rw [if_neg (idOf_setWidth_ne_zero small)]
  apply ensures_getattr showsAfter
  intro a type _
  have same : a.type = kind chances i := type.trans (typed.typeOf (Nat.lt_succ_self i) few)
  dsimp only
  rw [if_neg (by simp), if_neg (not_not.mpr same)]
  exact ⟨rfl, next, showsAfter, typed⟩

/-- The numbers that have been written. -/
def Written (chances : Chances) (count : Nat) (numbers : Nat → Nat) (contents : Contents) :
    Prop :=
  ∀ i < count, kind chances i = tFile →
    contents.ledger (i + 2) = some (tFile, Decimal.print (numbers i))

theorem length_print_le (rnum : Nat) :
    (Decimal.print (rnum % 10000)).length ≤ maxFile * blockSize := by
  have digits : (Nat.digits 10 (rnum % 10000)).length ≤ 4 :=
    (Nat.digits_length_le_iff (by decide) _).mpr (Nat.mod_lt _ (by decide))
  have bound : 4 ≤ maxFile * blockSize := by decide
  rw [Decimal.print]
  split
  · exact le_trans (by decide) bound
  · rw [List.length_map, List.length_reverse]
    exact digits.trans bound

/-- A round that writes a number. -/
theorem ensures_putRound {contents : Contents} {numbers : Nat → Nat}
    (shows : map.Shows contents) (tested : Tested chances fileNum (fileNum + 1) contents)
    (before : Written chances i numbers contents) (few : i < fileNum) :
    Ensures (ExtentMap.serve clock) (putRound chances i numbers) map
      (fun result after => result.1 = 0 ∧ ∃ contents, after.Shows contents ∧
        Tested chances fileNum (fileNum + 1) contents ∧
          Written chances (i + 1) result.2 contents)
      (fun _ => False) := by
  rw [putRound]
  apply ensures_getattr shows
  intro a type _
  rw [tested.typeOf few few] at type
  dsimp only
  rw [if_neg (by simp)]
  by_cases isFile : a.type = tFile
  · rw [if_pos isFile]
    obtain ⟨old, held⟩ := tested.typed i few
    rw [← inumOf_idOf few] at held
    obtain ⟨next, put, filled, isWritten, others⟩ :=
      tested.put held (length_print_le (chances.numbers i))
    rw [inumOf_idOf few] at isWritten others
    apply ensures_put_room shows put filled.hasRoom
    intro after showsAfter
    rw [if_neg (by simp)]
    refine ⟨rfl, next, showsAfter, filled, fun j older ofFile => ?_⟩
    dsimp only
    by_cases same : j = i
    · subst same
      rw [isWritten, ofFile, Function.update_self]
    · have different : j + 2 ≠ i + 2 := by omega
      have earlier : j < i := by omega
      rw [others _ different, Function.update_of_ne same]
      exact before j earlier ofFile
  · rw [if_neg isFile]
    refine ⟨rfl, contents, shows, tested, fun j older ofFile => ?_⟩
    rcases Nat.lt_succ_iff_lt_or_eq.mp older with older | rfl
    · exact before j older ofFile
    · exact absurd (type.trans ofFile) isFile

/-- A round that reads one back. -/
theorem ensures_getRound {contents : Contents} {numbers : Nat → Nat}
    (shows : map.Shows contents) (tested : Tested chances fileNum (fileNum + 1) contents)
    (written : Written chances fileNum numbers contents) (few : i < fileNum) :
    Ensures (ExtentMap.serve clock) (getRound i numbers) map
      (fun result after => result.1 = 0 ∧ after.Shows contents ∧ result.2 = numbers)
      (fun _ => False) := by
  rw [getRound]
  apply ensures_getattr shows
  intro a type _
  rw [tested.typeOf few few] at type
  dsimp only
  rw [if_neg (by simp)]
  by_cases isFile : a.type = tFile
  · rw [if_pos isFile]
    have held := written i few (type.symm.trans isFile)
    have got : contents.get (idOf i) = .ok (Decimal.print (numbers i)) := by
      rw [Contents.get, inumOf_idOf few, held]
    apply ensures_get_ok shows got
    intro after showsAfter
    dsimp only
    rw [if_neg (by simp), if_neg (by simp)]
    exact ⟨rfl, showsAfter, rfl⟩
  · rw [if_neg isFile]
    exact ⟨rfl, shows, rfl⟩

/-- A round that removes a file. -/
theorem ensures_removeRound {contents : Contents} (shows : map.Shows contents)
    (live : ∀ j, i ≤ j → j < fileNum → contents.ledger (j + 2) ≠ none) (few : i < fileNum) :
    Ensures (ExtentMap.serve clock) (removeRound i ()) map
      (fun result after => result.1 = 0 ∧ ∃ contents, after.Shows contents ∧
        ∀ j, i + 1 ≤ j → j < fileNum → contents.ledger (j + 2) ≠ none)
      (fun _ => False) := by
  obtain ⟨entry, held⟩ := Option.ne_none_iff_exists'.mp (live i (Nat.le_refl i) few)
  have remove : contents.remove (idOf i) = .ok
      ⟨contents.created, Function.update contents.ledger (i + 2) none⟩ := by
    rw [Contents.remove, inumOf_idOf few, held]
  rw [removeRound]
  apply ensures_remove_ok shows remove
  intro after showsAfter
  rw [if_neg (by simp)]
  apply ensures_getattr showsAfter
  intro a type _
  have gone : a.type = 0 := by
    rw [type, Contents.typeOf, inumOf_idOf few]
    simp only [Function.update_self, Option.map_none, Option.getD_none]
  dsimp only
  rw [if_neg (not_not.mpr gone)]
  refine ⟨rfl, _, showsAfter, fun j later isFile => ?_⟩
  have different : j + 2 ≠ i + 2 := by omega
  simpa only [Function.update_of_ne different] using live j (Nat.le_of_succ_le later) isFile

end Rounds

section Tests

variable {clock : Nat → BitVec 32} {chances : Chances} {map : ExtentMap} {contents : Contents}

theorem tested_init : Tested chances 0 1 .init where
  made := rfl
  few := by decide
  older := Nat.zero_lt_one
  typed := fun _ never => absurd never (Nat.not_lt_zero _)
  fits := by
    intro id type data held
    by_cases isRoot : id = 1
    · subst isRoot
      cases held
      exact Nat.zero_le _
    · simp [Contents.init, Ledger.root, isRoot] at held

theorem ensures_testCreateAndGetattr (shows : map.Shows .init) (score : Nat) :
    Ensures (ExtentMap.serve clock) (testCreateAndGetattr chances score) map
      (fun result after => result = (0, score + 40) ∧
        ∃ contents, after.Shows contents ∧ Tested chances fileNum (fileNum + 1) contents)
      (fun _ => False) := by
  rw [testCreateAndGetattr]
  refine Ensures.bind (Ensures.rounds (fun i _ (after : ExtentMap) =>
    ∃ contents, after.Shows contents ∧ Tested chances i (i + 1) contents)
    ?_ ⟨.init, shows, tested_init⟩) ?_
  · rintro i few _ state ⟨contents, shows, tested⟩
    exact ensures_createRound shows tested few
  · rintro ⟨code, _⟩ after ⟨isZero, contents, showsAfter, tested⟩
    dsimp only at isZero
    subst isZero
    exact ⟨rfl, contents, showsAfter, tested⟩

theorem length_largeText (rand : Nat → Nat) (beyond : CString) :
    (largeText rand beyond).length = largeFileSize + beyond.text.length := by
  rw [largeText, List.length_append, List.length_map, List.length_range]

theorem get_of_ledger {id : Nat} (inside : id < inodeNum) {type : BitVec 32}
    {data : List Byte} (held : contents.ledger id = some (type, data)) :
    contents.get (BitVec.ofNat 64 id) = .ok data := by
  rw [Contents.get, inumOf_ofNat inside, held]

/-- The large files go to new inodes, and each is read back. -/
theorem ensures_testIndirect (shows : map.Shows contents)
    (tested : Tested chances fileNum (fileNum + 1) contents)
    (fits1 : largeFileSize + chances.beyond1.text.length ≤ maxFile * blockSize)
    (fits2 : largeFileSize + chances.beyond2.text.length ≤ maxFile * blockSize) (score : Nat) :
    Ensures (ExtentMap.serve clock) (testIndirect chances score) map
      (fun result after => result = (0, score + 10) ∧
        ∃ contents, after.Shows contents ∧ Tested chances fileNum (fileNum + 3) contents)
      (fun _ => False) := by
  have fileShort : FitsShort tFile := by decide
  have inside1 : fileNum + 2 < inodeNum := by decide
  have inside2 : fileNum + 3 < inodeNum := by decide
  rw [← length_largeText chances.letters1] at fits1
  rw [← length_largeText chances.letters2] at fits2
  rw [testIndirect]
  obtain ⟨made1, create1, tested1, new1, -⟩ := tested.create (by decide) tFile
  apply ensures_create_room shows fileShort create1
  intro map1 shows1
  rw [← inumOf_ofNat inside1] at new1
  obtain ⟨filled1, put1, tested2, held1, -⟩ := tested1.put new1 fits1
  apply ensures_put_room shows1 put1 tested2.hasRoom
  intro map2 shows2
  rw [if_neg (by simp)]
  obtain ⟨made2, create2, tested3, new2, others2⟩ := tested2.create (by decide) tFile
  apply ensures_create_room shows2 fileShort create2
  intro map3 shows3
  rw [← inumOf_ofNat inside2] at new2
  obtain ⟨filled2, put2, tested4, held2, others3⟩ := tested3.put new2 fits2
  apply ensures_put_room shows3 put2 tested4.hasRoom
  intro map4 shows4
  rw [if_neg (by simp)]
  rw [inumOf_ofNat inside1] at held1
  rw [inumOf_ofNat inside2] at held2 others3
  have still1 : filled2.ledger (fileNum + 2) = some (tFile, _) :=
    (others3 _ (by decide)).trans ((others2 _ (by decide)).trans held1)
  apply ensures_get_ok shows4 (get_of_ledger inside1 still1)
  intro map5 shows5
  dsimp only
  rw [if_neg (by simp), if_neg (by simp)]
  apply ensures_get_ok shows5 (get_of_ledger inside2 held2)
  intro map6 shows6
  dsimp only
  rw [if_neg (by simp), if_neg (by simp)]
  exact ⟨rfl, filled2, shows6, tested4⟩

theorem written_zero (numbers : Nat → Nat) : Written chances 0 numbers contents :=
  fun _ never _ => absurd never (Nat.not_lt_zero _)

theorem ensures_testPutAndGet (shows : map.Shows contents)
    (tested : Tested chances fileNum (fileNum + 1) contents)
    (fits1 : largeFileSize + chances.beyond1.text.length ≤ maxFile * blockSize)
    (fits2 : largeFileSize + chances.beyond2.text.length ≤ maxFile * blockSize) (score : Nat) :
    Ensures (ExtentMap.serve clock) (testPutAndGet chances score) map
      (fun result after => result = (0, score + 40) ∧
        ∃ contents, after.Shows contents ∧ Tested chances fileNum (fileNum + 3) contents)
      (fun _ => False) := by
  rw [testPutAndGet]
  refine Ensures.bind (Ensures.rounds (fun i numbers (after : ExtentMap) =>
    ∃ contents, after.Shows contents ∧ Tested chances fileNum (fileNum + 1) contents ∧
      Written chances i numbers contents)
    ?_ ⟨contents, shows, tested, written_zero chances.unset⟩) ?_
  · rintro i few numbers state ⟨contents, shows, tested, before⟩
    exact ensures_putRound shows tested before few
  rintro ⟨code, numbers⟩ after ⟨isZero, contents, shows, tested, written⟩
  dsimp only at isZero written
  subst isZero
  dsimp only
  rw [if_neg (by simp)]
  refine Ensures.bind (Ensures.rounds (fun _ locals (after : ExtentMap) => after.Shows contents ∧
    locals = numbers) ?_ ⟨shows, rfl⟩) ?_
  · rintro i few _ state ⟨shows, rfl⟩
    exact ensures_getRound shows tested written few
  rintro ⟨code, _⟩ after ⟨isZero, shows, -⟩
  dsimp only at isZero
  subst isZero
  dsimp only
  rw [if_neg (by simp)]
  apply (ensures_testIndirect shows tested fits1 fits2 (score + 30)).bind
  rintro _ after ⟨rfl, rest⟩
  exact ⟨rfl, rest⟩

theorem ensures_testRemove {created : Nat} (shows : map.Shows contents)
    (tested : Tested chances fileNum created contents) (score : Nat) :
    Ensures (ExtentMap.serve clock) (testRemove score) map
      (fun result _ => result = (0, score + 20)) (fun _ => False) := by
  have live : ∀ j, 0 ≤ j → j < fileNum → contents.ledger (j + 2) ≠ none := by
    intro j _ isFile absent
    obtain ⟨data, held⟩ := tested.typed j isFile
    rw [absent] at held
    cases held
  rw [testRemove]
  refine Ensures.bind (Ensures.rounds (fun i _ (after : ExtentMap) =>
    ∃ contents, after.Shows contents ∧
      ∀ j, i ≤ j → j < fileNum → contents.ledger (j + 2) ≠ none) ?_ ⟨contents, shows, live⟩) ?_
  · rintro i few _ state ⟨contents, shows, live⟩
    exact ensures_removeRound shows live few
  · rintro ⟨code, _⟩ after ⟨isZero, -⟩
    dsimp only at isZero
    subst isZero
    rfl

theorem ensures_main (shows : map.Shows .init)
    (fits1 : largeFileSize + chances.beyond1.text.length ≤ maxFile * blockSize)
    (fits2 : largeFileSize + chances.beyond2.text.length ≤ maxFile * blockSize) :
    Ensures (ExtentMap.serve clock) (main chances) map (fun score _ => score = 100)
      (fun _ => False) := by
  rw [main]
  apply (ensures_testCreateAndGetattr shows 0).bind
  rintro _ after ⟨rfl, contents, shows, tested⟩
  dsimp only
  rw [if_neg (by simp)]
  apply (ensures_testPutAndGet shows tested fits1 fits2 _).bind
  rintro _ after ⟨rfl, contents, shows, tested⟩
  dsimp only
  rw [if_neg (by simp)]
  apply (ensures_testRemove shows tested _).bind
  rintro _ after rfl
  rfl

end Tests

/-- On a new disk the tester prints a score of 100, whatever `rand` returns and whatever
memory holds, if the strings that it takes beyond the end of its buffers still fit into a
file. -/
theorem tester_scores_full (env : Env) (chances : Chances)
    (fits1 : largeFileSize + chances.beyond1.text.length ≤ maxFile * blockSize)
    (fits2 : largeFileSize + chances.beyond2.text.length ≤ maxFile * blockSize) :
    ∃ im after, InodeManager.init env = .ok im ∧
      (main chances).run (ExtentServer.serve env) im = .ok (100, after) := by
  obtain ⟨im, starts, holds⟩ := init_holds env
  have shows : im.Shows .init := ⟨_, holds, ExtentMap.init_shows env.clock⟩
  have ensures : ∀ map, map.Shows .init → Ensures (ExtentMap.serve env.clock)
      (main chances) map (fun score _ => score = 100) (fun _ => False) := by
    intro map shows
    exact ensures_main shows fits1 fits2
  obtain ⟨after, returned⟩ := shows.run_eq ensures
  exact ⟨im, after, starts, returned⟩

/-- Both buffers end where a NUL happens to be. -/
def quietChances : Chances where
  types i := i
  numbers i := 577 * i
  letters1 i := i
  letters2 i := 7 * i
  beyond1 := ⟨[], by simp⟩
  beyond2 := ⟨[], by simp⟩
  unset _ := 0

theorem quietTester_scores_full :
    ∃ im after, InodeManager.init Env.zero = .ok im ∧
      (main quietChances).run (ExtentServer.serve Env.zero) im = .ok (100, after) := by
  apply tester_scores_full Env.zero quietChances
  · decide
  · decide

end Yfs.Part1Tester
