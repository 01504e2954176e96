import Mathlib.Algebra.Order.BigOperators.Group.List
import Yfs.Attributes
import Yfs.Library.Paging
import Yfs.ServerReplies

/-!
# Listings in pages

The reply to a `readdir` of the FUSE server is a piece of one stream of records, which is
built anew for each request.  A directory that stays as it is gives the same stream each
time, so a reader that follows the cookies receives every entry once, with its name up to
the first NUL.
-/

namespace Yfs

open ClientServer LittleEndian Paging
open ClientServer.Program (Ensures)

theorem cString_text {name : List Byte} (noNul : 0 ∉ name) : (cString name).text = name := by
  unfold cString
  refine List.takeWhile_eq_self_iff.mpr fun byte member => ?_
  exact decide_eq_true fun zero => noNul (zero ▸ member)

theorem cString_cString (name : List Byte) : cString (cString name).text = cString name := by
  have same := cString_text (cString name).noNul
  generalize cString (cString name).text = again at same
  cases again
  cases same
  rfl

theorem length_cString_le (name : List Byte) : (cString name).text.length ≤ name.length :=
  (List.takeWhile_sublist _).length_le

/-- The entry as a record carries it. -/
def Dirent.sent (entry : Dirent) : Dirent where
  name := (cString entry.name).text
  inum := entry.inum

theorem Dirent.sent_eq {entry : Dirent} (noNul : 0 ∉ entry.name) : entry.sent = entry := by
  unfold Dirent.sent
  rw [cString_text noNul]

namespace LibFuse

variable (fuse : LibFuse)

/-- The size of the record of an entry. -/
def recordSize (entry : Dirent) : Nat :=
  fuse.direntSize (cString entry.name).text.length

/-- The records, with their offsets as numbers. -/
def format : Format Dirent Byte where
  size := fuse.recordSize
  encode entry off := fuse.addDirent (cString entry.name) entry.inum (BitVec.ofNat 64 off)
  decode bytes := (fuse.readDirent bytes).map fun (entry, off) => (entry, off.toNat)

theorem recordSize_pos (entry : Dirent) : 0 < fuse.recordSize entry := by
  rw [recordSize, fuse.direntSize_eq]
  omega

theorem recordSize_sent (entry : Dirent) :
    fuse.recordSize entry.sent = fuse.recordSize entry := by
  unfold recordSize Dirent.sent
  rw [cString_cString]

/-- A record is not much longer than the name. -/
theorem recordSize_le {entry : Dirent} (nonempty : entry.name ≠ []) :
    fuse.recordSize entry ≤ 32 * entry.name.length := by
  have cut := length_cString_le entry.name
  have positive := List.length_pos_iff.mpr nonempty
  rw [recordSize, fuse.direntSize_eq]
  omega

/-- Names without NUL, of a length that a record can hold. -/
def Sendable (entry : Dirent) : Prop :=
  0 ∉ entry.name ∧ entry.name.length < 2 ^ 32

theorem lawful : fuse.format.Lawful Sendable (2 ^ 64) where
  size_pos := fuse.recordSize_pos
  length_encode entry off := fuse.length_addDirent _ _ _
  decode_nil := by
    have nothing := fuse.readDirent_take (cString []) 0 0 0 (by decide)
      (fuse.recordSize_pos ⟨[], 0⟩)
    simp only [format]
    rw [← List.take_zero, nothing]
    rfl
  decode_encode entry off rest sendable small := by
    have read := fuse.readDirent_addDirent (cString entry.name) entry.inum
      (BitVec.ofNat 64 off) rest (by rw [cString_text sendable.1]; exact sendable.2)
    rw [cString_text sendable.1] at read
    simp only [format]
    rw [read, Option.map_some, BitVec.toNat_ofNat, Nat.mod_eq_of_lt small]
  decode_take entry off count sendable short := by
    have none := fuse.readDirent_take (cString entry.name) entry.inum
      (BitVec.ofNat 64 off) count (by rw [cString_text sendable.1]; exact sendable.2) short
    simp only [format]
    rw [none, Option.map_none]

/-- Adding the entries one after the other writes their stream. -/
theorem foldl_dirbufAdd (entries : List Dirent) (b : List Byte) :
    entries.foldl (fun b entry => Fuse.dirbufAdd fuse b (cString entry.name) entry.inum) b =
      b ++ fuse.format.stream b.length entries := by
  induction entries generalizing b with
  | nil => exact (List.append_nil b).symm
  | cons entry rest ih =>
      have added : Fuse.dirbufAdd fuse b (cString entry.name) entry.inum =
          b ++ fuse.format.encode entry (b.length + fuse.format.size entry) := rfl
      rw [List.foldl_cons, ih, added, List.length_append, fuse.lawful.length_encode,
        Format.stream_cons, List.append_assoc]

/-- The records show of a name only what is before its first NUL. -/
theorem stream_sent (off : Nat) (entries : List Dirent) :
    fuse.format.stream off (entries.map Dirent.sent) = fuse.format.stream off entries := by
  apply fuse.format.stream_map
  · exact fuse.recordSize_sent
  · intro entry cookie
    simp only [format, Dirent.sent, cString_cString]

theorem total_sent_le {entries : List Dirent} (names : ∀ entry ∈ entries, entry.name ≠ []) :
    fuse.format.total (entries.map Dirent.sent) ≤
      32 * (entries.map fun entry => entry.name.length).sum := by
  induction entries with
  | nil => exact Nat.le_refl _
  | cons entry rest ih =>
      have first := fuse.recordSize_le (names entry List.mem_cons_self)
      have later := ih fun other member => names other (List.mem_cons_of_mem _ member)
      have size : fuse.format.size entry.sent = fuse.recordSize entry :=
        fuse.recordSize_sent entry
      rw [List.map_cons, Format.total_cons, size, List.map_cons, List.sum_cons]
      omega

/-- The stream of a directory is far shorter than offsets can say. -/
theorem total_lt {entries : List Dirent} (names : ∀ entry ∈ entries, entry.name ≠ [])
    (short : (entries.map fun entry => entry.name.length).sum < 2 ^ 32) :
    fuse.format.total (entries.map Dirent.sent) < 2 ^ 64 := by
  have bound := fuse.total_sent_le names
  omega

end LibFuse

namespace Fuse

variable (fuse : LibFuse)

/-- Both arms of `reply_buf_limited` send what there is from the offset on. -/
theorem replyBufLimited_eq (buf : List Byte) (off maxsize : BitVec 64) :
    replyBufLimited buf off maxsize = (buf.drop off.toNat).take maxsize.toNat := by
  unfold replyBufLimited
  split
  · rw [← List.length_drop, Nat.min_comm, ← List.take_eq_take_min]
  · rename_i behind
    rw [List.drop_eq_nil_of_le (Nat.le_of_not_lt behind), List.take_nil]

/-- The bytes of one reply, if the request is answered with a buffer. -/
def readdirPage (env : Env) (im : InodeManager) (dir : Nat) (size : BitVec 64) (off : Nat) :
    Option (List Byte) :=
  match (fuseserverReaddir fuse (BitVec.ofNat 64 dir) size (BitVec.ofNat 64 off)).run
      (ExtentServer.serve env) im with
  | .ok (.buf bytes, _) => some bytes
  | _ => none

/-- The reader of a directory.  Request `turn` is answered in `states turn`. -/
def readListing (env : Env) (states : Nat → InodeManager) (dir : Nat) (size : BitVec 64)
    (fuel : Nat) : Option (List Dirent) :=
  fuse.format.readPages (fun turn off => readdirPage fuse env (states turn) dir size off) fuel
    0 0

end Fuse

namespace InodeManager

variable {env : Env} {im : InodeManager} {dir : Nat} {entries : List Dirent}

/-- A directory is listed from its text. -/
theorem Lists.read (lists : Lists env im dir entries) :
    ∃ a after data, ExtentServer.getattr im (BitVec.ofNat 64 dir) = .ok ((.OK, a), im) ∧
      a.type = tDir ∧
      ExtentServer.get env im (BitVec.ofNat 64 dir) = .ok ((.OK, data), after) ∧
      entries = listing data := by
  rcases lists with ⟨last, listed⟩
  obtain ⟨a, served⟩ := ExtentServer.getattr_returns im (BitVec.ofNat 64 dir)
  rw [YfsClient.readdir, Program.run_bind_ok _ (isdir_run served)] at listed
  by_cases isDir : a.type = tDir
  · rw [decide_eq_true isDir, Bool.not_true, if_neg Bool.false_ne_true] at listed
    have asks : (ExtentClient.get (BitVec.ofNat 64 dir)).run (ExtentServer.serve env) im =
        ExtentServer.get env im (BitVec.ofNat 64 dir) := Program.run_send _ _ _
    cases got : ExtentServer.get env im (BitVec.ofNat 64 dir) with
    | error fault =>
        rw [Program.run_bind_error _ (asks.trans got)] at listed
        cases listed
    | ok answer =>
        rcases answer with ⟨⟨r, data⟩, after⟩
        obtain ⟨rfl, -⟩ := ExtentServer.get_ok got
        rw [Program.run_bind_ok _ (asks.trans got)] at listed
        dsimp only at listed
        rw [if_neg (not_not.mpr rfl), parseEntries_eq] at listed
        cases listed
        exact ⟨a, last, data, served, isDir, rfl, rfl⟩
  · rw [decide_eq_false isDir] at listed
    cases listed

/-- A reply is a piece of the stream of the entries that `readdir` lists. -/
theorem Lists.readdirPage (fuse : LibFuse) (lists : Lists env im dir entries)
    (size : BitVec 64) {off : Nat} (small : off < 2 ^ 64) :
    Fuse.readdirPage fuse env im dir size off =
      some (((fuse.format.stream 0 entries).drop off).take size.toNat) := by
  obtain ⟨a, -, -, served, isDir, -, -⟩ := lists.read
  rcases lists with ⟨after, listed⟩
  unfold Fuse.readdirPage Fuse.fuseserverReaddir
  rw [Program.run_bind_ok _ (isdir_run served), decide_eq_true isDir, Bool.not_true,
    if_neg Bool.false_ne_true, Program.run_bind_ok _ listed]
  dsimp only
  rw [fuse.foldl_dirbufAdd, Program.run_pure]
  dsimp only
  rw [Fuse.replyBufLimited_eq, BitVec.toNat_ofNat, Nat.mod_eq_of_lt small]
  rfl

/-- The names that `readdir` lists are taken from one text. -/
theorem Lists.names (lists : Lists env im dir entries) :
    (∀ entry ∈ entries, entry.name ≠ []) ∧
      (entries.map fun entry => entry.name.length).sum < 2 ^ 32 := by
  obtain ⟨a, after, data, -, -, got, rfl⟩ := lists.read
  have short := ExtentServer.get_length got
  obtain ⟨listed, same, names, sum⟩ := parseEntries_names _ _ _ (parseEntries_eq data)
  rw [List.nil_append] at same
  subst same
  exact ⟨names, Nat.lt_of_le_of_lt sum (Nat.lt_trans short (by decide))⟩

theorem Lists.sendable (lists : Lists env im dir entries) :
    ∀ entry ∈ entries.map Dirent.sent, LibFuse.Sendable entry := by
  intro sent member
  obtain ⟨entry, listed, rfl⟩ := List.mem_map.mp member
  refine ⟨(cString entry.name).noNul, ?_⟩
  have inSum := (List.singleton_sublist.mpr
    (List.mem_map_of_mem (f := fun entry : Dirent => entry.name.length) listed)).sum_le_sum
      fun _ _ => Nat.zero_le _
  rw [List.sum_singleton] at inSum
  exact Nat.lt_of_le_of_lt (Nat.le_trans (length_cString_le entry.name) inSum) lists.names.2

/-- A listing leaves the contents of the disk alone. -/
theorem Shows.fuseserverReaddir (env : Env) (fuse : LibFuse) {contents : Contents}
    (shows : im.Shows contents) (ino : ExtentId) (size off : BitVec 64) :
    ∃ reply after, (Fuse.fuseserverReaddir fuse ino size off).run (ExtentServer.serve env) im =
      .ok (reply, after) ∧ after.Shows contents := by
  have ensured : ∀ map, map.Shows contents → Ensures (ExtentMap.serve env.clock)
      (Fuse.fuseserverReaddir fuse ino size off) map
      (fun _ after => after.Shows contents) (fun _ => False) := by
    intro map showsMap
    apply ensures_isdir showsMap
    by_cases isDir : contents.typeOf ino = tDir
    · rw [decide_eq_true isDir, Bool.not_true, if_neg Bool.false_ne_true]
      exact ensures_readdir showsMap fun after showsAfter => showsAfter
    · rw [decide_eq_false isDir]
      exact showsMap
  obtain ⟨reply, after, map, returns, holds, showsAfter⟩ := shows.run ensured
  exact ⟨reply, after, returns, map, holds, showsAfter⟩

/-- Requests that follow each other leave the contents alone. -/
theorem Shows.requests (env : Env) (fuse : LibFuse) {contents : Contents}
    (shows : im.Shows contents) (ino : ExtentId) (size : BitVec 64)
    (offsets : Nat → BitVec 64) :
    ∃ states : Nat → InodeManager, states 0 = im ∧
      (∀ turn, (states turn).Shows contents) ∧
      ∀ turn, ∃ reply, (Fuse.fuseserverReaddir fuse ino size (offsets turn)).run
        (ExtentServer.serve env) (states turn) = .ok (reply, states (turn + 1)) := by
  have answered : ∀ (turn : Nat) (state : { im : InodeManager // im.Shows contents }),
      ∃ after : { im : InodeManager // im.Shows contents }, ∃ reply,
        (Fuse.fuseserverReaddir fuse ino size (offsets turn)).run (ExtentServer.serve env)
          state.val = .ok (reply, after.val) := by
    intro turn state
    obtain ⟨reply, after, returns, showsAfter⟩ :=
      state.property.fuseserverReaddir env fuse ino size (offsets turn)
    exact ⟨⟨after, showsAfter⟩, reply, returns⟩
  choose next returns using answered
  let states : Nat → { im : InodeManager // im.Shows contents } :=
    fun turn => turn.rec ⟨im, shows⟩ next
  exact ⟨fun turn => (states turn).val, rfl, fun turn => (states turn).property,
    fun turn => returns turn (states turn)⟩

end InodeManager

section Reading

variable {env : Env} {states : Nat → InodeManager} {dir : Nat} {size : BitVec 64}
  {entries : List Dirent}

/-- With more requests than entries the reader receives the entries. -/
theorem readListing_eq (fuse : LibFuse)
    (readable : ∀ turn, InodeManager.Lists env (states turn) dir entries)
    (fits : ∀ entry ∈ entries, fuse.recordSize entry ≤ size.toNat) {fuel : Nat}
    (enough : entries.length < fuel) :
    Fuse.readListing fuse env states dir size fuel = some (entries.map Dirent.sent) := by
  have names := (readable 0).names
  have sizes : ∀ entry ∈ entries.map Dirent.sent, fuse.format.size entry ≤ size.toNat := by
    intro sent member
    obtain ⟨entry, listed, rfl⟩ := List.mem_map.mp member
    exact Nat.le_trans (Nat.le_of_eq (fuse.recordSize_sent entry)) (fits entry listed)
  unfold Fuse.readListing
  apply fuse.lawful.readPages_eq (readable 0).sendable sizes (fuse.total_lt names.1 names.2)
  · intro turn off small
    rw [(readable turn).readdirPage fuse size small, fuse.stream_sent]
  · rw [List.length_map]
    exact enough

end Reading

/-! The records as they stand in memory. -/

section Layout

/-- `ino`, `off`, `namelen` and `type`. -/
def direntHeader (ino : ExtentId) (off : BitVec 64) (namelen : Nat) : List Byte :=
  [ino.extractLsb' 0 32, ino.extractLsb' 32 32, off.extractLsb' 0 32, off.extractLsb' 32 32,
    BitVec.ofNat 32 namelen, 0].flatMap fun word => (List.range 4).map (byteOf word)

/-- The size of a record, a multiple of 8. -/
def direntPadded (namelen : Nat) : Nat :=
  (24 + namelen + 7) / 8 * 8

def direntRecord (name : CString) (ino : ExtentId) (off : BitVec 64) : List Byte :=
  let namelen := name.text.length
  direntHeader ino off namelen ++
    (name.text ++ List.replicate (direntPadded namelen - (24 + namelen)) 0)

def wordAt (bytes : List Byte) (position : Nat) : BitVec 32 :=
  ofBytes fun index => bytes[position + index]?.getD 0

def readRecord (bytes : List Byte) : Option (Dirent × BitVec 64) :=
  let namelen := (wordAt bytes 16).toNat
  if 24 ≤ bytes.length ∧ direntPadded namelen ≤ bytes.length then
    some (⟨(bytes.drop 24).take namelen, wordAt bytes 4 ++ wordAt bytes 0⟩,
      wordAt bytes 12 ++ wordAt bytes 8)
  else none

variable (name : CString) (ino : ExtentId) (off : BitVec 64)

theorem length_direntHeader (namelen : Nat) : (direntHeader ino off namelen).length = 24 :=
  rfl

theorem wordAt_direntHeader (namelen : Nat) (rest : List Byte) :
    wordAt (direntHeader ino off namelen ++ rest) 0 = ino.extractLsb' 0 32 ∧
    wordAt (direntHeader ino off namelen ++ rest) 4 = ino.extractLsb' 32 32 ∧
    wordAt (direntHeader ino off namelen ++ rest) 8 = off.extractLsb' 0 32 ∧
    wordAt (direntHeader ino off namelen ++ rest) 12 = off.extractLsb' 32 32 ∧
    wordAt (direntHeader ino off namelen ++ rest) 16 = BitVec.ofNat 32 namelen := by
  refine ⟨?_, ?_, ?_, ?_, ?_⟩ <;> exact ofBytes_byteOf _

theorem length_direntRecord :
    (direntRecord name ino off).length = direntPadded name.text.length := by
  rw [direntRecord, List.length_append, List.length_append, List.length_replicate,
    length_direntHeader, direntPadded]
  omega

theorem readRecord_append (rest : List Byte) (short : name.text.length < 2 ^ 32) :
    readRecord (direntRecord name ino off ++ rest) = some (⟨name.text, ino⟩, off) := by
  have length := length_direntRecord name ino off
  obtain ⟨ino0, ino1, off0, off1, namelen⟩ := wordAt_direntHeader ino off name.text.length
    (name.text ++ List.replicate (direntPadded name.text.length - (24 + name.text.length)) 0 ++
      rest)
  rw [← List.append_assoc, ← direntRecord] at ino0 ino1 off0 off1 namelen
  have count : (wordAt (direntRecord name ino off ++ rest) 16).toNat = name.text.length := by
    rw [namelen, BitVec.toNat_ofNat, Nat.mod_eq_of_lt short]
  have text : ((direntRecord name ino off ++ rest).drop 24).take name.text.length =
      name.text := by
    rw [direntRecord, List.append_assoc, List.drop_left' (length_direntHeader _ _ _),
      List.append_assoc, List.take_left]
  have inoWords : ino.extractLsb' 32 32 ++ ino.extractLsb' 0 32 = ino :=
    BitVec.extractLsb'_append_extractLsb'
  have offWords : off.extractLsb' 32 32 ++ off.extractLsb' 0 32 = off :=
    BitVec.extractLsb'_append_extractLsb'
  unfold readRecord
  rw [count]
  dsimp only
  rw [text, ino0, ino1, off0, off1, inoWords, offWords, if_pos]
  rw [List.length_append, length, direntPadded]
  omega

theorem readRecord_take {count : Nat} (short : name.text.length < 2 ^ 32)
    (cut : count < direntPadded name.text.length) :
    readRecord ((direntRecord name ino off).take count) = none := by
  unfold readRecord
  rw [if_neg]
  rintro ⟨header, whole⟩
  rw [List.length_take, length_direntRecord] at header whole
  have namelen : (wordAt ((direntRecord name ino off).take count) 16).toNat =
      name.text.length := by
    have inside : (direntHeader ino off name.text.length).length ≤ count := by
      rw [length_direntHeader]
      omega
    rw [direntRecord, List.take_append, List.take_of_length_le inside,
      (wordAt_direntHeader _ _ _ _).2.2.2.2, BitVec.toNat_ofNat, Nat.mod_eq_of_lt short]
  rw [namelen] at whole
  omega

def LibFuse.littleEndian : LibFuse where
  direntSize := direntPadded
  addDirent := direntRecord
  readDirent := readRecord
  direntSize_eq _ := rfl
  length_addDirent := length_direntRecord
  readDirent_addDirent name ino off rest short := readRecord_append name ino off rest short
  readDirent_take name ino off _ short cut := readRecord_take name ino off short cut

end Layout

/-- A reader that follows the cookies stops after at most one request more than there are
entries, and has then received the entries that `readdir` lists, each once and in order,
with its name up to the first NUL. -/
theorem listing_received (fuse : LibFuse) (env : Env) (states : Nat → InodeManager) (dir : Nat)
    (size : BitVec 64) (entries : List Dirent)
    (readable : ∀ turn, InodeManager.Lists env (states turn) dir entries)
    (fits : ∀ entry ∈ entries, fuse.recordSize entry ≤ size.toNat) :
    (∀ fuel, entries.length < fuel →
      Fuse.readListing fuse env states dir size fuel = some (entries.map Dirent.sent)) ∧
    ((∀ entry ∈ entries, 0 ∉ entry.name) → entries.map Dirent.sent = entries) := by
  refine ⟨fun fuel enough => readListing_eq fuse readable fits enough, fun noNul => ?_⟩
  exact (List.map_congr_left fun entry member => Dirent.sent_eq (noNul entry member)).trans
    (List.map_id' entries)

/-- The name `bb`. -/
def CString.bb : CString where
  text := [98, 98]
  noNul := by decide

/-- A file `a` and a directory `bb` in pages of one record each. -/
theorem listing_received_two :
    ∃ seen im states, yfsRun Env.zero .three [(.create 1 .a, .zero), (.mkdir 1 .bb, .zero)] =
        .ok (seen, im) ∧ states 0 = im ∧
      (∀ turn, ∃ reply,
        (Fuse.fuseserverReaddir .littleEndian 1 40 (32 * BitVec.ofNat 64 turn)).run
          (ExtentServer.serve Env.zero) (states turn) = .ok (reply, states (turn + 1))) ∧
      Fuse.readListing .littleEndian Env.zero states 1 40 3 =
        some [⟨[97], 2⟩, ⟨[98, 98], 3⟩] := by
  have within : WithinLimits Env.zero.clock .three
      [(.create 1 .a, .zero), (.mkdir 1 .bb, .zero)] := withinLimits_of_ok rfl
  obtain ⟨seen, im, returns, -, shows⟩ := yfsRun_ok within rfl
  obtain ⟨states, first, showsAll, requests⟩ :=
    shows.requests Env.zero .littleEndian 1 40 fun turn => 32 * BitVec.ofNat 64 turn
  have readable : ∀ turn, InodeManager.Lists Env.zero (states turn) 1
      [⟨[97], 2⟩, ⟨[98, 98], 3⟩] := fun turn => (showsAll turn).lists_iff.mpr ⟨rfl, rfl⟩
  obtain ⟨received, noNul⟩ := listing_received .littleEndian Env.zero states 1 40 _ readable
    (by decide)
  refine ⟨seen, im, states, returns, first, requests, ?_⟩
  rw [received 3 (by decide), noNul (by decide)]

/-- A name with a NUL that was written into the root directory. -/
theorem listing_cuts_names :
    ∃ seen im states, yfsRun Env.zero .three [(.write 1 0 [97, 0, 98, 47, 50, 47], .zero)] =
        .ok (seen, im) ∧ states 0 = im ∧
      (∀ turn, ∃ reply,
        (Fuse.fuseserverReaddir .littleEndian 1 4096 (32 * BitVec.ofNat 64 turn)).run
          (ExtentServer.serve Env.zero) (states turn) = .ok (reply, states (turn + 1))) ∧
      (∀ turn, InodeManager.Lists Env.zero (states turn) 1 [⟨[97, 0, 98], 2⟩]) ∧
      ∀ fuel, 1 < fuel →
        Fuse.readListing .littleEndian Env.zero states 1 4096 fuel = some [⟨[97], 2⟩] := by
  have within : WithinLimits Env.zero.clock .three
      [(.write 1 0 [97, 0, 98, 47, 50, 47], .zero)] := withinLimits_of_ok rfl
  obtain ⟨seen, im, returns, -, shows⟩ := yfsRun_ok within rfl
  obtain ⟨states, first, showsAll, requests⟩ :=
    shows.requests Env.zero .littleEndian 1 4096 fun turn => 32 * BitVec.ofNat 64 turn
  have readable : ∀ turn, InodeManager.Lists Env.zero (states turn) 1 [⟨[97, 0, 98], 2⟩] :=
    fun turn => (showsAll turn).lists_iff.mpr ⟨rfl, rfl⟩
  refine ⟨seen, im, states, returns, first, requests, readable, fun fuel enough => ?_⟩
  exact readListing_eq .littleEndian readable (by decide) enough

end Yfs
