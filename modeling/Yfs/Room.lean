import Yfs.ContentsRefinement

/-!
# Room on the disk

When the contents that a call leaves fit on the disk, then no request that the call
sends is refused for lack of room: what it writes on the way is never larger than
what it leaves.  So on contents with room a call does what `Contents.step` says,
without exception.
-/

namespace Yfs

open ClientServer
open ClientServer.Program (Ensures)

theorem blocksFor_mono {small large : Nat} (smaller : small ≤ large) :
    blocksFor small ≤ blocksFor large := by
  have fewer : dataBlocks small ≤ dataBlocks large :=
    Nat.div_le_div_right (Nat.sub_le_sub_right (Nat.add_le_add_right smaller _) _)
  rw [blocksFor, blocksFor]
  split
  · rename_i indirect
    rw [if_pos (Nat.lt_of_lt_of_le indirect smaller)]
    exact Nat.add_le_add_right fewer _
  · exact Nat.le_trans fewer (Nat.le_add_right _ _)

namespace Contents

/-- The blocks that hold the bytes of an inode. -/
def blocksOf (contents : Contents) (id : Nat) : Nat :=
  ((contents.ledger id).map fun entry => blocksFor entry.2.length).getD 0

/-- Every extent fits into a file, and all of them fit on the disk. -/
structure HasRoom (contents : Contents) : Prop where
  fits : ∀ id type data, contents.ledger id = some (type, data) →
    data.length ≤ maxFile * blockSize
  blocks : ∑ id ∈ Finset.range (contents.created + 1), contents.blocksOf id ≤ maxBlocks

variable {contents after : Contents} {id : ExtentId}

theorem put_ok {data : List Byte} (put : contents.put id data = .ok after) :
    ∃ type old, contents.ledger (inumOf id) = some (type, old) ∧
      after = ⟨contents.created,
        Function.update contents.ledger (inumOf id) (some (type, data))⟩ := by
  rw [Contents.put] at put
  split at put
  · rename_i type old live
    cases put
    exact ⟨type, old, live, rfl⟩
  · cases put

theorem get_ok {data : List Byte} (got : contents.get id = .ok data) :
    ∃ type, contents.ledger (inumOf id) = some (type, data) := by
  rw [Contents.get] at got
  split at got
  · rename_i type old live
    cases got
    exact ⟨type, live⟩
  · cases got

theorem append_ok {parent : ExtentId} {name : CString} {ino : ExtentId}
    (appended : contents.append parent name ino = .ok after) :
    ∃ text, contents.get parent = .ok text ∧
      contents.put parent (text ++ entryText name.text ino) = .ok after :=
  bind_ok appended

/-- A shorter extent leaves more room. -/
theorem HasRoom.of_append {parent : ExtentId} {name : CString} {ino : ExtentId}
    (room : after.HasRoom) (appended : contents.append parent name ino = .ok after) :
    contents.HasRoom := by
  obtain ⟨text, got, put⟩ := append_ok appended
  obtain ⟨type, old, live, rfl⟩ := put_ok put
  obtain ⟨same, held⟩ := get_ok got
  rw [live] at held
  cases held
  have grown := room.fits (inumOf parent) type (text ++ entryText name.text ino)
    (Function.update_self _ _ _)
  rw [List.length_append] at grown
  constructor
  · intro other kind data isOther
    by_cases atParent : other = inumOf parent
    · rw [atParent, live] at isOther
      cases isOther
      omega
    · exact room.fits other kind data ((Function.update_of_ne atParent _ _).trans isOther)
  · apply le_trans (Finset.sum_le_sum fun other _ => ?_) room.blocks
    by_cases atParent : other = inumOf parent
    · simp only [blocksOf, atParent, live, Function.update_self, Option.map_some,
        Option.getD_some]
      apply blocksFor_mono
      rw [List.length_append]
      exact Nat.le_add_right _ _
    · simp only [blocksOf, Function.update_of_ne atParent]
      exact le_refl _

end Contents

theorem Views.blocksInUse {ledger : Ledger} {map : ExtentMap} (views : Views ledger map) :
    map.blocksInUse =
      ∑ id ∈ Finset.range (map.created + 1), Contents.blocksOf ⟨map.created, ledger⟩ id := by
  apply Finset.sum_congr rfl
  intro id _
  simp only [ExtentMap.blocksOf, Contents.blocksOf, views id]
  cases map.extents id with
  | none => rfl
  | some extent => rfl

section Rules

variable {clock : Nat → BitVec 32} {map : ExtentMap} {contents : Contents}
variable {β : Type} {post : β → ExtentMap → Prop} {fails : Fault → Prop}

theorem ensures_get_ok (shows : map.Shows contents) {id : ExtentId} {data : List Byte}
    {next : Status × List Byte → Client β} (got : contents.get id = .ok data)
    (rest : ∀ after, after.Shows contents →
      Ensures (ExtentMap.serve clock) (next (.OK, data)) after post fails) :
    Ensures (ExtentMap.serve clock) (ExtentClient.get id >>= next) map post fails := by
  apply ensures_get shows
  · intro read after returned showsAfter
    rw [got] at returned
    cases returned
    exact rest after showsAfter
  · intro dead
    rw [got] at dead
    cases dead

theorem ensures_remove_ok (shows : map.Shows contents) {id : ExtentId} {removed : Contents}
    {next : Status → Client β} (remove : contents.remove id = .ok removed)
    (rest : ∀ after, after.Shows removed →
      Ensures (ExtentMap.serve clock) (next .OK) after post fails) :
    Ensures (ExtentMap.serve clock) (ExtentClient.remove id >>= next) map post fails := by
  apply ensures_remove shows
  · intro other after returned showsAfter
    rw [remove] at returned
    cases returned
    exact rest after showsAfter
  · intro dead
    rw [remove] at dead
    cases dead

/-- A `put` whose result has room. -/
theorem ensures_put_room (shows : map.Shows contents) {id : ExtentId} {data : List Byte}
    {next : Status → Client β} {written : Contents}
    (put : contents.put id data = .ok written) (room : written.HasRoom)
    (rest : ∀ after, after.Shows written →
      Ensures (ExtentMap.serve clock) (next .OK) after post fails) :
    Ensures (ExtentMap.serve clock) (ExtentClient.put id data >>= next) map post fails := by
  obtain ⟨type, old, live, rfl⟩ := Contents.put_ok put
  rw [shows.views] at live
  cases held : map.extents (inumOf id) with
  | none =>
      rw [held] at live
      cases live
  | some extent =>
      rw [held] at live
      cases live
      have fits := room.fits (inumOf id) extent.type data (Function.update_self _ _ _)
      have views : Views (Function.update contents.ledger (inumOf id)
          (some (extent.type, data)))
          ⟨map.created, map.ticks + 1, Function.update map.extents (inumOf id)
            (some (extent.rewritten (clock map.ticks) data))⟩ :=
        shows.views.update rfl rfl
      have blocks := views.blocksInUse
      have within := room.blocks
      rw [← shows.created] at within
      have served : ExtentMap.serve clock (.put id data) map = .ok (.OK,
          ⟨map.created, map.ticks + 1, Function.update map.extents (inumOf id)
            (some (extent.rewritten (clock map.ticks) data))⟩) := by
        simp only [ExtentMap.serve, ExtentMap.put, held]
        rw [if_pos]
        refine ⟨fits, ?_⟩
        rw [blocks]
        exact within
      have wf := shows.wf.serve clock _ served
      exact Ensures.send_bind served (rest _ ⟨shows.created, views, wf⟩)

theorem ensures_create_room (shows : map.Shows contents) {type : BitVec 32}
    {next : Status × ExtentId → Client β} {ino : ExtentId} {made : Contents}
    (isShort : FitsShort type) (create : contents.create type = .ok (ino, made))
    (rest : ∀ after, after.Shows made →
      Ensures (ExtentMap.serve clock) (next (.OK, ino)) after post fails) :
    Ensures (ExtentMap.serve clock) (ExtentClient.create type >>= next) map post fails := by
  simp only [Contents.create] at create
  split at create
  · rename_i inside
    cases create
    rw [← shows.created] at inside rest
    have served : ExtentMap.serve clock (.create type) map =
        .ok ((.OK, BitVec.ofNat 64 (map.created + 1)),
          ⟨map.created + 1, map.ticks + 1, Function.update map.extents (map.created + 1)
            (some (.empty type (clock map.ticks)))⟩) :=
      if_pos ⟨inside, isShort⟩
    obtain ⟨views, wf⟩ := shows.step served
    simp only [Ledger.record, inumOf_ofNat inside] at views
    exact Ensures.send_bind served (rest _ ⟨rfl, views, wf⟩)
  · cases create

end Rules

theorem Host.fitsShort (host : Host) : FitsShort host.code :=
  ⟨host.ne_zero, host.narrow⟩

section Calls

variable {clock : Nat → BitVec 32} {map : ExtentMap} {contents final : Contents}
variable {output : Output}

/-- The call returns with the output, and leaves the contents. -/
def Returns (clock : Nat → BitVec 32) (map : ExtentMap) (program : Client Output)
    (output : Output) (final : Contents) : Prop :=
  Ensures (ExtentMap.serve clock) program map
    (fun seen after => seen.timeless = output ∧ after.Shows final) (fun _ => False)

/-- The end of `create`, `mkdir` and `symlink`. -/
theorem ensures_append_room (shows : map.Shows contents) {parent : ExtentId}
    {name : CString} {ino : ExtentId}
    (appended : contents.append parent name ino = .ok final) (room : final.HasRoom) :
    Returns clock map
      (do
        let (r, ino) ← (do
          let (r, buf) ← ExtentClient.get parent
          if r ≠ .OK then return (r, ino)
          let r ← ExtentClient.put parent (buf ++ entryText name.text ino)
          return (r, ino))
        return Output.entry r ino)
      (.entry .OK ino) final := by
  obtain ⟨text, got, put⟩ := Contents.append_ok appended
  apply Ensures.bind_assoc
  apply ensures_get_ok shows got
  intro read showsRead
  apply Ensures.bind_assoc
  apply ensures_put_room showsRead put room
  intro after showsAfter
  exact ⟨rfl, showsAfter⟩

theorem createEntry_room (shows : map.Shows contents) {type : BitVec 32}
    (isShort : FitsShort type) {parent : ExtentId} {name : CString} {garbage : Garbage}
    (stepped : contents.createEntry type parent name garbage = .ok (output, final))
    (room : final.HasRoom) :
    Returns clock map
      (do
        let (r, ino) ← YfsClient.createEntry type parent name garbage.exist garbage.ino
        return Output.entry r ino)
      output final := by
  apply Ensures.bind_assoc
  apply ensures_lookup shows
  intro found showsFound
  rw [Contents.createEntry] at stepped
  generalize contents.lookup parent name garbage = looked at stepped ⊢
  rcases looked with ⟨r, exist, ino⟩
  cases exist with
  | true =>
      cases stepped
      exact ⟨rfl, showsFound⟩
  | false =>
      obtain ⟨⟨made, created⟩, create, stepped⟩ := bind_ok stepped
      obtain ⟨last, appended, stepped⟩ := bind_ok stepped
      cases stepped
      apply Ensures.bind_assoc
      apply ensures_create_room showsFound isShort create
      intro after showsCreated
      exact ensures_append_room showsCreated appended room

theorem symlink_room (host : Host) (shows : map.Shows contents)
    {parent : ExtentId} {link name : CString}
    (stepped : contents.symlink host.code parent link name = .ok (output, final))
    (room : final.HasRoom) :
    Returns clock map
      (do
        let (r, ino) ← YfsClient.symlink host parent link name
        return Output.entry r ino)
      output final := by
  obtain ⟨⟨ino, made⟩, create, stepped⟩ := bind_ok stepped
  obtain ⟨linked, put, stepped⟩ := bind_ok stepped
  obtain ⟨last, appended, stepped⟩ := bind_ok stepped
  cases stepped
  apply Ensures.bind_assoc
  apply ensures_create_room shows host.fitsShort create
  intro created showsCreated
  apply Ensures.bind_assoc
  apply ensures_put_room showsCreated put (room.of_append appended)
  intro written showsWritten
  apply Ensures.bind_assoc
  obtain ⟨type, old, -, rfl⟩ := Contents.put_ok put
  have got : Contents.get ⟨made.created, Function.update made.ledger (inumOf ino)
      (some (type, link.text))⟩ ino = .ok link.text := by
    simp only [Contents.get, Function.update_self]
  apply ensures_get_ok showsWritten got
  intro read showsRead
  exact ensures_append_room showsRead appended room

theorem unlink_room (shows : map.Shows contents) {parent : ExtentId} {name : CString}
    {garbage : Garbage} (stepped : contents.unlink parent name garbage = .ok (output, final))
    (room : final.HasRoom) :
    Returns clock map
      (do
        let r ← YfsClient.unlink parent name garbage.exist garbage.ino
        return Output.status r)
      output final := by
  apply Ensures.bind_assoc
  apply ensures_lookup shows
  intro found showsFound
  rw [Contents.unlink] at stepped
  generalize contents.lookup parent name garbage = looked at stepped ⊢
  rcases looked with ⟨r, exist, ino⟩
  cases exist with
  | false =>
      cases stepped
      exact ⟨rfl, showsFound⟩
  | true =>
      obtain ⟨removed, remove, stepped⟩ := bind_ok stepped
      obtain ⟨written, put, stepped⟩ := bind_ok stepped
      cases stepped
      apply Ensures.bind_assoc
      apply ensures_remove_ok showsFound remove
      intro after showsRemoved
      apply Ensures.bind_assoc
      apply ensures_readdir showsRemoved
      intro read showsRead
      apply Ensures.bind_assoc
      apply ensures_put_room showsRead put room
      intro last showsLast
      exact ⟨rfl, showsLast⟩

theorem write_room (host : Host) (shows : map.Shows contents) {ino : ExtentId}
    {off : BitVec 64} {data : List Byte}
    (stepped : contents.write host.maxString ino off data = .ok (output, final))
    (room : final.HasRoom) :
    Returns clock map
      (do
        let (r, count) ← YfsClient.write host ino off data
        return Output.written r count)
      output final := by
  obtain ⟨old, got, stepped⟩ := bind_ok stepped
  obtain ⟨⟨buf, count⟩, overwritten, stepped⟩ := bind_ok stepped
  obtain ⟨written, put, stepped⟩ := bind_ok stepped
  cases stepped
  apply Ensures.bind_assoc
  apply ensures_get_ok shows got
  intro read showsRead
  apply Ensures.bind_assoc
  rw [overwritten]
  apply Ensures.bind_assoc
  apply ensures_put_room showsRead put room
  intro after showsAfter
  exact ⟨rfl, showsAfter⟩

theorem setattr_room (host : Host) (shows : map.Shows contents) {ino : ExtentId}
    {size : BitVec 64}
    (stepped : contents.setattr host.maxString ino size = .ok (output, final))
    (room : final.HasRoom) :
    Returns clock map
      (do
        let r ← YfsClient.setattr host ino size
        return Output.status r)
      output final := by
  rw [Contents.setattr] at stepped
  apply Ensures.bind_assoc
  apply ensures_getattr shows
  intro a _ oldSize
  by_cases same : contents.sizeOf ino = size
  · simp only [same, if_true] at stepped
    simp only [oldSize, same, if_true]
    cases stepped
    exact ⟨rfl, shows⟩
  · simp only [same, if_false] at stepped
    simp only [oldSize, same, if_false]
    obtain ⟨old, got, stepped⟩ := bind_ok stepped
    obtain ⟨buf, resized, stepped⟩ := bind_ok stepped
    obtain ⟨written, put, stepped⟩ := bind_ok stepped
    cases stepped
    apply Ensures.bind_assoc
    apply ensures_get_ok shows got
    intro read showsRead
    apply Ensures.bind_assoc
    rw [resized]
    apply ensures_put_room showsRead put room
    intro after showsAfter
    exact ⟨rfl, showsAfter⟩

theorem read_room (host : Host) (shows : map.Shows contents) {ino : ExtentId}
    {size off : BitVec 64} {garbage : Garbage}
    (stepped : contents.step host (.read ino size off, garbage) = .ok (output, final)) :
    Returns clock map (perform host (.read ino size off, garbage)) output final := by
  rw [Contents.step] at stepped
  apply Ensures.bind_assoc
  apply ensures_isfile shows
  by_cases isFile : contents.typeOf ino = tFile
  · simp only [isFile, if_true] at stepped
    simp only [isFile, decide_true, Bool.not_true, Bool.false_eq_true, if_false]
    obtain ⟨buf, got, stepped⟩ := bind_ok stepped
    obtain ⟨data, taken, stepped⟩ := bind_ok stepped
    cases stepped
    apply Ensures.bind_assoc
    apply ensures_get_ok shows got
    intro read showsRead
    apply Ensures.bind_assoc
    rw [taken]
    exact ⟨rfl, showsRead⟩
  · simp only [isFile, if_false] at stepped
    simp only [isFile, decide_false, Bool.not_false, if_true]
    cases stepped
    exact ⟨rfl, shows⟩

theorem readlink_room (host : Host) (shows : map.Shows contents)
    {sym : ExtentId} {garbage : Garbage}
    (stepped : contents.step host (.readlink sym, garbage) = .ok (output, final)) :
    Returns clock map (perform host (.readlink sym, garbage)) output final := by
  rw [Contents.step] at stepped
  apply Ensures.bind_assoc
  apply ensures_issymlink host shows
  by_cases isSymlink : contents.typeOf sym = host.code
  · simp only [isSymlink, if_true] at stepped
    simp only [isSymlink, decide_true, Bool.not_true, Bool.false_eq_true, if_false]
    obtain ⟨data, got, stepped⟩ := bind_ok stepped
    cases stepped
    apply Ensures.bind_assoc
    apply ensures_get_ok shows got
    intro read showsRead
    exact ⟨rfl, showsRead⟩
  · simp only [isSymlink, if_false] at stepped
    simp only [isSymlink, decide_false, Bool.not_false, if_true]
    cases stepped
    exact ⟨rfl, shows⟩

/-- Every call of `yfs_client` that leaves room. -/
theorem perform_room (host : Host) (shows : map.Shows contents) {call : Call}
    (stepped : contents.step host call = .ok (output, final))
    (room : final.HasRoom) :
    Returns clock map (perform host call) output final := by
  rcases call with ⟨operation, garbage⟩
  cases operation with
  | create parent name => exact createEntry_room shows (by decide) stepped room
  | mkdir parent name => exact createEntry_room shows (by decide) stepped room
  | symlink parent link name => exact symlink_room host shows stepped room
  | unlink parent name => exact unlink_room shows stepped room
  | lookup parent name =>
      cases stepped
      apply ensures_lookup shows
      intro after showsAfter
      exact ⟨rfl, showsAfter⟩
  | readdir dir =>
      cases stepped
      apply ensures_readdir shows
      intro after showsAfter
      exact ⟨rfl, showsAfter⟩
  | read ino size off => exact read_room host shows stepped
  | write ino off data => exact write_room host shows stepped room
  | setattr ino size => exact setattr_room host shows stepped room
  | readlink sym => exact readlink_room host shows stepped
  | getfile inum =>
      cases stepped
      apply Ensures.bind_assoc
      apply ensures_getattr shows
      intro a _ size
      refine ⟨?_, shows⟩
      rw [← size]
      rfl
  | getdir inum =>
      cases stepped
      apply Ensures.bind_assoc
      apply ensures_getattr shows
      intro a _ _
      exact ⟨rfl, shows⟩

end Calls

end Yfs
