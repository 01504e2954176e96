import Yfs.Contents
import Yfs.Library.ClientLogic

/-!
# The client refines the contents

Rules for the calls to the extent server, over the contents that a map shows,
and from them: one call of `yfs_client` on a map does to its contents what
`Contents.step` does, with the same output up to the times and the same fault,
unless the map is driven beyond its limits.
-/

namespace Yfs

open ClientServer
open ClientServer.Program (Ensures)

/-- The map holds the contents. -/
structure ExtentMap.Shows (map : ExtentMap) (contents : Contents) : Prop where
  created : map.created = contents.created
  views : Views contents.ledger map
  wf : map.WF

section Rules

variable {clock : Nat → BitVec 32} {map : ExtentMap} {contents : Contents}
variable {β : Type} {post : β → ExtentMap → Prop} {fails : Fault → Prop}

theorem ExtentMap.Shows.step (shows : map.Shows contents) {request : ExtentRequest}
    {reply : ExtentReply request} {after : ExtentMap}
    (served : ExtentMap.serve clock request map = .ok (reply, after)) :
    Views (contents.ledger.record ⟨request, reply⟩) after ∧ after.WF :=
  ⟨(shows.views.step shows.wf served).2, shows.wf.serve clock request served⟩

theorem ensures_getattr (shows : map.Shows contents) {id : ExtentId}
    {next : Status × Attr → Client β}
    (rest : ∀ a, a.type = contents.typeOf id → a.size.setWidth 64 = contents.sizeOf id →
      Ensures (ExtentMap.serve clock) (next (.OK, a)) map post fails) :
    Ensures (ExtentMap.serve clock) (ExtentClient.getattr id >>= next) map post
      fails := by
  refine Ensures.send_bind rfl (rest _ ?_ ?_)
  · rw [Contents.typeOf, shows.views]
    cases map.extents (inumOf id) <;> rfl
  · rw [Contents.sizeOf, shows.views]
    cases live : map.extents (inumOf id) with
    | none => rfl
    | some extent =>
        have fits := shows.wf.fits _ extent live
        simp only [maxFile, nDirect, nIndirect, blockSize] at fits
        apply BitVec.eq_of_toNat_eq
        simp only [Option.map_some, Option.getD_some, Extent.attr,
          BitVec.toNat_setWidth, BitVec.toNat_ofNat]
        rw [Nat.mod_eq_of_lt (show extent.data.length < 2 ^ 32 by omega)]

theorem ensures_get (shows : map.Shows contents) {id : ExtentId}
    {next : Status × List Byte → Client β}
    (rest : ∀ data after, contents.get id = .ok data → after.Shows contents →
      Ensures (ExtentMap.serve clock) (next (.OK, data)) after post fails)
    (dead : contents.get id = .error .nullInode → fails .nullInode) :
    Ensures (ExtentMap.serve clock) (ExtentClient.get id >>= next) map post fails := by
  cases served : ExtentMap.serve clock (.get id) map with
  | error error =>
      have gone : contents.get id = .error .nullInode ∧ error = .nullInode := by
        obtain ⟨absent, rfl⟩ := ExtentMap.get_error served
        rw [Contents.get, shows.views, absent]
        exact ⟨rfl, rfl⟩
      apply Ensures.send_bind_error served
      rw [gone.2]
      exact dead gone.1
  | ok answer =>
      rcases answer with ⟨reply, after⟩
      obtain ⟨views, wf⟩ := shows.step served
      obtain ⟨extent, live, rfl, rfl⟩ := ExtentMap.get_ok served
      refine Ensures.send_bind served (rest _ _ ?_ ⟨shows.created, views, wf⟩)
      rw [Contents.get, shows.views, live]
      rfl

theorem ensures_put (shows : map.Shows contents) {id : ExtentId} {data : List Byte}
    {next : Status → Client β} (limit : fails .beyondLimits)
    (rest : ∀ written after, contents.put id data = .ok written →
      after.Shows written →
        Ensures (ExtentMap.serve clock) (next .OK) after post fails)
    (dead : contents.put id data = .error .nullInode → fails .nullInode) :
    Ensures (ExtentMap.serve clock) (ExtentClient.put id data >>= next) map post
      fails := by
  cases served : ExtentMap.serve clock (.put id data) map with
  | error error =>
      apply Ensures.send_bind_error served
      rcases ExtentMap.put_error served with ⟨absent, rfl⟩ | rfl
      · apply dead
        rw [Contents.put, shows.views, absent]
        rfl
      · exact limit
  | ok answer =>
      rcases answer with ⟨reply, after⟩
      obtain ⟨views, wf⟩ := shows.step served
      obtain ⟨extent, live, -, -, rfl, rfl⟩ := ExtentMap.put_ok served
      have entry : contents.ledger (inumOf id) = some (extent.type, extent.data) := by
        rw [shows.views, live]
        rfl
      have present : contents.put id data = .ok ⟨contents.created,
          Function.update contents.ledger (inumOf id) (some (extent.type, data))⟩ := by
        rw [Contents.put, entry]
      rw [Ledger.record, entry] at views
      exact Ensures.send_bind served (rest _ _ present ⟨shows.created, views, wf⟩)

theorem ensures_remove (shows : map.Shows contents) {id : ExtentId}
    {next : Status → Client β}
    (rest : ∀ removed after, contents.remove id = .ok removed →
      after.Shows removed →
        Ensures (ExtentMap.serve clock) (next .OK) after post fails)
    (dead : contents.remove id = .error .nullInode → fails .nullInode) :
    Ensures (ExtentMap.serve clock) (ExtentClient.remove id >>= next) map post
      fails := by
  cases served : ExtentMap.serve clock (.remove id) map with
  | error error =>
      apply Ensures.send_bind_error served
      obtain ⟨absent, rfl⟩ := ExtentMap.remove_error served
      apply dead
      rw [Contents.remove, shows.views, absent]
      rfl
  | ok answer =>
      rcases answer with ⟨reply, after⟩
      obtain ⟨views, wf⟩ := shows.step served
      obtain ⟨extent, live, rfl, rfl⟩ := ExtentMap.remove_ok served
      have present : contents.remove id = .ok ⟨contents.created,
          Function.update contents.ledger (inumOf id) none⟩ := by
        rw [Contents.remove, shows.views, live]
        rfl
      exact Ensures.send_bind served (rest _ _ present ⟨shows.created, views, wf⟩)

theorem ensures_create (shows : map.Shows contents) {type : BitVec 32}
    {next : Status × ExtentId → Client β} (limit : fails .beyondLimits)
    (rest : ∀ ino created after, contents.create type = .ok (ino, created) →
      after.Shows created →
        Ensures (ExtentMap.serve clock) (next (.OK, ino)) after post fails) :
    Ensures (ExtentMap.serve clock) (ExtentClient.create type >>= next) map post
      fails := by
  cases served : ExtentMap.serve clock (.create type) map with
  | error error =>
      apply Ensures.send_bind_error served
      rw [ExtentMap.create_error served]
      exact limit
  | ok answer =>
      rcases answer with ⟨reply, after⟩
      obtain ⟨views, wf⟩ := shows.step served
      obtain ⟨⟨inside, -⟩, rfl, rfl⟩ := ExtentMap.create_ok served
      simp only [Ledger.record, inumOf_ofNat inside] at views
      refine Ensures.send_bind served (rest _ ⟨map.created + 1,
        Function.update contents.ledger (map.created + 1) (some (type, []))⟩ _ ?_
        ⟨rfl, views, wf⟩)
      rw [Contents.create, ← shows.created, if_pos inside]

/-- `isfile`, `isdir` and `issymlink` compare the type. -/
theorem ensures_isdir (shows : map.Shows contents) {id : ExtentId}
    {next : Bool → Client β}
    (rest : Ensures (ExtentMap.serve clock) (next (contents.typeOf id = tDir)) map post
      fails) :
    Ensures (ExtentMap.serve clock) (YfsClient.isdir id >>= next) map post fails := by
  refine Ensures.bind_assoc (ensures_getattr shows fun a type _ => ?_)
  rw [← type] at rest
  exact rest

theorem ensures_isfile (shows : map.Shows contents) {id : ExtentId}
    {next : Bool → Client β}
    (rest : Ensures (ExtentMap.serve clock) (next (contents.typeOf id = tFile)) map
      post fails) :
    Ensures (ExtentMap.serve clock) (YfsClient.isfile id >>= next) map post fails := by
  refine Ensures.bind_assoc (ensures_getattr shows fun a type _ => ?_)
  rw [← type] at rest
  exact rest

theorem ensures_issymlink (host : Host) (shows : map.Shows contents)
    {id : ExtentId} {next : Bool → Client β}
    (rest : Ensures (ExtentMap.serve clock)
      (next (contents.typeOf id = host.code)) map post fails) :
    Ensures (ExtentMap.serve clock) (YfsClient.issymlink host id >>= next) map
      post fails := by
  refine Ensures.bind_assoc (ensures_getattr shows fun a type _ => ?_)
  rw [← type] at rest
  exact rest

theorem Contents.get_of_typeOf {id : ExtentId} {type : BitVec 32}
    (nonzero : type ≠ 0) (isType : contents.typeOf id = type) :
    ∃ data, contents.ledger (inumOf id) = some (type, data) ∧
      contents.get id = .ok data := by
  rw [Contents.typeOf] at isType
  cases live : contents.ledger (inumOf id) with
  | none =>
      rw [live] at isType
      exact absurd isType.symm nonzero
  | some entry =>
      rcases entry with ⟨stored, data⟩
      rw [live] at isType
      obtain rfl : stored = type := isType
      refine ⟨data, rfl, ?_⟩
      rw [Contents.get, live]

theorem ensures_readdir (shows : map.Shows contents) {dir : ExtentId}
    {next : Status × List Dirent → Client β}
    (rest : ∀ after, after.Shows contents →
      Ensures (ExtentMap.serve clock)
        (next (if contents.typeOf dir = tDir then .OK else .IOERR,
          contents.entries dir)) after post fails) :
    Ensures (ExtentMap.serve clock) (YfsClient.readdir dir [] >>= next) map post
      fails := by
  refine Ensures.bind_assoc (ensures_isdir shows ?_)
  by_cases isDir : contents.typeOf dir = tDir
  · obtain ⟨text, live, got⟩ := Contents.get_of_typeOf (by decide) isDir
    simp only [isDir, decide_true, Bool.not_true, Bool.false_eq_true, if_false]
    refine Ensures.bind_assoc (ensures_get shows ?_ ?_)
    · intro data after returned showsAfter
      rw [got] at returned
      cases returned
      have ready := rest after showsAfter
      rw [Contents.entries, if_pos isDir, if_pos isDir, live] at ready
      apply Ensures.bind_assoc
      rw [parseEntries_eq]
      exact ready
    · intro gone
      rw [got] at gone
      cases gone
  · have ready := rest map shows
    rw [Contents.entries, if_neg isDir, if_neg isDir] at ready
    simp only [isDir, decide_false, Bool.not_false, if_true]
    exact ready

theorem ensures_lookup (shows : map.Shows contents) {parent : ExtentId}
    {name : CString} {garbage : Garbage}
    {next : Status × Bool × ExtentId → Client β}
    (rest : ∀ after, after.Shows contents →
      Ensures (ExtentMap.serve clock) (next (contents.lookup parent name garbage)) after
        post fails) :
    Ensures (ExtentMap.serve clock)
      (YfsClient.lookup parent name garbage.exist garbage.ino >>= next) map post
      fails := by
  refine Ensures.bind_assoc (ensures_isdir shows ?_)
  by_cases isDir : contents.typeOf parent = tDir
  · simp only [isDir, decide_true, Bool.not_true, Bool.false_eq_true, if_false]
    refine Ensures.bind_assoc (ensures_readdir shows fun after showsAfter => ?_)
    have ready := rest after showsAfter
    rw [Contents.lookup, if_pos isDir] at ready
    cases found : (contents.entries parent).find? (·.hasName name.text) with
    | none =>
        rw [found] at ready
        exact ready
    | some entry =>
        rw [found] at ready
        exact ready
  · have ready := rest map shows
    rw [Contents.lookup, if_neg isDir] at ready
    simp only [isDir, decide_false, Bool.not_false, if_true]
    exact ready

end Rules

/-- A call does on the map what `result` says of the contents. -/
def Refined (result : Except Fault (Output × Contents)) (output : Output)
    (after : ExtentMap) : Prop :=
  ∃ contents, result = .ok (output.timeless, contents) ∧ after.Shows contents

/-- The faults of a call: those of `result`, and the limits of the store. -/
def FaultOf (result : Except Fault (Output × Contents)) (fault : Fault) : Prop :=
  fault = .beyondLimits ∨ result = .error fault

section Calls

variable {clock : Nat → BitVec 32} {map : ExtentMap} {contents : Contents}

theorem createEntry_refines (shows : map.Shows contents) (type : BitVec 32)
    (parent : ExtentId) (name : CString) (garbage : Garbage) :
    Ensures (ExtentMap.serve clock)
      (do
        let (r, ino) ← YfsClient.createEntry type parent name garbage.exist garbage.ino
        return Output.entry r ino)
      map (Refined (contents.createEntry type parent name garbage))
      (FaultOf (contents.createEntry type parent name garbage)) := by
  refine Ensures.bind_assoc (ensures_lookup shows fun found showsFound => ?_)
  rw [Contents.createEntry]
  obtain ⟨r, exist, ino⟩ := contents.lookup parent name garbage
  cases exist with
  | true => exact ⟨contents, rfl, showsFound⟩
  | false =>
      refine Ensures.bind_assoc (ensures_create showsFound (Or.inl rfl)
        fun ino made created create showsCreated => ?_)
      refine Ensures.bind_assoc (ensures_get showsCreated
        (fun text read got showsRead => ?_) fun dead => Or.inr ?_)
      · refine Ensures.bind_assoc (ensures_put showsRead (Or.inl rfl)
          (fun written after put showsAfter => ?_) fun dead => Or.inr ?_)
        · refine ⟨written, ?_, showsAfter⟩
          simp only [create, Contents.append, got, put, bind, Except.bind, pure, Except.pure,
            Bool.false_eq_true, if_false, Output.timeless]
        · simp only [create, Contents.append, got, dead, bind, Except.bind,
            Bool.false_eq_true, if_false]
      · simp only [create, Contents.append, dead, bind, Except.bind, Bool.false_eq_true,
          if_false]

theorem symlink_refines (host : Host) (shows : map.Shows contents)
    (parent : ExtentId) (link name : CString) :
    Ensures (ExtentMap.serve clock)
      (do
        let (r, ino) ← YfsClient.symlink host parent link name
        return Output.entry r ino)
      map (Refined (contents.symlink host.code parent link name))
      (FaultOf (contents.symlink host.code parent link name)) := by
  rw [Contents.symlink]
  refine Ensures.bind_assoc (ensures_create shows (Or.inl rfl)
    fun ino made created create showsCreated => ?_)
  refine Ensures.bind_assoc (ensures_put showsCreated (Or.inl rfl)
    (fun linked relinked putLink showsLinked => ?_) fun dead => Or.inr ?_)
  · refine Ensures.bind_assoc (ensures_get showsLinked
      (fun target reread _ showsReread => ?_) fun dead => ?_)
    · refine Ensures.bind_assoc (ensures_get showsReread
        (fun text read got showsRead => ?_) fun dead => Or.inr ?_)
      · refine Ensures.bind_assoc (ensures_put showsRead (Or.inl rfl)
          (fun written after put showsAfter => ?_) fun dead => Or.inr ?_)
        · refine ⟨written, ?_, showsAfter⟩
          simp only [create, Contents.append, putLink, got, put, bind, Except.bind, pure,
            Except.pure, Output.timeless]
        · simp only [create, Contents.append, putLink, got, dead, bind, Except.bind]
      · simp only [create, Contents.append, putLink, dead, bind, Except.bind]
    · -- the link has just been written, so it is live
      rw [Contents.put] at putLink
      split at putLink
      · cases putLink
        simp only [Contents.get, Function.update_self] at dead
        cases dead
      · cases putLink
  · simp only [create, dead, bind, Except.bind]

theorem unlink_refines (shows : map.Shows contents) (parent : ExtentId)
    (name : CString) (garbage : Garbage) :
    Ensures (ExtentMap.serve clock)
      (do
        let r ← YfsClient.unlink parent name garbage.exist garbage.ino
        return Output.status r)
      map (Refined (contents.unlink parent name garbage))
      (FaultOf (contents.unlink parent name garbage)) := by
  refine Ensures.bind_assoc (ensures_lookup shows fun found showsFound => ?_)
  rw [Contents.unlink]
  obtain ⟨r, exist, ino⟩ := contents.lookup parent name garbage
  cases exist with
  | false => exact ⟨contents, rfl, showsFound⟩
  | true =>
      refine Ensures.bind_assoc (ensures_remove showsFound
        (fun removed after remove showsRemoved => ?_) fun dead => Or.inr ?_)
      · refine Ensures.bind_assoc (ensures_readdir showsRemoved
          fun read showsRead => ?_)
        refine Ensures.bind_assoc (ensures_put showsRead (Or.inl rfl)
          (fun written final put showsFinal => ?_) fun dead => Or.inr ?_)
        · refine ⟨written, ?_, showsFinal⟩
          simp only [remove, put, bind, Except.bind, pure, Except.pure, if_true,
            Output.timeless]
        · simp only [remove, dead, bind, Except.bind, if_true]
      · simp only [dead, bind, Except.bind, if_true]

theorem write_refines (host : Host) (shows : map.Shows contents) (ino : ExtentId)
    (off : BitVec 64) (data : List Byte) :
    Ensures (ExtentMap.serve clock)
      (do
        let (r, count) ← YfsClient.write host ino off data
        return Output.written r count)
      map (Refined (contents.write host.maxString ino off data))
      (FaultOf (contents.write host.maxString ino off data)) := by
  rw [Contents.write]
  refine Ensures.bind_assoc (ensures_get shows
    (fun old read got showsRead => ?_) fun dead => Or.inr ?_)
  · refine Ensures.bind_assoc (Ensures.ofExcept_bind (fun result overwritten => ?_)
      fun error stopped => Or.inr ?_)
    · rcases result with ⟨buf, bytesWritten⟩
      refine Ensures.bind_assoc (ensures_put showsRead (Or.inl rfl)
        (fun written after put showsAfter => ?_) fun dead => Or.inr ?_)
      · refine ⟨written, ?_, showsAfter⟩
        simp only [got, overwritten, put, bind, Except.bind, pure, Except.pure,
          Output.timeless]
      · simp only [got, overwritten, dead, bind, Except.bind]
    · simp only [got, stopped, bind, Except.bind]
  · simp only [dead, bind, Except.bind]

theorem setattr_refines (host : Host) (shows : map.Shows contents) (ino : ExtentId)
    (size : BitVec 64) :
    Ensures (ExtentMap.serve clock)
      (do
        let r ← YfsClient.setattr host ino size
        return Output.status r)
      map (Refined (contents.setattr host.maxString ino size))
      (FaultOf (contents.setattr host.maxString ino size)) := by
  rw [Contents.setattr]
  refine Ensures.bind_assoc (ensures_getattr shows fun a _ oldSize => ?_)
  by_cases same : contents.sizeOf ino = size
  · simp only [oldSize, same, if_true]
    exact ⟨contents, rfl, shows⟩
  · simp only [oldSize, same, if_false]
    refine Ensures.bind_assoc (ensures_get shows
      (fun old read got showsRead => ?_) fun dead => Or.inr ?_)
    · refine Ensures.bind_assoc (Ensures.ofExcept_bind (fun buf resized => ?_)
        fun error stopped => Or.inr ?_)
      · refine ensures_put showsRead (Or.inl rfl)
          (fun written after put showsAfter => ?_) fun dead => Or.inr ?_
        · refine ⟨written, ?_, showsAfter⟩
          simp only [got, resized, put, bind, Except.bind, pure, Except.pure,
            Output.timeless]
        · simp only [got, resized, dead, bind, Except.bind]
      · simp only [got, stopped, bind, Except.bind]
    · simp only [dead, bind, Except.bind]

theorem read_refines (host : Host) (shows : map.Shows contents)
    (ino : ExtentId) (size off : BitVec 64) (garbage : Garbage) :
    Ensures (ExtentMap.serve clock) (perform host (.read ino size off, garbage))
      map (Refined (contents.step host (.read ino size off, garbage)))
      (FaultOf (contents.step host (.read ino size off, garbage))) := by
  rw [Contents.step]
  refine Ensures.bind_assoc (ensures_isfile shows ?_)
  by_cases isFile : contents.typeOf ino = tFile
  · simp only [isFile, decide_true, Bool.not_true, Bool.false_eq_true, if_false, if_true]
    refine Ensures.bind_assoc (ensures_get shows
      (fun buf read got showsRead => ?_) fun dead => Or.inr ?_)
    · refine Ensures.bind_assoc (Ensures.ofExcept_bind (fun data taken => ?_)
        fun error stopped => Or.inr ?_)
      · refine ⟨contents, ?_, showsRead⟩
        simp only [got, taken, bind, Except.bind, pure, Except.pure, Output.timeless]
      · simp only [got, stopped, bind, Except.bind]
    · simp only [dead, bind, Except.bind]
  · simp only [isFile, decide_false, Bool.not_false, if_true, if_false]
    exact ⟨contents, rfl, shows⟩

theorem readlink_refines (host : Host) (shows : map.Shows contents)
    (sym : ExtentId) (garbage : Garbage) :
    Ensures (ExtentMap.serve clock) (perform host (.readlink sym, garbage))
      map (Refined (contents.step host (.readlink sym, garbage)))
      (FaultOf (contents.step host (.readlink sym, garbage))) := by
  rw [Contents.step]
  refine Ensures.bind_assoc (ensures_issymlink host shows ?_)
  by_cases isSymlink : contents.typeOf sym = host.code
  · simp only [isSymlink, decide_true, Bool.not_true, Bool.false_eq_true, if_false,
      if_true]
    refine Ensures.bind_assoc (ensures_get shows
      (fun data read got showsRead => ?_) fun dead => Or.inr ?_)
    · refine ⟨contents, ?_, showsRead⟩
      simp only [got, bind, Except.bind, pure, Except.pure, Output.timeless]
    · simp only [dead, bind, Except.bind]
  · simp only [isSymlink, decide_false, Bool.not_false, if_true, if_false]
    exact ⟨contents, rfl, shows⟩

/-- Every call of `yfs_client` refines its step on the contents. -/
theorem perform_refines (host : Host) (shows : map.Shows contents)
    (call : Call) :
    Ensures (ExtentMap.serve clock) (perform host call) map
      (Refined (contents.step host call))
      (FaultOf (contents.step host call)) := by
  rcases call with ⟨operation, garbage⟩
  cases operation with
  | create parent name => exact createEntry_refines shows tFile parent name garbage
  | mkdir parent name => exact createEntry_refines shows tDir parent name garbage
  | symlink parent link name => exact symlink_refines host shows parent link name
  | unlink parent name => exact unlink_refines shows parent name garbage
  | lookup parent name =>
      exact ensures_lookup shows fun after showsAfter => ⟨contents, rfl, showsAfter⟩
  | readdir dir =>
      exact ensures_readdir shows fun after showsAfter => ⟨contents, rfl, showsAfter⟩
  | read ino size off => exact read_refines host shows ino size off garbage
  | write ino off data => exact write_refines host shows ino off data
  | setattr ino size => exact setattr_refines host shows ino size
  | readlink sym => exact readlink_refines host shows sym garbage
  | getfile inum =>
      refine Ensures.bind_assoc (ensures_getattr shows fun a _ size => ?_)
      refine ⟨contents, ?_, shows⟩
      rw [Contents.step, ← size]
      rfl
  | getdir inum =>
      refine Ensures.bind_assoc (ensures_getattr shows fun a _ _ => ?_)
      exact ⟨contents, rfl, shows⟩

end Calls

end Yfs
