import Yfs.FuseNamespace
import Yfs.Room

/-!
# The FUSE server refines the namespace

On a map that encodes a namespace, the handler of a request that the namespace
allows answers as the namespace does, and leaves a map that encodes the namespace
after the request, provided that this namespace fits on the disk.
-/

namespace Yfs

open ClientServer
open ClientServer.Program (Ensures)

/-- The map holds the nodes of the namespace. -/
def ExtentMap.Encodes (host : Host) (map : ExtentMap) (ns : Namespace) :
    Prop :=
  ∃ contents, map.Shows contents ∧ contents.Encodes host ns

/-- Every node fits into a file, and all of them fit on the disk. -/
def Namespace.HasRoom (ns : Namespace) : Prop :=
  (∀ id < ns.created + 1, ns.size id ≤ maxFile * blockSize) ∧
    ∑ id ∈ Finset.range (ns.created + 1), blocksFor (ns.size id) ≤ maxBlocks

instance (ns : Namespace) : Decidable ns.HasRoom :=
  inferInstanceAs (Decidable (_ ∧ _))

section Nodes

variable {host : Host} {contents : Contents} {ns : Namespace} {id : ExtentId}

theorem Contents.Encodes.typeOf_eq (encodes : contents.Encodes host ns) :
    contents.typeOf id =
      ((ns.nodes (inumOf id)).map fun node => (node.encode host).1).getD 0 := by
  rw [Contents.typeOf, encodes.ledger, Option.map_map]
  rfl

theorem Contents.Encodes.isDir_iff (encodes : contents.Encodes host ns) :
    contents.typeOf id = tDir ↔ ∃ bindings, ns.directory id = .ok bindings := by
  rw [encodes.typeOf_eq, Namespace.directory]
  rcases ns.nodes (inumOf id) with _ | ⟨bindings | data | link⟩
  · simp [tDir]
  · simp [Node.encode]
  · simp [Node.encode, tDir, tFile]
  · simpa [Node.encode] using host.ne_dir

theorem Contents.Encodes.isFile_iff (encodes : contents.Encodes host ns) :
    contents.typeOf id = tFile ↔ ∃ data, ns.file id = .ok data := by
  rw [encodes.typeOf_eq, Namespace.file]
  rcases ns.nodes (inumOf id) with _ | ⟨bindings | data | link⟩
  · simp [tFile]
  · simp [Node.encode, tDir, tFile]
  · simp [Node.encode]
  · simpa [Node.encode] using host.ne_file

theorem Contents.Encodes.isLink_iff (encodes : contents.Encodes host ns) :
    contents.typeOf id = host.code ↔ ∃ link, ns.link id = .ok link := by
  rw [encodes.typeOf_eq, Namespace.link]
  rcases ns.nodes (inumOf id) with _ | ⟨bindings | data | link⟩
  · simpa using host.code_ne_zero.symm
  · simpa [Node.encode] using host.ne_dir.symm
  · simpa [Node.encode] using host.ne_file.symm
  · simp [Node.encode]

theorem Contents.Encodes.size_eq (encodes : contents.Encodes host ns) (id : Nat) :
    ((contents.ledger id).map fun entry => entry.2.length).getD 0 = ns.size id := by
  rw [encodes.ledger, Namespace.size]
  rcases ns.nodes id with _ | ⟨bindings | data | link⟩
  · rfl
  · rfl
  · rfl
  · rfl

theorem Contents.Encodes.hasRoom (encodes : contents.Encodes host ns)
    (room : ns.HasRoom) : contents.HasRoom := by
  constructor
  · intro id type data held
    have size := encodes.size_eq id
    rw [held] at size
    have live : ns.nodes id ≠ none := by
      intro dead
      rw [encodes.ledger, dead] at held
      cases held
    obtain ⟨node, isNode⟩ := Option.ne_none_iff_exists'.mp live
    rw [show data.length = ns.size id from size]
    exact room.1 id (Nat.lt_succ_of_le (encodes.wf.live_le id node isNode).2)
  · apply le_trans (le_of_eq _) room.2
    rw [encodes.created]
    apply Finset.sum_congr rfl
    intro id _
    rw [Contents.blocksOf, ← encodes.size_eq]
    cases contents.ledger id with
    | none => exact (by decide : 0 = blocksFor 0)
    | some entry => rfl

end Nodes

section Rules

variable {clock : Nat → BitVec 32} {host : Host}
variable {map : ExtentMap} {ns next : Namespace}
variable {β : Type} {post : β → ExtentMap → Prop} {fails : Fault → Prop}

/-- A call that the namespace allows. -/
theorem ensures_call (encodes : map.Encodes host ns) {call : Call} {output : Output}
    (allowed : ns.step call = .ok (output, next)) (room : next.HasRoom) :
    Ensures (ExtentMap.serve clock) (perform host call) map
      (fun seen after => seen.timeless = output ∧ after.Encodes host next)
      (fun _ => False) := by
  rcases encodes with ⟨contents, shows, encodes⟩
  obtain ⟨final, stepped, encodesFinal⟩ := encodes.step allowed
  apply Ensures.mono (perform_room host shows stepped (encodesFinal.hasRoom room))
  · rintro seen after ⟨same, showsFinal⟩
    exact ⟨same, final, showsFinal, encodesFinal⟩
  · exact fun fault never => never

/-- `getattr` tells what the namespace holds. -/
theorem ensures_stat (encodes : map.Encodes host ns) {inum : ExtentId}
    {rest : Status × Stat → Client β}
    (ready : ∀ st, st.timeless = ns.stat inum →
      Ensures (ExtentMap.serve clock) (rest (.OK, st)) map post fails) :
    Ensures (ExtentMap.serve clock) (Fuse.getattr inum >>= rest) map post fails := by
  rcases encodes with ⟨contents, shows, encodes⟩
  have sizeOf := encodes.sizeOf_eq inum
  apply Ensures.bind_assoc
  apply ensures_isfile shows
  apply Ensures.bind_assoc
  apply ensures_isfile shows
  by_cases isFile : contents.typeOf inum = tFile
  · obtain ⟨data, found⟩ := encodes.isFile_iff.mp isFile
    simp only [isFile, decide_true, if_true]
    apply Ensures.bind_assoc
    apply Ensures.bind_assoc
    apply ensures_getattr shows
    intro a _ size
    apply ready
    rw [Namespace.stat, Namespace.file_ok found, ← sizeOf, ← size]
    rfl
  · simp only [isFile, decide_false, Bool.false_eq_true, if_false]
    apply Ensures.bind_assoc
    apply ensures_isdir shows
    by_cases isDir : contents.typeOf inum = tDir
    · obtain ⟨bindings, found⟩ := encodes.isDir_iff.mp isDir
      simp only [isDir, decide_true, if_true]
      apply Ensures.bind_assoc
      apply Ensures.bind_assoc
      apply ensures_getattr shows
      intro a _ _
      apply ready
      rw [Namespace.stat, Namespace.directory_ok found]
      rfl
    · simp only [isDir, decide_false, Bool.false_eq_true, if_false]
      apply Ensures.bind_assoc
      apply Ensures.bind_assoc
      apply ensures_getattr shows
      intro a _ size
      apply ready
      rw [Namespace.stat, ← sizeOf, ← size]
      rcases live : ns.nodes (inumOf inum) with _ | ⟨bindings | data | link⟩
      · rfl
      · exact absurd (encodes.isDir_iff.mpr ⟨bindings, by rw [Namespace.directory, live]⟩) isDir
      · exact absurd (encodes.isFile_iff.mpr ⟨data, by rw [Namespace.file, live]⟩) isFile
      · rfl

/-- `lookup` with the flag cleared beforehand. -/
theorem ensures_lookup_unset {contents : Contents} (shows : map.Shows contents)
    {parent : ExtentId} {name : CString} {ino : ExtentId}
    {rest : Status × Bool × ExtentId → Client β}
    (ready : ∀ after, after.Shows contents →
      Ensures (ExtentMap.serve clock) (rest (contents.lookup parent name ⟨false, ino⟩)) after
        post fails) :
    Ensures (ExtentMap.serve clock) (YfsClient.lookup parent name false ino >>= rest) map post
      fails :=
  ensures_lookup shows ready

end Rules

section Handlers

variable {clock : Nat → BitVec 32} {fenv : FuseEnv} {map : ExtentMap}
variable {ns next : Namespace} {answer : FuseAnswer} {garbage : Garbage}

/-- The handler answers as the namespace does. -/
def Follows (clock : Nat → BitVec 32) (host : Host) (map : ExtentMap)
    (handler : Client FuseAnswer) (answer : FuseAnswer) (next : Namespace) : Prop :=
  Ensures (ExtentMap.serve clock) handler map
    (fun seen after => seen.timeless = answer ∧ after.Encodes host next)
    (fun _ => False)

theorem Namespace.serveNew_ok {reply : EntryParam → FuseAnswer} {parent : ExtentId}
    {name : CString} {node : Node}
    (served : ns.serveNew reply parent name node = .ok (answer, next)) :
    (∃ ino, ns.createEntry parent name node = .ok (.entry .EXIST ino, next) ∧
        answer = .err .EEXIST) ∨
      ∃ ino, ns.createEntry parent name node = .ok (.entry .OK ino, next) ∧
        answer = reply (next.entryParam ino) := by
  obtain ⟨bindings, found, served⟩ := bind_ok served
  cases isBound : bound bindings name with
  | some entry =>
      have said : ns.createEntry parent name node = .ok (.entry .EXIST entry.inum, ns) := by
        simp only [Namespace.createEntry, found, Bind.bind, Except.bind, isBound]
        rfl
      rw [isBound] at served
      cases served
      exact Or.inl ⟨entry.inum, said, rfl⟩
  | none =>
      have said : ns.createEntry parent name node =
          ns.bindNew parent bindings name node := by
        simp only [Namespace.createEntry, found, Bind.bind, Except.bind, isBound]
      rw [isBound] at served
      rw [said]
      obtain ⟨⟨output, after⟩, made, served⟩ := bind_ok served
      cases served
      obtain ⟨-, -, rfl, rfl⟩ := Namespace.bindNew_ok made
      exact Or.inr ⟨_, made, rfl⟩

/-- `create` and `mkdir` of the client. -/
theorem ensures_createEntry {host : Host} (encodes : map.Encodes host ns)
    {type : BitVec 32} {parent : ExtentId} {name : CString} {node : Node}
    (bare : node.Bare) (encoded : node.encode host = (type, [])) {r : Status}
    {ino : ExtentId} (made : ns.createEntry parent name node = .ok (.entry r ino, next))
    (isShort : FitsShort type) (room : next.HasRoom) :
    Ensures (ExtentMap.serve clock)
      (YfsClient.createEntry type parent name garbage.exist garbage.ino) map
      (fun result after => result = (r, ino) ∧ after.Encodes host next)
      (fun _ => False) := by
  rcases encodes with ⟨contents, shows, encodes⟩
  obtain ⟨final, stepped, encodesFinal⟩ := encodes.createEntry bare encoded made
  have returns : Returns clock map
      (YfsClient.createEntry type parent name garbage.exist garbage.ino >>=
        fun result => pure (Output.entry result.1 result.2)) (.entry r ino) final :=
    createEntry_room shows isShort stepped (encodesFinal.hasRoom room)
  apply Ensures.mono (Ensures.of_bind_map _ returns)
  · rintro ⟨status, made⟩ after ⟨same, showsFinal⟩
    cases same
    exact ⟨rfl, final, showsFinal, encodesFinal⟩
  · exact fun fault never => never

/-- `create`, `mknod` and `mkdir`. -/
theorem replyCreated_follows (encodes : map.Encodes fenv.host ns)
    {reply : EntryParam → FuseAnswer} (timeless : ∀ e, (reply e).timeless = reply e.timeless)
    {type : BitVec 32} (isType : type = tFile ∨ type = tDir) {parent : ExtentId}
    {name : CString} {node : Node} (bare : node.Bare)
    (encoded : node.encode fenv.host = (type, []))
    (served : ns.serveNew reply parent name node = .ok (answer, next))
    (room : next.HasRoom) :
    Follows clock fenv.host map (Fuse.replyCreated reply type parent name garbage)
      answer next := by
  have called : Fuse.createOrMkdir type parent name garbage =
      YfsClient.createEntry type parent name garbage.exist garbage.ino := by
    rcases isType with rfl | rfl
    · rfl
    · rfl
  have isShort : FitsShort type := by
    rcases isType with rfl | rfl
    · decide
    · decide
  unfold Follows Fuse.replyCreated Fuse.fuseserverCreatehelper
  rw [called]
  apply Ensures.bind_assoc
  rcases Namespace.serveNew_ok served with ⟨ino, made, rfl⟩ | ⟨ino, made, rfl⟩
  · apply Ensures.bind (ensures_createEntry encodes bare encoded made isShort room)
    rintro result after ⟨rfl, encodesAfter⟩
    exact ⟨rfl, encodesAfter⟩
  · apply Ensures.bind (ensures_createEntry encodes bare encoded made isShort room)
    rintro result after ⟨rfl, encodesAfter⟩
    apply Ensures.bind_assoc
    apply ensures_stat encodesAfter
    intro st same
    refine ⟨?_, encodesAfter⟩
    rw [timeless, EntryParam.timeless, Namespace.entryParam, ← same]
    rfl

theorem lookup_follows (encodes : map.Encodes fenv.host ns) {parent : ExtentId}
    {name : CString}
    (served : ns.serve fenv (.lookup parent name, garbage) = .ok (answer, next)) :
    Follows clock fenv.host map (Fuse.fuseserverLookup parent name garbage) answer
      next := by
  rcases encodes with ⟨contents, shows, encodes⟩
  rw [Namespace.serve] at served
  unfold Follows Fuse.fuseserverLookup
  apply ensures_lookup_unset shows
  intro after showsAfter
  cases found : ns.directory parent with
  | error misuse =>
      rw [found] at served
      cases served
      have notDir : contents.typeOf parent ≠ tDir := by
        intro isDir
        obtain ⟨bindings, other⟩ := encodes.isDir_iff.mp isDir
        rw [found] at other
        cases other
      rw [Contents.lookup, if_neg notDir]
      exact ⟨rfl, contents, showsAfter, encodes⟩
  | ok bindings =>
      rw [found] at served
      rw [encodes.lookup_directory (Namespace.directory_ok found)]
      cases isBound : bound bindings name with
      | none =>
          simp only [isBound] at served
          cases served
          exact ⟨rfl, contents, showsAfter, encodes⟩
      | some entry =>
          simp only [isBound] at served
          cases served
          have encodesAfter : after.Encodes fenv.host ns :=
            ⟨contents, showsAfter, encodes⟩
          apply ensures_stat encodesAfter
          intro st same
          refine ⟨?_, encodesAfter⟩
          rw [Namespace.entryParam, ← same]
          rfl

theorem readdir_follows (encodes : map.Encodes fenv.host ns) {ino : ExtentId}
    {size off : BitVec 64}
    (served : ns.serve fenv (.readdir ino size off, garbage) = .ok (answer, next)) :
    Follows clock fenv.host map
      (fuseserverOper fenv (.readdir ino size off, garbage)) answer next := by
  rcases encodes with ⟨contents, shows, encodes⟩
  rw [Namespace.serve] at served
  unfold Follows fuseserverOper Fuse.fuseserverReaddir
  apply Ensures.bind_assoc
  apply ensures_isdir shows
  cases found : ns.directory ino with
  | error misuse =>
      rw [found] at served
      cases served
      have notDir : contents.typeOf ino ≠ tDir := by
        intro isDir
        obtain ⟨bindings, other⟩ := encodes.isDir_iff.mp isDir
        rw [found] at other
        cases other
      simp only [notDir, decide_false, Bool.not_false, if_true]
      exact ⟨rfl, contents, shows, encodes⟩
  | ok bindings =>
      rw [found] at served
      cases served
      have isDir := encodes.isDir_iff.mpr ⟨bindings, found⟩
      simp only [isDir, decide_true, Bool.not_true, Bool.false_eq_true, if_false]
      apply Ensures.bind_assoc
      apply ensures_readdir shows
      intro after showsAfter
      refine ⟨?_, contents, showsAfter, encodes⟩
      rw [encodes.entries_directory (Namespace.directory_ok found)]
      rfl

theorem symlink_follows (encodes : map.Encodes fenv.host ns) {link : CString}
    {parent : ExtentId} {name : CString}
    (served : ns.serve fenv (.symlink link parent name, garbage) = .ok (answer, next))
    (room : next.HasRoom) :
    Follows clock fenv.host map
      (Fuse.fuseserverSymlink fenv.host link parent name) answer next := by
  obtain ⟨bindings, found, served⟩ := bind_ok served
  obtain ⟨⟨output, after⟩, made, served⟩ := bind_ok served
  have allowed : ns.step (.symlink parent link name, garbage) = .ok (output, after) := by
    rw [Namespace.step, found]
    exact made
  cases served
  obtain ⟨-, -, rfl, rfl⟩ := Namespace.bindNew_ok made
  apply Ensures.bind (Ensures.of_bind_map
    (fun result : Status × ExtentId => Output.entry result.1 result.2)
    (ensures_call encodes allowed room))
  rintro ⟨r, ino⟩ after ⟨same, encodesAfter⟩
  cases same
  apply ensures_stat encodesAfter
  intro st sameStat
  refine ⟨?_, encodesAfter⟩
  simp only [FuseAnswer.timeless, EntryParam.timeless, Namespace.entryParam,
    Fuse.entryParam, sameStat]
  rfl

theorem unlink_follows (encodes : map.Encodes fenv.host ns) {parent : ExtentId}
    {name : CString}
    (served : ns.serve fenv (.unlink parent name, garbage) = .ok (answer, next))
    (room : next.HasRoom) :
    Follows clock fenv.host map (Fuse.fuseserverUnlink parent name garbage) answer
      next := by
  obtain ⟨bindings, found, served⟩ := bind_ok served
  cases isBound : bound bindings name with
  | some entry =>
      have said : ns.step (.unlink parent name, garbage) =
          .ok (.status .OK, ns.unbind (inumOf parent) bindings entry) := by
        simp only [Namespace.step, found, Bind.bind, Except.bind, isBound]
        rfl
      rw [isBound] at served
      cases served
      apply Ensures.bind (Ensures.of_bind_map Output.status
        (ensures_call encodes said room))
      rintro r after ⟨same, encodesAfter⟩
      cases same
      exact ⟨rfl, encodesAfter⟩
  | none =>
      have said : ns.step (.unlink parent name, garbage) = .ok (.status .NOENT, ns) := by
        simp only [Namespace.step, found, Bind.bind, Except.bind, isBound]
        rfl
      rw [isBound] at served
      cases served
      apply Ensures.bind (Ensures.of_bind_map Output.status
        (ensures_call encodes said room))
      rintro r after ⟨same, encodesAfter⟩
      cases same
      exact ⟨rfl, encodesAfter⟩

/-- `read` and `readlink` of an inode of another kind. -/
theorem data_follows (call : Call) (r : Status) (bytes : List Byte)
    (encodes : map.Encodes fenv.host ns) {program : Client (Status × List Byte)}
    (performed : perform fenv.host call =
      program >>= fun result => pure (Output.data result.1 result.2))
    (room : ns.HasRoom)
    (stepped : ∀ contents : Contents, contents.Encodes fenv.host ns →
      contents.step fenv.host call = .ok (.data r bytes, contents)) :
    Follows clock fenv.host map
      (program >>= fun result =>
        if result.1 = .OK then pure (.buf result.2) else pure (.err .ENOENT))
      (if r = .OK then .buf bytes else .err .ENOENT) ns := by
  rcases encodes with ⟨contents, shows, encodes⟩
  have called : Returns clock map (perform fenv.host call) (.data r bytes) contents :=
    perform_room fenv.host shows (stepped contents encodes) (encodes.hasRoom room)
  rw [performed] at called
  apply Ensures.bind (Ensures.of_bind_map _ called)
  rintro ⟨status, data⟩ after ⟨same, showsAfter⟩
  obtain ⟨rfl, rfl⟩ : status = r ∧ data = bytes := Output.data.inj same
  by_cases ok : status = .OK
  · simp only [ok, if_true]
    exact ⟨rfl, contents, showsAfter, encodes⟩
  · simp only [ok, if_false]
    exact ⟨rfl, contents, showsAfter, encodes⟩

theorem read_follows (encodes : map.Encodes fenv.host ns) {ino : ExtentId}
    {size off : BitVec 64}
    (served : ns.serve fenv (.read ino size off, garbage) = .ok (answer, next))
    (room : next.HasRoom) :
    Follows clock fenv.host map (Fuse.fuseserverRead ino size off) answer next := by
  rw [Namespace.serve] at served
  cases found : ns.file ino with
  | error misuse =>
      rw [found] at served
      cases served
      apply data_follows (.read ino size off, garbage) .IOERR [] encodes rfl room
      intro contents encodes
      have notFile : contents.typeOf ino ≠ tFile := by
        intro isFile
        obtain ⟨data, other⟩ := encodes.isFile_iff.mp isFile
        rw [found] at other
        cases other
      rw [Contents.step, if_neg notFile]
  | ok data =>
      simp only [found] at served
      split at served
      · rename_i inside
        cases served
        apply data_follows (.read ino size off, garbage) .OK
          ((data.drop off.toNat).take size.toNat) encodes rfl room
        intro contents encodes
        have allowed : ns.step (.read ino size off, garbage) =
            .ok (.data .OK ((data.drop off.toNat).take size.toNat), ns) := by
          rw [Namespace.step, found]
          exact if_pos inside
        obtain ⟨after, stepped, -⟩ := encodes.step allowed
        rw [stepped]
        rw [Contents.step, if_pos (encodes.isFile_iff.mpr ⟨data, found⟩)] at stepped
        obtain ⟨buf, -, stepped⟩ := bind_ok stepped
        obtain ⟨taken, -, stepped⟩ := bind_ok stepped
        cases stepped
        rfl
      · cases served

theorem readlink_follows (encodes : map.Encodes fenv.host ns) {ino : ExtentId}
    (served : ns.serve fenv (.readlink ino, garbage) = .ok (answer, next))
    (room : next.HasRoom) :
    Follows clock fenv.host map (Fuse.fuseserverReadlink fenv.host ino) answer
      next := by
  rw [Namespace.serve] at served
  cases found : ns.link ino with
  | error misuse =>
      rw [found] at served
      cases served
      apply data_follows (.readlink ino, garbage) .IOERR [] encodes rfl room
      intro contents encodes
      have notLink : contents.typeOf ino ≠ fenv.host.code := by
        intro isLink
        obtain ⟨link, other⟩ := encodes.isLink_iff.mp isLink
        rw [found] at other
        cases other
      rw [Contents.step, if_neg notLink]
  | ok link =>
      simp only [found] at served
      cases served
      apply data_follows (.readlink ino, garbage) .OK link encodes rfl room
      intro contents encodes
      have isLink := encodes.isLink_iff.mpr ⟨link, found⟩
      have stored : contents.ledger (inumOf ino) = some (fenv.host.code, link) := by
        rw [encodes.ledger, Namespace.link_ok found]
        rfl
      rw [Contents.step, if_pos isLink, Contents.get, stored]
      rfl

theorem write_follows (encodes : map.Encodes fenv.host ns) {ino : ExtentId}
    {buf : List Byte} {off : BitVec 64}
    (served : ns.serve fenv (.write ino buf off, garbage) = .ok (answer, next))
    (room : next.HasRoom) :
    Follows clock fenv.host map
      (fuseserverOper fenv (.write ino buf off, garbage)) answer next := by
  obtain ⟨data, found, served⟩ := bind_ok served
  split at served
  · rename_i fits
    cases served
    have wf : ns.WF := by
      rcases encodes with ⟨contents, -, encodes⟩
      exact encodes.wf
    have oldFits := wf.fits _ _ (Namespace.file_ok found)
    have allowed : ns.step (.write ino off buf, garbage) =
        .ok (.written .OK (some (BitVec.ofNat 64 (counted data off buf))),
          ns.rewrite (inumOf ino) (SparseFile.write 0 data off.toNat buf)) := by
      have newFits : (SparseFile.write 0 data off.toNat buf).length ≤ maxFile * blockSize := by
        rw [SparseFile.length_write]
        exact max_le oldFits fits
      simp only [Namespace.step, found, bind, Except.bind, overwrite_eq le_rfl oldFits fits,
        newFits, if_true]
      rfl
    unfold Follows fuseserverOper Fuse.fuseserverWrite
    apply Ensures.bind_assoc
    apply Ensures.bind (Ensures.of_bind_map
    (fun result : Status × Option (BitVec 64) => Output.written result.1 result.2)
      (ensures_call encodes allowed room))
    rintro ⟨r, count⟩ after ⟨same, encodesAfter⟩
    cases same
    exact ⟨rfl, encodesAfter⟩
  · cases served

theorem setattr_follows (encodes : map.Encodes fenv.host ns) {ino : ExtentId}
    {stSize : BitVec 64} {toSet : BitVec 32}
    (served : ns.serve fenv (.setattr ino stSize toSet, garbage) = .ok (answer, next))
    (room : next.HasRoom) :
    Follows clock fenv.host map
      (fuseserverOper fenv (.setattr ino stSize toSet, garbage)) answer next := by
  rw [Namespace.serve] at served
  change Follows clock fenv.host map
    (Fuse.fuseserverSetattr fenv.host fenv.flags ino stSize toSet >>= fun reply =>
      pure reply.answer)
    answer next
  unfold Follows Fuse.fuseserverSetattr
  split at served
  · rename_i masked
    rw [if_pos masked]
    obtain ⟨data, found, served⟩ := bind_ok served
    split at served
    · rename_i fits
      cases served
      have allowed : ns.step (.setattr ino stSize, garbage) =
          .ok (.status .OK,
            ns.rewrite (inumOf ino) (SparseFile.resize 0 data stSize.toNat)) := by
        simp only [Namespace.step, found, bind, Except.bind, fits, if_true,
          resized_eq_resize]
        rfl
      apply Ensures.bind_assoc
      apply Ensures.bind (Ensures.of_bind_map Output.status
        (ensures_call encodes allowed room))
      rintro r after ⟨-, encodesAfter⟩
      apply Ensures.bind_assoc
      apply ensures_stat encodesAfter
      intro st same
      refine ⟨?_, encodesAfter⟩
      rw [← same]
      rfl
    · cases served
  · rename_i unmasked
    cases served
    rw [if_neg unmasked]
    exact ⟨rfl, encodes⟩

/-- Every handler answers an allowed request as the namespace does. -/
theorem oper_follows (encodes : map.Encodes fenv.host ns)
    {request : FuseRequest × Garbage} (served : ns.serve fenv request = .ok (answer, next))
    (room : next.HasRoom) :
    Follows clock fenv.host map (fuseserverOper fenv request) answer next := by
  rcases request with ⟨request, garbage⟩
  cases request with
  | getattr ino =>
      cases served
      apply Ensures.bind_assoc
      apply ensures_stat encodes
      intro st same
      refine ⟨?_, encodes⟩
      rw [← same]
      rfl
  | statfs =>
      cases served
      exact ⟨rfl, encodes⟩
  | readdir ino size off => exact readdir_follows encodes served
  | lookup parent name => exact lookup_follows encodes served
  | create parent name =>
      exact replyCreated_follows encodes (fun _ => rfl) (Or.inl rfl)
        (show Node.Bare (.file []) from rfl) rfl served room
  | mknod parent name =>
      exact replyCreated_follows encodes (fun _ => rfl) (Or.inl rfl)
        (show Node.Bare (.file []) from rfl) rfl served room
  | opened ino =>
      cases served
      exact ⟨rfl, encodes⟩
  | read ino size off => exact read_follows encodes served room
  | write ino buf off => exact write_follows encodes served room
  | setattr ino stSize toSet => exact setattr_follows encodes served room
  | unlink parent name => exact unlink_follows encodes served room
  | mkdir parent name =>
      exact replyCreated_follows encodes (fun _ => rfl) (Or.inr rfl)
        (show Node.Bare (.directory []) from rfl) rfl served room
  | symlink link parent name => exact symlink_follows encodes served room
  | readlink ino => exact readlink_follows encodes served room

end Handlers

end Yfs
