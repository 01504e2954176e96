import Yfs.Contents
import Yfs.Library.Machine
import Yfs.Namespace

/-!
# The contents refine the namespace

A directory is encoded as the text of its bindings.  A call that the namespace
allows does to the encoded contents what it does to the namespace, with the same
output.
-/

namespace Yfs

open ClientServer Machine

/-- The type and the bytes of a node. -/
def Node.encode (host : Host) : Node → BitVec 32 × List Byte
  | .directory bindings => (tDir, entriesText bindings)
  | .file data => (tFile, data)
  | .symlink link => (host.code, link)

/-- The contents are the nodes of a well-formed namespace. -/
structure Contents.Encodes (host : Host) (contents : Contents)
    (ns : Namespace) : Prop where
  created : contents.created = ns.created
  ledger : ∀ id, contents.ledger id = (ns.nodes id).map (Node.encode host)
  wf : ns.WF

namespace Contents

variable {host : Host} {contents : Contents} {ns next : Namespace}
variable {output : Output}

theorem init_encodes (host : Host) : init.Encodes host .init where
  created := rfl
  ledger := by
    intro id
    simp only [init, Ledger.root, Namespace.init]
    by_cases same : id = 1
    · subst same
      rfl
    · rw [Function.update_of_ne same, Function.update_of_ne same, Option.map_none]
  wf := Namespace.wf_init

namespace Encodes

variable {id : ExtentId}

theorem valid (encodes : contents.Encodes host ns) {dir : Nat}
    {bindings : List Dirent} (isDir : ns.nodes dir = some (.directory bindings)) :
    ∀ entry ∈ bindings, entry.Valid := by
  intro entry member
  have points : ns.Points dir entry := ⟨bindings, isDir, member⟩
  have named := encodes.wf.named dir entry points
  exact ⟨named.1, named.2, (encodes.wf.live_entry points).2⟩

theorem typeOf_directory (encodes : contents.Encodes host ns)
    {bindings : List Dirent}
    (isDir : ns.nodes (inumOf id) = some (.directory bindings)) :
    contents.typeOf id = tDir := by
  rw [typeOf, encodes.ledger, isDir]
  rfl

/-- `readdir` lists the bindings. -/
theorem entries_directory (encodes : contents.Encodes host ns)
    {bindings : List Dirent}
    (isDir : ns.nodes (inumOf id) = some (.directory bindings)) :
    contents.entries id = bindings := by
  rw [entries, if_pos (encodes.typeOf_directory isDir), encodes.ledger, isDir]
  exact listing_entriesText (encodes.valid isDir)

theorem lookup_directory (encodes : contents.Encodes host ns)
    {bindings : List Dirent}
    (isDir : ns.nodes (inumOf id) = some (.directory bindings)) (name : CString)
    (garbage : Garbage) :
    contents.lookup id name garbage =
      match bound bindings name with
      | some entry => (.OK, true, entry.inum)
      | none => (.OK, false, garbage.ino) := by
  rw [lookup, if_pos (encodes.typeOf_directory isDir), encodes.entries_directory isDir]
  rfl

/-- A ledger entry and a node changed together still match. -/
theorem ledger_update {ledger : Ledger} {nodes : Nat → Option Node}
    (same : ∀ id, ledger id = (nodes id).map (Node.encode host)) (id : Nat)
    {entry : Option (BitVec 32 × List Byte)} {node : Option Node}
    (encoded : entry = node.map (Node.encode host)) (other : Nat) :
    Function.update ledger id entry other =
      (Function.update nodes id node other).map (Node.encode host) := by
  by_cases atId : other = id
  · subst atId
    rw [Function.update_self, Function.update_self, encoded]
  · rw [Function.update_of_ne atId, Function.update_of_ne atId, same]

/-- Appending the entry of a node that has just been made. -/
theorem append (encodes : contents.Encodes host ns) {parent : ExtentId}
    {bindings : List Dirent}
    (isDir : ns.nodes (inumOf parent) = some (.directory bindings)) {name : CString}
    (isName : name.IsName) {node : Node} (bare : node.Bare)
    (inside : ns.created + 1 < inodeNum) :
    ∃ after,
      append ⟨ns.created + 1, Function.update contents.ledger (ns.created + 1)
          (some (node.encode host))⟩ parent name
        (BitVec.ofNat 64 (ns.created + 1)) = .ok after ∧
      after.Encodes host (ns.bind (inumOf parent) bindings name.text node) := by
  have stored : Function.update contents.ledger (ns.created + 1)
      (some (node.encode host)) (inumOf parent) =
        some (tDir, entriesText bindings) := by
    rw [Function.update_of_ne (encodes.wf.next_ne isDir).symm, encodes.ledger, isDir]
    rfl
  refine ⟨⟨ns.created + 1, Function.update (Function.update contents.ledger
    (ns.created + 1) (some (node.encode host))) (inumOf parent)
      (some (tDir, entriesText bindings ++
        entryText name.text (BitVec.ofNat 64 (ns.created + 1))))⟩,
    ?_, rfl, ?_, encodes.wf.bind isDir isName bare inside⟩
  · simp only [Contents.append, Contents.get, Contents.put, stored, bind, Except.bind]
  · have text : some (tDir, entriesText bindings ++
        entryText name.text (BitVec.ofNat 64 (ns.created + 1))) =
        (some (Node.directory (bindings ++
          [⟨name.text, BitVec.ofNat 64 (ns.created + 1)⟩]))).map
            (Node.encode host) := by
      rw [entriesText_concat]
      rfl
    have made : some (node.encode host) =
        (some node).map (Node.encode host) := rfl
    exact ledger_update (ledger_update encodes.ledger (ns.created + 1) made) _ text

theorem create_eq (encodes : contents.Encodes host ns)
    (inside : ns.created + 1 < inodeNum) (type : BitVec 32) :
    contents.create type = .ok (BitVec.ofNat 64 (ns.created + 1),
      ⟨ns.created + 1,
        Function.update contents.ledger (ns.created + 1) (some (type, []))⟩) := by
  rw [create, encodes.created, if_pos inside]

/-- `create` and `mkdir`. -/
theorem createEntry (encodes : contents.Encodes host ns) {parent : ExtentId}
    {name : CString} {garbage : Garbage} {type : BitVec 32} {node : Node}
    (bare : node.Bare) (encoded : node.encode host = (type, []))
    (returns : ns.createEntry parent name node = .ok (output, next)) :
    ∃ after, contents.createEntry type parent name garbage = .ok (output, after) ∧
      after.Encodes host next := by
  obtain ⟨bindings, found, returns⟩ := bind_ok returns
  have isDir := Namespace.directory_ok found
  rw [Contents.createEntry, encodes.lookup_directory isDir]
  cases isBound : bound bindings name with
  | some entry =>
      rw [isBound] at returns
      cases returns
      exact ⟨contents, rfl, encodes⟩
  | none =>
      rw [isBound] at returns
      obtain ⟨isName, inside, rfl, rfl⟩ := Namespace.bindNew_ok returns
      obtain ⟨after, appended, encodesAfter⟩ := encodes.append isDir isName bare inside
      refine ⟨after, ?_, encodesAfter⟩
      rw [encoded] at appended
      simp only [encodes.create_eq inside, appended, bind, Except.bind, pure, Except.pure,
        Bool.false_eq_true, if_false]

theorem symlink (encodes : contents.Encodes host ns) {parent : ExtentId}
    {bindings : List Dirent}
    (isDir : ns.nodes (inumOf parent) = some (.directory bindings))
    {link name : CString}
    (returns : ns.bindNew parent bindings name (.symlink link.text) =
      .ok (output, next)) :
    ∃ after, contents.symlink host.code parent link name = .ok (output, after) ∧
      after.Encodes host next := by
  obtain ⟨isName, inside, rfl, rfl⟩ := Namespace.bindNew_ok returns
  obtain ⟨after, appended, encodesAfter⟩ := encodes.append isDir isName
    (show Node.Bare (.symlink link.text) from trivial) inside
  refine ⟨after, ?_, encodesAfter⟩
  have linked : Contents.put ⟨ns.created + 1,
      Function.update contents.ledger (ns.created + 1) (some (host.code, []))⟩
        (BitVec.ofNat 64 (ns.created + 1)) link.text =
      .ok ⟨ns.created + 1, Function.update contents.ledger (ns.created + 1)
        (some ((Node.symlink link.text).encode host))⟩ := by
    simp only [Contents.put, inumOf_ofNat inside, Function.update_self,
      Function.update_idem]
    rfl
  simp only [Contents.symlink, encodes.create_eq inside, linked, appended, bind,
    Except.bind, pure, Except.pure]

theorem entries_congr {other : Contents} {dir : ExtentId}
    (same : other.ledger (inumOf dir) = contents.ledger (inumOf dir)) :
    other.entries dir = contents.entries dir := by
  rw [entries, entries, typeOf, typeOf, same]

theorem eraseP_hasName {bindings : List Dirent} {name : CString} {entry : Dirent}
    (found : bound bindings name = some entry) :
    bindings.eraseP (·.hasName name.text) = bindings.erase entry := by
  induction bindings with
  | nil => rfl
  | cons first rest ih =>
      rw [bound, List.find?_cons] at found
      cases named : first.hasName name.text with
      | true =>
          rw [named] at found
          cases found
          rw [List.eraseP_cons, named, cond_true, List.erase_cons_head]
      | false =>
          rw [named] at found
          have different : first ≠ entry := by
            rintro rfl
            have := List.find?_some found
            rw [named] at this
            cases this
          rw [List.eraseP_cons, named, cond_false, ih found,
            List.erase_cons_tail (by simpa using different)]

theorem unlink (encodes : contents.Encodes host ns) {parent : ExtentId}
    {bindings : List Dirent}
    (isDir : ns.nodes (inumOf parent) = some (.directory bindings)) {name : CString}
    {garbage : Garbage} {entry : Dirent} (found : bound bindings name = some entry) :
    ∃ after, contents.unlink parent name garbage = .ok (.status .OK, after) ∧
      after.Encodes host (ns.unbind (inumOf parent) bindings entry) := by
  have member := (Namespace.bound_mem found).1
  have points : ns.Points (inumOf parent) entry := ⟨bindings, isDir, member⟩
  obtain ⟨-, live⟩ := encodes.wf.child _ _ points
  obtain ⟨node, live⟩ := Option.ne_none_iff_exists'.mp live
  rw [← encodes.wf.inumOf_entry points] at live
  have kept : Function.update contents.ledger (inumOf entry.inum) none (inumOf parent) =
      contents.ledger (inumOf parent) :=
    Function.update_of_ne (encodes.wf.target_ne isDir member).symm _ _
  have removed : contents.remove entry.inum = .ok ⟨contents.created,
      Function.update contents.ledger (inumOf entry.inum) none⟩ := by
    rw [remove, encodes.ledger, live]
    rfl
  have remaining : entries ⟨contents.created,
      Function.update contents.ledger (inumOf entry.inum) none⟩ parent = bindings := by
    exact (entries_congr kept).trans (encodes.entries_directory isDir)
  have rewritten : put ⟨contents.created,
      Function.update contents.ledger (inumOf entry.inum) none⟩ parent
        (entriesText (bindings.erase entry)) =
      .ok ⟨contents.created, Function.update
        (Function.update contents.ledger (inumOf entry.inum) none) (inumOf parent)
          (some (tDir, entriesText (bindings.erase entry)))⟩ := by
    simp only [put, kept, encodes.ledger, isDir, Option.map_some, Node.encode]
  have gone : (none : Option (BitVec 32 × List Byte)) =
      (none : Option Node).map (Node.encode host) := rfl
  have text : some (tDir, entriesText (bindings.erase entry)) =
      (some (Node.directory (bindings.erase entry))).map (Node.encode host) := rfl
  refine ⟨⟨contents.created, Function.update
    (Function.update contents.ledger (inumOf entry.inum) none) (inumOf parent)
      (some (tDir, entriesText (bindings.erase entry)))⟩, ?_, encodes.created,
    ledger_update (ledger_update encodes.ledger _ gone) _ text,
    encodes.wf.unbind isDir member⟩
  rw [Contents.unlink, encodes.lookup_directory isDir, found]
  simp only [removed, remaining, eraseP_hasName found, rewritten, bind, Except.bind,
    pure, Except.pure, if_true]

theorem write (encodes : contents.Encodes host ns) {ino : ExtentId}
    {old new : List Byte} (isFile : ns.nodes (inumOf ino) = some (.file old))
    (fits : new.length ≤ maxFile * blockSize) :
    contents.get ino = .ok old ∧ contents.typeOf ino = tFile ∧
      ∃ after, contents.put ino new = .ok after ∧
        after.Encodes host (ns.rewrite (inumOf ino) new) := by
  have stored : contents.ledger (inumOf ino) = some (tFile, old) := by
    rw [encodes.ledger, isFile]
    rfl
  refine ⟨by rw [Contents.get, stored], by rw [typeOf, stored]; rfl, ?_⟩
  have data : some (tFile, new) =
      (some (Node.file new)).map (Node.encode host) := rfl
  refine ⟨⟨contents.created,
    Function.update contents.ledger (inumOf ino) (some (tFile, new))⟩, ?_,
    encodes.created, ledger_update encodes.ledger _ data, encodes.wf.rewrite isFile fits⟩
  rw [Contents.put, stored]

theorem sizeOf_eq (encodes : contents.Encodes host ns) (ino : ExtentId) :
    contents.sizeOf ino = BitVec.ofNat 64 (ns.size (inumOf ino)) := by
  rw [sizeOf, encodes.ledger, Namespace.size]
  cases ns.nodes (inumOf ino) with
  | none => rfl
  | some node => cases node <;> rfl

theorem setattr (encodes : contents.Encodes host ns) {ino : ExtentId}
    {old : List Byte} (isFile : ns.nodes (inumOf ino) = some (.file old))
    {size : BitVec 64} (fits : size.toNat ≤ maxFile * blockSize) :
    ∃ after, contents.setattr host.maxString ino size = .ok (.status .OK, after) ∧
      after.Encodes host (ns.rewrite (inumOf ino) (resized old size.toNat)) := by
  have oldFits := encodes.wf.fits _ old isFile
  have oldSize : contents.sizeOf ino = BitVec.ofNat 64 old.length := by
    rw [encodes.sizeOf_eq, Namespace.size, isFile]
  have newFits : (resized old size.toNat).length ≤ maxFile * blockSize := by
    rwa [length_resized]
  rw [Contents.setattr, oldSize]
  by_cases same : BitVec.ofNat 64 old.length = size
  · have sameNat : size.toNat = old.length := by
      rw [← same, BitVec.toNat_ofNat]
      exact Nat.mod_eq_of_lt (Nat.lt_of_le_of_lt oldFits (by decide))
    refine ⟨contents, if_pos same, ?_⟩
    rw [sameNat, resized_length, Namespace.rewrite_self isFile]
    exact encodes
  · obtain ⟨got, -, after, put, encodesAfter⟩ := encodes.write isFile newFits
    refine ⟨after, ?_, encodesAfter⟩
    simp only [if_neg same, got, resize_eq host.holdsFiles oldFits fits, put, bind,
      Except.bind, pure, Except.pure]

/-- One allowed call does to the contents what it does to the namespace. -/
theorem step (encodes : contents.Encodes host ns) {call : Call}
    (returns : ns.step call = .ok (output, next)) :
    ∃ after, contents.step host call = .ok (output, after) ∧
      after.Encodes host next := by
  rcases call with ⟨operation, garbage⟩
  cases operation with
  | create parent name =>
      exact encodes.createEntry (show Node.Bare (.file []) from rfl) rfl returns
  | mkdir parent name =>
      exact encodes.createEntry (show Node.Bare (.directory []) from rfl) rfl returns
  | symlink parent link name =>
      obtain ⟨bindings, isDir, returns⟩ := bind_ok returns
      exact encodes.symlink (Namespace.directory_ok isDir) returns
  | unlink parent name =>
      obtain ⟨bindings, isDir, returns⟩ := bind_ok returns
      have isDir := Namespace.directory_ok isDir
      split at returns
      · rename_i entry found
        cases returns
        exact encodes.unlink isDir found
      · rename_i unbound
        cases returns
        refine ⟨contents, ?_, encodes⟩
        rw [Contents.step, Contents.unlink, encodes.lookup_directory isDir, unbound]
        rfl
  | lookup parent name =>
      obtain ⟨bindings, isDir, returns⟩ := bind_ok returns
      refine ⟨contents, ?_, ?_⟩
      · rw [Contents.step, encodes.lookup_directory (Namespace.directory_ok isDir)]
        cases found : bound bindings name with
        | none =>
            rw [found] at returns
            cases returns
            rfl
        | some entry =>
            rw [found] at returns
            cases returns
            rfl
      · split at returns <;> cases returns <;> exact encodes
  | readdir dir =>
      obtain ⟨bindings, isDir, returns⟩ := bind_ok returns
      have isDir := Namespace.directory_ok isDir
      cases returns
      refine ⟨contents, ?_, encodes⟩
      rw [Contents.step, if_pos (encodes.typeOf_directory isDir),
        encodes.entries_directory isDir]
  | read ino size off =>
      obtain ⟨data, isFile, returns⟩ := bind_ok returns
      have isFile := Namespace.file_ok isFile
      obtain ⟨got, type, -⟩ := encodes.write isFile (encodes.wf.fits _ _ isFile)
      split at returns
      · rename_i inside
        cases returns
        refine ⟨contents, ?_, encodes⟩
        simp only [Contents.step, type, if_true, got, substr, if_pos inside, bind,
          Except.bind, pure, Except.pure]
      · cases returns
  | write ino off buf =>
      obtain ⟨data, isFile, returns⟩ := bind_ok returns
      have isFile := Namespace.file_ok isFile
      split at returns
      · rename_i new count computed
        have overwritten := YfsClient.overwrite_mono host.holdsFiles computed
        split at returns
        · rename_i fits
          cases returns
          obtain ⟨got, -, after, put, encodesAfter⟩ := encodes.write isFile fits
          refine ⟨after, ?_, encodesAfter⟩
          simp only [Contents.step, Contents.write, got, overwritten, put, bind,
            Except.bind, pure, Except.pure]
        · cases returns
      · cases returns
  | setattr ino size =>
      obtain ⟨data, isFile, returns⟩ := bind_ok returns
      split at returns
      · rename_i fits
        cases returns
        exact encodes.setattr (Namespace.file_ok isFile) fits
      · cases returns
  | readlink sym =>
      obtain ⟨link, isLink, returns⟩ := bind_ok returns
      have isLink := Namespace.link_ok isLink
      cases returns
      have stored : contents.ledger (inumOf sym) = some (host.code, link) := by
        rw [encodes.ledger, isLink]
        rfl
      refine ⟨contents, ?_, encodes⟩
      simp only [Contents.step, typeOf, Contents.get, stored, Option.map_some,
        Option.getD_some, if_true, bind, Except.bind, pure, Except.pure]
  | getfile inum =>
      cases returns
      refine ⟨contents, ?_, encodes⟩
      rw [Contents.step, encodes.sizeOf_eq]
  | getdir inum =>
      cases returns
      exact ⟨contents, rfl, encodes⟩

end Encodes

end Contents

/-- An allowed run of calls does to the contents what it does to the namespace. -/
theorem Contents.Encodes.run {host : Host} {contents : Contents}
    {ns final : Namespace} {calls : List Call} {outputs : List Output}
    (encodes : contents.Encodes host ns)
    (allowed : Machine.run Namespace.step ns calls = .ok (outputs, final)) :
    ∃ last, Machine.run (Contents.step host) contents calls = .ok (outputs, last) ∧
      last.Encodes host final :=
  run_simulates (fun _ _ _ _ _ encodes returns => encodes.step returns) encodes allowed

end Yfs
