import Yfs.YfsRuns

/-!
# Missing inodes

`get_inode` returns NULL for a free inode, and `read_file`, `write_file` and
`remove_file` follow what it returns.  A run stops there exactly when one of its
calls names a missing inode where the client does not check for one.  Other calls
return: some report the missing inode, and some report `OK`.
-/

namespace Yfs

open ClientServer Machine

namespace Contents

variable {contents : Contents}

def Live (contents : Contents) (id : ExtentId) : Prop :=
  contents.ledger (inumOf id) ≠ none

/-- The parent is live once the new inode is made. -/
def FindsParent (contents : Contents) (parent : ExtentId) : Prop :=
  contents.Live parent ∨ inumOf parent = contents.created + 1

/-- Every inode that the call follows is there. -/
def FindsInodes (contents : Contents) : Call → Prop
  | (.create parent _, garbage) =>
      contents.FindsParent parent ∨ garbage.exist = true
  | (.mkdir parent _, garbage) =>
      contents.FindsParent parent ∨ garbage.exist = true
  | (.symlink parent _ _, _) => contents.FindsParent parent
  | (.unlink parent name, garbage) =>
      let found := contents.lookup parent name garbage
      found.2.1 = true → contents.Live found.2.2 ∧ contents.Live parent ∧
        inumOf found.2.2 ≠ inumOf parent
  | (.write ino _ _, _) => contents.Live ino
  | (.setattr ino size, _) => contents.Live ino ∨ size = 0
  -- the other calls check the type first, or ask for attributes only
  | _ => True

theorem Live.get {id : ExtentId} (live : contents.Live id) :
    ∃ data, contents.get id = .ok data := by
  rw [Live] at live
  rw [Contents.get]
  cases stored : contents.ledger (inumOf id) with
  | none => exact absurd stored live
  | some entry => exact ⟨entry.2, rfl⟩

theorem Live.put {id : ExtentId} (live : contents.Live id) (data : List Byte) :
    ∃ after, contents.put id data = .ok after := by
  rw [Live] at live
  rw [Contents.put]
  cases stored : contents.ledger (inumOf id) with
  | none => exact absurd stored live
  | some entry => exact ⟨_, rfl⟩

theorem Live.remove {id : ExtentId} (live : contents.Live id) :
    ∃ after, contents.remove id = .ok after := by
  rw [Live] at live
  rw [Contents.remove]
  cases stored : contents.ledger (inumOf id) with
  | none => exact absurd stored live
  | some entry => exact ⟨_, rfl⟩

theorem get_dead {id : ExtentId} (dead : ¬contents.Live id) :
    contents.get id = .error .nullInode := by
  rw [Live, not_not] at dead
  rw [Contents.get, dead]

theorem put_dead {id : ExtentId} (dead : ¬contents.Live id) (data : List Byte) :
    contents.put id data = .error .nullInode := by
  rw [Live, not_not] at dead
  rw [Contents.put, dead]

theorem remove_dead {id : ExtentId} (dead : ¬contents.Live id) :
    contents.remove id = .error .nullInode := by
  rw [Live, not_not] at dead
  rw [Contents.remove, dead]

/-- Appending an entry stops exactly at a missing parent. -/
theorem append_error_iff {parent : ExtentId} {name : CString} {ino : ExtentId} :
    contents.append parent name ino = .error .nullInode ↔ ¬contents.Live parent := by
  rw [append]
  by_cases live : contents.Live parent
  · obtain ⟨text, got⟩ := live.get
    obtain ⟨after, put⟩ := live.put (text ++ entryText name.text ino)
    simp only [got, put, live, bind, Except.bind, not_true, reduceCtorEq]
  · simp only [get_dead live, live, bind, Except.bind, not_false_eq_true]

/-- `create` adds a live inode and no other. -/
theorem live_create {type : BitVec 32} {ino : ExtentId} {created : Contents}
    (create : contents.create type = .ok (ino, created)) (id : ExtentId) :
    created.Live id ↔ contents.Live id ∨ inumOf id = contents.created + 1 := by
  simp only [Contents.create] at create
  split at create
  · cases create
    simp only [Live]
    by_cases new : inumOf id = contents.created + 1
    · simp only [new, Function.update_self, ne_eq, reduceCtorEq, not_false_eq_true,
        or_true]
    · simp only [Function.update_of_ne new, new, or_false]
  · cases create

theorem live_put {id other : ExtentId} {data : List Byte} {written : Contents}
    (put : contents.put id data = .ok written) :
    written.Live other ↔ contents.Live other := by
  simp only [Contents.put] at put
  split at put
  · rename_i type old entry
    cases put
    simp only [Live]
    by_cases same : inumOf other = inumOf id
    · simp only [same, Function.update_self, entry, ne_eq, reduceCtorEq]
    · rw [Function.update_of_ne same]
  · cases put

theorem live_remove {id other : ExtentId} {removed : Contents}
    (remove : contents.remove id = .ok removed) :
    removed.Live other ↔ contents.Live other ∧ inumOf other ≠ inumOf id := by
  simp only [Contents.remove] at remove
  split at remove
  · cases remove
    simp only [Live]
    by_cases same : inumOf other = inumOf id
    · simp only [same, Function.update_self, ne_eq, not_true, and_false]
    · simp only [Function.update_of_ne same, ne_eq, same, not_false_eq_true, and_true]
  · cases remove

theorem live_of_typeOf {id : ExtentId} {type : BitVec 32} (nonzero : type ≠ 0)
    (isType : contents.typeOf id = type) : contents.Live id := by
  obtain ⟨data, live, -⟩ := get_of_typeOf nonzero isType
  rw [Live, live]
  simp only [ne_eq, reduceCtorEq, not_false_eq_true]

/-- `lookup` finds a name in a missing parent only by what memory held. -/
theorem lookup_dead {parent : ExtentId} (dead : ¬contents.Live parent)
    (name : CString) (garbage : Garbage) :
    contents.lookup parent name garbage = (.IOERR, garbage.exist, garbage.ino) := by
  rw [lookup, if_neg fun isDir => dead (live_of_typeOf (by decide) isDir)]

theorem create_error {type : BitVec 32} {fault : Fault}
    (stopped : contents.create type = .error fault) : fault = .beyondLimits := by
  simp only [Contents.create] at stopped
  split at stopped
  · cases stopped
  · cases stopped
    rfl

/-- Making an inode and appending its entry stops exactly at a missing parent. -/
theorem create_append_error_iff {type : BitVec 32} {ino : ExtentId}
    {created : Contents} (create : contents.create type = .ok (ino, created))
    {parent : ExtentId} {name : CString} :
    created.append parent name ino = .error .nullInode ↔
      ¬contents.FindsParent parent := by
  rw [append_error_iff, live_create create, FindsParent]

theorem createEntry_error_iff {type : BitVec 32} {parent : ExtentId} {name : CString}
    {garbage : Garbage}
    (within : contents.createEntry type parent name garbage ≠ .error .beyondLimits) :
    contents.createEntry type parent name garbage = .error .nullInode ↔
      ¬(contents.FindsParent parent ∨ garbage.exist = true) := by
  rw [createEntry] at within ⊢
  have dead : (contents.lookup parent name garbage).2.1 = true →
      contents.FindsParent parent ∨ garbage.exist = true := by
    intro exist
    by_cases live : contents.Live parent
    · exact Or.inl (Or.inl live)
    · rw [lookup_dead live] at exist
      exact Or.inr exist
  have absent : ¬(contents.lookup parent name garbage).2.1 = true →
      garbage.exist = true → contents.FindsParent parent := by
    intro missing exist
    by_contra lost
    apply missing
    rw [lookup_dead fun live => lost (Or.inl live)]
    exact exist
  generalize contents.lookup parent name garbage = found at within dead absent ⊢
  rcases found with ⟨r, exist, ino⟩
  cases exist with
  | true => simp only [if_true, reduceCtorEq, dead, not_true]
  | false =>
      cases create : contents.create type with
      | error fault =>
          simp only [create, create_error create, bind, Except.bind,
            Bool.false_eq_true, if_false, ne_eq, not_true] at within
      | ok made =>
          rcases made with ⟨made, created⟩
          have parentIff : contents.FindsParent parent ∨ garbage.exist = true ↔
              contents.FindsParent parent :=
            ⟨fun either => either.elim id (absent Bool.false_ne_true), Or.inl⟩
          have appendIff : created.append parent name made = .error .nullInode ↔
              ¬contents.FindsParent parent := create_append_error_iff create
          rw [parentIff, ← appendIff]
          cases append : created.append parent name made with
          | error fault =>
              simp only [append, bind, Except.bind, Bool.false_eq_true, if_false,
                Except.error.injEq]
          | ok after =>
              simp only [append, bind, Except.bind, pure, Except.pure,
                Bool.false_eq_true, if_false, reduceCtorEq]

theorem symlink_error_iff {type : BitVec 32} {parent : ExtentId} {link name : CString}
    (within : contents.symlink type parent link name ≠ .error .beyondLimits) :
    contents.symlink type parent link name = .error .nullInode ↔
      ¬contents.FindsParent parent := by
  rw [symlink] at within ⊢
  cases create : contents.create type with
  | error fault =>
      simp only [create, create_error create, bind, Except.bind, ne_eq,
        not_true] at within
  | ok made =>
      rcases made with ⟨ino, created⟩
      have isLive : created.Live ino := by
        rw [live_create create]
        simp only [Contents.create] at create
        split at create
        · rename_i inside
          cases create
          exact Or.inr (inumOf_ofNat inside)
        · cases create
      obtain ⟨linked, put⟩ := isLive.put link.text
      have parentIff : linked.append parent name ino = .error .nullInode ↔
          ¬contents.FindsParent parent := by
        rw [append_error_iff, live_put put, live_create create, FindsParent]
      rw [← parentIff]
      cases append : linked.append parent name ino with
      | error fault =>
          simp only [put, append, bind, Except.bind, Except.error.injEq]
      | ok after =>
          simp only [put, append, bind, Except.bind, pure, Except.pure,
            reduceCtorEq]

theorem unlink_error_iff {parent : ExtentId} {name : CString} {garbage : Garbage} :
    contents.unlink parent name garbage = .error .nullInode ↔
      ¬((contents.lookup parent name garbage).2.1 = true →
        contents.Live (contents.lookup parent name garbage).2.2 ∧
          contents.Live parent ∧
            inumOf (contents.lookup parent name garbage).2.2 ≠ inumOf parent) := by
  rw [unlink]
  generalize contents.lookup parent name garbage = found
  rcases found with ⟨r, exist, ino⟩
  cases exist with
  | false =>
      simp only [Bool.false_eq_true, if_false, reduceCtorEq, false_implies, not_true]
  | true =>
      by_cases live : contents.Live ino
      · obtain ⟨removed, remove⟩ := live.remove
        have parentIff : removed.Live parent ↔
            contents.Live parent ∧ inumOf ino ≠ inumOf parent := by
          rw [live_remove remove, ne_comm]
        simp only [remove, bind, Except.bind, if_true, live, true_and, forall_const,
          ← parentIff]
        by_cases parentLive : removed.Live parent
        · obtain ⟨after, put⟩ := parentLive.put
            (entriesText ((removed.entries parent).eraseP (·.hasName name.text)))
          simp only [put, pure, Except.pure, reduceCtorEq, parentLive, not_true]
        · simp only [put_dead parentLive, parentLive, not_false_eq_true]
      · simp only [remove_dead live, bind, Except.bind, if_true, live, false_and,
          forall_const, not_false_eq_true]

theorem write_error_iff {maxString : Nat} {ino : ExtentId} {off : BitVec 64}
    {data : List Byte} :
    contents.write maxString ino off data = .error .nullInode ↔ ¬contents.Live ino := by
  rw [write]
  by_cases live : contents.Live ino
  · obtain ⟨old, got⟩ := live.get
    simp only [got, live, bind, Except.bind, not_true, iff_false]
    cases overwritten : YfsClient.overwrite maxString old off data with
    | error fault =>
        intro stopped
        cases stopped
        cases YfsClient.overwrite_error overwritten
    | ok result =>
        obtain ⟨after, put⟩ := live.put result.1
        simp only [put, pure, Except.pure, reduceCtorEq, not_false_eq_true]
  · simp only [get_dead live, live, bind, Except.bind, not_false_eq_true]

theorem setattr_error_iff {maxString : Nat} {ino : ExtentId} {size : BitVec 64} :
    contents.setattr maxString ino size = .error .nullInode ↔
      ¬(contents.Live ino ∨ size = 0) := by
  rw [setattr]
  by_cases live : contents.Live ino
  · obtain ⟨old, got⟩ := live.get
    simp only [got, live, bind, Except.bind, true_or, not_true, iff_false]
    split
    · simp only [reduceCtorEq, not_false_eq_true]
    · cases resized : YfsClient.resize maxString old (contents.sizeOf ino) size with
      | error fault =>
          intro stopped
          cases stopped
          cases YfsClient.resize_error resized
      | ok buf =>
          obtain ⟨after, put⟩ := live.put buf
          simp only [put, pure, Except.pure, reduceCtorEq, not_false_eq_true]
  · have empty : contents.sizeOf ino = 0 := by
      rw [Live, not_not] at live
      rw [sizeOf, live]
      rfl
    simp only [empty, get_dead live, live, bind, Except.bind, false_or]
    by_cases zero : size = 0
    · simp only [zero, if_true, reduceCtorEq, not_true]
    · rw [if_neg (Ne.symm zero)]
      simp only [zero, not_false_eq_true]

/-- The calls that check the type of their inode. -/
def Checks : Operation → Prop
  | .lookup _ _ => True
  | .readdir _ => True
  | .read _ _ _ => True
  | .readlink _ => True
  | _ => False

theorem typeOf_dead {id : ExtentId} {type : BitVec 32} (dead : ¬contents.Live id)
    (nonzero : type ≠ 0) : contents.typeOf id ≠ type :=
  fun isType => dead (live_of_typeOf nonzero isType)

/-- Such a call reports a missing inode. -/
theorem step_checks {host : Host} {call : Call} (checks : Checks call.1)
    (dead : ¬contents.Live call.1.inum) {output : Output} {after : Contents}
    (returns : contents.step host call = .ok (output, after)) :
    output.r = .IOERR := by
  rcases call with ⟨operation, garbage⟩
  cases operation with
  | lookup parent name =>
      change ¬contents.Live parent at dead
      rw [step, lookup_dead dead] at returns
      cases returns
      rfl
  | readdir dir =>
      change ¬contents.Live dir at dead
      rw [step, if_neg (typeOf_dead dead (by decide))] at returns
      cases returns
      rfl
  | read ino size off =>
      change ¬contents.Live ino at dead
      rw [step, if_neg (typeOf_dead dead (by decide))] at returns
      cases returns
      rfl
  | readlink sym =>
      change ¬contents.Live sym at dead
      rw [step, if_neg (typeOf_dead dead host.code_ne_zero)] at returns
      cases returns
      rfl
  | _ => exact checks.elim

/-- The calls that do not report `OK` of a missing inode, if they return. -/
def Refuses : Call → Prop
  | (.create _ _, garbage) => garbage.exist = true
  | (.mkdir _ _, garbage) => garbage.exist = true
  | (.unlink _ _, garbage) => garbage.exist = false
  | (operation, _) => Checks operation

theorem put_error {id : ExtentId} {data : List Byte} {fault : Fault}
    (stopped : contents.put id data = .error fault) : fault = .nullInode := by
  rw [Contents.put] at stopped
  split at stopped
  · cases stopped
  · cases stopped
    rfl

theorem remove_error {id : ExtentId} {fault : Fault}
    (stopped : contents.remove id = .error fault) : fault = .nullInode := by
  rw [Contents.remove] at stopped
  split at stopped
  · cases stopped
  · cases stopped
    rfl

theorem append_error {parent : ExtentId} {name : CString} {ino : ExtentId} {fault : Fault}
    (stopped : contents.append parent name ino = .error fault) : fault = .nullInode := by
  by_cases live : contents.Live parent
  · obtain ⟨text, got⟩ := live.get
    obtain ⟨after, put⟩ := live.put (text ++ entryText name.text ino)
    simp only [append, got, put, bind, Except.bind, reduceCtorEq] at stopped
  · rw [append, get_dead live] at stopped
    cases stopped
    rfl

/-- What a call comes to that names a missing inode: it follows it, leaves the limits, or
reports something other than `OK` exactly if it refuses. -/
def Responds (refuses : Prop) : Except Fault (Output × Contents) → Prop
  | .ok (output, _) => output.r ≠ .OK ↔ refuses
  | .error fault => fault = .nullInode ∨ fault = .beyondLimits

theorem createEntry_responds {type : BitVec 32} {parent : ExtentId} {name : CString}
    {garbage : Garbage} (dead : ¬contents.Live parent) :
    Responds (garbage.exist = true) (contents.createEntry type parent name garbage) := by
  rw [createEntry, lookup_dead dead]
  cases garbage.exist with
  | true => exact iff_of_true (show Status.EXIST ≠ .OK by decide) rfl
  | false =>
      simp only [Bool.false_eq_true, if_false]
      cases create : contents.create type with
      | error fault => exact Or.inr (create_error create)
      | ok made =>
          simp only [bind, Except.bind]
          cases appended : made.2.append parent name made.1 with
          | error fault => exact Or.inl (append_error appended)
          | ok after => exact iff_of_false (not_not.mpr rfl) id

theorem symlink_responds {type : BitVec 32} {parent : ExtentId} {link name : CString} :
    Responds False (contents.symlink type parent link name) := by
  rw [symlink]
  cases create : contents.create type with
  | error fault => exact Or.inr (create_error create)
  | ok made =>
      simp only [bind, Except.bind]
      cases put : made.2.put made.1 link.text with
      | error fault => exact Or.inl (put_error put)
      | ok linked =>
          dsimp only
          cases appended : linked.append parent name made.1 with
          | error fault => exact Or.inl (append_error appended)
          | ok after => exact iff_of_false (not_not.mpr rfl) id

theorem unlink_responds {parent : ExtentId} {name : CString} {garbage : Garbage}
    (dead : ¬contents.Live parent) :
    Responds (garbage.exist = false) (contents.unlink parent name garbage) := by
  rw [unlink, lookup_dead dead]
  cases garbage.exist with
  | false => exact iff_of_true (show Status.NOENT ≠ .OK by decide) rfl
  | true =>
      simp only [if_true, bind, Except.bind]
      cases removed : contents.remove garbage.ino with
      | error fault => exact Or.inl (remove_error removed)
      | ok rest =>
          have gone : ¬rest.Live parent := fun live =>
            dead ((live_remove removed).mp live).1
          dsimp only
          rw [put_dead gone]
          exact Or.inl rfl

theorem setattr_responds {maxString : Nat} {ino : ExtentId} {size : BitVec 64}
    (dead : ¬contents.Live ino) : Responds False (contents.setattr maxString ino size) := by
  rw [setattr]
  by_cases same : contents.sizeOf ino = size
  · rw [if_pos same]
    exact iff_of_false (not_not.mpr rfl) id
  · rw [if_neg same, get_dead dead]
    exact Or.inl rfl

theorem step_responds {host : Host} {call : Call} (dead : ¬contents.Live call.1.inum) :
    Responds (Refuses call) (contents.step host call) := by
  rcases call with ⟨operation, garbage⟩
  cases operation with
  | create parent name => exact createEntry_responds dead
  | mkdir parent name => exact createEntry_responds dead
  | symlink parent link name => exact symlink_responds
  | unlink parent name => exact unlink_responds dead
  | write ino off data =>
      change ¬contents.Live ino at dead
      rw [step, write, get_dead dead]
      exact Or.inl rfl
  | setattr ino size => exact setattr_responds dead
  | lookup parent name =>
      change ¬contents.Live parent at dead
      rw [step, lookup_dead dead]
      exact iff_of_true (show Status.IOERR ≠ .OK by decide) trivial
  | readdir dir =>
      change ¬contents.Live dir at dead
      rw [step, if_neg (typeOf_dead dead (by decide))]
      exact iff_of_true (show Status.IOERR ≠ .OK by decide) trivial
  | read ino size off =>
      change ¬contents.Live ino at dead
      rw [step, if_neg (typeOf_dead dead (by decide))]
      exact iff_of_true (show Status.IOERR ≠ .OK by decide) trivial
  | readlink sym =>
      change ¬contents.Live sym at dead
      rw [step, if_neg (typeOf_dead dead host.code_ne_zero)]
      exact iff_of_true (show Status.IOERR ≠ .OK by decide) trivial
  | getfile inum => exact iff_of_false (not_not.mpr rfl) id
  | getdir inum => exact iff_of_false (not_not.mpr rfl) id

/-- One call follows a missing inode exactly when it does not find its inodes. -/
theorem step_error_iff {host : Host} {call : Call}
    (within : contents.step host call ≠ .error .beyondLimits) :
    contents.step host call = .error .nullInode ↔
      ¬contents.FindsInodes call := by
  rcases call with ⟨operation, garbage⟩
  cases operation with
  | create parent name => exact createEntry_error_iff within
  | mkdir parent name => exact createEntry_error_iff within
  | symlink parent link name => exact symlink_error_iff within
  | unlink parent name => exact unlink_error_iff
  | write ino off data => exact write_error_iff
  | setattr ino size => exact setattr_error_iff
  | read ino size off =>
      simp only [step, FindsInodes, not_true, iff_false]
      split
      · rename_i isFile
        obtain ⟨data, -, got⟩ := get_of_typeOf (by decide) isFile
        simp only [got, bind, Except.bind]
        cases taken : substr data off size with
        | error fault =>
            intro stopped
            cases stopped
            cases substr_error taken
        | ok part => simp only [pure, Except.pure, reduceCtorEq, not_false_eq_true]
      · simp only [reduceCtorEq, not_false_eq_true]
  | readlink sym =>
      simp only [step, FindsInodes, not_true, iff_false]
      split
      · rename_i isSymlink
        obtain ⟨data, -, got⟩ := get_of_typeOf host.code_ne_zero isSymlink
        simp only [got, bind, Except.bind, pure, Except.pure, reduceCtorEq,
          not_false_eq_true]
      · simp only [reduceCtorEq, not_false_eq_true]
  | lookup parent name =>
      simp only [step, FindsInodes, reduceCtorEq, not_true]
  | readdir dir => simp only [step, FindsInodes, reduceCtorEq, not_true]
  | getfile inum => simp only [step, FindsInodes, reduceCtorEq, not_true]
  | getdir inum => simp only [step, FindsInodes, reduceCtorEq, not_true]

/-- The call finds the inodes it follows, and the inode it names unless it refuses. -/
def FindsOrRefuses (contents : Contents) (call : Call) : Prop :=
  contents.FindsInodes call ∧ (contents.Live call.1.inum ∨ Refuses call)

/-- A call that does not refuse a missing inode reports `OK` of it. -/
theorem step_dead_ok {host : Host} {call : Call} (finds : contents.FindsInodes call)
    (dead : ¬contents.Live call.1.inum) (accepts : ¬Refuses call)
    (within : contents.step host call ≠ .error .beyondLimits) :
    ∃ output after, contents.step host call = .ok (output, after) ∧ output.r = .OK := by
  have responds : Responds (Refuses call) (contents.step host call) := step_responds dead
  cases stepped : contents.step host call with
  | error fault =>
      rw [stepped] at responds within
      rcases responds with rfl | rfl
      · exact absurd finds ((step_error_iff (by rw [stepped]; exact within)).mp stepped)
      · exact absurd rfl within
  | ok answer =>
      rw [stepped] at responds
      exact ⟨answer.1, answer.2, rfl, not_not.mp (responds.not.mpr accepts)⟩

end Contents

/-- Every inode number passed to a call is the root's, or was returned earlier. -/
def HandlesIssued (env : Env) (host : Host) (calls : List Call) : Prop :=
  ∀ before call later seen im, calls = before ++ call :: later →
    yfsRun env host before = .ok (seen, im) →
      call.1.inum = 1 ∨ call.1.inum ∈ seen.flatMap Output.inums

theorem inums_timeless (seen : List Output) :
    (seen.map Output.timeless).flatMap Output.inums = seen.flatMap Output.inums := by
  rw [List.flatMap_map]
  refine List.flatMap_congr fun output _ => ?_
  cases output <;> rfl

theorem Output.timeless_r (output : Output) : output.timeless.r = output.r := by
  cases output <;> rfl

/-- No call follows a missing inode, and a call that names one does not report `OK`. -/
def RefusesMissing (env : Env) (host : Host) (calls : List Call) : Prop :=
  yfsRun env host calls ≠ .error .nullInode ∧
    ∀ before call later, calls = before ++ call :: later →
      ∀ seen prior output im, yfsRun env host before = .ok (seen, prior) →
        yfsRun env host (before ++ [call]) = .ok (seen ++ [output], im) →
        ¬prior.IsLive (inumOf call.1.inum) → output.r ≠ .OK

section Missing

variable {env : Env} {host : Host} {calls before later : List Call} {call : Call}
  {seen : List Output} {output : Output} {prior im : InodeManager}

theorem yfsRun_append_ok {all : List Output}
    (returned : yfsRun env host (before ++ calls) = .ok (all, im)) :
    ∃ seen prior rest, yfsRun env host before = .ok (seen, prior) ∧ all = seen ++ rest := by
  obtain ⟨start, starts, ran⟩ := bind_ok returned
  rw [run_session_append] at ran
  split at ran
  · rename_i seen prior begun
    split at ran
    · rename_i rest last ended
      cases ran
      refine ⟨seen, prior, rest, ?_, rfl⟩
      rw [yfsRun, starts]
      exact begun
    · cases ran
  · cases ran

/-- The last call of a run is a step on the contents before it. -/
theorem yfsRun_step (within : WithinLimits env.clock host (before ++ [call]))
    (begun : yfsRun env host before = .ok (seen, prior))
    (returned : yfsRun env host (before ++ [call]) = .ok (seen ++ [output], im)) :
    ∃ contents next, run (Contents.step host) Contents.init before =
        .ok (seen.map Output.timeless, contents) ∧ prior.Shows contents ∧
      contents.step host call = .ok (output.timeless, next) := by
  obtain ⟨contents, said, shows⟩ := yfsRun_returns within.of_append begun
  obtain ⟨after, saidCall, -⟩ := yfsRun_returns within returned
  obtain ⟨first, middle, rest, saidBefore, ran, outputs⟩ := run_append_ok saidCall
  rw [said] at saidBefore
  cases saidBefore
  obtain ⟨last, next, others, stepped, remaining, rfl⟩ := run_cons_ok ran
  cases remaining
  rw [List.map_append, List.append_cancel_left_eq] at outputs
  cases outputs
  exact ⟨contents, _, said, shows, stepped⟩

theorem WithinLimits.prefix_call (within : WithinLimits env.clock host calls)
    (split : calls = before ++ call :: later) :
    WithinLimits env.clock host (before ++ [call]) := by
  rw [split, List.append_cons] at within
  exact within.of_append

theorem yfsRun_null_iff (within : WithinLimits env.clock host calls) :
    yfsRun env host calls ≠ .error .nullInode ↔
      Always (Contents.step host) Contents.FindsInodes Contents.init calls := by
  rw [ne_eq, yfsRun_error_iff within, run_error_iff
    (fun state call => Contents.step_error_iff) within.contents, not_not]

/-- A run that refuses missing inodes has every call find or refuse its own. -/
theorem RefusesMissing.always (within : WithinLimits env.clock host calls)
    (refuses : RefusesMissing env host calls) :
    Always (Contents.step host) Contents.FindsOrRefuses Contents.init calls := by
  have finds := (yfsRun_null_iff within).mp refuses.1
  refine Always.of_prefixes fun before call later outputs contents split begun => ?_
  have withinCall := within.prefix_call split
  rw [split] at finds
  refine ⟨finds.at_prefix begun, ?_⟩
  by_contra lost
  rw [not_or] at lost
  rcases lost with ⟨dead, accepts⟩
  have inside : contents.step host call ≠ .error .beyondLimits := fun beyond =>
    withinCall.contents (run_append_error begun (run_cons_error [] beyond))
  obtain ⟨output, next, stepped, isOk⟩ :=
    Contents.step_dead_ok (finds.at_prefix begun) dead accepts inside
  obtain ⟨all, im, returned, said, -⟩ :=
    yfsRun_ok withinCall (run_append begun (run_cons stepped rfl))
  obtain ⟨seen, prior, rest, begunDisk, rfl⟩ := yfsRun_append_ok returned
  obtain ⟨same, saidBefore, shows⟩ := yfsRun_returns withinCall.of_append begunDisk
  rw [begun] at saidBefore
  cases saidBefore
  rw [List.map_append, List.append_cancel_left_eq] at said
  obtain ⟨last, rfl, rfl⟩ := List.map_eq_singleton_iff.mp said
  have missing : ¬prior.IsLive (inumOf call.1.inum) := by
    rw [shows.isLive_iff]
    exact dead
  apply refuses.2 before call later split seen prior last im begunDisk returned missing
  rw [← last.timeless_r]
  exact isOk

/-- A run whose calls all find or refuse their inodes refuses missing ones. -/
theorem refusesMissing_of_always (within : WithinLimits env.clock host calls)
    (always : Always (Contents.step host) Contents.FindsOrRefuses Contents.init calls) :
    RefusesMissing env host calls := by
  refine ⟨(yfsRun_null_iff within).mpr (always.mono fun _ _ => And.left), ?_⟩
  rintro before call later split seen prior output im begun returned dead
  obtain ⟨contents, next, said, shows, stepped⟩ :=
    yfsRun_step (within.prefix_call split) begun returned
  rw [shows.isLive_iff] at dead
  rw [split] at always
  have refused := (always.at_prefix said).2.resolve_left dead
  have responds : Contents.Responds (Contents.Refuses call) (contents.step host call) :=
    Contents.step_responds dead
  rw [stepped] at responds
  rw [← output.timeless_r]
  exact responds.mpr refused

end Missing

/-- A run within the limits follows no missing inode exactly when each of its calls finds
its inodes.  It also refuses the missing inodes that its calls name exactly when each
call that names one is of a kind that refuses.  Any call that returns reports something
other than `OK` of a missing inode exactly if it refuses, and the calls that check the
type report `IOERR`. -/
theorem run_follows_no_null_iff (env : Env) (host : Host)
    (calls : List Call) (within : WithinLimits env.clock host calls) :
    (yfsRun env host calls ≠ .error .nullInode ↔
      Always (Contents.step host) Contents.FindsInodes Contents.init calls) ∧
    (RefusesMissing env host calls ↔
      Always (Contents.step host) Contents.FindsOrRefuses Contents.init calls) ∧
    ∀ before call later, calls = before ++ call :: later →
      ∀ seen prior output im, yfsRun env host before = .ok (seen, prior) →
        yfsRun env host (before ++ [call]) = .ok (seen ++ [output], im) →
        ¬prior.IsLive (inumOf call.1.inum) →
          (output.r ≠ .OK ↔ Contents.Refuses call) ∧
            (Contents.Checks call.1 → output.r = .IOERR) := by
  refine ⟨yfsRun_null_iff within,
    ⟨RefusesMissing.always within, refusesMissing_of_always within⟩, ?_⟩
  intro before call later split seen prior output im begun returned dead
  obtain ⟨contents, next, -, shows, stepped⟩ :=
    yfsRun_step (within.prefix_call split) begun returned
  rw [shows.isLive_iff] at dead
  have responds : Contents.Responds (Contents.Refuses call) (contents.step host call) :=
    Contents.step_responds dead
  rw [stepped] at responds
  rw [← output.timeless_r]
  exact ⟨responds, fun checks => Contents.step_checks checks dead stepped⟩

/-- Create a file and write a byte to it. -/
theorem run_follows_no_null_iff_write :
    RefusesMissing Env.zero .three [(.create 1 .a, .zero), (.write 2 0 [7], .zero)] := by
  refine (run_follows_no_null_iff Env.zero .three _ (withinLimits_of_ok rfl)).2.1.mpr ?_
  refine Always.cons ⟨Or.inl (Or.inl ?_), Or.inl ?_⟩ rfl
    (Always.cons ⟨?_, Or.inl ?_⟩ rfl trivial)
  · exact Option.some_ne_none _
  · exact Option.some_ne_none _
  · exact Option.some_ne_none _
  · exact Option.some_ne_none _

/-- A file is kept open, unlinked and then written. -/
def writeUnlinked : List Call :=
  [(.create 1 .a, .zero), (.unlink 1 .a, .zero), (.write 2 0 [7], .zero)]

theorem write_follows_null :
    WithinLimits Env.zero.clock .three writeUnlinked ∧
      HandlesIssued Env.zero .three writeUnlinked ∧
      yfsRun Env.zero .three writeUnlinked = .error .nullInode := by
  have within : WithinLimits Env.zero.clock .three writeUnlinked := by
    have stops : (session (perform .three) writeUnlinked).run
        (ExtentMap.serve Env.zero.clock) (ExtentMap.init Env.zero.clock) =
          .error .nullInode := rfl
    rw [WithinLimits, stops]
    simp only [ne_eq, Except.error.injEq, reduceCtorEq, not_false_eq_true]
  refine ⟨within, ?_, (yfsRun_error_iff within).mpr rfl⟩
  intro before call later seen im split returned
  rw [split] at within
  obtain ⟨contents, said, -⟩ := yfsRun_returns within.of_append returned
  rw [← inums_timeless]
  rcases before with _ | ⟨first, _ | ⟨second, _ | ⟨third, before⟩⟩⟩
  · cases split
    exact Or.inl rfl
  · cases split
    exact Or.inl rfl
  · cases split
    have outputs : seen.map Output.timeless = [.entry .OK 2, .status .OK] :=
      (congrArg Prod.fst (Except.ok.inj said)).symm
    rw [outputs]
    exact Or.inr List.mem_cons_self
  · simp [writeUnlinked] at split

end Yfs
