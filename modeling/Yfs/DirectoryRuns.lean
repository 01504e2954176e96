import Yfs.UniqueNames

/-!
# Directories as ordered maps

What a client can tell from the calls it made and their outputs: the bindings of
a directory are those of its successful `create`, `mkdir` and `symlink` calls in
order, without those of the names it unlinked.  `lookup` and `readdir` report
these bindings.
-/

namespace Yfs

open ClientServer Machine

/-- A call with its output. -/
abbrev Event := Call × Output

namespace Event

/-- A successful `create`, `mkdir` or `symlink`: the directory, the name and the
inode number. -/
def binds : Event → Option (ExtentId × CString × ExtentId)
  | ((.create parent name, _), .entry .OK ino) => some (parent, name, ino)
  | ((.mkdir parent name, _), .entry .OK ino) => some (parent, name, ino)
  | ((.symlink parent _ name, _), .entry .OK ino) => some (parent, name, ino)
  | _ => none

/-- A successful `unlink`. -/
def unbinds : Event → Option (ExtentId × CString)
  | ((.unlink parent name, _), .status .OK) => some (parent, name)
  | _ => none

/-- A new symbolic link and its text. -/
def links : Event → Option (ExtentId × List Byte)
  | ((.symlink _ link _, _), .entry .OK ino) => some (ino, link.text)
  | _ => none

def recordBinding (dir : Nat) (held : List Dirent) (event : Event) : List Dirent :=
  match event.binds, event.unbinds with
  | some (parent, name, ino), _ =>
      if inumOf parent = dir then held ++ [⟨name.text, ino⟩] else held
  | none, some (parent, name) =>
      if inumOf parent = dir then held.filter (·.name ≠ name.text) else held
  | none, none => held

def recordLatest (dir : Nat) (name : List Byte) (latest : Option ExtentId)
    (event : Event) : Option ExtentId :=
  match event.binds, event.unbinds with
  | some (parent, bound, ino), _ =>
      if inumOf parent = dir ∧ bound.text = name then some ino else latest
  | none, some (parent, gone) =>
      if inumOf parent = dir ∧ gone.text = name then none else latest
  | none, none => latest

def recordLink (id : Nat) (link : Option (List Byte)) (event : Event) :
    Option (List Byte) :=
  match event.links with
  | some (ino, text) => if inumOf ino = id then some text else link
  | none => link

end Event

open Event

/-- The bindings of a directory, in the order of their creation. -/
def bindingsOf (history : List Event) (dir : ExtentId) : List Dirent :=
  history.foldl (recordBinding (inumOf dir)) []

/-- The inode number of the latest successful creation of the name that no
`unlink` of it followed. -/
def latestInum (history : List Event) (parent : ExtentId) (name : CString) :
    Option ExtentId :=
  history.foldl (recordLatest (inumOf parent) name.text) none

/-- The text of a symbolic link. -/
def linkText (history : List Event) (sym : ExtentId) : Option (List Byte) :=
  history.foldl (recordLink (inumOf sym)) none

/-- The output is what the history says. -/
def Explained (history : List Event) : Event → Prop
  | ((.lookup parent name, garbage), output) => output =
      match latestInum history parent name with
      | some ino => .found .OK true ino
      | none => .found .OK false garbage.ino
  | ((.readdir dir, _), output) => output = .listing .OK (bindingsOf history dir) ∧
      ((bindingsOf history dir).map Dirent.name).Nodup
  | ((.create parent name, _), output) => ExplainedEntry parent name output
  | ((.mkdir parent name, _), output) => ExplainedEntry parent name output
  | ((.symlink _ _ _, _), output) => ∃ ino, output = .entry .OK ino
  | ((.unlink parent name, _), output) => output =
      .status (if (latestInum history parent name).isSome then .OK else .NOENT)
  | ((.readlink sym, _), output) => ∃ link, linkText history sym = some link ∧
      output = .data .OK link
  | _ => True
where
  /-- A bound name is reported, an unbound one is bound to an inode. -/
  ExplainedEntry (parent : ExtentId) (name : CString) (output : Output) : Prop :=
    match latestInum history parent name with
    | some ino => output = .entry .EXIST ino
    | none => ∃ ino, output = .entry .OK ino

/-- The history tells the namespace. -/
structure Tracks (history : List Event) (ns : Namespace) : Prop where
  bindings : ∀ dir held, ns.nodes (inumOf dir) = some (.directory held) →
    bindingsOf history dir = held
  latest : ∀ parent held name, ns.nodes (inumOf parent) = some (.directory held) →
    latestInum history parent name = (bound held name).map Dirent.inum
  link : ∀ sym link, ns.nodes (inumOf sym) = some (.symlink link) →
    linkText history sym = some link
  fresh : ∀ dir, ns.created < inumOf dir → bindingsOf history dir = [] ∧
    ∀ name, latestInum history dir name = none

namespace Tracks

variable {history : List Event} {ns next : Namespace} {event : Event}

theorem init : Tracks [] .init := by
  refine ⟨?_, ?_, ?_, fun _ _ => ⟨rfl, fun _ => rfl⟩⟩
  · intro dir held isDir
    cases (Namespace.init_nodes isDir).2
    rfl
  · intro parent held name isDir
    cases (Namespace.init_nodes isDir).2
    rfl
  · intro sym link isLink
    cases (Namespace.init_nodes isLink).2

/-- An event that binds and unbinds nothing. -/
theorem quiet (tracks : Tracks history ns) (noBind : event.binds = none)
    (noUnbind : event.unbinds = none) (noLink : event.links = none)
    (created : next.created = ns.created)
    (directories : ∀ id held, next.nodes id = some (.directory held) →
      ns.nodes id = some (.directory held))
    (symlinks : ∀ id link, next.nodes id = some (.symlink link) →
      ns.nodes id = some (.symlink link)) : Tracks (history ++ [event]) next := by
  have bindings : ∀ dir, bindingsOf (history ++ [event]) dir = bindingsOf history dir := by
    intro dir
    rw [bindingsOf, List.foldl_append, List.foldl_cons, List.foldl_nil, recordBinding,
      noBind, noUnbind]
    rfl
  have latest : ∀ parent name,
      latestInum (history ++ [event]) parent name = latestInum history parent name := by
    intro parent name
    rw [latestInum, List.foldl_append, List.foldl_cons, List.foldl_nil, recordLatest,
      noBind, noUnbind]
    rfl
  have link : ∀ sym, linkText (history ++ [event]) sym = linkText history sym := by
    intro sym
    rw [linkText, List.foldl_append, List.foldl_cons, List.foldl_nil, recordLink, noLink]
    rfl
  refine ⟨?_, ?_, ?_, ?_⟩
  · intro dir held isDir
    rw [bindings, tracks.bindings dir held (directories _ _ isDir)]
  · intro parent held name isDir
    rw [latest, tracks.latest parent held name (directories _ _ isDir)]
  · intro sym text isLink
    rw [link, tracks.link sym text (symlinks _ _ isLink)]
  · intro dir after
    rw [created] at after
    rw [bindings]
    exact ⟨(tracks.fresh dir after).1, fun name =>
      (latest dir name).trans ((tracks.fresh dir after).2 name)⟩

section Binding

variable {parent : ExtentId} {name : CString} {ino : ExtentId}

theorem bindingsOf_bind (isBind : event.binds = some (parent, name, ino))
    (dir : ExtentId) :
    bindingsOf (history ++ [event]) dir =
      if inumOf parent = inumOf dir then bindingsOf history dir ++ [⟨name.text, ino⟩]
      else bindingsOf history dir := by
  rw [bindingsOf, List.foldl_append, List.foldl_cons, List.foldl_nil, recordBinding,
    isBind]
  rfl

theorem latestInum_bind (isBind : event.binds = some (parent, name, ino))
    (dir : ExtentId) (other : CString) :
    latestInum (history ++ [event]) dir other =
      if inumOf parent = inumOf dir ∧ name.text = other.text then some ino
      else latestInum history dir other := by
  rw [latestInum, List.foldl_append, List.foldl_cons, List.foldl_nil, recordLatest,
    isBind]
  rfl

theorem linkText_concat (sym : ExtentId) :
    linkText (history ++ [event]) sym =
      recordLink (inumOf sym) (linkText history sym) event := by
  rw [linkText, List.foldl_append, List.foldl_cons, List.foldl_nil]
  rfl

theorem bound_append {held : List Dirent} {other : CString}
    (unbound : bound held name = none) :
    bound (held ++ [⟨name.text, ino⟩]) other =
      if name.text = other.text then some ⟨name.text, ino⟩ else bound held other := by
  rw [bound, List.find?_append, List.find?_singleton]
  by_cases same : name.text = other.text
  · rw [bound, same] at unbound
    rw [unbound, same]
    simp only [Dirent.hasName, decide_true, if_true, Option.none_or]
  · simp only [Dirent.hasName, same, decide_false, Bool.false_eq_true, if_false,
      Option.or_none]
    rfl

/-- A new node is bound, and its link recorded. -/
theorem bind (tracks : Tracks history ns) (wf : ns.WF) {held : List Dirent} {node : Node}
    (isDir : ns.nodes (inumOf parent) = some (.directory held)) (bare : node.Bare)
    (inside : ns.created + 1 < inodeNum) (unbound : bound held name = none)
    (isBind : event.binds = some (parent, name, BitVec.ofNat 64 (ns.created + 1)))
    (isLink : event.links = match node with
      | .symlink link => some (BitVec.ofNat 64 (ns.created + 1), link)
      | _ => none) :
    Tracks (history ++ [event]) (ns.bind (inumOf parent) held name.text node) := by
  have parentLe := (wf.live_le _ _ isDir).2
  have newInum : inumOf (BitVec.ofNat 64 (ns.created + 1)) = ns.created + 1 :=
    inumOf_ofNat inside
  refine ⟨?_, ?_, ?_, ?_⟩
  · intro dir now isNow
    rw [bindingsOf_bind isBind]
    rcases Namespace.bind_nodes_cases wf isDir isNow with
      ⟨atParent, isHeld⟩ | ⟨new, isNew⟩ | ⟨notParent, -, old⟩
    · cases isHeld
      rw [if_pos atParent.symm, tracks.bindings dir held (by rw [atParent, isDir])]
    · cases isNew
      have notParent : inumOf parent ≠ inumOf dir := by omega
      rw [if_neg notParent, (tracks.fresh dir (by omega)).1, show now = [] from bare]
    · rw [if_neg notParent.symm]
      exact tracks.bindings dir now old
  · intro dir now other isNow
    rw [latestInum_bind isBind]
    rcases Namespace.bind_nodes_cases wf isDir isNow with
      ⟨atParent, isHeld⟩ | ⟨new, isNew⟩ | ⟨notParent, -, old⟩
    · cases isHeld
      have before := tracks.latest dir held other (by rw [atParent, isDir])
      rw [bound_append unbound, before]
      by_cases same : name.text = other.text
      · rw [if_pos ⟨atParent.symm, same⟩, if_pos same]
        rfl
      · rw [if_neg fun both => same both.2, if_neg same]
    · cases isNew
      have notParent : inumOf parent ≠ inumOf dir := by omega
      rw [if_neg fun both => notParent both.1, (tracks.fresh dir (by omega)).2,
        show now = [] from bare]
      rfl
    · rw [if_neg fun both => notParent both.1.symm]
      exact tracks.latest dir now other old
  · intro sym text isText
    rw [linkText_concat, recordLink, isLink]
    rcases Namespace.bind_nodes_cases wf isDir isText with
      ⟨-, isHeld⟩ | ⟨new, isNew⟩ | ⟨-, notNew, old⟩
    · cases isHeld
    · cases isNew
      simp only [newInum, new, if_true]
    · have before := tracks.link sym text old
      cases node <;> simp only [newInum, notNew.symm, if_false, before]
  · intro dir after
    have afterNew : ns.created + 1 < inumOf dir := after
    have elsewhere : inumOf parent ≠ inumOf dir := by omega
    refine ⟨?_, fun other => ?_⟩
    · rw [bindingsOf_bind isBind, if_neg elsewhere, (tracks.fresh dir (by omega)).1]
    · rw [latestInum_bind isBind, if_neg fun both => elsewhere both.1,
        (tracks.fresh dir (by omega)).2]

end Binding

section Unbinding

variable {parent : ExtentId} {name : CString} {held : List Dirent} {entry : Dirent}

theorem erase_eq_filter (unique : (held.map Dirent.name).Nodup)
    (isBound : bound held name = some entry) :
    held.erase entry = held.filter (·.name ≠ name.text) := by
  obtain ⟨member, named⟩ := Namespace.bound_mem isBound
  rw [unique.of_map.erase_eq_filter]
  refine List.filter_congr fun other inHeld => ?_
  have same : other = entry ↔ other.name = name.text := by
    constructor
    · rintro rfl
      exact named
    · intro equal
      exact List.inj_on_of_nodup_map unique inHeld member (equal.trans named.symm)
  rw [bne, beq_eq_decide, ← decide_not]
  exact decide_eq_decide.mpr (not_congr same)

theorem bound_filter (other : CString) :
    bound (held.filter (·.name ≠ name.text)) other =
      if name.text = other.text then none else bound held other := by
  rw [bound, List.find?_filter]
  by_cases same : name.text = other.text
  · rw [if_pos same, List.find?_eq_none]
    intro binding _
    simp [Dirent.hasName, same]
  · rw [if_neg same, bound]
    congr 1
    funext binding
    by_cases named : binding.name = other.text
    · simp [Dirent.hasName, named, Ne.symm same]
    · simp [Dirent.hasName, named]

theorem bindingsOf_unbind (noBind : event.binds = none)
    (isUnbind : event.unbinds = some (parent, name)) (dir : ExtentId) :
    bindingsOf (history ++ [event]) dir =
      if inumOf parent = inumOf dir then
        (bindingsOf history dir).filter (·.name ≠ name.text)
      else bindingsOf history dir := by
  rw [bindingsOf, List.foldl_append, List.foldl_cons, List.foldl_nil, recordBinding,
    noBind, isUnbind]
  rfl

theorem latestInum_unbind (noBind : event.binds = none)
    (isUnbind : event.unbinds = some (parent, name)) (dir : ExtentId) (other : CString) :
    latestInum (history ++ [event]) dir other =
      if inumOf parent = inumOf dir ∧ name.text = other.text then none
      else latestInum history dir other := by
  rw [latestInum, List.foldl_append, List.foldl_cons, List.foldl_nil, recordLatest,
    noBind, isUnbind]
  rfl

/-- A name is unbound, and its node gone. -/
theorem unbind (tracks : Tracks history ns) (wf : ns.WF)
    (isDir : ns.nodes (inumOf parent) = some (.directory held))
    (unique : (held.map Dirent.name).Nodup) (isBound : bound held name = some entry)
    (noBind : event.binds = none) (noLink : event.links = none)
    (isUnbind : event.unbinds = some (parent, name)) :
    Tracks (history ++ [event]) (ns.unbind (inumOf parent) held entry) := by
  have member := (Namespace.bound_mem isBound).1
  refine ⟨?_, ?_, ?_, ?_⟩
  · intro dir now isNow
    rw [bindingsOf_unbind noBind isUnbind]
    rcases Namespace.unbind_nodes_cases wf isDir member isNow with
      ⟨atParent, isHeld⟩ | ⟨notParent, old⟩
    · cases isHeld
      rw [if_pos atParent.symm, tracks.bindings dir held (by rw [atParent, isDir]),
        erase_eq_filter unique isBound]
    · rw [if_neg notParent.symm]
      exact tracks.bindings dir now old
  · intro dir now other isNow
    rw [latestInum_unbind noBind isUnbind]
    rcases Namespace.unbind_nodes_cases wf isDir member isNow with
      ⟨atParent, isHeld⟩ | ⟨notParent, old⟩
    · cases isHeld
      have before := tracks.latest dir held other (by rw [atParent, isDir])
      rw [erase_eq_filter unique isBound, bound_filter, before]
      by_cases same : name.text = other.text
      · rw [if_pos ⟨atParent.symm, same⟩, if_pos same, Option.map_none]
      · rw [if_neg fun both => same both.2, if_neg same]
    · rw [if_neg fun both => notParent both.1.symm]
      exact tracks.latest dir now other old
  · intro sym text isText
    rw [linkText_concat, recordLink, noLink]
    rcases Namespace.unbind_nodes_cases wf isDir member isText with
      ⟨-, isHeld⟩ | ⟨-, old⟩
    · cases isHeld
    · exact tracks.link sym text old
  · intro dir after
    have parentLe := (wf.live_le _ _ isDir).2
    have afterAll : ns.created < inumOf dir := after
    have elsewhere : inumOf parent ≠ inumOf dir := by omega
    refine ⟨?_, fun other => ?_⟩
    · rw [bindingsOf_unbind noBind isUnbind, if_neg elsewhere,
        (tracks.fresh dir afterAll).1]
    · rw [latestInum_unbind noBind isUnbind, if_neg fun both => elsewhere both.1,
        (tracks.fresh dir afterAll).2]

end Unbinding

section Steps

variable {output : Output}

/-- An output that reads the namespace. -/
theorem same (tracks : Tracks history ns) (noBind : event.binds = none)
    (noUnbind : event.unbinds = none) (noLink : event.links = none) :
    Tracks (history ++ [event]) ns :=
  tracks.quiet noBind noUnbind noLink rfl (fun _ _ => id) fun _ _ => id

theorem rewrite (tracks : Tracks history ns) {id : Nat} {old data : List Byte}
    (isFile : ns.nodes id = some (.file old)) (noBind : event.binds = none)
    (noUnbind : event.unbinds = none) (noLink : event.links = none) :
    Tracks (history ++ [event]) (ns.rewrite id data) := by
  refine tracks.quiet noBind noUnbind noLink rfl
    (fun _ _ => (Namespace.rewrite_directory isFile).mp) fun other link isLink => ?_
  by_cases atFile : other = id
  · subst atFile
    simp only [Namespace.rewrite, Function.update_self] at isLink
    cases isLink
  · rwa [Namespace.rewrite_nodes_of_ne atFile] at isLink

/-- `create` and `mkdir`. -/
theorem createEntry (tracks : Tracks history ns) (wf : ns.WF) {call : Call}
    {parent : ExtentId} {name : CString} {node : Node} (bare : node.Bare)
    (noUnbind : ∀ output, Event.unbinds (call, output) = none)
    (noLink : ∀ output, Event.links (call, output) = none)
    (isBind : ∀ ino, Event.binds (call, .entry .OK ino) = some (parent, name, ino))
    (quiet : ∀ ino, Event.binds (call, .entry .EXIST ino) = none)
    (notLink : ∀ text, node ≠ .symlink text)
    (stepped : ns.createEntry parent name node = .ok (output, next)) :
    Tracks (history ++ [(call, output)]) next ∧
      Explained.ExplainedEntry history parent name output := by
  obtain ⟨held, found, stepped⟩ := bind_ok stepped
  have isDir := Namespace.directory_ok found
  rw [Explained.ExplainedEntry, tracks.latest parent held name isDir]
  split at stepped
  · rename_i entry isBound
    cases stepped
    rw [isBound]
    exact ⟨tracks.same (quiet _) (noUnbind _) (noLink _), rfl⟩
  · rename_i unbound
    obtain ⟨isName, inside, rfl, rfl⟩ := Namespace.bindNew_ok stepped
    rw [unbound]
    refine ⟨tracks.bind wf isDir bare inside unbound (isBind _) ?_, _, rfl⟩
    rw [noLink]
    cases node with
    | directory bindings => rfl
    | file data => rfl
    | symlink text => exact absurd rfl (notLink text)

/-- One call: the history explains its output, and goes on telling the
namespace. -/
theorem step (tracks : Tracks history ns) (wf : ns.WF) (unique : ns.NamesUnique)
    {call : Call} (linked : ns.UnboundSymlink call)
    (stepped : ns.step call = .ok (output, next)) :
    Tracks (history ++ [(call, output)]) next ∧ Explained history (call, output) := by
  rcases call with ⟨operation, garbage⟩
  cases operation with
  | create parent name =>
      exact tracks.createEntry wf (show Node.Bare (.file []) from rfl) (fun _ => rfl)
        (fun _ => rfl) (fun _ => rfl) (fun _ => rfl) (fun _ isLink => nomatch isLink)
        stepped
  | mkdir parent name =>
      exact tracks.createEntry wf (show Node.Bare (.directory []) from rfl) (fun _ => rfl)
        (fun _ => rfl) (fun _ => rfl) (fun _ => rfl) (fun _ isLink => nomatch isLink)
        stepped
  | symlink parent link name =>
      obtain ⟨held, found, stepped⟩ := bind_ok stepped
      obtain ⟨isName, inside, rfl, rfl⟩ := Namespace.bindNew_ok stepped
      exact ⟨tracks.bind wf (Namespace.directory_ok found)
        (show Node.Bare (.symlink link.text) from trivial) inside (linked held found) rfl rfl,
        _, rfl⟩
  | unlink parent name =>
      obtain ⟨held, found, stepped⟩ := bind_ok stepped
      have isDir := Namespace.directory_ok found
      rw [Explained, tracks.latest parent held name isDir]
      split at stepped
      · rename_i entry isBound
        cases stepped
        rw [isBound]
        exact ⟨tracks.unbind wf isDir (unique _ _ isDir) isBound rfl rfl rfl, rfl⟩
      · rename_i unbound
        cases stepped
        rw [unbound]
        exact ⟨tracks.same rfl rfl rfl, rfl⟩
  | lookup parent name =>
      obtain ⟨held, found, stepped⟩ := bind_ok stepped
      rw [Explained, tracks.latest parent held name (Namespace.directory_ok found)]
      split at stepped <;> rename_i isBound <;> cases stepped <;> rw [isBound] <;>
        exact ⟨tracks.same rfl rfl rfl, rfl⟩
  | readdir dir =>
      obtain ⟨held, found, stepped⟩ := bind_ok stepped
      have isDir := Namespace.directory_ok found
      cases stepped
      rw [Explained, tracks.bindings dir held isDir]
      exact ⟨tracks.same rfl rfl rfl, rfl, unique _ _ isDir⟩
  | read ino size off =>
      obtain ⟨data, found, stepped⟩ := bind_ok stepped
      split at stepped <;> cases stepped
      exact ⟨tracks.same rfl rfl rfl, trivial⟩
  | write ino off buf =>
      obtain ⟨data, found, stepped⟩ := bind_ok stepped
      split at stepped
      · split at stepped <;> cases stepped
        exact ⟨tracks.rewrite (Namespace.file_ok found) rfl rfl rfl, trivial⟩
      · cases stepped
  | setattr ino size =>
      obtain ⟨data, found, stepped⟩ := bind_ok stepped
      split at stepped <;> cases stepped
      exact ⟨tracks.rewrite (Namespace.file_ok found) rfl rfl rfl, trivial⟩
  | readlink sym =>
      obtain ⟨link, found, stepped⟩ := bind_ok stepped
      cases stepped
      exact ⟨tracks.same rfl rfl rfl, link, tracks.link sym link (Namespace.link_ok found),
        rfl⟩
  | getfile inum =>
      cases stepped
      exact ⟨tracks.same rfl rfl rfl, trivial⟩
  | getdir inum =>
      cases stepped
      exact ⟨tracks.same rfl rfl rfl, trivial⟩

end Steps

/-- Every output of a run is explained by the history before it. -/
theorem explained (tracks : Tracks history ns) (wf : ns.WF) (unique : ns.NamesUnique)
    {calls : List Call} {outputs : List Output}
    (linked : Always Namespace.step Namespace.UnboundSymlink ns calls)
    (allowed : run Namespace.step ns calls = .ok (outputs, next))
    (before later : List Event) (event : Event)
    (split : calls.zip outputs = before ++ event :: later) :
    Explained (history ++ before) event := by
  induction calls generalizing history ns outputs before with
  | nil =>
      rw [List.zip_nil_left] at split
      exact absurd split.symm (List.append_ne_nil_of_right_ne_nil _ (List.cons_ne_nil _ _))
  | cons call rest ih =>
      obtain ⟨output, middle, others, stepped, remaining, rfl⟩ := run_cons_ok allowed
      obtain ⟨tracksMiddle, explains⟩ := tracks.step wf unique linked.1 stepped
      rw [List.zip_cons_cons] at split
      cases before with
      | nil =>
          cases split
          rw [List.append_nil]
          exact explains
      | cons first before =>
          rw [List.cons_append, List.cons.injEq] at split
          rcases split with ⟨rfl, split⟩
          have uniqueMiddle := unique.change wf (Namespace.step_change stepped) linked.1
          have later := ih tracksMiddle (wf.step stepped) uniqueMiddle
            (linked.2 output middle stepped) remaining before split
          rwa [List.append_assoc, List.singleton_append] at later

end Tracks

/-- A call that reports an existing name changes nothing. -/
theorem Namespace.exist_same {ns next : Namespace} {call : Call} {ino : ExtentId}
    (stepped : ns.step call = .ok (.entry .EXIST ino, next)) : next = ns := by
  have entry : ∀ {parent : ExtentId} {name : CString} {node : Node},
      ns.createEntry parent name node = .ok (.entry .EXIST ino, next) → next = ns := by
    intro parent name node returns
    obtain ⟨held, found, returns⟩ := bind_ok returns
    split at returns
    · cases returns
      rfl
    · obtain ⟨-, -, isOk, -⟩ := bindNew_ok returns
      cases isOk
  rcases call with ⟨operation, garbage⟩
  cases operation with
  | create parent name => exact entry stepped
  | mkdir parent name => exact entry stepped
  | symlink parent link name =>
      obtain ⟨held, found, stepped⟩ := bind_ok stepped
      obtain ⟨-, -, isOk, -⟩ := bindNew_ok stepped
      cases isOk
  | write ino off buf =>
      obtain ⟨data, found, stepped⟩ := bind_ok stepped
      split at stepped
      · split at stepped <;> cases stepped
      · cases stepped
  | getfile inum => cases stepped
  | getdir inum => cases stepped
  | readdir dir =>
      obtain ⟨held, found, stepped⟩ := bind_ok stepped
      cases stepped
  | readlink sym =>
      obtain ⟨link, found, stepped⟩ := bind_ok stepped
      cases stepped
  | _ =>
      obtain ⟨read, found, stepped⟩ := bind_ok stepped
      split at stepped <;> cases stepped

/-- Directories are ordered maps from names to inode numbers: every allowed run
within the limits gives the outputs of the namespace, which its history explains,
and `create` and `mkdir` of a bound name change nothing. -/
theorem directories_are_ordered_maps (env : Env) (host : Host)
    (calls : List Call) (outputs : List Output) (ns : Namespace)
    (allowed : run Namespace.step .init calls = .ok (outputs, ns))
    (linked : Always Namespace.step Namespace.UnboundSymlink .init calls)
    (within : WithinLimits env.clock host calls) :
    (∃ seen im, yfsRun env host calls = .ok (seen, im) ∧
      seen.map Output.timeless = outputs ∧ im.Encodes host ns) ∧
    (∀ before event later, calls.zip outputs = before ++ event :: later →
      Explained before event) ∧
    ∀ before call later seen im ino last, calls = before ++ call :: later →
      yfsRun env host before = .ok (seen, im) →
      yfsRun env host (before ++ [call]) =
        .ok (seen ++ [.entry .EXIST ino], last) →
      ∃ same, im.Encodes host same ∧ last.Encodes host same := by
  refine ⟨yfsRun_encodes allowed within, ?_, ?_⟩
  · intro before event later split
    exact Tracks.init.explained Namespace.wf_init Namespace.namesUnique_init linked allowed
      before later event split
  · rintro before call later seen im ino last rfl ran returned
    have isAllowed : Allowed (before ++ call :: later) := ⟨outputs, ns, allowed⟩
    obtain ⟨first, middle, begun⟩ := isAllowed.of_append
    obtain ⟨output, next, stepped, ended⟩ := isAllowed.step begun
    rw [List.append_cons] at within
    obtain ⟨-, encodes⟩ := encodes_of_yfsRun begun within.of_append.of_append ran
    obtain ⟨same, encodesLast⟩ := encodes_of_yfsRun ended within.of_append returned
    rw [List.map_append] at same
    obtain ⟨-, isExist⟩ := List.append_inj' same rfl
    cases isExist
    rw [Namespace.exist_same stepped] at encodesLast
    exact ⟨middle, encodes, encodesLast⟩

/-- A directory and a file in it: the file is found until it is unlinked. -/
theorem directories_are_ordered_maps_unlink :
    ∃ seen im, yfsRun Env.zero .three [(.mkdir 1 .a, .zero), (.create 2 .a, .zero),
        (.lookup 2 .a, .zero), (.unlink 2 .a, .zero), (.lookup 2 .a, .zero),
        (.readdir 1, .zero)] = .ok (seen, im) ∧
      seen.map Output.timeless = [.entry .OK 2, .entry .OK 3, .found .OK true 3,
        .status .OK, .found .OK false 0, .listing .OK [⟨[97], 2⟩]] := by
  obtain ⟨⟨seen, im, ran, same, -⟩, -⟩ := directories_are_ordered_maps Env.zero .three
    [(.mkdir 1 .a, .zero), (.create 2 .a, .zero), (.lookup 2 .a, .zero),
      (.unlink 2 .a, .zero), (.lookup 2 .a, .zero), (.readdir 1, .zero)] _ _ rfl
    (Always.cons trivial rfl (Always.cons trivial rfl (Always.cons trivial rfl
      (Always.cons trivial rfl (Always.cons trivial rfl (Always.cons trivial rfl
        trivial)))))) (withinLimits_of_ok rfl)
  exact ⟨seen, im, ran, same⟩

end Yfs
