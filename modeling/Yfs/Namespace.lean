import Mathlib.Data.List.Nodup
import Yfs.YfsClient

/-!
# The namespace

A tree of directories, regular files and symbolic links.  A directory binds names to
inode numbers in the order in which they were created.  `Namespace.step` says what a
call that keeps to the rules of the kernel does; it refuses a call with a `Misuse`, for
which the file system promises nothing.  The oddities of the source stay: a write counts
the gap before it, and a directory is unlinked like any other node.
-/

namespace Yfs

inductive Node
  | directory (bindings : List Dirent)
  | file (data : List Byte)
  | symlink (link : List Byte)

/-- A new node holds nothing but the text of a link. -/
def Node.Bare : Node → Prop
  | .directory bindings => bindings = []
  | .file data => data = []
  | .symlink _ => True

structure Namespace where
  /-- The number of nodes ever created. -/
  created : Nat
  nodes : Nat → Option Node

/-- Why a call is refused. -/
inductive Misuse
  | notDirectory
  | badName
  | tableFull
  | notFile
  | pastEnd
  | tooLong
  | notSymlink
  deriving DecidableEq, Repr

/-- A name that the kernel passes on. -/
def CString.IsName (name : CString) : Prop :=
  name.text ≠ [] ∧ slash ∉ name.text

instance (name : CString) : Decidable name.IsName :=
  inferInstanceAs (Decidable (_ ∧ _))

/-- The content truncated to `size` bytes, or extended to them with zeros. -/
def resized (data : List Byte) (size : Nat) : List Byte :=
  data.take size ++ List.replicate (size - data.length) 0

theorem length_resized (data : List Byte) (size : Nat) :
    (resized data size).length = size := by
  rw [resized, List.length_append, List.length_take, List.length_replicate]
  omega

theorem resized_length (data : List Byte) : resized data data.length = data := by
  rw [resized, List.take_length, Nat.sub_self, List.replicate_zero, List.append_nil]

/-- What `setattr` computes. -/
theorem resize_of_le {maxString : Nat} {data : List Byte} {size : BitVec 64}
    (dataFits : data.length ≤ maxFile * blockSize) (sizeFits : size.toNat ≤ maxString) :
    YfsClient.resize maxString data (BitVec.ofNat 64 data.length) size =
      .ok (resized data size.toNat) := by
  simp only [maxFile, nDirect, nIndirect, blockSize] at dataFits
  have length : (BitVec.ofNat 64 data.length).toNat = data.length := by
    rw [BitVec.toNat_ofNat, Nat.mod_eq_of_lt (by omega)]
  rw [YfsClient.resize]
  split
  · rename_i longer
    rw [BitVec.ult_iff_lt, BitVec.lt_def, length] at longer
    have count : (size - BitVec.ofNat 64 data.length).toNat =
        size.toNat - data.length := by
      rw [BitVec.toNat_sub, length]
      omega
    rw [appendZeros, count, if_pos (by omega), resized,
      List.take_of_length_le (by omega)]
  · rename_i shorter
    rw [BitVec.ult_iff_lt, BitVec.lt_def, length] at shorter
    rw [substr_zero, resized, Nat.sub_eq_zero_of_le (by omega), List.replicate_zero,
      List.append_nil]

/-- Above the largest string, `setattr` throws. -/
theorem resize_of_gt {maxString : Nat} {data : List Byte} {size : BitVec 64}
    (holds : maxFile * blockSize ≤ maxString)
    (dataFits : data.length ≤ maxFile * blockSize) (large : maxString < size.toNat) :
    YfsClient.resize maxString data (BitVec.ofNat 64 data.length) size =
      .error .lengthError := by
  simp only [maxFile, nDirect, nIndirect, blockSize] at holds dataFits
  have length : (BitVec.ofNat 64 data.length).toNat = data.length := by
    rw [BitVec.toNat_ofNat, Nat.mod_eq_of_lt (by omega)]
  have longer : (BitVec.ofNat 64 data.length).ult size = true := by
    rw [BitVec.ult_iff_lt, BitVec.lt_def, length]
    omega
  have count : (size - BitVec.ofNat 64 data.length).toNat =
      size.toNat - data.length := by
    rw [BitVec.toNat_sub, length]
    omega
  rw [YfsClient.resize, if_pos longer, appendZeros, count, if_neg (by omega)]

/-- What `setattr` computes, within the limits. -/
theorem resize_eq {maxString : Nat} {data : List Byte} {size : BitVec 64}
    (holds : maxFile * blockSize ≤ maxString)
    (dataFits : data.length ≤ maxFile * blockSize)
    (sizeFits : size.toNat ≤ maxFile * blockSize) :
    YfsClient.resize maxString data (BitVec.ofNat 64 data.length) size =
      .ok (resized data size.toNat) :=
  resize_of_le dataFits (sizeFits.trans holds)

/-- The first binding of a name. -/
def bound (bindings : List Dirent) (name : CString) : Option Dirent :=
  bindings.find? (·.hasName name.text)

namespace Namespace

/-- An empty root directory. -/
def init : Namespace :=
  ⟨1, Function.update (fun _ => none) 1 (some (.directory []))⟩

def directory (ns : Namespace) (id : ExtentId) : Except Misuse (List Dirent) :=
  match ns.nodes (inumOf id) with
  | some (.directory bindings) => .ok bindings
  | _ => .error .notDirectory

def file (ns : Namespace) (id : ExtentId) : Except Misuse (List Byte) :=
  match ns.nodes (inumOf id) with
  | some (.file data) => .ok data
  | _ => .error .notFile

def link (ns : Namespace) (id : ExtentId) : Except Misuse (List Byte) :=
  match ns.nodes (inumOf id) with
  | some (.symlink link) => .ok link
  | _ => .error .notSymlink

/-- A new node, bound last in the directory. -/
def bind (ns : Namespace) (dir : Nat) (bindings : List Dirent) (name : List Byte)
    (node : Node) : Namespace where
  created := ns.created + 1
  nodes := Function.update (Function.update ns.nodes (ns.created + 1) (some node)) dir
    (some (.directory (bindings ++ [⟨name, BitVec.ofNat 64 (ns.created + 1)⟩])))

/-- Take a binding and its node away. -/
def unbind (ns : Namespace) (dir : Nat) (bindings : List Dirent) (entry : Dirent) :
    Namespace where
  created := ns.created
  nodes := Function.update (Function.update ns.nodes (inumOf entry.inum) none) dir
    (some (.directory (bindings.erase entry)))

/-- Give a file new content. -/
def rewrite (ns : Namespace) (id : Nat) (data : List Byte) : Namespace where
  created := ns.created
  nodes := Function.update ns.nodes id (some (.file data))

def bindNew (ns : Namespace) (parent : ExtentId) (bindings : List Dirent)
    (name : CString) (node : Node) : Except Misuse (Output × Namespace) :=
  if name.IsName then
    if ns.created + 1 < inodeNum then
      .ok (.entry .OK (BitVec.ofNat 64 (ns.created + 1)),
        ns.bind (inumOf parent) bindings name.text node)
    else .error .tableFull
  else .error .badName

/-- `create` and `mkdir`: a bound name is left alone. -/
def createEntry (ns : Namespace) (parent : ExtentId) (name : CString) (node : Node) :
    Except Misuse (Output × Namespace) := do
  let bindings ← ns.directory parent
  match bound bindings name with
  | some entry => return (.entry .EXIST entry.inum, ns)
  | none => ns.bindNew parent bindings name node

/-- The length of the extent of a node. -/
def size (ns : Namespace) (id : Nat) : Nat :=
  match ns.nodes id with
  | some (.directory bindings) => (entriesText bindings).length
  | some (.file data) => data.length
  | some (.symlink link) => link.length
  | none => 0

def step (ns : Namespace) : Call → Except Misuse (Output × Namespace)
  | (.create parent name, _) => ns.createEntry parent name (.file [])
  | (.mkdir parent name, _) => ns.createEntry parent name (.directory [])
  | (.symlink parent link name, _) => do
      let bindings ← ns.directory parent
      ns.bindNew parent bindings name (.symlink link.text)
  | (.unlink parent name, _) => do
      let bindings ← ns.directory parent
      match bound bindings name with
      | some entry => return (.status .OK, ns.unbind (inumOf parent) bindings entry)
      | none => return (.status .NOENT, ns)
  | (.lookup parent name, garbage) => do
      let bindings ← ns.directory parent
      match bound bindings name with
      | some entry => return (.found .OK true entry.inum, ns)
      | none => return (.found .OK false garbage.ino, ns)
  | (.readdir dir, _) => do
      let bindings ← ns.directory dir
      return (.listing .OK bindings, ns)
  | (.read ino size off, _) => do
      let data ← ns.file ino
      if off.toNat ≤ data.length then
        return (.data .OK ((data.drop off.toNat).take size.toNat), ns)
      else .error .pastEnd
  | (.write ino off buf, _) => do
      let data ← ns.file ino
      match YfsClient.overwrite (maxFile * blockSize) data off buf with
      | .ok (new, count) =>
          if new.length ≤ maxFile * blockSize then
            return (.written .OK (some count), ns.rewrite (inumOf ino) new)
          else .error .tooLong
      | .error _ => .error .tooLong
  | (.setattr ino size, _) => do
      let data ← ns.file ino
      if size.toNat ≤ maxFile * blockSize then
        return (.status .OK, ns.rewrite (inumOf ino) (resized data size.toNat))
      else .error .tooLong
  | (.readlink sym, _) => do
      let link ← ns.link sym
      return (.data .OK link, ns)
  | (.getfile inum, _) =>
      .ok (.file .OK (some ⟨BitVec.ofNat 64 (ns.size (inumOf inum)), 0, 0, 0⟩), ns)
  | (.getdir _, _) => .ok (.dir .OK (some ⟨0, 0, 0⟩), ns)

/-- A symbolic link gets a name that is not bound. -/
def UnboundSymlink (ns : Namespace) : Call → Prop
  | (.symlink parent _ name, _) =>
      ∀ bindings, ns.directory parent = .ok bindings → bound bindings name = none
  | _ => True

/-- No directory is unlinked that still holds entries. -/
def SparesChildren (ns : Namespace) : Call → Prop
  | (.unlink parent name, _) =>
      ∀ bindings entry held, ns.directory parent = .ok bindings →
        bound bindings name = some entry →
          ns.nodes (inumOf entry.inum) = some (.directory held) → held = []
  | _ => True

/-- What a call can do to the nodes. -/
inductive Change (ns : Namespace) (call : Call) : Namespace → Prop
  | none : Change ns call ns
  | bind {parent : ExtentId} {bindings : List Dirent} {name : CString} {node : Node}
      (isDir : ns.nodes (inumOf parent) = some (.directory bindings))
      (isName : name.IsName) (bare : node.Bare) (inside : ns.created + 1 < inodeNum)
      (unbound : ns.UnboundSymlink call → bound bindings name = .none) :
      Change ns call (ns.bind (inumOf parent) bindings name.text node)
  | unbind {parent : ExtentId} {bindings : List Dirent} {entry : Dirent}
      (isDir : ns.nodes (inumOf parent) = some (.directory bindings))
      (member : entry ∈ bindings)
      (spared : ns.SparesChildren call → ∀ held,
        ns.nodes (inumOf entry.inum) = some (.directory held) → held = []) :
      Change ns call (ns.unbind (inumOf parent) bindings entry)
  | rewrite {ino : ExtentId} {old data : List Byte}
      (isFile : ns.nodes (inumOf ino) = some (.file old))
      (fits : data.length ≤ maxFile * blockSize) :
      Change ns call (ns.rewrite (inumOf ino) data)

section Inversion

variable {ns next : Namespace} {output : Output}

theorem directory_ok {id : ExtentId} {bindings : List Dirent}
    (returns : ns.directory id = .ok bindings) :
    ns.nodes (inumOf id) = some (.directory bindings) := by
  rw [directory] at returns
  split at returns
  · rename_i isDir
    cases returns
    exact isDir
  · cases returns

theorem file_ok {id : ExtentId} {data : List Byte} (returns : ns.file id = .ok data) :
    ns.nodes (inumOf id) = some (.file data) := by
  rw [file] at returns
  split at returns
  · rename_i isFile
    cases returns
    exact isFile
  · cases returns

theorem link_ok {id : ExtentId} {link : List Byte} (returns : ns.link id = .ok link) :
    ns.nodes (inumOf id) = some (.symlink link) := by
  rw [Namespace.link] at returns
  split at returns
  · rename_i isLink
    cases returns
    exact isLink
  · cases returns

theorem bindNew_ok {parent : ExtentId} {bindings : List Dirent} {name : CString}
    {node : Node} (returns : ns.bindNew parent bindings name node = .ok (output, next)) :
    name.IsName ∧ ns.created + 1 < inodeNum ∧
      output = .entry .OK (BitVec.ofNat 64 (ns.created + 1)) ∧
      next = ns.bind (inumOf parent) bindings name.text node := by
  rw [bindNew] at returns
  split at returns
  · rename_i isName
    split at returns
    · rename_i inside
      cases returns
      exact ⟨isName, inside, rfl, rfl⟩
    · cases returns
  · cases returns

theorem bound_mem {bindings : List Dirent} {name : CString} {entry : Dirent}
    (found : bound bindings name = some entry) :
    entry ∈ bindings ∧ entry.name = name.text := by
  refine ⟨List.mem_of_find?_eq_some found, ?_⟩
  have named := List.find?_some found
  exact of_decide_eq_true named

theorem createEntry_change {parent : ExtentId} {name : CString} {node : Node}
    (bare : node.Bare) (call : Call)
    (returns : ns.createEntry parent name node = .ok (output, next)) :
    ns.Change call next := by
  obtain ⟨bindings, isDir, returns⟩ := bind_ok returns
  split at returns
  · cases returns
    exact .none
  · rename_i unbound
    obtain ⟨isName, inside, -, rfl⟩ := bindNew_ok returns
    exact .bind (directory_ok isDir) isName bare inside fun _ => unbound

/-- Every step is one of the changes. -/
theorem step_change {call : Call} (returns : ns.step call = .ok (output, next)) :
    ns.Change call next := by
  rcases call with ⟨operation, garbage⟩
  cases operation with
  | create parent name =>
      exact createEntry_change (show Node.Bare (.file []) from rfl) _ returns
  | mkdir parent name =>
      exact createEntry_change (show Node.Bare (.directory []) from rfl) _ returns
  | symlink parent link name =>
      obtain ⟨bindings, isDir, returns⟩ := bind_ok returns
      obtain ⟨isName, inside, -, rfl⟩ := bindNew_ok returns
      exact .bind (directory_ok isDir) isName trivial inside
        fun unbound => unbound bindings isDir
  | unlink parent name =>
      obtain ⟨bindings, isDir, returns⟩ := bind_ok returns
      split at returns
      · rename_i entry found
        cases returns
        exact .unbind (directory_ok isDir) (bound_mem found).1
          fun spares held => spares bindings entry held isDir found
      · cases returns
        exact .none
  | lookup parent name =>
      obtain ⟨bindings, isDir, returns⟩ := bind_ok returns
      split at returns <;> cases returns <;> exact .none
  | readdir dir =>
      obtain ⟨bindings, isDir, returns⟩ := bind_ok returns
      cases returns
      exact .none
  | read ino size off =>
      obtain ⟨data, isFile, returns⟩ := bind_ok returns
      split at returns <;> cases returns
      exact .none
  | write ino off buf =>
      obtain ⟨data, isFile, returns⟩ := bind_ok returns
      split at returns
      · split at returns
        · rename_i fits
          cases returns
          exact .rewrite (file_ok isFile) fits
        · cases returns
      · cases returns
  | setattr ino size =>
      obtain ⟨data, isFile, returns⟩ := bind_ok returns
      split at returns
      · rename_i fits
        cases returns
        refine .rewrite (file_ok isFile) ?_
        rw [length_resized]
        exact fits
      · cases returns
  | readlink sym =>
      obtain ⟨link, isLink, returns⟩ := bind_ok returns
      cases returns
      exact .none
  | getfile inum =>
      cases returns
      exact .none
  | getdir inum =>
      cases returns
      exact .none

end Inversion

/-- A live directory has the entry. -/
def Points (ns : Namespace) (dir : Nat) (entry : Dirent) : Prop :=
  ∃ bindings, ns.nodes dir = some (.directory bindings) ∧ entry ∈ bindings

/-- The nodes form a forest: an entry points to a live node created after its
directory, and no node has two entries. -/
structure WF (ns : Namespace) : Prop where
  created_lt : ns.created < inodeNum
  live_le : ∀ id node, ns.nodes id = some node → 1 ≤ id ∧ id ≤ ns.created
  root : ∃ bindings, ns.nodes 1 = some (.directory bindings)
  named : ∀ dir entry, ns.Points dir entry → entry.name ≠ [] ∧ slash ∉ entry.name
  child : ∀ dir entry, ns.Points dir entry →
    dir < entry.inum.toNat ∧ ns.nodes entry.inum.toNat ≠ none
  single : ∀ dir other first second, ns.Points dir first → ns.Points other second →
    first.inum = second.inum → dir = other ∧ first = second
  nodup : ∀ dir bindings, ns.nodes dir = some (.directory bindings) → bindings.Nodup
  fits : ∀ id data, ns.nodes id = some (.file data) → data.length ≤ maxFile * blockSize

section Forest

variable {ns : Namespace}

/-- At the start there is the root, and it is empty. -/
theorem init_nodes {id : Nat} {node : Node} (live : init.nodes id = some node) :
    id = 1 ∧ node = .directory [] := by
  by_cases same : id = 1
  · subst same
    cases live
    exact ⟨rfl, rfl⟩
  · simp only [init, Function.update_of_ne same, reduceCtorEq] at live

theorem wf_init : init.WF := by
  have empty : ∀ dir entry, ¬init.Points dir entry := by
    rintro dir entry ⟨bindings, isDir, member⟩
    cases (init_nodes isDir).2
    cases member
  refine ⟨by decide, ?_, ⟨[], rfl⟩, ?_, ?_, ?_, ?_, ?_⟩
  · intro id node live
    obtain ⟨rfl, -⟩ := init_nodes live
    exact ⟨le_refl _, le_refl _⟩
  · exact fun dir entry points => absurd points (empty dir entry)
  · exact fun dir entry points => absurd points (empty dir entry)
  · exact fun dir _ entry _ points => absurd points (empty dir entry)
  · intro dir bindings isDir
    cases (init_nodes isDir).2
    exact List.nodup_nil
  · intro id data isFile
    cases (init_nodes isFile).2

theorem WF.live_entry (wf : ns.WF) {dir : Nat} {entry : Dirent}
    (points : ns.Points dir entry) :
    entry.inum.toNat ≤ ns.created ∧ entry.inum.toNat < 2 ^ 31 := by
  obtain ⟨-, live⟩ := wf.child dir entry points
  obtain ⟨node, live⟩ := Option.ne_none_iff_exists'.mp live
  have inside := wf.live_le _ node live
  have bound := wf.created_lt
  simp only [inodeNum] at bound
  omega

theorem WF.inumOf_entry (wf : ns.WF) {dir : Nat} {entry : Dirent}
    (points : ns.Points dir entry) : inumOf entry.inum = entry.inum.toNat := by
  exact inumOf_of_lt (wf.live_entry points).2

theorem WF.dead_next (wf : ns.WF) : ns.nodes (ns.created + 1) = none := by
  cases live : ns.nodes (ns.created + 1) with
  | none => rfl
  | some node =>
      have := wf.live_le _ node live
      omega

theorem toNat_next (inside : ns.created + 1 < inodeNum) :
    (BitVec.ofNat 64 (ns.created + 1)).toNat = ns.created + 1 := by
  simp only [inodeNum] at inside
  rw [BitVec.toNat_ofNat, Nat.mod_eq_of_lt (by omega)]

section Bind

variable {dir : Nat} {bindings : List Dirent} {name : List Byte} {node : Node}

theorem bind_nodes_dir :
    (ns.bind dir bindings name node).nodes dir =
      some (.directory (bindings ++ [⟨name, BitVec.ofNat 64 (ns.created + 1)⟩])) :=
  Function.update_self _ _ _

theorem WF.next_ne (wf : ns.WF) (isDir : ns.nodes dir = some (.directory bindings)) :
    ns.created + 1 ≠ dir := by
  rintro rfl
  rw [wf.dead_next] at isDir
  cases isDir

theorem bind_nodes_new (wf : ns.WF)
    (isDir : ns.nodes dir = some (.directory bindings)) :
    (ns.bind dir bindings name node).nodes (ns.created + 1) = some node := by
  simp only [bind]
  rw [Function.update_of_ne (wf.next_ne isDir), Function.update_self]

theorem bind_nodes_of_ne {id : Nat} (notDir : id ≠ dir) (notNew : id ≠ ns.created + 1) :
    (ns.bind dir bindings name node).nodes id = ns.nodes id := by
  simp only [bind]
  rw [Function.update_of_ne notDir, Function.update_of_ne notNew]

/-- A node after a binding is the directory, the new node, or an old one. -/
theorem bind_nodes_cases (wf : ns.WF)
    (isDir : ns.nodes dir = some (.directory bindings)) {id : Nat} {held : Node}
    (live : (ns.bind dir bindings name node).nodes id = some held) :
    (id = dir ∧
        held = .directory (bindings ++ [⟨name, BitVec.ofNat 64 (ns.created + 1)⟩])) ∨
      (id = ns.created + 1 ∧ held = node) ∨
      (id ≠ dir ∧ id ≠ ns.created + 1 ∧ ns.nodes id = some held) := by
  by_cases atDir : id = dir
  · rw [atDir, bind_nodes_dir] at live
    cases live
    exact Or.inl ⟨atDir, rfl⟩
  · by_cases new : id = ns.created + 1
    · rw [new, bind_nodes_new wf isDir] at live
      cases live
      exact Or.inr (Or.inl ⟨new, rfl⟩)
    · rw [bind_nodes_of_ne atDir new] at live
      exact Or.inr (Or.inr ⟨atDir, new, live⟩)

theorem bind_live (wf : ns.WF) (isDir : ns.nodes dir = some (.directory bindings))
    {id : Nat} :
    (ns.bind dir bindings name node).nodes id ≠ none ↔
      ns.nodes id ≠ none ∨ id = ns.created + 1 := by
  by_cases atDir : id = dir
  · subst atDir
    simp only [bind_nodes_dir, isDir, ne_eq, reduceCtorEq, not_false_eq_true, true_or]
  · by_cases new : id = ns.created + 1
    · subst new
      simp only [bind_nodes_new wf isDir, ne_eq, reduceCtorEq, not_false_eq_true, or_true]
    · simp only [bind_nodes_of_ne atDir new, new, or_false]

/-- A binding adds one entry. -/
theorem points_bind (wf : ns.WF) (isDir : ns.nodes dir = some (.directory bindings))
    (bare : node.Bare) {other : Nat} {entry : Dirent} :
    (ns.bind dir bindings name node).Points other entry ↔
      ns.Points other entry ∨
        other = dir ∧ entry = ⟨name, BitVec.ofNat 64 (ns.created + 1)⟩ := by
  by_cases atDir : other = dir
  · subst atDir
    simp only [Points, bind_nodes_dir, isDir, Option.some.injEq, Node.directory.injEq,
      exists_eq_left', List.mem_append, List.mem_singleton, true_and]
  · by_cases new : other = ns.created + 1
    · subst new
      simp only [Points, bind_nodes_new wf isDir, wf.dead_next, Option.some.injEq,
        reduceCtorEq, false_and, exists_false, atDir, or_self, iff_false]
      rintro ⟨held, rfl, member⟩
      rw [show held = [] from bare] at member
      cases member
    · simp only [Points, bind_nodes_of_ne atDir new, atDir, false_and, or_false]

theorem WF.bind (wf : ns.WF) (isDir : ns.nodes dir = some (.directory bindings))
    (named : name ≠ [] ∧ slash ∉ name) (bare : node.Bare)
    (inside : ns.created + 1 < inodeNum) : (ns.bind dir bindings name node).WF := by
  have points : ∀ other entry, (ns.bind dir bindings name node).Points other entry →
      ns.Points other entry ∨
        other = dir ∧ entry = ⟨name, BitVec.ofNat 64 (ns.created + 1)⟩ :=
    fun _ _ => (points_bind wf isDir bare).mp
  have older : ∀ other entry, ns.Points other entry →
      entry.inum ≠ BitVec.ofNat 64 (ns.created + 1) := by
    intro other entry old same
    have entryLe := (wf.live_entry old).1
    rw [same, toNat_next inside] at entryLe
    omega
  refine
    { created_lt := inside
      live_le := ?live
      root := ?root
      named := ?named
      child := ?child
      single := ?single
      nodup := ?nodup
      fits := ?fits }
  case live =>
    intro id held live
    have isLive := (bind_live wf isDir).mp (Option.ne_none_iff_exists'.mpr ⟨held, live⟩)
    rcases isLive with old | rfl
    · obtain ⟨other, old⟩ := Option.ne_none_iff_exists'.mp old
      exact ⟨(wf.live_le id other old).1, Nat.le_succ_of_le (wf.live_le id other old).2⟩
    · exact ⟨Nat.succ_pos _, le_refl _⟩
  case root =>
    obtain ⟨held, isRoot⟩ := wf.root
    by_cases atDir : 1 = dir
    · subst atDir
      exact ⟨_, bind_nodes_dir⟩
    · have notNew : 1 ≠ ns.created + 1 := by
        have := (wf.live_le _ _ isRoot).2
        omega
      exact ⟨held, (bind_nodes_of_ne atDir notNew).trans isRoot⟩
  case named =>
    intro other entry held
    rcases points other entry held with old | ⟨-, rfl⟩
    · exact wf.named other entry old
    · exact named
  case child =>
    intro other entry held
    rcases points other entry held with old | ⟨rfl, rfl⟩
    · obtain ⟨less, live⟩ := wf.child other entry old
      exact ⟨less, (bind_live wf isDir).mpr (Or.inl live)⟩
    · rw [toNat_next inside]
      exact ⟨Nat.lt_succ_of_le (wf.live_le _ _ isDir).2,
        (bind_live wf isDir).mpr (Or.inr rfl)⟩
  case single =>
    intro one other first second heldFirst heldSecond same
    rcases points one first heldFirst with old | ⟨rfl, rfl⟩
    · rcases points other second heldSecond with older' | ⟨rfl, rfl⟩
      · exact wf.single one other first second old older' same
      · exact absurd same (older _ _ old)
    · rcases points other second heldSecond with old | ⟨rfl, rfl⟩
      · exact absurd same.symm (older _ _ old)
      · exact ⟨rfl, rfl⟩
  case nodup =>
    intro other held isHeld
    rcases bind_nodes_cases wf isDir isHeld with
      ⟨rfl, atDir⟩ | ⟨rfl, isNew⟩ | ⟨-, -, old⟩
    · cases atDir
      rw [List.nodup_append]
      refine ⟨wf.nodup _ _ isDir, List.nodup_singleton _, ?_⟩
      intro entry member last atLast same
      rw [List.mem_singleton] at atLast
      apply older other entry ⟨bindings, isDir, member⟩
      rw [same, atLast]
    · cases isNew
      rw [show held = [] from bare]
      exact List.nodup_nil
    · exact wf.nodup other held old
  case fits =>
    intro id data isFile
    rcases bind_nodes_cases wf isDir isFile with
      ⟨-, atDir⟩ | ⟨-, isNew⟩ | ⟨-, -, old⟩
    · cases atDir
    · cases isNew
      rw [show data = [] from bare]
      exact Nat.zero_le _
    · exact wf.fits id data old

end Bind

section Unbind

variable {dir : Nat} {bindings : List Dirent} {entry : Dirent}

theorem unbind_nodes_dir :
    (ns.unbind dir bindings entry).nodes dir = some (.directory (bindings.erase entry)) :=
  Function.update_self _ _ _

/-- The node that goes is below its directory. -/
theorem WF.target_ne (wf : ns.WF) (isDir : ns.nodes dir = some (.directory bindings))
    (member : entry ∈ bindings) : inumOf entry.inum ≠ dir := by
  have held : ns.Points dir entry := ⟨bindings, isDir, member⟩
  rw [wf.inumOf_entry held]
  exact Nat.ne_of_gt (wf.child dir entry held).1

theorem unbind_nodes_target (wf : ns.WF)
    (isDir : ns.nodes dir = some (.directory bindings)) (member : entry ∈ bindings) :
    (ns.unbind dir bindings entry).nodes (inumOf entry.inum) = none := by
  simp only [unbind]
  rw [Function.update_of_ne (wf.target_ne isDir member), Function.update_self]

theorem unbind_nodes_of_ne {id : Nat} (notDir : id ≠ dir)
    (notTarget : id ≠ inumOf entry.inum) :
    (ns.unbind dir bindings entry).nodes id = ns.nodes id := by
  simp only [unbind]
  rw [Function.update_of_ne notDir, Function.update_of_ne notTarget]

/-- A node after an unbinding is the directory or an old one. -/
theorem unbind_nodes_cases (wf : ns.WF)
    (isDir : ns.nodes dir = some (.directory bindings)) (member : entry ∈ bindings)
    {id : Nat} {held : Node}
    (live : (ns.unbind dir bindings entry).nodes id = some held) :
    (id = dir ∧ held = .directory (bindings.erase entry)) ∨
      (id ≠ dir ∧ ns.nodes id = some held) := by
  by_cases atDir : id = dir
  · rw [atDir, unbind_nodes_dir] at live
    cases live
    exact Or.inl ⟨atDir, rfl⟩
  · by_cases gone : id = inumOf entry.inum
    · rw [gone, unbind_nodes_target wf isDir member] at live
      cases live
    · rw [unbind_nodes_of_ne atDir gone] at live
      exact Or.inr ⟨atDir, live⟩

theorem unbind_live (wf : ns.WF) (isDir : ns.nodes dir = some (.directory bindings))
    (member : entry ∈ bindings) {id : Nat} :
    (ns.unbind dir bindings entry).nodes id ≠ none ↔
      ns.nodes id ≠ none ∧ id ≠ inumOf entry.inum := by
  by_cases atDir : id = dir
  · subst atDir
    simp only [unbind_nodes_dir, isDir, ne_eq, reduceCtorEq, not_false_eq_true,
      (wf.target_ne isDir member).symm, and_self]
  · by_cases gone : id = inumOf entry.inum
    · subst gone
      simp only [unbind_nodes_target wf isDir member, ne_eq, not_true, and_false]
    · simp only [unbind_nodes_of_ne atDir gone, ne_eq, gone, not_false_eq_true, and_true]

/-- The entry goes, and the entries of its node. -/
theorem points_unbind (wf : ns.WF) (isDir : ns.nodes dir = some (.directory bindings))
    (member : entry ∈ bindings) {other : Nat} {held : Dirent} :
    (ns.unbind dir bindings entry).Points other held ↔
      ns.Points other held ∧ other ≠ inumOf entry.inum ∧ held ≠ entry := by
  by_cases atDir : other = dir
  · subst atDir
    simp only [Points, unbind_nodes_dir, isDir, Option.some.injEq, Node.directory.injEq,
      exists_eq_left', (wf.nodup _ _ isDir).mem_erase_iff, ne_eq,
      (wf.target_ne isDir member).symm, not_false_eq_true, true_and]
    exact and_comm
  · by_cases gone : other = inumOf entry.inum
    · subst gone
      simp only [Points, unbind_nodes_target wf isDir member, reduceCtorEq, false_and,
        exists_false, ne_eq, not_true, and_false]
    · simp only [Points, unbind_nodes_of_ne atDir gone, ne_eq, gone, not_false_eq_true,
        true_and]
      refine ⟨fun points => ⟨points, ?_⟩, And.left⟩
      rintro rfl
      exact atDir (wf.single other dir held held points ⟨bindings, isDir, member⟩ rfl).1

theorem WF.unbind (wf : ns.WF) (isDir : ns.nodes dir = some (.directory bindings))
    (member : entry ∈ bindings) : (ns.unbind dir bindings entry).WF := by
  have points : ∀ other held, (ns.unbind dir bindings entry).Points other held →
      ns.Points other held ∧ other ≠ inumOf entry.inum ∧ held ≠ entry :=
    fun _ _ => (points_unbind wf isDir member).mp
  have target : ns.Points dir entry := ⟨bindings, isDir, member⟩
  refine
    { created_lt := wf.created_lt
      live_le := ?live
      root := ?root
      named := ?named
      child := ?child
      single := ?single
      nodup := ?nodup
      fits := ?fits }
  case live =>
    intro id node live
    have isLive := (unbind_live wf isDir member).mp
      (Option.ne_none_iff_exists'.mpr ⟨node, live⟩)
    obtain ⟨old, isOld⟩ := Option.ne_none_iff_exists'.mp isLive.1
    exact wf.live_le id old isOld
  case root =>
    obtain ⟨held, isRoot⟩ := wf.root
    by_cases atDir : 1 = dir
    · subst atDir
      exact ⟨_, unbind_nodes_dir⟩
    · refine ⟨held, (unbind_nodes_of_ne atDir ?_).trans isRoot⟩
      have above := (wf.child dir entry target).1
      have dirGe := (wf.live_le _ _ isDir).1
      rw [wf.inumOf_entry target]
      omega
  case named =>
    exact fun other held isHeld => wf.named other held (points other held isHeld).1
  case child =>
    intro other held isHeld
    obtain ⟨old, -, different⟩ := points other held isHeld
    obtain ⟨less, live⟩ := wf.child other held old
    refine ⟨less, (unbind_live wf isDir member).mpr ⟨live, fun same => different ?_⟩⟩
    rw [wf.inumOf_entry target] at same
    exact (wf.single other dir held entry old target (BitVec.eq_of_toNat_eq same)).2
  case single =>
    intro one other first second heldFirst heldSecond same
    exact wf.single one other first second (points _ _ heldFirst).1
      (points _ _ heldSecond).1 same
  case nodup =>
    intro other held isHeld
    rcases unbind_nodes_cases wf isDir member isHeld with ⟨rfl, atDir⟩ | ⟨-, old⟩
    · cases atDir
      exact (wf.nodup _ _ isDir).erase entry
    · exact wf.nodup other held old
  case fits =>
    intro id data isFile
    rcases unbind_nodes_cases wf isDir member isFile with ⟨-, atDir⟩ | ⟨-, old⟩
    · cases atDir
    · exact wf.fits id data old

end Unbind

section Rewrite

variable {id : Nat} {old data : List Byte}

theorem rewrite_nodes_of_ne {other : Nat} (different : other ≠ id) :
    (ns.rewrite id data).nodes other = ns.nodes other :=
  Function.update_of_ne different _ _

theorem rewrite_self (isFile : ns.nodes id = some (.file data)) :
    ns.rewrite id data = ns := by
  rw [rewrite, ← isFile, Function.update_eq_self]

theorem rewrite_live (isFile : ns.nodes id = some (.file old)) {other : Nat} :
    (ns.rewrite id data).nodes other ≠ none ↔ ns.nodes other ≠ none := by
  by_cases same : other = id
  · subst same
    simp only [rewrite, Function.update_self, isFile, ne_eq, reduceCtorEq]
  · rw [rewrite_nodes_of_ne same]

/-- The directories stay as they are. -/
theorem rewrite_directory (isFile : ns.nodes id = some (.file old)) {dir : Nat}
    {bindings : List Dirent} :
    (ns.rewrite id data).nodes dir = some (.directory bindings) ↔
      ns.nodes dir = some (.directory bindings) := by
  by_cases same : dir = id
  · subst same
    simp only [rewrite, Function.update_self, isFile, Option.some.injEq, reduceCtorEq]
  · rw [rewrite_nodes_of_ne same]

theorem points_rewrite (isFile : ns.nodes id = some (.file old)) {dir : Nat}
    {entry : Dirent} :
    (ns.rewrite id data).Points dir entry ↔ ns.Points dir entry := by
  simp only [Points, rewrite_directory isFile]

theorem WF.rewrite (wf : ns.WF) (isFile : ns.nodes id = some (.file old))
    (fits : data.length ≤ maxFile * blockSize) : (ns.rewrite id data).WF := by
  have points : ∀ dir entry, (ns.rewrite id data).Points dir entry →
      ns.Points dir entry := fun _ _ => (points_rewrite isFile).mp
  refine
    { created_lt := wf.created_lt
      live_le := ?live
      root := ?root
      named := ?named
      child := ?child
      single := ?single
      nodup := ?nodup
      fits := ?fits }
  case live =>
    intro other node live
    have isLive := (rewrite_live isFile).mp (Option.ne_none_iff_exists'.mpr ⟨node, live⟩)
    obtain ⟨before, isBefore⟩ := Option.ne_none_iff_exists'.mp isLive
    exact wf.live_le other before isBefore
  case root =>
    obtain ⟨held, isRoot⟩ := wf.root
    exact ⟨held, (rewrite_directory isFile).mpr isRoot⟩
  case named =>
    exact fun dir entry held => wf.named dir entry (points _ _ held)
  case child =>
    intro dir entry held
    obtain ⟨less, live⟩ := wf.child dir entry (points _ _ held)
    exact ⟨less, (rewrite_live isFile).mpr live⟩
  case single =>
    intro one other first second heldFirst heldSecond same
    exact wf.single one other first second (points _ _ heldFirst)
      (points _ _ heldSecond) same
  case nodup =>
    exact fun dir held isHeld => wf.nodup dir held ((rewrite_directory isFile).mp isHeld)
  case fits =>
    intro other content isContent
    by_cases same : other = id
    · subst same
      simp only [Namespace.rewrite, Function.update_self] at isContent
      cases isContent
      exact fits
    · rw [rewrite_nodes_of_ne same] at isContent
      exact wf.fits other content isContent

end Rewrite

/-- Every step keeps the forest. -/
theorem WF.step (wf : ns.WF) {call : Call} {output : Output} {next : Namespace}
    (returns : ns.step call = .ok (output, next)) : next.WF := by
  cases step_change returns with
  | none => exact wf
  | bind isDir isName bare inside => exact wf.bind isDir isName bare inside
  | unbind isDir member => exact wf.unbind isDir member
  | rewrite isFile fits => exact wf.rewrite isFile fits

end Forest

end Namespace

end Yfs
