import Yfs.Attributes

/-!
# Attributes over runs

Which call made an inode is known from the outputs of a run, and the type that the
inode holds agrees with it for as long as the inode lives.  So `getattr` of the
FUSE server tells the truth about every live inode.  It also reports success for
every other number, as a symbolic link of size 0.
-/

namespace Yfs

open ClientServer

/-- The calls that make inodes. -/
inductive Kind
  | file
  | dir
  | symlink
  deriving DecidableEq, Repr

namespace Kind

/-- The type of the inode. -/
def type (host : Host) : Kind → BitVec 32
  | .file => tFile
  | .dir => tDir
  | .symlink => host.code

/-- The `st_mode` of the inode. -/
def mode : Kind → BitVec 32
  | .file => modeFile
  | .dir => modeDir
  | .symlink => modeSymlink

end Kind

/-- What a call makes. -/
def Operation.makes : Operation → Option Kind
  | .create _ _ => some .file
  | .mkdir _ _ => some .dir
  | .symlink _ _ _ => some .symlink
  | _ => none

/-- The kind of each inode that was ever made. -/
abbrev Kinds := Nat → Option Kind

namespace Kinds

/-- The root directory. -/
def root : Kinds := Function.update (fun _ => none) 1 (some .dir)

def record (kinds : Kinds) : Call × Output → Kinds
  | (call, .entry .OK ino) =>
      match call.1.makes with
      | some kind => Function.update kinds (inumOf ino) (some kind)
      | none => kinds
  | _ => kinds

/-- The kinds after a history of calls. -/
def of (history : List (Call × Output)) : Kinds :=
  history.foldl record root

end Kinds

namespace Contents

/-- The types of the live inodes. -/
def types (contents : Contents) : Nat → Option (BitVec 32) :=
  Option.map Prod.fst ∘ contents.ledger

variable {contents after : Contents} {id ino : ExtentId}

theorem types_update (created : Nat) (ledger : Ledger) (id : Nat)
    (entry : Option (BitVec 32 × List Byte)) :
    types ⟨created, Function.update ledger id entry⟩ =
      Function.update (Option.map Prod.fst ∘ ledger) id (entry.map Prod.fst) :=
  Function.comp_update _ _ _ _

theorem types_put {data : List Byte} (put : contents.put id data = .ok after) :
    after.types = contents.types := by
  unfold Contents.put at put
  split at put
  · rename_i type old entry
    cases put
    rw [types_update]
    exact Function.update_eq_self_iff.mpr (congrArg (Option.map Prod.fst) entry).symm
  · cases put

theorem types_append {parent : ExtentId} {name : CString}
    (append : contents.append parent name ino = .ok after) :
    after.types = contents.types := by
  obtain ⟨text, -, put⟩ := bind_ok append
  exact types_put put

theorem types_create {type : BitVec 32} (create : contents.create type = .ok (ino, after)) :
    after.types = Function.update contents.types (inumOf ino) (some type) := by
  unfold Contents.create at create
  dsimp only at create
  split at create
  · rename_i inside
    cases create
    rw [types_update, inumOf_ofNat inside]
    rfl
  · cases create

theorem types_remove (remove : contents.remove id = .ok after) :
    after.types = Function.update contents.types (inumOf id) none := by
  unfold Contents.remove at remove
  split at remove
  · cases remove
    exact types_update _ _ _ _
  · cases remove

theorem types_createEntry {type : BitVec 32} {parent : ExtentId} {name : CString}
    {garbage : Garbage} {output : Output}
    (steps : contents.createEntry type parent name garbage = .ok (output, after)) :
    (∃ ino, output = .entry .EXIST ino ∧ after.types = contents.types) ∨
      ∃ ino, output = .entry .OK ino ∧
        after.types = Function.update contents.types (inumOf ino) (some type) := by
  unfold createEntry at steps
  dsimp only at steps
  split at steps
  · cases steps
    exact Or.inl ⟨_, rfl, rfl⟩
  · obtain ⟨⟨ino, made⟩, create, steps⟩ := bind_ok steps
    obtain ⟨last, append, steps⟩ := bind_ok steps
    cases steps
    exact Or.inr ⟨ino, rfl, (types_append append).trans (types_create create)⟩

theorem types_symlink {type : BitVec 32} {parent : ExtentId} {link name : CString}
    {output : Output} (steps : contents.symlink type parent link name = .ok (output, after)) :
    ∃ ino, output = .entry .OK ino ∧
      after.types = Function.update contents.types (inumOf ino) (some type) := by
  obtain ⟨⟨ino, made⟩, create, steps⟩ := bind_ok steps
  obtain ⟨written, put, steps⟩ := bind_ok steps
  obtain ⟨last, append, steps⟩ := bind_ok steps
  cases steps
  refine ⟨ino, rfl, ?_⟩
  rw [types_append append, types_put put, types_create create]

end Contents

/-- The types of the live inodes are those of their kinds. -/
def Typed (host : Host) (contents : Contents) (kinds : Kinds) : Prop :=
  ∀ id type, contents.types id = some type → (kinds id).map (Kind.type host) = some type

namespace Typed

variable {host : Host} {contents after : Contents} {kinds : Kinds}

theorem made (typed : Typed host contents kinds) {id : Nat} (kind : Kind)
    (types : after.types = Function.update contents.types id (some (kind.type host))) :
    Typed host after (Function.update kinds id (some kind)) := by
  intro other type live
  rw [types] at live
  by_cases same : other = id
  · subst same
    rw [Function.update_self] at live ⊢
    exact live
  · rw [Function.update_of_ne same] at live ⊢
    exact typed other type live

theorem same (typed : Typed host contents kinds) (types : after.types = contents.types) :
    Typed host after kinds := by
  intro other type live
  exact typed other type (types ▸ live)

theorem removed (typed : Typed host contents kinds) {id : Nat}
    (types : after.types = Function.update contents.types id none) :
    Typed host after kinds := by
  intro other type live
  rw [types] at live
  by_cases same : other = id
  · subst same
    rw [Function.update_self] at live
    cases live
  · rw [Function.update_of_ne same] at live
    exact typed other type live

theorem root (host : Host) : Typed host Contents.init Kinds.root := by
  have empty : Typed host ⟨1, fun _ => none⟩ fun _ => none := by
    intro id type live
    cases live
  exact empty.made .dir (Contents.types_update _ _ _ _)

/-- One call keeps the types those of the kinds. -/
theorem step (typed : Typed host contents kinds) {call : Call} {output : Output}
    (steps : contents.step host call = .ok (output, after)) :
    Typed host after (kinds.record (call, output)) := by
  rcases call with ⟨operation, garbage⟩
  cases operation with
  | create parent name =>
      rcases Contents.types_createEntry steps with ⟨ino, rfl, types⟩ | ⟨ino, rfl, types⟩
      · exact typed.same types
      · exact typed.made .file types
  | mkdir parent name =>
      rcases Contents.types_createEntry steps with ⟨ino, rfl, types⟩ | ⟨ino, rfl, types⟩
      · exact typed.same types
      · exact typed.made .dir types
  | symlink parent link name =>
      obtain ⟨ino, rfl, types⟩ := Contents.types_symlink steps
      exact typed.made .symlink types
  | unlink parent name =>
      simp only [Contents.step, Contents.unlink] at steps
      split at steps
      · obtain ⟨middle, remove, steps⟩ := bind_ok steps
        obtain ⟨last, put, steps⟩ := bind_ok steps
        cases steps
        exact (typed.removed (Contents.types_remove remove)).same (Contents.types_put put)
      · cases steps
        exact typed
  | lookup parent name =>
      cases steps
      exact typed
  | readdir dir =>
      cases steps
      exact typed
  | read ino size off =>
      simp only [Contents.step] at steps
      split at steps
      · obtain ⟨buf, -, steps⟩ := bind_ok steps
        obtain ⟨data, -, steps⟩ := bind_ok steps
        cases steps
        exact typed
      · cases steps
        exact typed
  | write ino off data =>
      obtain ⟨old, -, steps⟩ := bind_ok steps
      obtain ⟨⟨buf, count⟩, -, steps⟩ := bind_ok steps
      obtain ⟨written, put, steps⟩ := bind_ok steps
      cases steps
      exact typed.same (Contents.types_put put)
  | setattr ino size =>
      simp only [Contents.step, Contents.setattr] at steps
      split at steps
      · cases steps
        exact typed
      · obtain ⟨old, -, steps⟩ := bind_ok steps
        obtain ⟨buf, -, steps⟩ := bind_ok steps
        obtain ⟨written, put, steps⟩ := bind_ok steps
        cases steps
        exact typed.same (Contents.types_put put)
  | readlink sym =>
      simp only [Contents.step] at steps
      split at steps
      · obtain ⟨data, -, steps⟩ := bind_ok steps
        cases steps
        exact typed
      · cases steps
        exact typed
  | getfile inum =>
      cases steps
      exact typed
  | getdir inum =>
      cases steps
      exact typed

/-- A run keeps the types those of the kinds. -/
theorem run (typed : Typed host contents kinds) {calls : List Call}
    {outputs : List Output}
    (returns : Machine.run (Contents.step host) contents calls = .ok (outputs, after)) :
    Typed host after ((calls.zip outputs).foldl Kinds.record kinds) := by
  induction calls generalizing contents kinds outputs with
  | nil =>
      cases returns
      exact typed
  | cons call rest ih =>
      obtain ⟨output, next, later, steps, remaining, rfl⟩ := Machine.run_cons_ok returns
      exact ih (typed.step steps) remaining

end Typed

theorem Kinds.record_timeless (kinds : Kinds) (call : Call) (output : Output) :
    kinds.record (call, output.timeless) = kinds.record (call, output) := by
  cases output <;> rfl

/-- The times in the outputs do not matter for the kinds. -/
theorem Kinds.foldl_timeless (calls : List Call) (seen : List Output) (kinds : Kinds) :
    (calls.zip (seen.map Output.timeless)).foldl record kinds =
      (calls.zip seen).foldl record kinds := by
  induction calls generalizing seen kinds with
  | nil => rfl
  | cons call rest ih =>
      cases seen with
      | nil => rfl
      | cons output later =>
          simp only [List.map_cons, List.zip_cons_cons, List.foldl_cons, record_timeless]
          exact ih later _

/-- What `getattr` of the FUSE server should do. -/
structure TellsTruth (env : Env) (im : InodeManager) (kinds : Kinds) (inum : ExtentId) :
    Prop where
  live : im.IsLive inum.toNat →
    ∃ kind st after, kinds inum.toNat = some kind ∧
      (Fuse.getattr inum).run (ExtentServer.serve env) im = .ok ((.OK, st), after) ∧
      st.stMode = kind.mode ∧
      (kind ≠ .dir → ∃ data last, ExtentServer.get env im inum = .ok ((.OK, data), last) ∧
        st.stSize.toNat = data.length)
  dead : ¬im.IsLive inum.toNat →
    ∃ ret st after, (Fuse.getattr inum).run (ExtentServer.serve env) im =
        .ok ((ret, st), after) ∧ ret ≠ .OK ∧
      (Fuse.fuseserverGetattr inum).run (ExtentServer.serve env) im =
        .ok (.err .ENOENT, after)

/-- The kind of an inode is read from its type. -/
theorem Kind.mode_stat {host : Host} {kind : Kind} {a : Attr}
    (isType : a.type = kind.type host) (inum : ExtentId) :
    (a.stat inum).stMode = kind.mode ∧
      (kind ≠ .dir → (a.stat inum).stSize = a.size.setWidth 64) := by
  unfold Attr.stat
  rw [isType]
  cases kind with
  | file => exact ⟨rfl, fun _ => rfl⟩
  | dir => exact ⟨rfl, fun notDir => absurd rfl notDir⟩
  | symlink =>
      rw [Kind.type, if_neg host.ne_file, if_neg host.ne_dir]
      exact ⟨rfl, fun _ => rfl⟩

namespace InodeManager.Shows

variable {im : InodeManager} {contents : Contents}

theorem tellsTruth_iff (env : Env) (host : Host) (shows : im.Shows contents)
    {kinds : Kinds} (typed : Typed host contents kinds) {inum : ExtentId}
    (small : inum.toNat < 2 ^ 31) : TellsTruth env im kinds inum ↔ im.IsLive inum.toNat := by
  have here := inumOf_of_lt small
  obtain ⟨a, served, isType, isSize⟩ := shows.getattr inum
  have answers : (Fuse.getattr inum).run (ExtentServer.serve env) im =
      .ok ((.OK, a.stat inum), im) := Fuse.getattr_run served
  constructor
  · intro truth
    by_contra isDead
    obtain ⟨ret, st, after, returned, failed, -⟩ := truth.dead isDead
    rw [answers] at returned
    cases returned
    exact failed rfl
  · intro isLive
    refine ⟨fun _ => ?_, fun isDead => absurd isLive isDead⟩
    rw [← here] at isLive ⊢
    obtain ⟨type, data, entry⟩ := shows.entry isLive
    have known := typed (inumOf inum) type (congrArg (Option.map Prod.fst) entry)
    obtain ⟨kind, recorded, isKind⟩ := Option.map_eq_some_iff.mp known
    have typeOf : a.type = kind.type host := by
      rw [isType, Contents.typeOf, entry, isKind]
      rfl
    obtain ⟨mode, size⟩ := Kind.mode_stat typeOf inum
    refine ⟨kind, a.stat inum, im, recorded, answers, mode, fun notDir => ?_⟩
    obtain ⟨last, got, -⟩ := shows.get env entry
    refine ⟨data, last, got, ?_⟩
    have fits := shows.fits entry
    simp only [maxFile, nDirect, nIndirect, blockSize] at fits
    rw [size notDir, isSize, sizeOf_eq entry, BitVec.toNat_ofNat,
      Nat.mod_eq_of_lt (by omega)]

end InodeManager.Shows

/-- In every state that a run within the limits reaches, and for every inode number of
at most 31 bits, `getattr` of the FUSE server tells the truth exactly if the number
names a live inode. -/
theorem getattr_truth_iff (env : Env) (host : Host) (calls : List Call)
    (seen : List Output) (im : InodeManager)
    (within : WithinLimits env.clock host calls)
    (returns : yfsRun env host calls = .ok (seen, im)) (inum : ExtentId)
    (small : inum.toNat < 2 ^ 31) :
    TellsTruth env im (Kinds.of (calls.zip seen)) inum ↔ im.IsLive inum.toNat := by
  obtain ⟨contents, said, shows⟩ := yfsRun_returns within returns
  have typed := (Typed.root host).run said
  rw [Kinds.foldl_timeless] at typed
  exact shows.tellsTruth_iff env host typed small

/-- The file of one byte. -/
theorem getattr_truth_iff_file :
    ∃ seen im, yfsRun Env.zero .three oneByte = .ok (seen, im) ∧
      (TellsTruth Env.zero im (Kinds.of (oneByte.zip seen)) 2 ↔ im.IsLive 2) := by
  rcases oneByte_run with ⟨seen, im, contents, returns, -⟩
  exact ⟨seen, im, returns, getattr_truth_iff Env.zero .three oneByte seen im
    (withinLimits_of_ok rfl) returns 2 (by decide)⟩

/-- No inode 2 at the start. -/
theorem getattr_of_missing :
    ∃ im, yfsRun Env.zero .three [] = .ok ([], im) ∧ ¬im.IsLive 2 ∧
      ¬TellsTruth Env.zero im (Kinds.of []) 2 := by
  have within : WithinLimits Env.zero.clock .three [] := withinLimits_of_ok rfl
  obtain ⟨seen, im, returns, same, shows⟩ := yfsRun_ok within rfl
  obtain rfl := List.map_eq_nil_iff.mp same
  have dead : ¬im.IsLive 2 := shows.isLive_iff.not.mpr (not_not.mpr rfl)
  refine ⟨im, returns, dead, ?_⟩
  have typed := Typed.root .three
  rw [Kinds.of, List.foldl_nil]
  rw [shows.tellsTruth_iff Env.zero .three typed (by decide)]
  exact dead

end Yfs
