import Mathlib.Algebra.BigOperators.Group.Finset.Basic
import Yfs.Layout

/-!
# The extent store as a plain map

What the extent server is for: a map from inode numbers to extents, each a byte
string with a type and three times.  Inode numbers are handed out in order and
never again.  The map knows the blocks only through the limits of the disk: how
many inodes the table has, how large one file may be, and how many blocks there
are.
-/

namespace Yfs

open ClientServer FirstFit

structure Extent where
  type : BitVec 32
  atime : BitVec 32
  mtime : BitVec 32
  ctime : BitVec 32
  data : List Byte
  deriving DecidableEq, Repr

namespace Extent

def attr (extent : Extent) : Attr where
  type := extent.type
  atime := extent.atime
  mtime := extent.mtime
  ctime := extent.ctime
  size := BitVec.ofNat 32 extent.data.length

/-- A new, empty extent. -/
def empty (type : BitVec 32) (now : BitVec 32) : Extent :=
  { type := type, atime := now, mtime := now, ctime := now, data := [] }

def rewritten (extent : Extent) (now : BitVec 32) (data : List Byte) : Extent :=
  { extent with mtime := now, ctime := now, data := data }

def accessed (extent : Extent) (now : BitVec 32) : Extent :=
  { extent with atime := now }

end Extent

structure ExtentMap where
  /-- The number of extents ever created. -/
  created : Nat
  ticks : Nat
  extents : Nat → Option Extent

/-- The blocks of the disk that can hold data. -/
def maxBlocks : Nat := blockNum - firstId

/-- A type that survives the `short` of the inode and is not the mark of a free
one. -/
def FitsShort (type : BitVec 32) : Prop :=
  type.setWidth 16 ≠ 0 ∧ (type.setWidth 16).signExtend 32 = type

instance (type : BitVec 32) : Decidable (FitsShort type) :=
  inferInstanceAs (Decidable (_ ∧ _))

namespace ExtentMap

/-- An empty root directory. -/
def init (clock : Nat → BitVec 32) : ExtentMap where
  created := 1
  ticks := 1
  extents := Function.update (fun _ => none) 1 (some (.empty tDir (clock 0)))

/-- Blocks held by the extent of `id`. -/
def blocksOf (extents : Nat → Option Extent) (id : Nat) : Nat :=
  match extents id with
  | some extent => blocksFor extent.data.length
  | none => 0

/-- Blocks held by all extents together. -/
def blocksInUse (map : ExtentMap) : Nat :=
  ∑ id ∈ Finset.range (map.created + 1), blocksOf map.extents id

def create (clock : Nat → BitVec 32) (map : ExtentMap) (type : BitVec 32) :
    Except Fault ((Status × ExtentId) × ExtentMap) :=
  let id := map.created + 1
  if id < inodeNum ∧ FitsShort type then
    .ok ((.OK, BitVec.ofNat 64 id),
      { created := id
        ticks := map.ticks + 1
        extents := Function.update map.extents id
          (some (.empty type (clock map.ticks))) })
  else .error .beyondLimits

def put (clock : Nat → BitVec 32) (map : ExtentMap) (id : ExtentId)
    (buf : List Byte) : Except Fault (Status × ExtentMap) :=
  match map.extents (inumOf id) with
  | none => .error .nullInode
  | some extent =>
      let after : ExtentMap :=
        { map with
          ticks := map.ticks + 1
          extents := Function.update map.extents (inumOf id)
            (some (extent.rewritten (clock map.ticks) buf)) }
      if buf.length ≤ maxFile * blockSize ∧ after.blocksInUse ≤ maxBlocks then
        .ok (.OK, after)
      else .error .beyondLimits

def get (clock : Nat → BitVec 32) (map : ExtentMap) (id : ExtentId) :
    Except Fault ((Status × List Byte) × ExtentMap) :=
  match map.extents (inumOf id) with
  | none => .error .nullInode
  | some extent => .ok ((.OK, extent.data),
      { map with
        ticks := map.ticks + 1
        extents := Function.update map.extents (inumOf id)
          (some (extent.accessed (clock map.ticks))) })

def getattr (map : ExtentMap) (id : ExtentId) :
    Except Fault ((Status × Attr) × ExtentMap) :=
  .ok ((.OK, ((map.extents (inumOf id)).map Extent.attr).getD Attr.zero), map)

def remove (map : ExtentMap) (id : ExtentId) :
    Except Fault (Status × ExtentMap) :=
  match map.extents (inumOf id) with
  | none => .error .nullInode
  | some _ => .ok (.OK,
      { map with extents := Function.update map.extents (inumOf id) none })

def serve (clock : Nat → BitVec 32) :
    Server ExtentRequest ExtentReply Fault ExtentMap
  | .create type, map => map.create clock type
  | .put id buf, map => map.put clock id buf
  | .get id, map => map.get clock id
  | .getattr id, map => map.getattr id
  | .remove id, map => map.remove id

end ExtentMap

namespace ExtentMap

variable {map after : ExtentMap} {clock : Nat → BitVec 32}

/-- Replacing one extent exchanges its blocks. -/
theorem blocksInUse_update {id : Nat} (inside : id ≤ map.created) (new : Extent)
    (ticks : Nat) :
    blocksInUse ⟨map.created, ticks, Function.update map.extents id (some new)⟩ +
        blocksOf map.extents id =
      map.blocksInUse + blocksFor new.data.length := by
  have inRange : id ∈ Finset.range (map.created + 1) :=
    Finset.mem_range.mpr (Nat.lt_succ_of_le inside)
  have before := Finset.add_sum_erase _ (blocksOf map.extents) inRange
  have changed := Finset.add_sum_erase _
    (blocksOf (Function.update map.extents id (some new))) inRange
  have others : ∑ other ∈ (Finset.range (map.created + 1)).erase id,
      blocksOf (Function.update map.extents id (some new)) other =
        ∑ other ∈ (Finset.range (map.created + 1)).erase id,
          blocksOf map.extents other := by
    refine Finset.sum_congr rfl fun other member => ?_
    rw [blocksOf, blocksOf, Function.update_of_ne (Finset.ne_of_mem_erase member)]
  have newBlocks : blocksOf (Function.update map.extents id (some new)) id =
      blocksFor new.data.length := by
    rw [blocksOf, Function.update_self]
  simp only [blocksInUse]
  omega

/-- A new extent holds no block. -/
theorem blocksInUse_create (type now : BitVec 32) (ticks : Nat) :
    blocksInUse ⟨map.created + 1, ticks,
      Function.update map.extents (map.created + 1) (some (.empty type now))⟩ =
        map.blocksInUse := by
  have fresh : blocksOf (Function.update map.extents (map.created + 1)
      (some (.empty type now))) (map.created + 1) = 0 := by
    rw [blocksOf, Function.update_self]
    exact (by decide : blocksFor 0 = 0)
  simp only [blocksInUse]
  rw [Finset.sum_range_succ, fresh, Nat.add_zero]
  apply Finset.sum_congr rfl
  intro other member
  have different : other ≠ map.created + 1 := by
    have := Finset.mem_range.mp member
    omega
  rw [blocksOf, blocksOf, Function.update_of_ne different]

theorem create_ok {type : BitVec 32} {reply : Status × ExtentId}
    (served : map.create clock type = .ok (reply, after)) :
    (map.created + 1 < inodeNum ∧ FitsShort type) ∧
      reply = (.OK, BitVec.ofNat 64 (map.created + 1)) ∧
      after = ⟨map.created + 1, map.ticks + 1,
        Function.update map.extents (map.created + 1)
          (some (.empty type (clock map.ticks)))⟩ := by
  simp only [create] at served
  split at served
  · rename_i allowed
    cases served
    exact ⟨allowed, rfl, rfl⟩
  · cases served

theorem create_error {type : BitVec 32} {error : Fault}
    (stops : map.create clock type = .error error) : error = .beyondLimits := by
  simp only [create] at stops
  split at stops
  · cases stops
  · cases stops
    rfl

theorem put_ok {id : ExtentId} {buf : List Byte} {reply : Status}
    (served : map.put clock id buf = .ok (reply, after)) :
    ∃ extent, map.extents (inumOf id) = some extent ∧
      buf.length ≤ maxFile * blockSize ∧ after.blocksInUse ≤ maxBlocks ∧
      reply = .OK ∧
      after = ⟨map.created, map.ticks + 1,
        Function.update map.extents (inumOf id)
          (some (extent.rewritten (clock map.ticks) buf))⟩ := by
  simp only [put] at served
  split at served
  · cases served
  · rename_i extent live
    split at served
    · rename_i allowed
      cases served
      exact ⟨extent, live, allowed.1, allowed.2, rfl, rfl⟩
    · cases served

theorem put_error {id : ExtentId} {buf : List Byte} {error : Fault}
    (stops : map.put clock id buf = .error error) :
    (map.extents (inumOf id) = none ∧ error = .nullInode) ∨
      error = .beyondLimits := by
  simp only [put] at stops
  split at stops
  · rename_i dead
    cases stops
    exact Or.inl ⟨dead, rfl⟩
  · split at stops
    · cases stops
    · cases stops
      exact Or.inr rfl

theorem get_ok {id : ExtentId} {reply : Status × List Byte}
    (served : map.get clock id = .ok (reply, after)) :
    ∃ extent, map.extents (inumOf id) = some extent ∧
      reply = (.OK, extent.data) ∧
      after = ⟨map.created, map.ticks + 1,
        Function.update map.extents (inumOf id)
          (some (extent.accessed (clock map.ticks)))⟩ := by
  simp only [get] at served
  split at served
  · cases served
  · rename_i extent live
    cases served
    exact ⟨extent, live, rfl, rfl⟩

theorem get_error {id : ExtentId} {error : Fault}
    (stops : map.get clock id = .error error) :
    map.extents (inumOf id) = none ∧ error = .nullInode := by
  simp only [get] at stops
  split at stops
  · rename_i dead
    cases stops
    exact ⟨dead, rfl⟩
  · cases stops

theorem getattr_ok {id : ExtentId} {reply : Status × Attr}
    (served : map.getattr id = .ok (reply, after)) :
    reply = (.OK, ((map.extents (inumOf id)).map Extent.attr).getD Attr.zero) ∧
      after = map := by
  cases served
  exact ⟨rfl, rfl⟩

theorem remove_ok {id : ExtentId} {reply : Status}
    (served : map.remove id = .ok (reply, after)) :
    ∃ extent, map.extents (inumOf id) = some extent ∧ reply = .OK ∧
      after = ⟨map.created, map.ticks,
        Function.update map.extents (inumOf id) none⟩ := by
  simp only [remove] at served
  split at served
  · cases served
  · rename_i extent live
    cases served
    exact ⟨extent, live, rfl, rfl⟩

theorem remove_error {id : ExtentId} {error : Fault}
    (stops : map.remove id = .error error) :
    map.extents (inumOf id) = none ∧ error = .nullInode := by
  simp only [remove] at stops
  split at stops
  · rename_i dead
    cases stops
    exact ⟨dead, rfl⟩
  · cases stops

/-- What every reachable map satisfies. -/
structure WF (map : ExtentMap) : Prop where
  created_lt : map.created < inodeNum
  live_le : ∀ id extent, map.extents id = some extent →
    1 ≤ id ∧ id ≤ map.created
  fits : ∀ id extent, map.extents id = some extent →
    extent.data.length ≤ maxFile * blockSize
  type_fits : ∀ id extent, map.extents id = some extent → FitsShort extent.type

theorem WF.update (wf : map.WF) {id : Nat} {new : Option Extent}
    (extents : after.extents = Function.update map.extents id new)
    (createdLe : map.created ≤ after.created) (createdLt : after.created < inodeNum)
    (bounds : ∀ extent, new = some extent → 1 ≤ id ∧ id ≤ after.created)
    (fits : ∀ extent, new = some extent →
      extent.data.length ≤ maxFile * blockSize ∧ FitsShort extent.type) :
    after.WF := by
  have cases : ∀ other extent, after.extents other = some extent →
      (other = id ∧ new = some extent) ∨ map.extents other = some extent := by
    intro other extent live
    rw [extents] at live
    by_cases same : other = id
    · subst same
      rw [Function.update_self] at live
      exact Or.inl ⟨rfl, live⟩
    · rw [Function.update_of_ne same] at live
      exact Or.inr live
  refine ⟨createdLt, ?_, ?_, ?_⟩
  · intro other extent live
    rcases cases other extent live with ⟨rfl, isNew⟩ | old
    · exact bounds extent isNew
    · have := wf.live_le other extent old
      omega
  · intro other extent live
    rcases cases other extent live with ⟨-, isNew⟩ | old
    · exact (fits extent isNew).1
    · exact wf.fits other extent old
  · intro other extent live
    rcases cases other extent live with ⟨-, isNew⟩ | old
    · exact (fits extent isNew).2
    · exact wf.type_fits other extent old

theorem init_of_ne (clock : Nat → BitVec 32) {id : Nat} (notRoot : id ≠ 1) :
    (init clock).extents id = none := by
  simp only [init]
  exact Function.update_of_ne notRoot _ _

theorem blocksInUse_init (clock : Nat → BitVec 32) : (init clock).blocksInUse = 0 := by
  apply Finset.sum_eq_zero
  intro id _
  by_cases isRoot : id = 1
  · subst isRoot
    exact (by decide : blocksFor 0 = 0)
  · rw [blocksOf, init_of_ne clock isRoot]

theorem wf_init (clock : Nat → BitVec 32) : (init clock).WF := by
  have onlyRoot : ∀ id extent, (init clock).extents id = some extent →
      id = 1 ∧ extent = .empty tDir (clock 0) := by
    intro id extent live
    by_cases same : id = 1
    · subst same
      cases live
      exact ⟨rfl, rfl⟩
    · cases (init_of_ne clock same).symm.trans live
  refine ⟨(by decide : 1 < inodeNum), ?_, ?_, ?_⟩
  · intro id extent live
    obtain ⟨rfl, -⟩ := onlyRoot id extent live
    exact ⟨le_refl _, le_refl _⟩
  · intro id extent live
    obtain ⟨-, rfl⟩ := onlyRoot id extent live
    exact Nat.zero_le _
  · intro id extent live
    obtain ⟨-, rfl⟩ := onlyRoot id extent live
    change FitsShort tDir
    decide

/-- Every answered request preserves the invariant of the map. -/
theorem WF.serve (clock : Nat → BitVec 32) (request : ExtentRequest)
    {reply : ExtentReply request} (wf : map.WF)
    (served : serve clock request map = .ok (reply, after)) : after.WF := by
  cases request with
  | create type =>
      obtain ⟨⟨inside, fitsShort⟩, -, rfl⟩ := create_ok served
      apply wf.update rfl (Nat.le_succ _) inside
      · intro _ _
        exact ⟨Nat.succ_pos _, le_refl _⟩
      · rintro _ ⟨⟩
        exact ⟨Nat.zero_le _, fitsShort⟩
  | put id buf =>
      obtain ⟨extent, live, fits, -, -, rfl⟩ := put_ok served
      refine wf.update rfl (le_refl _) wf.created_lt ?_ ?_
      · intro _ _
        exact wf.live_le _ extent live
      · rintro _ ⟨⟩
        exact ⟨fits, wf.type_fits _ extent live⟩
  | get id =>
      obtain ⟨extent, live, -, rfl⟩ := get_ok served
      refine wf.update rfl (le_refl _) wf.created_lt ?_ ?_
      · intro _ _
        exact wf.live_le _ extent live
      · rintro _ ⟨⟩
        exact ⟨wf.fits _ extent live, wf.type_fits _ extent live⟩
  | getattr id =>
      obtain ⟨-, rfl⟩ := getattr_ok served
      exact wf
  | remove id =>
      obtain ⟨extent, live, -, rfl⟩ := remove_ok served
      refine wf.update rfl (le_refl _) wf.created_lt ?_ ?_
      · intro _ isNone
        cases isNone
      · intro _ isNone
        cases isNone

theorem WF.dead_next (wf : map.WF) : map.extents (map.created + 1) = none := by
  cases live : map.extents (map.created + 1) with
  | none => rfl
  | some extent =>
      have := wf.live_le _ extent live
      omega

/-- Inode numbers are never handed out again. -/
theorem dead_serve (clock : Nat → BitVec 32) (request : ExtentRequest)
    {reply : ExtentReply request} {id : Nat} (idLe : id ≤ map.created)
    (dead : map.extents id = none)
    (served : serve clock request map = .ok (reply, after)) :
    id ≤ after.created ∧ after.extents id = none := by
  have live_ne : ∀ other extent, map.extents other = some extent → id ≠ other := by
    rintro other extent live rfl
    rw [dead] at live
    cases live
  cases request with
  | create type =>
      obtain ⟨-, -, rfl⟩ := create_ok served
      refine ⟨Nat.le_succ_of_le idLe, ?_⟩
      have different : id ≠ map.created + 1 := by omega
      exact (Function.update_of_ne different _ _).trans dead
  | put target buf =>
      obtain ⟨extent, live, -, -, -, rfl⟩ := put_ok served
      exact ⟨idLe, (Function.update_of_ne (live_ne _ extent live) _ _).trans dead⟩
  | get target =>
      obtain ⟨extent, live, -, rfl⟩ := get_ok served
      exact ⟨idLe, (Function.update_of_ne (live_ne _ extent live) _ _).trans dead⟩
  | getattr target =>
      obtain ⟨-, rfl⟩ := getattr_ok served
      exact ⟨idLe, dead⟩
  | remove target =>
      obtain ⟨extent, live, -, rfl⟩ := remove_ok served
      exact ⟨idLe, (Function.update_of_ne (live_ne _ extent live) _ _).trans dead⟩

end ExtentMap

end Yfs
