import Mathlib.Algebra.BigOperators.Group.Finset.Basic
import Mathlib.Algebra.Order.BigOperators.Group.Finset
import Yfs.ExtentMap
import Yfs.LayoutRefinement

/-!
# The extent server refines the plain map

Forgetting which blocks hold a file turns a layout into an `ExtentMap`.  A
request that the map allows fits on the disk, because the blocks in use are
counted exactly by the files of a well-formed layout.  With the refinement of
the layouts by the server, every client of the extent server gets the replies
of the plain map.
-/

namespace Yfs

open ClientServer FirstFit

/-- A file without its blocks. -/
def FileLayout.extent (file : FileLayout) : Extent where
  type := file.type.signExtend 32
  atime := file.atime
  mtime := file.mtime
  ctime := file.ctime
  data := file.data

namespace Layout

/-- The blocks of the file of `id`, if any. -/
def ownedBy (layout : Layout) (id : Nat) : Finset Nat :=
  ((layout.files id).elim [] FileLayout.owned).toFinset

theorem mem_ownedBy {layout : Layout} {id block : Nat} :
    block ∈ layout.ownedBy id ↔
      ∃ file, layout.files id = some file ∧ block ∈ file.owned := by
  rw [ownedBy, List.mem_toFinset]
  cases layout.files id with
  | none => simp
  | some file => simp

variable {layout : Layout}

/-- The blocks in use are those of the inodes created so far. -/
theorem WF.card_used (wf : layout.WF) :
    layout.used.card =
      ∑ id ∈ Finset.range (layout.inum + 1), (layout.ownedBy id).card := by
  have union : layout.used =
      (Finset.range (layout.inum + 1)).biUnion layout.ownedBy := by
    ext block
    rw [wf.mem_used, Finset.mem_biUnion]
    constructor
    · rintro ⟨id, file, live, member⟩
      refine ⟨id, Finset.mem_range.mpr ?_, mem_ownedBy.mpr ⟨file, live, member⟩⟩
      exact Nat.lt_succ_of_le (wf.live_le id file live).2
    · rintro ⟨id, -, member⟩
      obtain ⟨file, live, member⟩ := mem_ownedBy.mp member
      exact ⟨id, file, live, member⟩
  rw [union]
  refine Finset.card_biUnion fun first _ second _ different => ?_
  apply Finset.disjoint_left.mpr
  intro block inFirst inSecond
  obtain ⟨one, oneLive, member⟩ := mem_ownedBy.mp inFirst
  obtain ⟨other, otherLive, inOther⟩ := mem_ownedBy.mp inSecond
  exact wf.disjoint first second one other oneLive otherLive different block member
    inOther

/-- The map that a layout stands for. -/
structure Abstracts (layout : Layout) (map : ExtentMap) : Prop where
  wf : layout.WF
  created : layout.inum = map.created
  ticks : layout.ticks = map.ticks
  extents : ∀ id, map.extents id = (layout.files id).map FileLayout.extent

variable {map : ExtentMap}

theorem WF.card_ownedBy (wf : layout.WF)
    (extents : ∀ id, map.extents id = (layout.files id).map FileLayout.extent)
    (id : Nat) : (layout.ownedBy id).card = ExtentMap.blocksOf map.extents id := by
  rw [ownedBy, ExtentMap.blocksOf, extents id]
  cases live : layout.files id with
  | none => rfl
  | some file =>
      rw [Option.elim_some, List.toFinset_card_of_nodup (wf.nodup id file live),
        file.length_owned]
      rfl

theorem Abstracts.card_used (abstracts : Abstracts layout map) :
    layout.used.card = map.blocksInUse := by
  rw [abstracts.wf.card_used, ExtentMap.blocksInUse, abstracts.created]
  exact Finset.sum_congr rfl fun id _ =>
    abstracts.wf.card_ownedBy abstracts.extents id

/-- Writing a file fits on the disk exactly if the map stays within the number
of blocks. -/
theorem Abstracts.room_iff (abstracts : Abstracts layout map) {id : Nat}
    {file : FileLayout} (live : layout.files id = some file) (extent : Extent)
    (ticks : Nat) :
    blocksFor extent.data.length ≤
        (freeList firstId blockNum (layout.kept file)).length ↔
      ExtentMap.blocksInUse ⟨map.created, ticks,
        Function.update map.extents id (some extent)⟩ ≤ maxBlocks := by
  have inside : id ≤ map.created := by
    rw [← abstracts.created]
    exact (abstracts.wf.live_le id file live).2
  have changed := ExtentMap.blocksInUse_update inside extent ticks
  have oldBlocks : ExtentMap.blocksOf map.extents id = file.owned.length := by
    rw [ExtentMap.blocksOf, abstracts.extents id, live, file.length_owned]
    rfl
  have keptCard : (layout.kept file).card + file.owned.length = layout.used.card := by
    have subset : file.owned.toFinset ⊆ layout.used := fun block member =>
      abstracts.wf.owned_subset live block (List.mem_toFinset.mp member)
    rw [kept, ← List.toFinset_card_of_nodup (abstracts.wf.nodup id file live)]
    exact Finset.card_sdiff_add_card_eq_card subset
  have within : layout.kept file ⊆ Finset.Ico firstId blockNum :=
    Finset.sdiff_subset.trans abstracts.wf.within
  have freeCard := length_freeList_add_card within
  have usedCard := abstracts.card_used
  simp only [maxBlocks]
  have disk : firstId ≤ blockNum := by decide
  omega

theorem Abstracts.create (clock : Nat → BitVec 32)
    (abstracts : Abstracts layout map) (type : BitVec 32) :
    Agree Abstracts (· = .beyondLimits) (layout.create clock type)
      (map.create clock type) := by
  unfold ExtentMap.create
  by_cases allowed : map.created + 1 < inodeNum ∧ FitsShort type
  · rcases allowed with ⟨inside, isLive, fits⟩
    rw [if_pos ⟨inside, isLive, fits⟩]
    have room : ¬inodeNum ≤ layout.inum + 1 := by
      rw [abstracts.created]
      exact Nat.not_le.mpr inside
    have served : layout.create clock type = .ok ((.OK, BitVec.ofNat 64 (layout.inum + 1)),
        { layout with
          inum := layout.inum + 1
          ticks := layout.ticks + 1
          files := Function.update layout.files (layout.inum + 1)
            (some (.empty (type.setWidth 16) (clock layout.ticks) isLive)) }) := by
      rw [Layout.create, if_neg room, dif_pos isLive]
    refine ⟨_, by rw [served, abstracts.created], abstracts.wf.create served,
      congrArg (· + 1) abstracts.created, congrArg (· + 1) abstracts.ticks, ?_⟩
    intro id
    simp only [abstracts.created, abstracts.ticks]
    by_cases same : id = map.created + 1
    · subst same
      rw [Function.update_self, Function.update_self, Option.map_some]
      simp only [FileLayout.extent, FileLayout.empty, fits]
      rfl
    · rw [Function.update_of_ne same, Function.update_of_ne same, abstracts.extents]
  · rw [if_neg allowed]
    exact Or.inl rfl

/-- Replacing one file and its extent. -/
theorem Abstracts.update (abstracts : Abstracts layout map) {next : Layout}
    {after : ExtentMap} {id : Nat} {new : Option FileLayout} (wf : next.WF)
    (created : next.inum = after.created) (ticks : next.ticks = after.ticks)
    (files : next.files = Function.update layout.files id new)
    (extents : after.extents =
      Function.update map.extents id (new.map FileLayout.extent)) :
    Abstracts next after := by
  refine ⟨wf, created, ticks, fun other => ?_⟩
  rw [files, extents]
  by_cases same : other = id
  · subst same
    rw [Function.update_self, Function.update_self]
  · rw [Function.update_of_ne same, Function.update_of_ne same, abstracts.extents]

theorem put_live (clock : Nat → BitVec 32) {target : ExtentId} {buf : List Byte}
    {file : FileLayout} (live : layout.files (inumOf target) = some file)
    (fits : buf.length ≤ maxFile * blockSize)
    (room : blocksFor buf.length ≤
      (freeList firstId blockNum (layout.kept file)).length) :
    ∃ next new, layout.put clock target buf = .ok (.OK, next) ∧
      next.inum = layout.inum ∧ next.ticks = layout.ticks + 1 ∧
      next.files = Function.update layout.files (inumOf target) (some new) ∧
      new.extent = file.extent.rewritten (clock layout.ticks) buf := by
  simp only [Layout.put, live, dif_pos fits, dif_pos room]
  exact ⟨_, _, rfl, rfl, rfl, rfl, rfl⟩

theorem Abstracts.put (clock : Nat → BitVec 32)
    (abstracts : Abstracts layout map) (target : ExtentId) (buf : List Byte) :
    Agree Abstracts (· = .beyondLimits) (layout.put clock target buf)
      (map.put clock target buf) := by
  unfold ExtentMap.put
  rw [abstracts.extents]
  cases live : layout.files (inumOf target) with
  | none =>
      apply Or.inr
      simp only [Layout.put, live]
  | some file =>
      simp only [Option.map_some]
      split
      · rename_i allowed
        rcases allowed with ⟨fits, within⟩
        have room := (abstracts.room_iff live _ _).mpr within
        obtain ⟨next, new, served, inum, ticks, files, extent⟩ :=
          put_live clock live fits room
        refine ⟨next, served, abstracts.update (abstracts.wf.put served)
          (inum.trans abstracts.created)
          (ticks.trans (congrArg (· + 1) abstracts.ticks)) files ?_⟩
        rw [Option.map_some, extent, abstracts.ticks]
      · exact Or.inl rfl

theorem Abstracts.get (clock : Nat → BitVec 32)
    (abstracts : Abstracts layout map) (target : ExtentId) :
    Agree Abstracts (· = .beyondLimits) (layout.get clock target)
      (map.get clock target) := by
  unfold ExtentMap.get
  rw [abstracts.extents]
  cases live : layout.files (inumOf target) with
  | none =>
      apply Or.inr
      simp only [Layout.get, live]
  | some file =>
      have served : layout.get clock target = .ok ((.OK, file.data),
          { layout with
            ticks := layout.ticks + 1
            files := Function.update layout.files (inumOf target)
              (some (file.accessed (clock layout.ticks))) }) := by
        simp only [Layout.get, live]
      refine ⟨_, served, abstracts.update (abstracts.wf.get served)
        abstracts.created (congrArg (· + 1) abstracts.ticks) rfl ?_⟩
      rw [← abstracts.ticks]
      rfl

theorem Abstracts.getattr (abstracts : Abstracts layout map) (target : ExtentId) :
    Agree Abstracts (· = .beyondLimits) (layout.getattr target)
      (map.getattr target) := by
  refine ⟨layout, ?_, abstracts⟩
  rw [Layout.getattr, abstracts.extents, Option.map_map]
  rfl

theorem Abstracts.remove (abstracts : Abstracts layout map) (target : ExtentId) :
    Agree Abstracts (· = .beyondLimits) (layout.remove target)
      (map.remove target) := by
  unfold ExtentMap.remove
  rw [abstracts.extents]
  cases live : layout.files (inumOf target) with
  | none =>
      apply Or.inr
      simp only [Layout.remove, live]
  | some file =>
      have served : layout.remove target = .ok (.OK,
          { layout with
            files := Function.update layout.files (inumOf target) none
            used := layout.kept file
            calls := layout.calls ++ file.owned.map (.free · true) }) := by
        simp only [Layout.remove, live]
      exact ⟨_, served, abstracts.update (abstracts.wf.remove served)
        abstracts.created abstracts.ticks rfl rfl⟩

theorem abstracts_init (clock : Nat → BitVec 32) :
    Abstracts (init clock) (ExtentMap.init clock) where
  wf := wf_init clock
  created := rfl
  ticks := rfl
  extents := by
    intro id
    simp only [ExtentMap.init, init]
    by_cases same : id = 1
    · subst same
      rfl
    · rw [Function.update_of_ne same, Function.update_of_ne same]
      rfl

end Layout

/-- Layouts refine the plain map, request by request. -/
theorem layout_simulates_map (clock : Nat → BitVec 32) :
    Simulates (Layout.serve clock) (ExtentMap.serve clock) Layout.Abstracts
      (· = .beyondLimits) := by
  intro request layout map abstracts
  cases request with
  | create type => exact abstracts.create clock type
  | put target buf => exact abstracts.put clock target buf
  | get target => exact abstracts.get clock target
  | getattr target => exact abstracts.getattr target
  | remove target => exact abstracts.remove target

/-- The memory of the inode manager holds the plain map. -/
def Holds (im : InodeManager) (map : ExtentMap) : Prop :=
  ∃ layout, Represents im layout ∧ layout.Abstracts map

/-- The extent server refines the plain map, request by request. -/
theorem simulates_map (env : Env) :
    Simulates (ExtentServer.serve env) (ExtentMap.serve env.clock) Holds
      (· = .beyondLimits) :=
  (simulates_layout env).trans (layout_simulates_map env.clock)

/-- A new inode manager holds an empty root directory. -/
theorem init_holds (env : Env) :
    ∃ im, InodeManager.init env = .ok im ∧ Holds im (ExtentMap.init env.clock) := by
  obtain ⟨im, starts, represents⟩ := init_represents env
  exact ⟨im, starts, _, represents, Layout.abstracts_init env.clock⟩

end Yfs
