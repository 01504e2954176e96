import Yfs.Layout

/-!
# The ownership invariant of layouts

In a well-formed layout the allocated blocks are the disjoint union of the
blocks owned by the live files, all inside the disk.  Every request preserves
this, because the blocks a file gives up are its own and the blocks it takes are
free.
-/

namespace Yfs

open ClientServer FirstFit

namespace Layout

structure WF (layout : Layout) : Prop where
  inum_lt : layout.inum < inodeNum
  live_le : ∀ id file, layout.files id = some file → 1 ≤ id ∧ id ≤ layout.inum
  mem_used : ∀ block, block ∈ layout.used ↔
    ∃ id file, layout.files id = some file ∧ block ∈ file.owned
  nodup : ∀ id file, layout.files id = some file → file.owned.Nodup
  disjoint : ∀ first second one other, layout.files first = some one →
    layout.files second = some other → first ≠ second →
      ∀ block ∈ one.owned, block ∉ other.owned
  within : layout.used ⊆ Finset.Ico firstId blockNum

variable {layout after : Layout} {id : Nat}

theorem WF.live_lt (wf : layout.WF) {file : FileLayout}
    (live : layout.files id = some file) : id < inodeNum :=
  lt_of_le_of_lt (wf.live_le id file live).2 wf.inum_lt

theorem WF.owned_subset (wf : layout.WF) {file : FileLayout}
    (live : layout.files id = some file) :
    ∀ block ∈ file.owned, block ∈ layout.used :=
  fun block member => (wf.mem_used block).mpr ⟨id, file, live, member⟩

theorem WF.owned_bounds (wf : layout.WF) {file : FileLayout}
    (live : layout.files id = some file) :
    ∀ block ∈ file.owned, firstId ≤ block ∧ block < blockNum :=
  fun block member =>
    Finset.mem_Ico.mp (wf.within (wf.owned_subset live block member))

/-- The blocks owned by the files other than `id`. -/
def OwnedByOthers (layout : Layout) (id block : Nat) : Prop :=
  ∃ other file, other ≠ id ∧ layout.files other = some file ∧
    block ∈ file.owned

/-- What stays allocated when a live file gives up its blocks belongs to the
other files. -/
theorem WF.mem_kept (wf : layout.WF) {file : FileLayout}
    (live : layout.files id = some file) (block : Nat) :
    block ∈ layout.kept file ↔ layout.OwnedByOthers id block := by
  rw [kept, Finset.mem_sdiff, List.mem_toFinset, wf.mem_used]
  constructor
  · rintro ⟨⟨other, otherFile, otherLive, member⟩, notOwned⟩
    refine ⟨other, otherFile, ?_, otherLive, member⟩
    rintro rfl
    rw [live] at otherLive
    cases otherLive
    exact notOwned member
  · rintro ⟨other, otherFile, different, otherLive, member⟩
    exact ⟨⟨other, otherFile, otherLive, member⟩,
      wf.disjoint other id otherFile file otherLive live different block member⟩

theorem WF.mem_used_of_dead (wf : layout.WF) (dead : layout.files id = none)
    (block : Nat) : block ∈ layout.used ↔ layout.OwnedByOthers id block := by
  rw [wf.mem_used]
  constructor
  · rintro ⟨other, file, live, member⟩
    refine ⟨other, file, ?_, live, member⟩
    rintro rfl
    rw [dead] at live
    cases live
  · rintro ⟨other, file, -, live, member⟩
    exact ⟨other, file, live, member⟩

/-- Replacing the file of one inode keeps the invariant if the new file owns
distinct blocks of the disk that no other file owns. -/
theorem WF.replace (wf : layout.WF) {rest : Finset Nat}
    {new : Option FileLayout}
    (files : after.files = Function.update layout.files id new)
    (mem_rest : ∀ block, block ∈ rest ↔ layout.OwnedByOthers id block)
    (inumLe : layout.inum ≤ after.inum) (inumLt : after.inum < inodeNum)
    (bounds : ∀ file, new = some file → 1 ≤ id ∧ id ≤ after.inum)
    (used : ∀ block, block ∈ after.used ↔ block ∈ rest ∨
      ∃ file, new = some file ∧ block ∈ file.owned)
    (nodup : ∀ file, new = some file → file.owned.Nodup)
    (fresh : ∀ file, new = some file → ∀ block ∈ file.owned,
      block ∉ rest ∧ firstId ≤ block ∧ block < blockNum) :
    after.WF := by
  have self : after.files id = new := by rw [files, Function.update_self]
  have others : ∀ other, other ≠ id → after.files other = layout.files other :=
    fun other different => by rw [files, Function.update_of_ne different]
  rw [← self] at bounds used nodup fresh
  refine
    { inum_lt := inumLt
      live_le := ?live
      mem_used := ?used
      nodup := ?nodup
      disjoint := ?disjoint
      within := ?within }
  case live =>
    intro other file live
    by_cases same : other = id
    · subst same
      exact bounds file live
    · rw [others other same] at live
      have := wf.live_le other file live
      omega
  case used =>
    intro block
    rw [used, mem_rest]
    constructor
    · rintro (⟨other, file, different, live, member⟩ | ⟨file, live, member⟩)
      · exact ⟨other, file, by rw [others other different]; exact live, member⟩
      · exact ⟨id, file, live, member⟩
    · rintro ⟨other, file, live, member⟩
      by_cases same : other = id
      · subst same
        exact Or.inr ⟨file, live, member⟩
      · rw [others other same] at live
        exact Or.inl ⟨other, file, same, live, member⟩
  case nodup =>
    intro other file live
    by_cases same : other = id
    · subst same
      exact nodup file live
    · rw [others other same] at live
      exact wf.nodup other file live
  case disjoint =>
    intro first second one other oneLive otherLive different block member inOther
    by_cases firstSame : first = id
    · subst firstSame
      rw [others second (Ne.symm different)] at otherLive
      exact (fresh one oneLive block member).1 ((mem_rest block).mpr
        ⟨second, other, Ne.symm different, otherLive, inOther⟩)
    · rw [others first firstSame] at oneLive
      by_cases secondSame : second = id
      · subst secondSame
        exact (fresh other otherLive block inOther).1 ((mem_rest block).mpr
          ⟨first, one, firstSame, oneLive, member⟩)
      · rw [others second secondSame] at otherLive
        exact wf.disjoint first second one other oneLive otherLive different block
          member inOther
  case within =>
    intro block member
    rcases (used block).mp member with inRest | ⟨file, live, owned⟩
    · obtain ⟨other, file, -, live, owned⟩ := (mem_rest block).mp inRest
      exact wf.within (wf.owned_subset live block owned)
    · exact Finset.mem_Ico.mpr (fresh file live block owned).2

theorem WF.dead_next (wf : layout.WF) : layout.files (layout.inum + 1) = none := by
  cases live : layout.files (layout.inum + 1) with
  | none => rfl
  | some file =>
      have := wf.live_le _ file live
      omega

/-- The empty file of `create` owns nothing. -/
theorem WF.create (wf : layout.WF) {clock : Nat → BitVec 32} {type : BitVec 32}
    {reply : Status × ExtentId}
    (served : layout.create clock type = .ok (reply, after)) : after.WF := by
  obtain ⟨inside, -, rfl⟩ := create_ok served
  have ownsNothing : ∀ file, (if live : type.setWidth 16 ≠ 0 then
      some (FileLayout.empty (type.setWidth 16) (clock layout.ticks) live)
      else none) = some file → file.owned = [] := by
    intro file isFile
    split at isFile
    · cases isFile
      rfl
    · cases isFile
  apply wf.replace rfl (wf.mem_used_of_dead wf.dead_next) (Nat.le_succ _) inside
  · intro file _
    exact ⟨Nat.succ_pos _, le_refl _⟩
  · intro block
    refine ⟨Or.inl, ?_⟩
    rintro (member | ⟨file, isFile, owned⟩)
    · exact member
    · rw [ownsNothing file isFile] at owned
      cases owned
  · intro file isFile
    rw [ownsNothing file isFile]
    exact List.nodup_nil
  · intro file isFile block owned
    rw [ownsNothing file isFile] at owned
    cases owned

/-- A permutation of the blocks taken: the indirect block moves to the end. -/
theorem owned_rewritten_perm {file : FileLayout} {now : BitVec 32}
    {data : List Byte} {ids : List Nat}
    {fits : data.length ≤ maxFile * blockSize}
    {exact : ids.length = blocksFor data.length} :
    (file.rewritten now data ids fits exact).owned.Perm ids := by
  have split : ids.take nDirect ++ (ids[nDirect]?.toList ++
      ids.drop (nDirect + 1)) = ids := by
    have tail : ids[nDirect]?.toList ++ ids.drop (nDirect + 1) =
        ids.drop nDirect := by
      by_cases inside : nDirect < ids.length
      · rw [List.getElem?_eq_getElem inside, List.drop_eq_getElem_cons inside]
        rfl
      · rw [List.getElem?_eq_none (Nat.le_of_not_lt inside),
          List.drop_eq_nil_of_le (Nat.le_of_not_lt inside),
          List.drop_eq_nil_of_le (by omega)]
        rfl
    rw [tail, List.take_append_drop]
  have moved : (file.rewritten now data ids fits exact).owned.Perm
      (ids.take nDirect ++ (ids[nDirect]?.toList ++ ids.drop (nDirect + 1))) := by
    simp only [FileLayout.owned, FileLayout.rewritten, List.append_assoc]
    exact List.Perm.append_left _ List.perm_append_comm
  rwa [split] at moved

theorem WF.put (wf : layout.WF) {clock : Nat → BitVec 32} {target : ExtentId}
    {buf : List Byte} {reply : Status}
    (served : layout.put clock target buf = .ok (reply, after)) : after.WF := by
  obtain ⟨file, live, fits, exact, -, rfl⟩ := put_ok served
  refine wf.replace rfl (wf.mem_kept live) (le_refl _) wf.inum_lt ?_ ?_ ?_ ?_
  · intro _ _
    exact wf.live_le _ file live
  · intro block
    simp only [Option.some.injEq, exists_eq_left', Finset.mem_union,
      List.mem_toFinset, owned_rewritten_perm.mem_iff]
  · rintro _ ⟨⟩
    exact owned_rewritten_perm.nodup_iff.mpr
      (nodup_freeList.sublist (List.take_sublist _ _))
  · rintro _ ⟨⟩ block owned
    have taken := owned_rewritten_perm.mem_iff.mp owned
    have free := mem_freeList.mp (List.mem_of_mem_take taken)
    exact ⟨free.2, free.1⟩

theorem WF.get (wf : layout.WF) {clock : Nat → BitVec 32} {target : ExtentId}
    {reply : Status × List Byte}
    (served : layout.get clock target = .ok (reply, after)) : after.WF := by
  obtain ⟨file, live, -, rfl⟩ := get_ok served
  refine wf.replace rfl (wf.mem_kept live) (le_refl _) wf.inum_lt ?_ ?_ ?_ ?_
  · intro _ _
    exact wf.live_le _ file live
  · intro block
    simp only [Option.some.injEq, exists_eq_left', kept, Finset.mem_sdiff,
      List.mem_toFinset]
    have owned := wf.owned_subset live block
    change block ∈ layout.used ↔ _ ∨ block ∈ file.owned
    tauto
  · rintro _ ⟨⟩
    exact wf.nodup _ file live
  · rintro _ ⟨⟩ block owned
    have inUsed := wf.owned_subset live block owned
    refine ⟨?_, Finset.mem_Ico.mp (wf.within inUsed)⟩
    rw [kept, Finset.mem_sdiff, List.mem_toFinset]
    exact fun both => both.2 owned

theorem WF.remove (wf : layout.WF) {target : ExtentId} {reply : Status}
    (served : layout.remove target = .ok (reply, after)) : after.WF := by
  obtain ⟨file, live, -, rfl⟩ := remove_ok served
  refine wf.replace rfl (wf.mem_kept live) (le_refl _) wf.inum_lt ?_ ?_ ?_ ?_
  · intro _ isNone
    cases isNone
  · intro block
    simp
  · intro _ isNone
    cases isNone
  · intro _ isNone
    cases isNone

theorem wf_blank : blank.WF where
  inum_lt := by decide
  live_le := fun _ _ live => nomatch live
  mem_used := by
    intro block
    constructor
    · intro member
      cases member
    · rintro ⟨_, _, live, _⟩
      cases live
  nodup := fun _ _ live => nomatch live
  disjoint := fun _ _ _ _ live => nomatch live
  within := Finset.empty_subset _

theorem create_blank (clock : Nat → BitVec 32) :
    blank.create clock tDir = .ok ((.OK, 1), init clock) := by
  have room : ¬inodeNum ≤ blank.inum + 1 := by decide
  have live : tDir.setWidth 16 ≠ (0 : BitVec 16) := by decide
  simp only [Layout.create, if_neg room, dif_pos live]
  rfl

theorem wf_init (clock : Nat → BitVec 32) : (init clock).WF :=
  wf_blank.create (create_blank clock)

end Layout

end Yfs
