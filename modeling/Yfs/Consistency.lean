import Yfs.NamespaceRuns

/-!
# Consistency of the namespace and the inode table

Entries and inodes match one to one, and every inode is reached from the root.
`unlink` takes directories away without a look at their entries, so this holds
exactly in the runs that unlink no directory with entries.
-/

namespace Yfs

open ClientServer Machine

namespace InodeManager

/-- Inodes on a path of listings from the root. -/
inductive Reaches (env : Env) (im : InodeManager) : Nat → Prop
  | root : Reaches env im 1
  | entry {dir : Nat} {entries : List Dirent} {entry : Dirent}
      (reached : Reaches env im dir) (inside : dir < inodeNum)
      (lists : im.Lists env dir entries) (member : entry ∈ entries) :
      Reaches env im (inumOf entry.inum)

structure Consistent (env : Env) (im : InodeManager) : Prop where
  /-- Every entry refers to a live inode. -/
  live : ∀ dir entries, dir < inodeNum → im.Lists env dir entries →
    ∀ entry ∈ entries, im.IsLive (inumOf entry.inum)
  /-- Every live inode but the root has one entry, in one directory. -/
  single : ∀ id, im.IsLive id → id ≠ 1 → ∃ dir entries entry,
    dir < inodeNum ∧ im.Lists env dir entries ∧
      entries.filter (fun held => inumOf held.inum = id) = [entry] ∧
      ∀ other others, other < inodeNum → other ≠ dir → im.Lists env other others →
        ∀ held ∈ others, inumOf held.inum ≠ id
  reachable : ∀ id, im.IsLive id → Reaches env im id
  /-- A block in use belongs to an inode that is reached. -/
  blocks : ∀ block, firstId ≤ block → block < lastId → im.bm.disk.idBit block = true →
    ∃ id, Reaches env im id ∧ im.IsLive id ∧ block ∈ im.ownedBlocks id

end InodeManager

namespace Namespace

variable {ns next : Namespace}

/-- Every node but the root has an entry. -/
def Rooted (ns : Namespace) : Prop :=
  ∀ id, ns.nodes id ≠ none → id ≠ 1 →
    ∃ dir entry, ns.Points dir entry ∧ entry.inum.toNat = id

theorem rooted_init : init.Rooted := by
  intro id live notRoot
  simp only [init, Function.update_of_ne notRoot, ne_eq, not_true] at live

/-- A change leaves no node without an entry, unless it unlinks the directory
that holds it. -/
theorem Rooted.change (rooted : ns.Rooted) (wf : ns.WF) {call : Call}
    (change : ns.Change call next) (spares : ns.SparesChildren call) : next.Rooted := by
  intro id live notRoot
  cases change with
  | none => exact rooted id live notRoot
  | bind isDir isName bare inside =>
      rcases (bind_live wf isDir).mp live with old | rfl
      · obtain ⟨dir, entry, points, same⟩ := rooted id old notRoot
        exact ⟨dir, entry, (points_bind wf isDir bare).mpr (Or.inl points), same⟩
      · exact ⟨_, _, (points_bind wf isDir bare).mpr (Or.inr ⟨rfl, rfl⟩),
          toNat_next inside⟩
  | @unbind parent bindings entry isDir member spared =>
      obtain ⟨old, kept⟩ := (unbind_live wf isDir member).mp live
      obtain ⟨dir, held, points, same⟩ := rooted id old notRoot
      refine ⟨dir, held, (points_unbind wf isDir member).mpr ⟨points, ?_, ?_⟩, same⟩
      · rintro rfl
        rcases points with ⟨entries, isHeld, inEntries⟩
        rw [spared spares entries isHeld] at inEntries
        cases inEntries
      · rintro rfl
        rw [← same, ← wf.inumOf_entry points] at kept
        exact kept rfl
  | rewrite isFile fits =>
      obtain ⟨dir, entry, points, same⟩ :=
        rooted id ((rewrite_live isFile).mp live) notRoot
      exact ⟨dir, entry, (points_rewrite isFile).mpr points, same⟩

theorem rooted_of_run {calls : List Call} {outputs : List Output}
    (spares : Always step SparesChildren init calls)
    (returns : run step init calls = .ok (outputs, ns)) : ns.Rooted := by
  have start : init.WF ∧ init.Rooted := ⟨wf_init, rooted_init⟩
  have both : ns.WF ∧ ns.Rooted := by
    refine spares.preserves (fun ns => ns.WF ∧ ns.Rooted) ?_ start returns
    intro ns call output next holds spared stepped
    exact ⟨holds.1.step stepped, holds.2.change holds.1 (step_change stepped) spared⟩
  exact both.2

/-- Taking a directory away leaves the nodes under it without an entry. -/
theorem unbind_orphans (wf : ns.WF) {dir : Nat} {bindings held : List Dirent}
    {entry child : Dirent} (isDir : ns.nodes dir = some (.directory bindings))
    (member : entry ∈ bindings)
    (isHeld : ns.nodes (inumOf entry.inum) = some (.directory held))
    (inHeld : child ∈ held) : ¬(ns.unbind dir bindings entry).Rooted := by
  intro rooted
  have points : ns.Points (inumOf entry.inum) child := ⟨held, isHeld, inHeld⟩
  obtain ⟨below, live⟩ := wf.child _ child points
  have positive := (wf.live_le _ _ isHeld).1
  have stillLive : (ns.unbind dir bindings entry).nodes child.inum.toNat ≠ none :=
    (unbind_live wf isDir member).mpr ⟨live, Nat.ne_of_gt below⟩
  obtain ⟨other, found, pointsAfter, same⟩ :=
    rooted child.inum.toNat stillLive (by omega)
  obtain ⟨pointsBefore, different, -⟩ := (points_unbind wf isDir member).mp pointsAfter
  exact different (wf.single other _ found child pointsBefore points
    (BitVec.eq_of_toNat_eq same)).1

end Namespace

namespace InodeManager.Encodes

variable {env : Env} {host : Host} {im : InodeManager} {ns : Namespace}

theorem points (encodes : im.Encodes host ns) {dir : Nat} (inside : dir < inodeNum)
    {entries : List Dirent} (lists : im.Lists env dir entries) {entry : Dirent}
    (member : entry ∈ entries) : ns.Points dir entry :=
  ⟨entries, (encodes.lists_iff inside).mp lists, member⟩

theorem lists_of_points (encodes : im.Encodes host ns) (wf : ns.WF) {dir : Nat}
    {entry : Dirent} (points : ns.Points dir entry) :
    ∃ entries, dir < inodeNum ∧ im.Lists env dir entries ∧ entry ∈ entries := by
  rcases points with ⟨bindings, isDir, member⟩
  have inside := Nat.lt_of_le_of_lt (wf.live_le dir _ isDir).2 wf.created_lt
  exact ⟨bindings, inside, (encodes.lists_iff inside).mpr isDir, member⟩

theorem single (encodes : im.Encodes host ns) (wf : ns.WF) (rooted : ns.Rooted)
    {id : Nat} (live : im.IsLive id) (notRoot : id ≠ 1) : ∃ dir entries entry,
      dir < inodeNum ∧ im.Lists env dir entries ∧
        entries.filter (fun held => inumOf held.inum = id) = [entry] ∧
        ∀ other others, other < inodeNum → other ≠ dir → im.Lists env other others →
          ∀ held ∈ others, inumOf held.inum ≠ id := by
  obtain ⟨dir, entry, points, same⟩ := rooted id (encodes.isLive_iff.mp live) notRoot
  obtain ⟨entries, inside, lists, member⟩ :
    ∃ entries, dir < inodeNum ∧ im.Lists env dir entries ∧ entry ∈ entries :=
      encodes.lists_of_points wf points
  have only : ∀ other held, ns.Points other held → inumOf held.inum = id →
      other = dir ∧ held = entry := by
    intro other held heldPoints equal
    rw [wf.inumOf_entry heldPoints, ← same] at equal
    exact wf.single other dir held entry heldPoints points (BitVec.eq_of_toNat_eq equal)
  refine ⟨dir, entries, entry, inside, lists, ?_, ?_⟩
  · have filtered : entries.filter (fun held => inumOf held.inum = id) =
        entries.filter (· = entry) := by
      refine List.filter_congr fun held inEntries => decide_eq_decide.mpr ?_
      constructor
      · exact fun equal => (only dir held (encodes.points inside lists inEntries) equal).2
      · rintro rfl
        rw [wf.inumOf_entry points, same]
    have once : entries.count entry = 1 := List.count_eq_one_of_mem
      (wf.nodup dir entries ((encodes.lists_iff inside).mp lists)) member
    rw [filtered, List.filter_eq, once, List.replicate_one]
  · intro other others otherInside different otherLists held inOthers equal
    exact different (only other held (encodes.points otherInside otherLists inOthers)
      equal).1

theorem reaches (encodes : im.Encodes host ns) (wf : ns.WF) (rooted : ns.Rooted)
    (id : Nat) (live : ns.nodes id ≠ none) : im.Reaches env id := by
  -- by the inode numbers: a directory is older than what it holds
  induction id using Nat.strong_induction_on with
  | _ id ih =>
      by_cases isRoot : id = 1
      · rw [isRoot]
        exact .root
      · obtain ⟨dir, entry, points, same⟩ := rooted id live isRoot
        obtain ⟨entries, inside, lists, member⟩ := encodes.lists_of_points wf points
        have below := (wf.child dir entry points).1
        have dirLive : ns.nodes dir ≠ none := by
          rcases points with ⟨bindings, isDir, -⟩
          rw [isDir]
          exact Option.some_ne_none _
        have next := InodeManager.Reaches.entry (ih dir (by omega) dirLive) inside lists
          member
        rwa [wf.inumOf_entry points, same] at next

theorem consistent_iff (encodes : im.Encodes host ns) (wf : ns.WF) :
    im.Consistent env ↔ ns.Rooted := by
  constructor
  · intro consistent id live notRoot
    obtain ⟨dir, entries, entry, inside, lists, one, -⟩ :=
      consistent.single id (encodes.isLive_iff.mpr live) notRoot
    have found : entry ∈ entries.filter (fun held => inumOf held.inum = id) := by
      rw [one]
      exact List.mem_singleton_self entry
    obtain ⟨member, same⟩ := List.mem_filter.mp found
    have points := encodes.points inside lists member
    refine ⟨dir, entry, points, ?_⟩
    rw [← wf.inumOf_entry points]
    exact of_decide_eq_true same
  · intro rooted
    have reachable : ∀ id, im.IsLive id → im.Reaches env id :=
      fun id live => encodes.reaches wf rooted id (encodes.isLive_iff.mp live)
    refine ⟨?_, fun id live notRoot => encodes.single wf rooted live notRoot, reachable, ?_⟩
    · intro dir entries inside lists entry member
      have points := encodes.points inside lists member
      rw [encodes.isLive_iff, wf.inumOf_entry points]
      exact (wf.child dir entry points).2
    · intro block low high isUsed
      rcases encodes with ⟨contents, ⟨map, ⟨layout, represents, -⟩, -⟩, -⟩
      obtain ⟨id, live, owned⟩ := (represents.ownership.marked block low high).mp isUsed
      exact ⟨id, reachable id live, live, owned⟩

end InodeManager.Encodes

section Runs

variable {env : Env} {host : Host}

/-- A consistent state is not reached by taking away what holds entries. -/
theorem spares_of_consistent (before : List Call) (call : Call) (later : List Call)
    (allowed : Allowed (before ++ call :: later))
    (within : WithinLimits env.clock host (before ++ call :: later))
    (consistent : ∃ seen im,
      yfsRun env host (before ++ [call]) = .ok (seen, im) ∧ im.Consistent env)
    {outputs : List Output} {ns : Namespace}
    (begun : run Namespace.step .init before = .ok (outputs, ns)) :
    ns.SparesChildren call := by
  rcases call with ⟨operation, garbage⟩
  obtain ⟨output, next, stepped, ran⟩ := allowed.step begun
  cases operation with
  | unlink parent name =>
      intro bindings entry held found isBound isHeld
      have isDir := Namespace.directory_ok found
      obtain ⟨again, found', unlinked⟩ := bind_ok stepped
      rw [found] at found'
      cases found'
      rw [isBound] at unlinked
      cases unlinked
      rcases consistent with ⟨seen, im, returned, consistent⟩
      rw [List.append_cons] at within
      obtain ⟨-, encodes⟩ := encodes_of_yfsRun ran within.of_append returned
      have rooted := (encodes.consistent_iff (wf_of_run ran)).mp consistent
      refine List.eq_nil_iff_forall_not_mem.mpr fun child inHeld => ?_
      exact Namespace.unbind_orphans (wf_of_run begun) isDir
        (Namespace.bound_mem isBound).1 isHeld inHeld rooted
  | _ => trivial

/-- In an allowed run within the limits the namespace stays consistent with the
inode table exactly when no directory with entries is unlinked. -/
theorem stays_consistent_iff (env : Env) (host : Host) (calls : List Call)
    (allowed : Allowed calls) (within : WithinLimits env.clock host calls) :
    (∀ before later, calls = before ++ later → ∃ seen im,
      yfsRun env host before = .ok (seen, im) ∧ im.Consistent env) ↔
      Always Namespace.step Namespace.SparesChildren .init calls := by
  constructor
  · intro consistent
    refine Always.of_prefixes fun before call later outputs ns split begun => ?_
    subst split
    exact spares_of_consistent before call later allowed within
      (consistent (before ++ [call]) later (List.append_cons _ _ _)) begun
  · rintro spares before later rfl
    obtain ⟨outputs, ns, begun⟩ := allowed.of_append
    obtain ⟨seen, im, returned, -, encodes⟩ :=
      yfsRun_encodes begun within.of_append
    refine ⟨seen, im, returned, (encodes.consistent_iff (wf_of_run begun)).mpr ?_⟩
    exact Namespace.rooted_of_run spares.of_append begun

end Runs

/-- A directory is made, and unlinked while it is empty. -/
theorem stays_consistent_iff_empty :
    (∃ seen im, yfsRun Env.zero .three [(.mkdir 1 .a, .zero)] = .ok (seen, im) ∧
      im.Consistent Env.zero) ∧
    ∃ seen im, yfsRun Env.zero .three [(.mkdir 1 .a, .zero), (.unlink 1 .a, .zero)] =
      .ok (seen, im) ∧ im.Consistent Env.zero := by
  have stays := (stays_consistent_iff Env.zero .three
    [(.mkdir 1 .a, .zero), (.unlink 1 .a, .zero)] ⟨_, _, rfl⟩ (withinLimits_of_ok rfl)).mpr
      (Always.cons trivial rfl (Always.cons
        (by
          intro bindings entry held found isBound isHeld
          cases found
          cases isBound
          cases isHeld
          rfl)
        rfl trivial))
  exact ⟨stays _ [(.unlink 1 .a, .zero)] rfl, stays _ [] rfl⟩

/-- A directory is unlinked with a file in it. -/
def unlinkFull : List Call :=
  [(.mkdir 1 .a, .zero), (.create 2 .a, .zero), (.unlink 1 .a, .zero)]

theorem unlink_orphans_file :
    Allowed unlinkFull ∧ WithinLimits Env.zero.clock .three unlinkFull ∧
      Always Namespace.step Namespace.UnboundSymlink .init unlinkFull ∧
      ∃ seen im, yfsRun Env.zero .three unlinkFull = .ok (seen, im) ∧
        ¬im.Consistent Env.zero := by
  have allowed : Allowed unlinkFull := ⟨_, _, rfl⟩
  have within : WithinLimits Env.zero.clock .three unlinkFull := withinLimits_of_ok rfl
  refine ⟨allowed, within,
    Always.cons trivial rfl (Always.cons trivial rfl (Always.cons trivial rfl trivial)), ?_⟩
  rcases allowed with ⟨outputs, ns, returns⟩
  obtain ⟨seen, im, ran, -, encodes⟩ := yfsRun_encodes returns within
  refine ⟨seen, im, ran, fun consistent => ?_⟩
  have spares := spares_of_consistent [(.mkdir 1 .a, .zero), (.create 2 .a, .zero)]
    (.unlink 1 .a, .zero) [] ⟨_, _, rfl⟩ within ⟨seen, im, ran, consistent⟩ rfl
  have empty := spares [⟨[97], 2⟩] ⟨[97], 2⟩ [⟨[97], 3⟩] rfl rfl rfl
  cases empty

end Yfs
