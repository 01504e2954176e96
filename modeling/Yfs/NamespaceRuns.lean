import Yfs.NamespaceRefinement
import Yfs.YfsRuns

/-!
# Runs of the namespace

The disk after an allowed run encodes the namespace that the run leads to, so
what `get_inode` and `readdir` find on the disk can be read off the namespace.
-/

namespace Yfs

open ClientServer Machine

/-- The disk encodes the namespace. -/
def InodeManager.Encodes (host : Host) (im : InodeManager)
    (ns : Namespace) : Prop :=
  ∃ contents, im.Shows contents ∧ contents.Encodes host ns

namespace InodeManager.Encodes

variable {env : Env} {host : Host} {im : InodeManager} {ns : Namespace}

theorem isLive_iff (encodes : im.Encodes host ns) {id : Nat} :
    im.IsLive id ↔ ns.nodes id ≠ none := by
  rcases encodes with ⟨contents, shows, encodes⟩
  rw [shows.isLive_iff, encodes.ledger]
  cases ns.nodes id with
  | none => simp
  | some node => simp

theorem lists_iff (encodes : im.Encodes host ns) {dir : Nat}
    (inside : dir < inodeNum) {entries : List Dirent} :
    im.Lists env dir entries ↔ ns.nodes dir = some (.directory entries) := by
  rcases encodes with ⟨contents, shows, encodes⟩
  have here : inumOf (BitVec.ofNat 64 dir) = dir := inumOf_ofNat inside
  rw [shows.lists_iff]
  constructor
  · rintro ⟨isDir, listed⟩
    rw [Contents.typeOf, here, encodes.ledger] at isDir
    cases live : ns.nodes dir with
    | none =>
        rw [live] at isDir
        exact absurd isDir (show (0 : BitVec 32) ≠ tDir by decide)
    | some node =>
        rw [live] at isDir
        cases node with
        | directory bindings =>
            rw [← here] at live
            rw [← listed, encodes.entries_directory live]
        | file data => exact absurd isDir (show tFile ≠ tDir by decide)
        | symlink link => exact absurd isDir host.ne_dir
  · intro isDir
    rw [← here] at isDir
    exact ⟨encodes.typeOf_directory isDir, encodes.entries_directory isDir⟩

theorem finds (encodes : im.Encodes host ns) {parent : ExtentId}
    {bindings : List Dirent}
    (isDir : ns.nodes (inumOf parent) = some (.directory bindings)) (name : CString)
    (garbage : Garbage) :
    im.Finds env parent name garbage
      (match bound bindings name with
        | some entry => (.OK, true, entry.inum)
        | none => (.OK, false, garbage.ino)) := by
  rcases encodes with ⟨contents, shows, encodes⟩
  rw [shows.finds_iff]
  exact encodes.lookup_directory isDir name garbage

end InodeManager.Encodes

variable {env : Env} {host : Host} {calls : List Call}

/-- An allowed run within the limits happens on the disk. -/
theorem yfsRun_encodes {outputs : List Output} {ns : Namespace}
    (allowed : run Namespace.step .init calls = .ok (outputs, ns))
    (within : WithinLimits env.clock host calls) :
    ∃ seen im, yfsRun env host calls = .ok (seen, im) ∧
      seen.map Output.timeless = outputs ∧ im.Encodes host ns := by
  obtain ⟨contents, returned, encodes⟩ :=
    (Contents.init_encodes host).run allowed
  obtain ⟨seen, im, ran, same, shows⟩ := yfsRun_ok within returned
  exact ⟨seen, im, ran, same, contents, shows, encodes⟩

/-- What a run that returns leaves on the disk. -/
theorem encodes_of_yfsRun {outputs : List Output} {ns : Namespace}
    (allowed : run Namespace.step .init calls = .ok (outputs, ns))
    (within : WithinLimits env.clock host calls) {seen : List Output}
    {im : InodeManager} (ran : yfsRun env host calls = .ok (seen, im)) :
    seen.map Output.timeless = outputs ∧ im.Encodes host ns := by
  obtain ⟨others, last, again, same, encodes⟩ := yfsRun_encodes allowed within
  rw [ran] at again
  cases again
  exact ⟨same, encodes⟩

/-- The calls keep to the rules of the kernel. -/
def Allowed (calls : List Call) : Prop :=
  ∃ outputs ns, run Namespace.step .init calls = .ok (outputs, ns)

theorem Allowed.of_append {before later : List Call} (allowed : Allowed (before ++ later)) :
    Allowed before := by
  rcases allowed with ⟨outputs, ns, returns⟩
  obtain ⟨first, middle, rest, begun, -, -⟩ := run_append_ok returns
  exact ⟨first, middle, begun⟩

/-- An allowed run can be stopped before any of its calls. -/
theorem Allowed.step {before later : List Call} {call : Call}
    (allowed : Allowed (before ++ call :: later)) {outputs : List Output}
    {ns : Namespace} (begun : run Namespace.step .init before = .ok (outputs, ns)) :
    ∃ output next, ns.step call = .ok (output, next) ∧
      run Namespace.step .init (before ++ [call]) = .ok (outputs ++ [output], next) := by
  rcases allowed with ⟨all, final, returns⟩
  obtain ⟨first, middle, rest, again, ended, -⟩ := run_append_ok returns
  rw [begun] at again
  cases again
  obtain ⟨output, next, others, stepped, -, -⟩ := run_cons_ok ended
  exact ⟨output, next, stepped, run_append begun (run_cons stepped rfl)⟩

theorem wf_of_run {outputs : List Output} {ns : Namespace}
    (returns : run Namespace.step .init calls = .ok (outputs, ns)) : ns.WF :=
  run_preserves Namespace.WF (fun _ _ _ _ wf stepped => wf.step stepped) Namespace.wf_init returns

end Yfs
