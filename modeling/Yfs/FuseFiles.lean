import Yfs.FuseRuns

/-!
# Each file by itself

In a session the requests on one file are answered as if there were nothing but that
file, whatever is asked of the rest of the tree in between.  The file answers as the
handlers do: a write counts the gap before it, and a setting of the times takes
`st_size` for a new size.
-/

namespace Yfs

open ClientServer Machine

/-- The inode that a request addresses by its number, and not as a parent. -/
def FuseRequest.target : FuseRequest → Option ExtentId
  | .getattr ino => some ino
  | .readdir ino _ _ => some ino
  | .opened ino => some ino
  | .read ino _ _ => some ino
  | .write ino _ _ => some ino
  | .setattr ino _ _ => some ino
  | .readlink ino => some ino
  | _ => none

/-- The request, if it is one on the inode. -/
def requestOn (id : Nat) (request : FuseRequest × Garbage) : Option FuseRequest :=
  if request.1.target.map inumOf = some id then some request.1 else none

/-- What a file that is alone in the world answers: it is a string of bytes, and unwritten
bytes are zero. -/
def fileServe (fenv : FuseEnv) (data : List Byte) :
    FuseRequest → Except Misuse (FuseAnswer × List Byte)
  | .getattr ino => .ok (.attr (stat ino data), data)
  | .opened _ => .ok (.opened, data)
  | .readdir _ _ _ => .ok (.err .ENOTDIR, data)
  | .readlink _ => .ok (.err .ENOENT, data)
  | .read _ size off =>
      if off.toNat ≤ data.length then
        .ok (.buf ((data.drop off.toNat).take size.toNat), data)
      else .error .pastEnd
  | .write _ buf off =>
      if off.toNat + buf.length ≤ maxFile * blockSize then
        .ok (.write (BitVec.ofNat 64 (counted data off buf)),
          SparseFile.write 0 data off.toNat buf)
      else .error .tooLong
  | .setattr ino stSize toSet =>
      if (fenv.flags.size ||| fenv.flags.atime ||| fenv.flags.mtime) &&& toSet ≠ 0 then
        if stSize.toNat ≤ maxFile * blockSize then
          let after := SparseFile.resize 0 data stSize.toNat
          .ok (.attr (stat ino after), after)
        else .error .tooLong
      else .ok (.err .ENOSYS, data)
  | _ => .error .notFile
where
  stat (ino : ExtentId) (data : List Byte) : Stat :=
    Fuse.fileStat ino modeFile ⟨BitVec.ofNat 64 data.length, 0, 0, 0⟩

namespace Namespace

/-- The tree has the file, with the content. -/
def HasFile (id : Nat) (ns : Namespace) (data : List Byte) : Prop :=
  ns.WF ∧ ns.nodes id = some (.file data)

/-- The file has been unlinked. -/
def Lost (id : Nat) (ns : Namespace) : Prop :=
  ns.WF ∧ id ≤ ns.created ∧ ns.nodes id = none

section Steps

variable {fenv : FuseEnv} {ns next : Namespace} {id : Nat} {data : List Byte}
  {request : FuseRequest × Garbage} {answer : FuseAnswer}

theorem stat_of_file {ino : ExtentId} (isFile : ns.nodes (inumOf ino) = some (.file data)) :
    ns.stat ino = fileServe.stat ino data := by
  simp only [stat, size, isFile]
  rfl

/-- A request on the file is answered by the file. -/
theorem HasFile.answers (hasFile : ns.HasFile id data) {query : FuseRequest}
    (isOn : requestOn id request = some query)
    (served : ns.serve fenv request = .ok (answer, next)) :
    ∃ after, fileServe fenv data query = .ok (answer, after) ∧ next.HasFile id after := by
  rcases hasFile with ⟨wf, isFile⟩
  rcases request with ⟨request, garbage⟩
  have wfNext := wf.serve served
  rw [requestOn] at isOn
  split at isOn
  · rename_i target
    cases isOn
    obtain ⟨ino, isTarget, rfl⟩ := Option.map_eq_some_iff.mp target
    have file : ns.file ino = .ok data := by
      rw [Namespace.file, isFile]
    have directory : ns.directory ino = .error .notDirectory := by
      rw [Namespace.directory, isFile]
    have link : ns.link ino = .error .notSymlink := by
      rw [Namespace.link, isFile]
    cases request with
    | getattr other =>
        cases isTarget
        cases served
        exact ⟨data, by rw [fileServe, stat_of_file isFile], wf, isFile⟩
    | readdir other size off =>
        cases isTarget
        rw [serve, directory] at served
        cases served
        exact ⟨data, rfl, wf, isFile⟩
    | opened other =>
        cases served
        exact ⟨data, rfl, wf, isFile⟩
    | read other size off =>
        cases isTarget
        rw [serve, file] at served
        dsimp only at served
        split at served
        · rename_i inside
          cases served
          exact ⟨data, by rw [fileServe, if_pos inside], wf, isFile⟩
        · cases served
    | write other buf off =>
        cases isTarget
        obtain ⟨held, isHeld, served⟩ := bind_ok served
        cases file.symm.trans isHeld
        split at served
        · rename_i fits
          cases served
          exact ⟨_, by rw [fileServe, if_pos fits], wfNext, Function.update_self _ _ _⟩
        · cases served
    | setattr other stSize toSet =>
        cases isTarget
        rw [serve] at served
        split at served
        · rename_i sets
          obtain ⟨held, isHeld, served⟩ := bind_ok served
          cases file.symm.trans isHeld
          split at served
          · rename_i fits
            cases served
            have isAfter : (ns.rewrite (inumOf ino)
                (SparseFile.resize 0 data stSize.toNat)).nodes (inumOf ino) =
                  some (.file (SparseFile.resize 0 data stSize.toNat)) :=
              Function.update_self _ _ _
            refine ⟨_, ?_, wfNext, isAfter⟩
            rw [fileServe, if_pos sets, if_pos fits, stat_of_file isAfter]
          · cases served
        · rename_i sets
          cases served
          exact ⟨data, by rw [fileServe, if_neg sets], wf, isFile⟩
    | readlink other =>
        cases isTarget
        rw [serve, link] at served
        cases served
        exact ⟨data, rfl, wf, isFile⟩
    | _ => cases isTarget
  · cases isOn

theorem requestOn_of_writes (target : request.1.Writes id) :
    requestOn id request = some request.1 := by
  rcases request with ⟨request, garbage⟩
  cases request <;> cases target <;> exact if_pos rfl

/-- Any other request leaves the file as it is, or unlinks it. -/
theorem HasFile.stays (hasFile : ns.HasFile id data) (notOn : requestOn id request = none)
    (served : ns.serve fenv request = .ok (answer, next)) :
    next.HasFile id data ∨ next.Lost id := by
  rcases hasFile with ⟨wf, isFile⟩
  have wfNext := wf.serve served
  have made := (wf.live_le _ _ isFile).2
  have notDir {dir : Nat} {bindings : List Dirent}
      (isDir : ns.nodes dir = some (.directory bindings)) : id ≠ dir := by
    rintro rfl
    rw [isFile] at isDir
    cases isDir
  cases serve_effect served with
  | none => exact Or.inl ⟨wf, isFile⟩
  | bind isDir isName bare inside =>
      have notNew : id ≠ ns.created + 1 := by omega
      exact Or.inl ⟨wfNext, (bind_nodes_of_ne (notDir isDir) notNew).trans isFile⟩
  | @unbind parent bindings entry isDir member =>
      by_cases gone : id = inumOf entry.inum
      · subst gone
        exact Or.inr ⟨wfNext, made, unbind_nodes_target wf isDir member⟩
      · exact Or.inl ⟨wfNext, (unbind_nodes_of_ne (notDir isDir) gone).trans isFile⟩
  | @rewrite other old new target isOther fits =>
      have different : id ≠ other := by
        rintro rfl
        rw [requestOn_of_writes target] at notOn
        cases notOn
      exact Or.inl ⟨wfNext, (rewrite_nodes_of_ne different).trans isFile⟩

/-- A file that is lost does not come back. -/
theorem Lost.serve (lost : ns.Lost id) (served : ns.serve fenv request = .ok (answer, next)) :
    next.Lost id := by
  rcases lost with ⟨wf, made, isNone⟩
  have wfNext := wf.serve served
  cases serve_effect served with
  | none => exact ⟨wf, made, isNone⟩
  | bind isDir isName bare inside =>
      refine ⟨wfNext, Nat.le_succ_of_le made, ?_⟩
      by_contra live
      rcases (bind_live wf isDir).mp live with old | isNew
      · exact old isNone
      · omega
  | unbind isDir member =>
      refine ⟨wfNext, made, ?_⟩
      by_contra live
      exact ((unbind_live wf isDir member).mp live).1 isNone
  | rewrite target isOther fits =>
      refine ⟨wfNext, made, ?_⟩
      by_contra live
      exact (rewrite_live isOther).mp live isNone

/-- On the tree, a file that is kept is served by itself. -/
theorem HasFile.run {requests : List (FuseRequest × Garbage)} {answers : List FuseAnswer}
    {final : Namespace} (hasFile : ns.HasFile id data)
    (allowed : run (Namespace.serve fenv) ns requests = .ok (answers, final))
    (kept : final.nodes id ≠ none) :
    ∃ last, Machine.run (fileServe fenv) data (requests.filterMap (requestOn id)) =
      .ok (outputsOf (requestOn id) requests answers, last) ∧ final.HasFile id last := by
  have stillThere : ¬Lost id final := by
    intro lost
    exact kept lost.2.2
  apply run_projects _ _ _ hasFile allowed stillThere
  · intro state view request query answer next hasFile isOn served
    exact hasFile.answers isOn served
  · intro state view request answer next hasFile notOn served
    exact hasFile.stays notOn served
  · intro state request answer next lost served
    exact lost.serve served

end Steps

end Namespace

/-- From when a file is there, and if it is there at the end, every session serves it as if
it were alone: its answers, up to the times, and its content come from the requests on it. -/
theorem files_served_alone (env : Env) (fenv : FuseEnv)
    {before requests : List (FuseRequest × Garbage)} {earlier answers : List FuseAnswer}
    {ns final : Namespace} {id : Nat} {data : List Byte}
    (begun : run (Namespace.serve fenv) .init before = .ok (earlier, ns))
    (allowed : run (Namespace.serve fenv) ns requests = .ok (answers, final))
    (room : Always (Namespace.serve fenv) (Namespace.LeavesRoom fenv) .init
      (before ++ requests))
    (isFile : ns.nodes id = some (.file data)) (kept : final.nodes id ≠ none) :
    ∃ first seen im last, fuseRun env fenv (before ++ requests) = .ok (first ++ seen, im) ∧
      first.length = before.length ∧
      run (fileServe fenv) data (requests.filterMap (requestOn id)) =
        .ok (outputsOf (requestOn id) requests (seen.map FuseAnswer.timeless), last) ∧
      im.Encodes fenv.host final ∧ final.nodes id = some (.file last) := by
  obtain ⟨start, starts, encodes⟩ := init_encodes env fenv.host
  obtain ⟨all, im, returned, answered, encodesLast⟩ :=
    encodes.fuse_session env (run_append begun allowed) room
  obtain ⟨first, seen, rfl, same, rfl⟩ := List.map_eq_append_iff.mp answered
  have wf : ns.WF :=
    run_preserves Namespace.WF (fun _ _ _ _ wf served => wf.serve served) Namespace.wf_init begun
  obtain ⟨last, ran, -, isLast⟩ := Namespace.HasFile.run ⟨wf, isFile⟩ allowed kept
  refine ⟨first, seen, im, last, ?_, ?_, ran, encodesLast, isLast⟩
  · rw [fuseRun, starts]
    exact returned
  · have length := length_run begun
    rwa [← same, List.length_map] at length

/-- Another file is made and unlinked between the write to the first and its read. -/
def twoFiles : List (FuseRequest × Garbage) :=
  [(.write 2 [7, 8] 0, .zero), (.create 1 .bb, .zero), (.write 3 [9] 1, .zero),
    (.unlink 1 .bb, .zero), (.read 2 4096 0, .zero)]

theorem twoFiles_leavesRoom : Always (Namespace.serve .linux)
    (Namespace.LeavesRoom .linux) .init ([(.create 1 .a, .zero)] ++ twoFiles) := by
  apply Always.cons (Namespace.LeavesRoom.of_serve rfl (by decide)) rfl
  apply Always.cons (Namespace.LeavesRoom.of_serve rfl (by decide)) rfl
  apply Always.cons (Namespace.LeavesRoom.of_serve rfl (by decide)) rfl
  apply Always.cons (Namespace.LeavesRoom.of_serve rfl (by decide)) rfl
  apply Always.cons (Namespace.LeavesRoom.of_serve rfl (by decide)) rfl
  apply Always.cons (Namespace.LeavesRoom.of_serve rfl (by decide)) rfl
  trivial

theorem twoFiles_served_alone : ∃ first seen im last final,
    fuseRun .zero .linux ([(.create 1 .a, .zero)] ++ twoFiles) = .ok (first ++ seen, im) ∧
      first.length = 1 ∧
      run (fileServe .linux) [] [.write 2 [7, 8] 0, .read 2 4096 0] =
        .ok (outputsOf (requestOn 2) twoFiles (seen.map FuseAnswer.timeless), last) ∧
      im.Encodes FuseEnv.linux.host final ∧ final.nodes 2 = some (.file last) := by
  obtain ⟨first, seen, im, last, returned, length, ran, encodes, isLast⟩ :=
    files_served_alone .zero .linux
      (show run (Namespace.serve .linux) .init [(.create 1 .a, .zero)] = _ from rfl)
      (show run (Namespace.serve .linux) _ twoFiles = _ from rfl) twoFiles_leavesRoom
      (show Namespace.nodes _ 2 = some (.file []) from rfl)
      (Option.some_ne_none (Node.file [7, 8]))
  exact ⟨first, seen, im, last, _, returned, length, ran, encodes, isLast⟩

end Yfs
