import Yfs.FuseRefinement
import Yfs.Library.Machine
import Yfs.NamespaceRuns
import Yfs.PagedListing
import Yfs.SetattrRuns

/-!
# Runs of the FUSE server

A mounted file system answers one request after another.  As long as the requests
are allowed and the tree fits on the disk, the answers are those of the tree.
-/

namespace Yfs

open ClientServer Machine
open ClientServer.Program (Ensures)

/-- Mount a new file system and answer the requests. -/
def fuseRun (env : Env) (fenv : FuseEnv) (requests : List (FuseRequest × Garbage)) :
    Except Fault (List FuseAnswer × InodeManager) := do
  let im ← InodeManager.init env
  (session (fuseserverOper fenv) requests).run (ExtentServer.serve env) im

/-- The tree after the request fits on the disk. -/
def Namespace.LeavesRoom (fenv : FuseEnv) (ns : Namespace)
    (request : FuseRequest × Garbage) : Prop :=
  ∀ answer next, ns.serve fenv request = .ok (answer, next) → next.HasRoom

theorem Namespace.LeavesRoom.of_serve {fenv : FuseEnv} {ns next : Namespace}
    {request : FuseRequest × Garbage} {answer : FuseAnswer}
    (served : ns.serve fenv request = .ok (answer, next)) (room : next.HasRoom) :
    ns.LeavesRoom fenv request := by
  intro other last again
  rw [served] at again
  cases again
  exact room

/-- From a disk that encodes a tree, allowed requests are answered from the tree. -/
theorem InodeManager.Encodes.fuse_session (env : Env) {fenv : FuseEnv}
    {requests : List (FuseRequest × Garbage)} {answers : List FuseAnswer}
    {im : InodeManager} {ns final : Namespace} (encodes : im.Encodes fenv.host ns)
    (allowed : run (Namespace.serve fenv) ns requests = .ok (answers, final))
    (room : Always (Namespace.serve fenv) (Namespace.LeavesRoom fenv) ns requests) :
    ∃ seen last,
      (session (fuseserverOper fenv) requests).run (ExtentServer.serve env) im =
        .ok (seen, last) ∧
      seen.map FuseAnswer.timeless = answers ∧ last.Encodes fenv.host final := by
  rcases encodes with ⟨contents, ⟨map, holds, shows⟩, encodes⟩
  have followed : Ensures (ExtentMap.serve env.clock) (session (fuseserverOper fenv) requests)
      map (fun seen last => seen.map FuseAnswer.timeless = answers ∧
        last.Encodes fenv.host final) (fun _ => False) := by
    apply session_follows _ ⟨contents, shows, encodes⟩ room allowed
    intro before tree request answer next encodes roomy served
    exact oper_follows encodes served (roomy answer next served)
  have served := (simulates_map env).run (session (fuseserverOper fenv) requests) holds
  cases onMap : (session (fuseserverOper fenv) requests).run (ExtentMap.serve env.clock)
      map with
  | error fault => exact absurd onMap fun stopped => followed.error stopped
  | ok answer =>
      rcases answer with ⟨seen, after⟩
      obtain ⟨same, others, showsLast, encodesLast⟩ := followed.ok onMap
      rw [onMap] at served
      rcases served with ⟨last, returned, holdsLast⟩
      exact ⟨seen, last, returned, same, others, ⟨after, holdsLast, showsLast⟩, encodesLast⟩

theorem init_encodes (env : Env) (host : Host) :
    ∃ im, InodeManager.init env = .ok im ∧ im.Encodes host .init := by
  obtain ⟨im, starts, holds⟩ := init_holds env
  exact ⟨im, starts, Contents.init, ⟨_, holds, ExtentMap.init_shows env.clock⟩,
    Contents.init_encodes host⟩

/-- The FUSE server is the tree of directories, files and links: it answers every
allowed request, and the disk holds the tree. -/
theorem fuse_answers_from_tree (env : Env) (fenv : FuseEnv)
    {requests : List (FuseRequest × Garbage)} {answers : List FuseAnswer} {ns : Namespace}
    (allowed : run (Namespace.serve fenv) .init requests = .ok (answers, ns))
    (room : Always (Namespace.serve fenv) (Namespace.LeavesRoom fenv) .init requests) :
    ∃ seen im, fuseRun env fenv requests = .ok (seen, im) ∧
      seen.map FuseAnswer.timeless = answers ∧ im.Encodes fenv.host ns := by
  obtain ⟨start, starts, encodes⟩ := init_encodes env fenv.host
  rw [fuseRun, starts]
  exact encodes.fuse_session env allowed room

/-- The type code 3, and the FUSE library on a little-endian machine. -/
def FuseEnv.linux : FuseEnv where
  flags := .fuse
  fuse := .littleEndian
  host := .three

/-- A file is made, and two bytes are written; the root is listed, and the bytes
are read back. -/
def writeAndRead : List (FuseRequest × Garbage) :=
  [(.create 1 .a, .zero), (.write 2 [7, 8] 0, .zero), (.lookup 1 .a, .zero),
    (.read 2 4096 0, .zero)]

theorem writeAndRead_leavesRoom : Always (Namespace.serve .linux)
    (Namespace.LeavesRoom .linux) .init writeAndRead := by
  apply Always.cons (Namespace.LeavesRoom.of_serve rfl (by decide)) rfl
  apply Always.cons (Namespace.LeavesRoom.of_serve rfl (by decide)) rfl
  apply Always.cons (Namespace.LeavesRoom.of_serve rfl (by decide)) rfl
  apply Always.cons (Namespace.LeavesRoom.of_serve rfl (by decide)) rfl
  trivial

theorem writeAndRead_answers :
    ∃ seen im ns, fuseRun .zero .linux writeAndRead = .ok (seen, im) ∧
      seen.map FuseAnswer.timeless =
        [.create (Fuse.entryParam 2 (Fuse.fileStat 2 modeFile ⟨0, 0, 0, 0⟩)), .write 2,
          .entry (Fuse.entryParam 2 (Fuse.fileStat 2 modeFile ⟨2, 0, 0, 0⟩)), .buf [7, 8]] ∧
      im.Encodes FuseEnv.linux.host ns := by
  obtain ⟨seen, im, returned, answered, encodes⟩ :=
    fuse_answers_from_tree .zero .linux
      (show run (Namespace.serve .linux) .init writeAndRead = _ from rfl)
      writeAndRead_leavesRoom
  exact ⟨seen, im, _, returned, answered, encodes⟩

section Reads

variable {fenv : FuseEnv} {ns next : Namespace}

/-- What an allowed write leaves in the file. -/
theorem Namespace.Keeps.of_write {ino : ExtentId} {buf : List Byte} {off : BitVec 64}
    {garbage : Garbage} {answer : FuseAnswer} (wf : ns.WF)
    (served : ns.serve fenv (.write ino buf off, garbage) = .ok (answer, next)) :
    ∃ old, next.Keeps (inumOf ino) (SparseFile.write 0 old off.toNat buf) := by
  have wfNext := wf.serve served
  obtain ⟨old, found, served⟩ := bind_ok served
  split at served
  · cases served
    refine ⟨old, wfNext, (wf.live_le _ _ (Namespace.file_ok found)).2, ?_⟩
    intro held isFile
    simp only [Namespace.rewrite, Function.update_self] at isFile
    cases isFile
    rfl
  · cases served

/-- What is read of a file comes from its content. -/
theorem Namespace.Keeps.read {ino : ExtentId} {size off : BitVec 64} {garbage : Garbage}
    {data bytes : List Byte} (keeps : ns.Keeps (inumOf ino) data)
    (served : ns.serve fenv (.read ino size off, garbage) = .ok (.buf bytes, next)) :
    bytes = (data.drop off.toNat).take size.toNat := by
  rw [Namespace.serve] at served
  split at served
  · rename_i held isFile
    obtain rfl := keeps.content held (Namespace.file_ok isFile)
    split at served
    · cases served
      rfl
    · cases served
  · cases served

theorem take_read_write (old buf : List Byte) (off size : Nat) :
    (((SparseFile.write 0 old off buf).drop off).take size).take buf.length =
      buf.take size := by
  have before : (old.take off ++ List.replicate (off - old.length) (0 : Byte)).length = off := by
    rw [List.length_append, List.length_take, List.length_replicate]
    omega
  rw [SparseFile.write_eq, List.append_assoc, List.drop_left' before, List.take_take,
    min_comm, ← List.take_take, List.take_left]

/-- A file reads as it was last written, whatever was asked in between that does not
write to it. -/
theorem read_returns_written (env : Env) (fenv : FuseEnv)
    {requests before between : List (FuseRequest × Garbage)} {ino : ExtentId}
    {buf : List Byte} {size off : BitVec 64} {garbage other : Garbage}
    (split : requests = before ++ (.write ino buf off, garbage) ::
      (between ++ [(.read ino size off, other)]))
    (allowed : ∃ answers ns, run (Namespace.serve fenv) .init requests = .ok (answers, ns))
    (room : Always (Namespace.serve fenv) (Namespace.LeavesRoom fenv) .init requests)
    (unwritten : ∀ request ∈ between, ¬request.1.Writes (inumOf ino))
    {seen : List FuseAnswer} {bytes : List Byte} {im : InodeManager}
    (returns : fuseRun env fenv requests = .ok (seen ++ [.buf bytes], im)) :
    bytes.take buf.length = buf.take size.toNat := by
  rcases allowed with ⟨answers, final, ran⟩
  obtain ⟨start, starts, encodes⟩ := init_encodes env fenv.host
  obtain ⟨others, last, again, same, -⟩ := encodes.fuse_session env ran room
  rw [fuseRun, starts] at returns
  cases again.symm.trans returns
  rw [List.map_append] at same
  rw [split] at ran
  obtain ⟨first, middle, rest, begun, ended, rfl⟩ := run_append_ok ran
  obtain ⟨count, written, later, wrote, remaining, rfl⟩ := run_cons_ok ended
  obtain ⟨answered, kept, tail, went, finished, rfl⟩ := run_append_ok remaining
  obtain ⟨answer, ended, nothing, reads, stops, rfl⟩ := run_cons_ok finished
  cases stops
  have isBytes : answer = .buf bytes := by
    have ends : seen.map FuseAnswer.timeless ++ [.buf bytes] =
        (first ++ count :: answered) ++ [answer] := by
      rw [List.append_assoc, List.cons_append]
      exact same
    exact (List.append_inj' ends rfl).2 |> List.head_eq_of_cons_eq |>.symm
  subst isBytes
  have wf : middle.WF :=
    run_preserves Namespace.WF (fun _ _ _ _ wf served => wf.serve served) Namespace.wf_init begun
  obtain ⟨old, keeps⟩ := Namespace.Keeps.of_write wf wrote
  have keepsLast : kept.Keeps (inumOf ino) (SparseFile.write 0 old off.toNat buf) := by
    apply run_preserves_of_mem
      (fun ns => ns.Keeps (inumOf ino) (SparseFile.write 0 old off.toNat buf)) _ keeps went
    intro ns request _ next member keeps served
    exact keeps.serve (unwritten request member) served
  rw [keepsLast.read reads]
  exact take_read_write old buf off.toNat size.toNat

/-- The name is looked up between the write and the read. -/
theorem writeAndRead_reads :
    ∃ seen bytes im, fuseRun .zero .linux writeAndRead = .ok (seen ++ [.buf bytes], im) ∧
      bytes.take 2 = [7, 8] := by
  have allowed : ∃ answers ns, run (Namespace.serve .linux) .init writeAndRead =
      .ok (answers ++ [.buf [7, 8]], ns) := ⟨[_, _, _], _, rfl⟩
  obtain ⟨answers, ns, ran⟩ := allowed
  obtain ⟨start, starts, encodes⟩ := init_encodes .zero FuseEnv.linux.host
  obtain ⟨seen, im, returned, answered, -⟩ :=
    encodes.fuse_session .zero ran writeAndRead_leavesRoom
  obtain ⟨front, tail, rfl, -, ends⟩ := List.map_eq_append_iff.mp answered
  obtain ⟨answer, rfl, same⟩ := List.map_eq_singleton_iff.mp ends
  have isBytes := FuseAnswer.timeless_eq_buf same
  subst isBytes
  have returns : fuseRun .zero .linux writeAndRead = .ok (front ++ [.buf [7, 8]], im) := by
    rw [fuseRun, starts]
    exact returned
  refine ⟨front, [7, 8], im, returns, ?_⟩
  exact read_returns_written .zero .linux
    (show writeAndRead = [(.create 1 .a, .zero)] ++ (.write 2 [7, 8] 0, .zero) ::
      ([(.lookup 1 .a, .zero)] ++ [(.read 2 4096 0, .zero)]) from rfl)
    ⟨_, _, ran⟩ writeAndRead_leavesRoom (by simp [FuseRequest.Writes]) returns

end Reads

end Yfs
