import Yfs.ContentsRefinement
import Yfs.Library.Machine
import Yfs.Ownership

/-!
# Runs of the file system

A run starts from a new inode manager, as `main` does, and performs calls of
`yfs_client`.  Within the limits of the store its outputs, its fault and the
contents of its disk are those of `Contents.step`, call by call.
-/

namespace Yfs

open ClientServer Machine
open ClientServer.Program (Ensures)

/-- Start the file system and perform the calls. -/
def yfsRun (env : Env) (host : Host) (calls : List Call) :
    Except Fault (List Output × InodeManager) := do
  let im ← InodeManager.init env
  (session (perform host) calls).run (ExtentServer.serve env) im

/-- The calls never need more inodes, a longer extent or more blocks than the
store has. -/
def WithinLimits (clock : Nat → BitVec 32) (host : Host)
    (calls : List Call) : Prop :=
  (session (perform host) calls).run (ExtentMap.serve clock)
    (ExtentMap.init clock) ≠ .error .beyondLimits

theorem WithinLimits.of_append {clock : Nat → BitVec 32} {host : Host}
    {before later : List Call} (within : WithinLimits clock host (before ++ later)) :
    WithinLimits clock host before := by
  intro beyond
  apply within
  rw [run_session_append, beyond]

/-- A run that returns is within the limits. -/
theorem withinLimits_of_ok {clock : Nat → BitVec 32} {host : Host}
    {calls : List Call} {answer : List Output × ExtentMap}
    (returns : (session (perform host) calls).run (ExtentMap.serve clock)
      (ExtentMap.init clock) = .ok answer) : WithinLimits clock host calls := by
  rw [WithinLimits, returns]
  simp only [ne_eq, reduceCtorEq, not_false_eq_true]

theorem Holds.isLive_iff {im : InodeManager} {map : ExtentMap} (holds : Holds im map)
    {id : Nat} : im.IsLive id ↔ map.extents id ≠ none := by
  rcases holds with ⟨layout, represents, abstracts⟩
  rw [represents.isLive_iff, abstracts.extents]
  cases layout.files id with
  | none => simp
  | some file => simp

/-- The disk holds the contents. -/
def InodeManager.Shows (im : InodeManager) (contents : Contents) : Prop :=
  ∃ map, Holds im map ∧ map.Shows contents

theorem ExtentMap.init_shows (clock : Nat → BitVec 32) :
    (ExtentMap.init clock).Shows Contents.init :=
  ⟨rfl, Views.root clock, ExtentMap.wf_init clock⟩

section Transfer

variable {env : Env} {host : Host} {calls : List Call}

/-- A run of calls on a map refines the run on its contents. -/
theorem calls_refine {clock : Nat → BitVec 32} {map : ExtentMap} {contents : Contents}
    (shows : map.Shows contents) (calls : List Call) :
    Ensures (ExtentMap.serve clock) (session (perform host) calls) map
      (fun seen after => ∃ final,
        run (Contents.step host) contents calls =
          .ok (seen.map Output.timeless, final) ∧ after.Shows final)
      (fun fault => fault = .beyondLimits ∨
        run (Contents.step host) contents calls = .error fault) :=
  session_refines
    (fun _ _ call related => perform_refines host related call) calls shows

/-- Within the limits, a session on the server goes as the contents say. -/
theorem session_shows {im : InodeManager} {map : ExtentMap} {contents : Contents}
    (holds : Holds im map) (shows : map.Shows contents)
    (within : (session (perform host) calls).run (ExtentMap.serve env.clock) map ≠
      .error .beyondLimits) :
    match run (Contents.step host) contents calls with
    | .ok (outputs, final) => ∃ seen last,
        (session (perform host) calls).run (ExtentServer.serve env) im =
          .ok (seen, last) ∧ seen.map Output.timeless = outputs ∧ last.Shows final
    | .error fault =>
        (session (perform host) calls).run (ExtentServer.serve env) im =
          .error fault := by
  have served := (simulates_map env).run (session (perform host) calls) holds
  cases onMap : (session (perform host) calls).run (ExtentMap.serve env.clock)
      map with
  | error fault =>
      rw [onMap] at within served
      rcases (calls_refine shows calls).error onMap with beyond | stopped
      · rw [beyond] at within
        exact absurd rfl within
      · rw [stopped]
        rcases served with beyond | same
        · rw [beyond] at within
          exact absurd rfl within
        · exact same
  | ok answer =>
      rcases answer with ⟨seen, after⟩
      obtain ⟨final, returned, showsFinal⟩ := (calls_refine shows calls).ok onMap
      rw [onMap] at served
      rcases served with ⟨last, same, holdsLast⟩
      rw [returned]
      exact ⟨seen, last, same, rfl, after, holdsLast, showsFinal⟩

/-- Nor do the contents go beyond the limits. -/
theorem WithinLimits.contents {clock : Nat → BitVec 32}
    (within : WithinLimits clock host calls) :
    run (Contents.step host) Contents.init calls ≠ .error .beyondLimits := by
  intro beyond
  have shows := ExtentMap.init_shows clock
  cases onMap : (session (perform host) calls).run (ExtentMap.serve clock)
      (ExtentMap.init clock) with
  | error fault =>
      rcases (calls_refine shows calls).error onMap with limit | stopped
      · rw [limit] at onMap
        exact within onMap
      · rw [beyond] at stopped
        cases stopped
        exact within onMap
  | ok answer =>
      obtain ⟨final, returned, -⟩ := (calls_refine shows calls).ok onMap
      rw [beyond] at returned
      cases returned

theorem yfsRun_shows (within : WithinLimits env.clock host calls) :
    match run (Contents.step host) Contents.init calls with
    | .ok (outputs, contents) => ∃ seen im,
        yfsRun env host calls = .ok (seen, im) ∧
          seen.map Output.timeless = outputs ∧ im.Shows contents
    | .error fault => yfsRun env host calls = .error fault := by
  obtain ⟨start, starts, holds⟩ := init_holds env
  have shown := session_shows holds (ExtentMap.init_shows env.clock) within
  rw [yfsRun, starts]
  exact shown

/-- What the contents can do, the disk does. -/
theorem yfsRun_ok (within : WithinLimits env.clock host calls)
    {outputs : List Output} {contents : Contents}
    (returns : run (Contents.step host) Contents.init calls =
      .ok (outputs, contents)) :
    ∃ seen im, yfsRun env host calls = .ok (seen, im) ∧
      seen.map Output.timeless = outputs ∧ im.Shows contents := by
  have shown := yfsRun_shows within
  rw [returns] at shown
  exact shown

/-- The disk holds what the contents of the run say. -/
theorem yfsRun_returns (within : WithinLimits env.clock host calls)
    {seen : List Output} {im : InodeManager}
    (returns : yfsRun env host calls = .ok (seen, im)) :
    ∃ contents, run (Contents.step host) Contents.init calls =
      .ok (seen.map Output.timeless, contents) ∧ im.Shows contents := by
  have shown := yfsRun_shows within
  cases said : run (Contents.step host) Contents.init calls with
  | error fault =>
      rw [said, returns] at shown
      cases shown
  | ok answer =>
      rcases answer with ⟨outputs, contents⟩
      rw [said, returns] at shown
      rcases shown with ⟨same, last, equal, rfl, shows⟩
      cases equal
      exact ⟨contents, rfl, shows⟩

theorem yfsRun_error_iff (within : WithinLimits env.clock host calls)
    {fault : Fault} :
    yfsRun env host calls = .error fault ↔
      run (Contents.step host) Contents.init calls = .error fault := by
  have shown := yfsRun_shows within
  cases said : run (Contents.step host) Contents.init calls with
  | error other =>
      rw [said] at shown
      rw [shown, Except.error.injEq, Except.error.injEq]
  | ok answer =>
      rw [said] at shown
      rcases shown with ⟨seen, im, returned, -⟩
      rw [returned]
      simp only [reduceCtorEq]

end Transfer

namespace InodeManager

/-- What `readdir` lists for an inode. -/
def Lists (env : Env) (im : InodeManager) (dir : Nat) (entries : List Dirent) : Prop :=
  ∃ after, (YfsClient.readdir (BitVec.ofNat 64 dir) []).run (ExtentServer.serve env) im =
    .ok ((.OK, entries), after)

/-- The result of `lookup`. -/
def Finds (env : Env) (im : InodeManager) (parent : ExtentId) (name : CString)
    (garbage : Garbage) (result : Status × Bool × ExtentId) : Prop :=
  ∃ after, (YfsClient.lookup parent name garbage.exist garbage.ino).run
    (ExtentServer.serve env) im = .ok (result, after)

namespace Shows

variable {env : Env} {im : InodeManager} {contents : Contents}

theorem isLive_iff (shows : im.Shows contents) {id : Nat} :
    im.IsLive id ↔ contents.ledger id ≠ none := by
  rcases shows with ⟨map, holds, shows⟩
  rw [holds.isLive_iff, shows.views]
  exact Option.map_eq_none_iff.not.symm

/-- What a client program ensures on every map with the contents, it ensures on
the disk. -/
theorem run {β : Type} {program : Client β} {post : β → ExtentMap → Prop}
    (shows : im.Shows contents)
    (ensures : ∀ map, map.Shows contents → Ensures (ExtentMap.serve env.clock)
      program map post (fun _ => False)) :
    ∃ value after map, program.run (ExtentServer.serve env) im = .ok (value, after) ∧
      Holds after map ∧ post value map := by
  rcases shows with ⟨map, holds, showsMap⟩
  have served := (simulates_map env).run program holds
  cases onMap : program.run (ExtentMap.serve env.clock) map with
  | error fault => exact absurd onMap fun stopped => (ensures map showsMap).error stopped
  | ok answer =>
      rcases answer with ⟨value, after⟩
      rw [onMap] at served
      rcases served with ⟨last, same, holdsLast⟩
      exact ⟨value, last, after, same, holdsLast, (ensures map showsMap).ok onMap⟩

/-- A client program that only reads gives on the disk what it gives on the
contents. -/
theorem run_eq {β : Type} {program : Client β} {result : β}
    (shows : im.Shows contents)
    (ensures : ∀ map, map.Shows contents → Ensures (ExtentMap.serve env.clock)
      program map (fun value _ => value = result) (fun _ => False)) :
    ∃ after, program.run (ExtentServer.serve env) im = .ok (result, after) := by
  obtain ⟨value, after, map, returned, -, rfl⟩ := shows.run ensures
  exact ⟨after, returned⟩

theorem lists_iff (shows : im.Shows contents) {dir : Nat} {entries : List Dirent} :
    Lists env im dir entries ↔
      contents.typeOf (BitVec.ofNat 64 dir) = tDir ∧
        contents.entries (BitVec.ofNat 64 dir) = entries := by
  have read : ∃ after, (YfsClient.readdir (BitVec.ofNat 64 dir) []).run
      (ExtentServer.serve env) im =
        .ok ((if contents.typeOf (BitVec.ofNat 64 dir) = tDir then .OK else .IOERR,
          contents.entries (BitVec.ofNat 64 dir)), after) :=
    shows.run_eq fun map showsMap => Ensures.of_bind_pure
      (ensures_readdir showsMap fun after _ => rfl)
  rcases read with ⟨after, returned⟩
  rw [Lists, returned]
  simp only [Except.ok.injEq, Prod.mk.injEq]
  constructor
  · rintro ⟨last, ⟨ok, same⟩, -⟩
    refine ⟨?_, same⟩
    by_contra notDir
    rw [if_neg notDir] at ok
    cases ok
  · rintro ⟨isDir, same⟩
    exact ⟨after, ⟨if_pos isDir, same⟩, rfl⟩

theorem finds_iff (shows : im.Shows contents) {parent : ExtentId} {name : CString}
    {garbage : Garbage} {result : Status × Bool × ExtentId} :
    Finds env im parent name garbage result ↔
      contents.lookup parent name garbage = result := by
  have read : ∃ after, (YfsClient.lookup parent name garbage.exist garbage.ino).run
      (ExtentServer.serve env) im = .ok (contents.lookup parent name garbage, after) :=
    shows.run_eq fun map showsMap => Ensures.of_bind_pure
      (ensures_lookup showsMap fun after _ => rfl)
  rcases read with ⟨after, returned⟩
  rw [Finds, returned]
  simp only [Except.ok.injEq, Prod.mk.injEq]
  constructor
  · rintro ⟨last, same, -⟩
    exact same
  · intro same
    exact ⟨after, same, rfl⟩

end Shows

end InodeManager

/-- A type code for symbolic links, and memory for strings of a gibibyte. -/
def Host.three : Host where
  code := 3
  ne_zero := by decide
  narrow := by decide
  ne_dir := by decide
  ne_file := by decide
  maxString := 2 ^ 30
  holdsFiles := by decide

/-- The name `a`. -/
def CString.a : CString where
  text := [97]
  noNul := by decide

def Garbage.zero : Garbage := ⟨false, 0⟩

/-- A file of one byte. -/
def oneByte : List Call :=
  [(.create 1 .a, .zero), (.write 2 0 [7], .zero)]

theorem oneByte_run :
    ∃ seen im contents, yfsRun Env.zero .three oneByte = .ok (seen, im) ∧
      im.IsLive (inumOf 2) ∧ im.Shows contents ∧
        contents.ledger (inumOf 2) = some (tFile, [7]) := by
  have said : ∃ outputs contents, run (Contents.step .three) Contents.init oneByte =
      .ok (outputs, contents) ∧ contents.ledger (inumOf 2) = some (tFile, [7]) :=
    ⟨_, _, rfl, rfl⟩
  rcases said with ⟨outputs, contents, said, entry⟩
  have within : WithinLimits Env.zero.clock .three oneByte := withinLimits_of_ok rfl
  obtain ⟨seen, im, returns, -, shows⟩ := yfsRun_ok within said
  have live : im.IsLive (inumOf 2) := by
    rw [shows.isLive_iff, entry]
    exact Option.some_ne_none _
  exact ⟨seen, im, contents, returns, live, shows, entry⟩

end Yfs
