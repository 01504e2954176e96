import Yfs.ExtentMapRefinement

/-!
# Runs of the extent server

A client that keeps the requests it sent and the replies it got knows, for each
inode, the type given at `create` and the bytes of the latest `put`.  The server
replies as that ledger says, for runs of any length within the limits of the
store.
-/

namespace Yfs

open ClientServer

/-- A request with its reply. -/
abbrev Exchange := (request : ExtentRequest) × ExtentReply request

def exchange (request : ExtentRequest) :
    Program ExtentRequest ExtentReply Fault Exchange := do
  let reply ← Program.send request
  return ⟨request, reply⟩

theorem run_exchange {State : Type}
    (server : Server ExtentRequest ExtentReply Fault State)
    {request : ExtentRequest} {state after : State} {output : Exchange} :
    (exchange request).run server state = .ok (output, after) ↔
      ∃ reply, server request state = .ok (reply, after) ∧
        output = ⟨request, reply⟩ := by
  rw [exchange, Program.run_bind, Program.run_send]
  cases server request state with
  | error error => simp
  | ok answer =>
      rcases answer with ⟨reply, next⟩
      simp only [Program.run_pure, Except.ok.injEq, Prod.mk.injEq]
      constructor
      · rintro ⟨rfl, rfl⟩
        exact ⟨reply, ⟨rfl, rfl⟩, rfl⟩
      · rintro ⟨_, ⟨rfl, rfl⟩, rfl⟩
        exact ⟨rfl, rfl⟩

/-- One more request after a session. -/
theorem run_exchange_snoc {State : Type}
    (server : Server ExtentRequest ExtentReply Fault State)
    {requests : List ExtentRequest} {history : List Exchange} {start state after : State}
    {request : ExtentRequest} {reply : ExtentReply request}
    (returns : (session exchange requests).run server start = .ok (history, state))
    (served : server request state = .ok (reply, after)) :
    (session exchange (requests ++ [request])).run server start =
      .ok (history ++ [⟨request, reply⟩], after) := by
  rw [run_session_append, returns]
  dsimp only
  rw [run_session_cons, (run_exchange _).mpr ⟨reply, served, rfl⟩]
  rfl

/-- What the plain map allows, the disk has room for. -/
theorem layout_returns (clock : Nat → BitVec 32) (requests : List ExtentRequest)
    {history : List Exchange} {map : ExtentMap}
    (allowed : (session exchange requests).run (ExtentMap.serve clock)
      (ExtentMap.init clock) = .ok (history, map)) :
    ∃ layout, (session exchange requests).run (Layout.serve clock) (Layout.init clock) =
      .ok (history, layout) ∧ layout.Abstracts map := by
  have runs := (layout_simulates_map clock).run (session exchange requests)
    (Layout.abstracts_init clock)
  rw [allowed] at runs
  exact runs

/-- A run within the limits of the disk returns, whatever memory holds. -/
theorem server_returns (env : Env) {requests : List ExtentRequest} {history : List Exchange}
    {layout : Layout} (allowed : (session exchange requests).run (Layout.serve env.clock)
      (Layout.init env.clock) = .ok (history, layout)) :
    ∃ start im, InodeManager.init env = .ok start ∧
      (session exchange requests).run (ExtentServer.serve env) start = .ok (history, im) ∧
      Represents im layout := by
  obtain ⟨start, starts, represents⟩ := init_represents env
  have runs := (simulates_layout env).run (session exchange requests) represents
  rw [allowed] at runs
  rcases runs with ⟨im, returns, representsAfter⟩
  exact ⟨start, im, starts, returns, representsAfter⟩

/-- The type and the bytes of each live inode. -/
abbrev Ledger := Nat → Option (BitVec 32 × List Byte)

namespace Ledger

/-- An empty root directory. -/
def root : Ledger := Function.update (fun _ => none) 1 (some (tDir, []))

def record (ledger : Ledger) : Exchange → Ledger
  | ⟨.create type, (_, id)⟩ => Function.update ledger (inumOf id) (some (type, []))
  | ⟨.put id buf, _⟩ => Function.update ledger (inumOf id)
      ((ledger (inumOf id)).map fun entry => (entry.1, buf))
  | ⟨.remove id, _⟩ => Function.update ledger (inumOf id) none
  | ⟨.get _, _⟩ => ledger
  | ⟨.getattr _, _⟩ => ledger

/-- The ledger after a history. -/
def of (history : List Exchange) : Ledger :=
  history.foldl record root

/-- The reply is what the ledger says. -/
def Explains (ledger : Ledger) : Exchange → Prop
  | ⟨.create _, (status, id)⟩ => status = .OK ∧ ledger (inumOf id) = none
  | ⟨.put _ _, status⟩ => status = .OK
  | ⟨.get id, (status, buf)⟩ =>
      status = .OK ∧ (ledger (inumOf id)).map Prod.snd = some buf
  | ⟨.getattr id, (status, attr)⟩ =>
      status = .OK ∧ (attr.type, attr.size.toNat) =
        ((ledger (inumOf id)).map fun entry => (entry.1, entry.2.length)).getD (0, 0)
  | ⟨.remove _, status⟩ => status = .OK

end Ledger

/-- The inode an exchange is about. -/
def Exchange.inum : Exchange → Nat
  | ⟨.create _, (_, id)⟩ => inumOf id
  | ⟨.put id _, _⟩ => inumOf id
  | ⟨.get id, _⟩ => inumOf id
  | ⟨.getattr id, _⟩ => inumOf id
  | ⟨.remove id, _⟩ => inumOf id

/-- The ledger holds the types and the bytes of the map. -/
def Views (ledger : Ledger) (map : ExtentMap) : Prop :=
  ∀ id, ledger id = (map.extents id).map fun extent => (extent.type, extent.data)

namespace Views

variable {ledger : Ledger} {map after : ExtentMap} {clock : Nat → BitVec 32}

theorem root (clock : Nat → BitVec 32) : Views Ledger.root (ExtentMap.init clock) := by
  intro id
  simp only [Ledger.root, ExtentMap.init]
  by_cases same : id = 1
  · subst same
    rfl
  · rw [Function.update_of_ne same, Function.update_of_ne same, Option.map_none]

theorem update (views : Views ledger map) {id : Nat} {new : Option Extent}
    {entry : Option (BitVec 32 × List Byte)}
    (extents : after.extents = Function.update map.extents id new)
    (same : entry = new.map fun extent => (extent.type, extent.data)) :
    Views (Function.update ledger id entry) after := by
  intro other
  rw [extents]
  by_cases equal : other = id
  · subst equal
    rw [Function.update_self, Function.update_self, same]
  · rw [Function.update_of_ne equal, Function.update_of_ne equal, views]

/-- One answered request: the ledger explains the reply and stays in step. -/
theorem step (views : Views ledger map) (wf : map.WF) {request : ExtentRequest}
    {reply : ExtentReply request}
    (served : ExtentMap.serve clock request map = .ok (reply, after)) :
    ledger.Explains ⟨request, reply⟩ ∧
      Views (ledger.record ⟨request, reply⟩) after := by
  cases request with
  | create type =>
      obtain ⟨⟨inside, -⟩, rfl, rfl⟩ := ExtentMap.create_ok served
      refine ⟨⟨rfl, ?_⟩, ?_⟩
      · rw [inumOf_ofNat inside, views, wf.dead_next, Option.map_none]
      · simp only [Ledger.record, inumOf_ofNat inside]
        exact views.update rfl rfl
  | put id buf =>
      obtain ⟨extent, live, -, -, rfl, rfl⟩ := ExtentMap.put_ok served
      refine ⟨rfl, views.update rfl ?_⟩
      rw [views, live]
      rfl
  | get id =>
      obtain ⟨extent, live, rfl, rfl⟩ := ExtentMap.get_ok served
      refine ⟨⟨rfl, ?_⟩, ?_⟩
      · rw [views, live]
        rfl
      · have accessed : Views
            (Function.update ledger (inumOf id) (ledger (inumOf id)))
            ⟨map.created, map.ticks + 1, Function.update map.extents (inumOf id)
              (some (extent.accessed (clock map.ticks)))⟩ := by
          apply views.update rfl
          rw [views, live]
          rfl
        rwa [Function.update_eq_self] at accessed
  | getattr id =>
      obtain ⟨rfl, rfl⟩ := ExtentMap.getattr_ok served
      refine ⟨⟨rfl, ?_⟩, views⟩
      rw [views]
      cases live : after.extents (inumOf id) with
      | none => rfl
      | some extent =>
          have fits := wf.fits _ extent live
          simp only [maxFile, nDirect, nIndirect, blockSize] at fits
          simp only [Option.map_some, Option.getD_some, Extent.attr,
            BitVec.toNat_ofNat]
          rw [Nat.mod_eq_of_lt (by omega)]
  | remove id =>
      obtain ⟨extent, live, rfl, rfl⟩ := ExtentMap.remove_ok served
      exact ⟨rfl, views.update rfl rfl⟩

/-- The ledger of a history is that of the map it leads to. -/
theorem run (views : Views ledger map) (wf : map.WF)
    {requests : List ExtentRequest} {history : List Exchange}
    (returns : (session exchange requests).run (ExtentMap.serve clock) map =
      .ok (history, after)) :
    Views (history.foldl Ledger.record ledger) after ∧ after.WF := by
  refine session_foldl (ExtentMap.serve clock) exchange Ledger.record
    (fun ledger map => Views ledger map ∧ map.WF) ?_ ⟨views, wf⟩ returns
  intro ledger map request output next holds performed
  obtain ⟨reply, served, rfl⟩ := (run_exchange _).mp performed
  exact ⟨(holds.1.step holds.2 served).2, holds.2.serve _ _ served⟩

end Views

section Runs

variable {clock : Nat → BitVec 32} {requests : List ExtentRequest}
  {history : List Exchange} {map : ExtentMap}

/-- Each reply of a run is explained by the ledger of what came before. -/
theorem explains_of_run
    (returns : (session exchange requests).run (ExtentMap.serve clock)
      (ExtentMap.init clock) = .ok (history, map))
    (before later : List Exchange) {output : Exchange}
    (split : history = before ++ output :: later) :
    (Ledger.of before).Explains output := by
  rw [split] at returns
  obtain ⟨first, second, middle, rfl, run, rest⟩ := run_session_split _ _ returns
  obtain ⟨request, others, next, rfl, performed, -⟩ := run_session_head _ _ rest
  obtain ⟨reply, served, rfl⟩ := (run_exchange _).mp performed
  obtain ⟨views, wf⟩ := (Views.root clock).run (ExtentMap.wf_init clock) run
  exact (views.step wf served).1

/-- After `remove` an inode number stays out of the ledger. -/
theorem removed_of_run
    (returns : (session exchange requests).run (ExtentMap.serve clock)
      (ExtentMap.init clock) = .ok (history, map))
    {before between later : List Exchange} {id : ExtentId} {status : Status}
    (split : history = before ++ ⟨.remove id, status⟩ :: (between ++ later)) :
    Ledger.of (before ++ ⟨.remove id, status⟩ :: between) (inumOf id) = none := by
  rw [split] at returns
  obtain ⟨first, second, middle, rfl, run, rest⟩ := run_session_split _ _ returns
  obtain ⟨request, others, next, rfl, performed, remaining⟩ :=
    run_session_head _ _ rest
  obtain ⟨reply, served, same⟩ := (run_exchange _).mp performed
  cases same
  obtain ⟨views, wf⟩ := (Views.root clock).run (ExtentMap.wf_init clock) run
  obtain ⟨extent, live, rfl, nextEq⟩ := ExtentMap.remove_ok served
  have nextViews := (views.step wf served).2
  have nextWf := wf.serve _ _ served
  obtain ⟨others, last, final, rfl, lastRun, -⟩ := run_session_split _ _ remaining
  obtain ⟨finalViews, -⟩ := nextViews.run nextWf lastRun
  have dead : inumOf id ≤ final.created ∧ final.extents (inumOf id) = none := by
    refine Program.run_preserves (ExtentMap.serve clock)
      (fun map => inumOf id ≤ map.created ∧ map.extents (inumOf id) = none)
      (fun request state reply after holds answered =>
        ExtentMap.dead_serve clock request holds.1 holds.2 answered)
      (session exchange others) ?_ lastRun
    rw [nextEq]
    exact ⟨(wf.live_le _ extent live).2, Function.update_self _ _ _⟩
  have unfolded : Ledger.of (before ++ ⟨.remove id, Status.OK⟩ :: between) =
      between.foldl Ledger.record
        (Ledger.record (Ledger.of before) ⟨.remove id, .OK⟩) := by
    rw [Ledger.of, Ledger.of, List.foldl_append, List.foldl_cons]
  rw [unfolded]
  exact (finalViews (inumOf id)).trans (by rw [dead.2, Option.map_none])

end Runs

/-- An exchange changes the ledger at its own inode only. -/
theorem Ledger.record_of_ne (ledger : Ledger) (output : Exchange) {id : Nat}
    (different : id ≠ output.inum) : ledger.record output id = ledger id := by
  rcases output with ⟨request, reply⟩
  cases request with
  | create type => exact Function.update_of_ne different _ _
  | put target buf => exact Function.update_of_ne different _ _
  | get target => rfl
  | getattr target => rfl
  | remove target => exact Function.update_of_ne different _ _

/-- For every run that the plain map allows, the extent server gives the
replies of the map: each is explained by the ledger of the exchanges before it,
an exchange leaves the ledger of every other inode alone, and a removed inode
reports type 0 from then on. -/
theorem extentServer_runs_refine_map (env : Env) (requests : List ExtentRequest)
    (history : List Exchange) (map : ExtentMap)
    (allowed : (session exchange requests).run (ExtentMap.serve env.clock)
      (ExtentMap.init env.clock) = .ok (history, map)) :
    (∃ start final, InodeManager.init env = .ok start ∧
      (session exchange requests).run (ExtentServer.serve env) start =
        .ok (history, final)) ∧
    (∀ before output later, history = before ++ output :: later →
      (Ledger.of before).Explains output ∧
      ∀ id, id ≠ output.inum →
        Ledger.of (before ++ [output]) id = Ledger.of before id) ∧
    (∀ before id status between attr later,
      history = before ++ ⟨.remove id, status⟩ ::
        (between ++ ⟨.getattr id, attr⟩ :: later) →
      attr.2.type = 0) := by
  refine ⟨?_, ?_, ?_⟩
  · obtain ⟨start, starts, holds⟩ := init_holds env
    have runs := (simulates_map env).run (session exchange requests) holds
    rw [allowed] at runs
    rcases runs with ⟨final, returns, -⟩
    exact ⟨start, final, starts, returns⟩
  · intro before output later split
    refine ⟨explains_of_run allowed before later split, fun id different => ?_⟩
    rw [Ledger.of, List.foldl_append, List.foldl_cons, List.foldl_nil]
    exact Ledger.record_of_ne _ _ different
  · intro before id status between attr later split
    have dead := removed_of_run allowed split
    have explained := explains_of_run allowed
      (before ++ ⟨.remove id, status⟩ :: between) later (by
        rw [split, List.append_assoc, List.cons_append])
    rcases explained with ⟨-, same⟩
    rw [dead] at same
    exact congrArg Prod.fst same

/-- A clock at zero and memory full of zeros. -/
def Env.zero : Env where
  clock := fun _ => 0
  heap := fun _ _ => 0

/-- A file is created, written, read and removed. -/
theorem extentServer_runs_refine_map_lifecycle :
    (∃ start final, InodeManager.init Env.zero = .ok start ∧
      (session exchange [.create tFile, .put 2 [7, 8], .get 2, .remove 2,
          .getattr 2]).run (ExtentServer.serve Env.zero) start =
        .ok ([⟨.create tFile, (.OK, 2)⟩, ⟨.put 2 [7, 8], .OK⟩,
          ⟨.get 2, (.OK, [7, 8])⟩, ⟨.remove 2, .OK⟩,
          ⟨.getattr 2, (.OK, Attr.zero)⟩], final)) :=
  (extentServer_runs_refine_map Env.zero [.create tFile, .put 2 [7, 8], .get 2,
    .remove 2, .getattr 2] _ _ rfl).1

/-- A type of more than 16 bits loses its upper half in the inode. -/
theorem create_narrows_type :
    ∃ start final, InodeManager.init Env.zero = .ok start ∧
      (session exchange [.create 65536, .getattr 2]).run
          (ExtentServer.serve Env.zero) start =
        .ok ([⟨.create 65536, (.OK, 2)⟩, ⟨.getattr 2, (.OK, Attr.zero)⟩], final) ∧
      Attr.zero.type ≠ 65536 := by
  obtain ⟨start, starts, represents⟩ := init_represents Env.zero
  have runs := (simulates_layout Env.zero).run
    (session exchange [.create 65536, .getattr 2]) represents
  rcases runs with ⟨final, returns, -⟩
  exact ⟨start, final, starts, returns, by decide⟩

end Yfs
