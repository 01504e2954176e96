import Yfs.NamespaceRuns

/-!
# Unique names

`create` and `mkdir` look a name up before they append it, `symlink` does not.
The names of every directory stay distinct exactly in the runs that make symbolic
links under unbound names only.
-/

namespace Yfs

open ClientServer Machine

/-- `readdir` never lists a name twice. -/
def InodeManager.NamesUnique (env : Env) (im : InodeManager) : Prop :=
  ∀ dir entries, dir < inodeNum → im.Lists env dir entries →
    (entries.map Dirent.name).Nodup

/-- Names are distinct in every state of the run, and a name is gone after its
`unlink`. -/
def NamesStayUnique (env : Env) (host : Host) (calls : List Call) :
    Prop :=
  (∀ before later, calls = before ++ later → ∃ seen im,
    yfsRun env host before = .ok (seen, im) ∧ im.NamesUnique env) ∧
  ∀ before parent name garbage later, calls =
      before ++ (.unlink parent name, garbage) :: later → ∀ seen im,
    yfsRun env host (before ++ [(.unlink parent name, garbage)]) =
        .ok (seen ++ [.status .OK], im) →
      ∀ unset : Garbage, im.Finds env parent name unset (.OK, false, unset.ino)

namespace Namespace

variable {ns next : Namespace}

def NamesUnique (ns : Namespace) : Prop :=
  ∀ dir bindings, ns.nodes dir = some (.directory bindings) →
    (bindings.map Dirent.name).Nodup

theorem bound_eq_none {bindings : List Dirent} {name : CString} :
    bound bindings name = none ↔ name.text ∉ bindings.map Dirent.name := by
  rw [bound, List.find?_eq_none, List.mem_map]
  constructor
  · rintro absent ⟨entry, member, same⟩
    exact absent entry member (decide_eq_true same)
  · intro absent entry member same
    exact absent ⟨entry, member, of_decide_eq_true same⟩

theorem nodup_append_name {bindings : List Dirent} {name : CString} {inum : ExtentId} :
    ((bindings ++ [(⟨name.text, inum⟩ : Dirent)]).map Dirent.name).Nodup ↔
      (bindings.map Dirent.name).Nodup ∧ bound bindings name = none := by
  rw [bound_eq_none, List.map_append, List.map_singleton, List.nodup_append']
  simp only [List.nodup_singleton, List.disjoint_singleton, true_and]

theorem namesUnique_init : init.NamesUnique := by
  intro dir bindings isDir
  cases (init_nodes isDir).2
  exact List.nodup_nil

/-- A change keeps the names distinct, unless it links under a bound name. -/
theorem NamesUnique.change (unique : ns.NamesUnique) (wf : ns.WF) {call : Call}
    (change : ns.Change call next) (unbound : ns.UnboundSymlink call) :
    next.NamesUnique := by
  intro dir held isHeld
  cases change with
  | none => exact unique dir held isHeld
  | @bind parent bindings name node isDir isName bare inside isUnbound =>
      rcases bind_nodes_cases wf isDir isHeld with
        ⟨-, atDir⟩ | ⟨-, isNew⟩ | ⟨-, -, old⟩
      · cases atDir
        exact nodup_append_name.mpr ⟨unique _ _ isDir, isUnbound unbound⟩
      · cases isNew
        rw [show held = [] from bare]
        exact List.nodup_nil
      · exact unique dir held old
  | @unbind parent bindings entry isDir member =>
      rcases unbind_nodes_cases wf isDir member isHeld with ⟨-, atDir⟩ | ⟨-, old⟩
      · cases atDir
        exact (unique _ _ isDir).sublist (List.erase_sublist.map _)
      · exact unique dir held old
  | rewrite isFile fits => exact unique dir held ((rewrite_directory isFile).mp isHeld)

theorem namesUnique_of_run {calls : List Call} {outputs : List Output}
    (unbound : Always step UnboundSymlink init calls)
    (returns : run step init calls = .ok (outputs, ns)) : ns.NamesUnique := by
  have start : init.WF ∧ init.NamesUnique := ⟨wf_init, namesUnique_init⟩
  have both : ns.WF ∧ ns.NamesUnique := by
    refine unbound.preserves (fun ns => ns.WF ∧ ns.NamesUnique) ?_ start returns
    intro ns call output next holds linked stepped
    exact ⟨holds.1.step stepped, holds.2.change holds.1 (step_change stepped) linked⟩
  exact both.2

/-- Once a name is unbound, it is not found. -/
theorem bound_erase_self {bindings : List Dirent} {name : CString} {entry : Dirent}
    (unique : (bindings.map Dirent.name).Nodup)
    (found : bound bindings name = some entry) :
    bound (bindings.erase entry) name = none := by
  obtain ⟨member, named⟩ := bound_mem found
  rw [bound_eq_none, List.mem_map]
  rintro ⟨other, left, same⟩
  have equal : other = entry := List.inj_on_of_nodup_map unique
    (List.mem_of_mem_erase left) member (same.trans named.symm)
  rw [equal] at left
  exact unique.of_map.not_mem_erase left

end Namespace

section Runs

variable {env : Env} {host : Host} {calls : List Call}

theorem InodeManager.Encodes.namesUnique_iff {im : InodeManager} {ns : Namespace}
    (encodes : im.Encodes host ns) (wf : ns.WF) :
    im.NamesUnique env ↔ ns.NamesUnique := by
  constructor
  · intro unique dir bindings isDir
    have inside := Nat.lt_of_le_of_lt (wf.live_le dir _ isDir).2 wf.created_lt
    exact unique dir bindings inside ((encodes.lists_iff inside).mpr isDir)
  · intro unique dir entries inside lists
    exact unique dir entries ((encodes.lists_iff inside).mp lists)

/-- Linking under a bound name repeats it. -/
theorem unboundSymlink_of_unique (before : List Call) (call : Call)
    (later : List Call) (allowed : Allowed (before ++ call :: later))
    (within : WithinLimits env.clock host (before ++ call :: later))
    (unique : ∃ seen im, yfsRun env host (before ++ [call]) = .ok (seen, im) ∧
      im.NamesUnique env) {outputs : List Output} {ns : Namespace}
    (begun : run Namespace.step .init before = .ok (outputs, ns)) :
    ns.UnboundSymlink call := by
  rcases call with ⟨operation, garbage⟩
  obtain ⟨output, next, stepped, ran⟩ := allowed.step begun
  cases operation with
  | symlink parent link name =>
      intro bindings found
      have isDir := Namespace.directory_ok found
      obtain ⟨again, found', linked⟩ := bind_ok stepped
      rw [found] at found'
      cases found'
      obtain ⟨-, inside, -, rfl⟩ := Namespace.bindNew_ok linked
      rcases unique with ⟨seen, im, returned, unique⟩
      rw [List.append_cons] at within
      obtain ⟨-, encodes⟩ := encodes_of_yfsRun ran within.of_append returned
      have namesUnique := (encodes.namesUnique_iff (wf_of_run ran)).mp unique
      exact (Namespace.nodup_append_name.mp
        (namesUnique _ _ Namespace.bind_nodes_dir)).2
  | _ => trivial

/-- In an allowed run within the limits the names stay unique exactly when no
symbolic link is made under a bound name. -/
theorem names_stay_unique_iff (env : Env) (host : Host)
    (calls : List Call) (allowed : Allowed calls)
    (within : WithinLimits env.clock host calls) :
    NamesStayUnique env host calls ↔
      Always Namespace.step Namespace.UnboundSymlink .init calls := by
  constructor
  · rintro ⟨unique, -⟩
    refine Always.of_prefixes fun before call later outputs ns split begun => ?_
    subst split
    exact unboundSymlink_of_unique before call later allowed within
      (unique (before ++ [call]) later (List.append_cons _ _ _)) begun
  · intro unbound
    refine ⟨?_, ?_⟩
    · rintro before later rfl
      obtain ⟨outputs, ns, begun⟩ := allowed.of_append
      obtain ⟨seen, im, returned, -, encodes⟩ :=
        yfsRun_encodes begun within.of_append
      refine ⟨seen, im, returned, (encodes.namesUnique_iff (wf_of_run begun)).mpr ?_⟩
      exact Namespace.namesUnique_of_run unbound.of_append begun
    · rintro before parent name garbage later rfl seen im returned unset
      obtain ⟨outputs, ns, begun⟩ := allowed.of_append
      obtain ⟨output, next, stepped, ran⟩ := allowed.step begun
      rw [List.append_cons] at within
      obtain ⟨same, encodes⟩ := encodes_of_yfsRun ran within.of_append returned
      rw [List.map_append] at same
      obtain ⟨-, last⟩ := List.append_inj' same rfl
      cases last
      obtain ⟨bindings, found, unlinked⟩ := bind_ok stepped
      have unique := Namespace.namesUnique_of_run unbound.of_append begun _ _
        (Namespace.directory_ok found)
      split at unlinked
      · rename_i entry isBound
        cases unlinked
        have gone : im.Finds env parent name unset _ :=
          encodes.finds Namespace.unbind_nodes_dir name unset
        rw [Namespace.bound_erase_self unique isBound] at gone
        exact gone
      · cases unlinked

end Runs

/-- A file is created and unlinked. -/
theorem names_stay_unique_iff_unlink :
    NamesStayUnique Env.zero .three [(.create 1 .a, .zero), (.unlink 1 .a, .zero)] :=
  (names_stay_unique_iff Env.zero .three _ ⟨_, _, rfl⟩ (withinLimits_of_ok rfl)).mpr
    (Always.cons trivial rfl (Always.cons trivial rfl trivial))

/-- A symbolic link is made under the name of a file. -/
def linkOverFile : List Call :=
  [(.create 1 .a, .zero), (.symlink 1 .a .a, .zero)]

theorem symlink_repeats_name :
    Allowed linkOverFile ∧ WithinLimits Env.zero.clock .three linkOverFile ∧
      ¬NamesStayUnique Env.zero .three linkOverFile := by
  have allowed : Allowed linkOverFile := ⟨_, _, rfl⟩
  have within : WithinLimits Env.zero.clock .three linkOverFile := withinLimits_of_ok rfl
  refine ⟨allowed, within, ?_⟩
  rintro ⟨unique, -⟩
  have unbound := unboundSymlink_of_unique [(.create 1 .a, .zero)]
    (.symlink 1 .a .a, .zero) [] allowed within (unique _ [] rfl) rfl
  have isBound := unbound [⟨[97], 2⟩] rfl
  cases isBound

end Yfs
