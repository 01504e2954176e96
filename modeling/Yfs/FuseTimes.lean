import Yfs.FuseReplies

/-!
# Times in replies

A handler that replies with attributes asks for them last, so a reply shows an inode as
the store holds it then.  While the clock goes forward, the times that are shown of an
inode go forward too.
-/

namespace Yfs

open ClientServer
open ClientServer.Program (Ensures)

/-- The attributes in an answer. -/
def FuseAnswer.stat : FuseAnswer → Option Stat
  | .attr st => some st
  | .entry e => some e.attr
  | .create e => some e.attr
  | _ => none

/-- The attributes in the answer are those that `getattr` tells now. -/
def FuseAnswer.Fresh (answer : FuseAnswer) (im : InodeManager) : Prop :=
  ∀ st, answer.stat = some st → ∃ a,
    ExtentServer.getattr im st.stIno = .ok ((.OK, a), im) ∧ st = a.stat st.stIno

section Handlers

variable {env : Env} {fenv : FuseEnv} {im : InodeManager}

theorem FuseAnswer.fresh_of_none {answer : FuseAnswer} (without : answer.stat = none) :
    answer.Fresh im := by
  intro st isStat
  rw [without] at isStat
  cases isStat

theorem Attr.stat_ino (a : Attr) (ino : ExtentId) : (a.stat ino).stIno = ino := by
  rw [Attr.stat]
  split
  · rfl
  · split
    · rfl
    · rfl

/-- A program that ends with `getattr` and replies with what it tells. -/
theorem ensures_fresh {ino : ExtentId} {next : Status × Stat → Client FuseAnswer}
    {reply : Stat → FuseAnswer} (ends : ∀ st, next (.OK, st) = Pure.pure (reply st))
    (shows : ∀ st, (reply st).stat = some st) :
    Ensures (ExtentServer.serve env) (Fuse.getattr ino >>= next) im
      (fun answer after => answer.Fresh after) (fun _ => True) := by
  obtain ⟨a, served⟩ := ExtentServer.getattr_returns im ino
  apply Ensures.after_run (Fuse.getattr_run served)
  rw [ends]
  intro st isStat
  rw [shows] at isStat
  cases isStat
  rw [Attr.stat_ino]
  exact ⟨a, served, rfl⟩

/-- A request whose replies have no attributes. -/
theorem fresh_of_replies {request : FuseRequest} {handler : Client FuseAnswer}
    (replies : Replies env im request handler)
    (without : ∀ answer, request.CanAnswer answer → answer.stat = none) :
    Ensures (ExtentServer.serve env) handler im (fun answer after => answer.Fresh after)
      (fun _ => True) := by
  apply Ensures.mono replies
  · rintro answer after ⟨can, -⟩
    exact FuseAnswer.fresh_of_none (without answer can)
  · exact fun _ _ => trivial

/-- `create`, `mknod` and `mkdir`. -/
theorem replyCreated_fresh {reply : EntryParam → FuseAnswer}
    (shows : ∀ e, (reply e).stat = some e.attr) {type : BitVec 32} {parent : ExtentId}
    {name : CString} {garbage : Garbage} :
    Ensures (ExtentServer.serve env) (Fuse.replyCreated reply type parent name garbage) im
      (fun answer after => answer.Fresh after) (fun _ => True) := by
  unfold Fuse.replyCreated Fuse.fuseserverCreatehelper
  apply Ensures.bind_assoc
  apply Ensures.bind (ensures_anything _)
  rintro ⟨ret, inum⟩ after -
  by_cases isOk : ret = .OK
  · subst isOk
    apply Ensures.bind_assoc
    exact ensures_fresh (fun st => rfl) fun st => shows _
  · dsimp only
    rw [if_pos isOk]
    exact FuseAnswer.fresh_of_none rfl

/-- From every state, the replies are fresh. -/
theorem oper_fresh (request : FuseRequest × Garbage) :
    Ensures (ExtentServer.serve env) (fuseserverOper fenv request) im
      (fun answer after => answer.Fresh after) (fun _ => True) := by
  rcases request with ⟨request, garbage⟩
  have replies : Replies env im request (fuseserverOper fenv (request, garbage)) :=
    oper_replies request garbage
  cases request with
  | getattr ino =>
      apply Ensures.bind_assoc
      exact ensures_fresh (fun st => rfl) fun st => rfl
  | statfs =>
      apply fresh_of_replies replies
      rintro answer rfl
      rfl
  | readdir ino size off =>
      apply fresh_of_replies replies
      rintro answer (rfl | ⟨bytes, rfl, -⟩)
      · rfl
      · rfl
  | lookup parent name =>
      apply Ensures.bind (ensures_anything _)
      rintro ⟨r, found, ino⟩ after -
      cases found with
      | true => exact ensures_fresh (fun st => rfl) fun st => rfl
      | false => exact FuseAnswer.fresh_of_none rfl
  | create parent name => exact replyCreated_fresh fun e => rfl
  | mknod parent name => exact replyCreated_fresh fun e => rfl
  | mkdir parent name => exact replyCreated_fresh fun e => rfl
  | opened ino =>
      apply fresh_of_replies replies
      rintro answer rfl
      rfl
  | read ino size off =>
      apply fresh_of_replies replies
      rintro answer (rfl | ⟨bytes, rfl, -⟩)
      · rfl
      · rfl
  | write ino buf off =>
      apply fresh_of_replies replies
      rintro answer ⟨count, rfl⟩
      rfl
  | setattr ino stSize toSet =>
      unfold fuseserverOper Fuse.fuseserverSetattr
      dsimp only
      split
      · apply Ensures.bind_assoc
        apply Ensures.bind (ensures_anything _)
        intro r after _
        apply Ensures.bind_assoc
        exact ensures_fresh (fun st => rfl) fun st => rfl
      · exact FuseAnswer.fresh_of_none rfl
  | unlink parent name =>
      apply fresh_of_replies replies
      rintro answer (rfl | rfl)
      · rfl
      · rfl
  | symlink link parent name =>
      apply Ensures.bind ensures_symlink_counts
      rintro ⟨r, ino⟩ after ⟨rfl, -⟩
      exact ensures_fresh (fun st => rfl) fun st => rfl
  | readlink ino =>
      apply fresh_of_replies replies
      rintro answer (rfl | ⟨bytes, rfl⟩)
      · rfl
      · rfl

end Handlers

/-- Modification and change go together, and no time is in the future. -/
structure ExtentMap.Dated (clock : Nat → BitVec 32) (map : ExtentMap) : Prop where
  wf : map.WF
  together : ∀ id extent, map.extents id = some extent → extent.mtime = extent.ctime
  past : ∀ id extent, map.extents id = some extent →
    extent.atime ≤ clock map.ticks ∧ extent.mtime ≤ clock map.ticks

/-- The extents that are in both maps are as old or older in the first, and what has gone
does not come back. -/
structure ExtentMap.Later (map after : ExtentMap) : Prop where
  ticks : map.ticks ≤ after.ticks
  created : map.created ≤ after.created
  gone : ∀ id ≤ map.created, map.extents id = none → after.extents id = none
  times : ∀ id old new, map.extents id = some old → after.extents id = some new →
    old.atime ≤ new.atime ∧ old.mtime ≤ new.mtime

namespace ExtentMap

section Steps

variable {clock : Nat → BitVec 32} {map middle after : ExtentMap}

theorem Later.refl (map : ExtentMap) : map.Later map where
  ticks := Nat.le_refl _
  created := Nat.le_refl _
  gone := fun _ _ dead => dead
  times := by
    intro id old new isOld isNew
    cases isOld.symm.trans isNew
    exact ⟨BitVec.le_refl _, BitVec.le_refl _⟩

theorem Later.trans (wf : map.WF) (first : map.Later middle) (second : middle.Later after) :
    map.Later after where
  ticks := first.ticks.trans second.ticks
  created := first.created.trans second.created
  gone := by
    intro id made dead
    exact second.gone id (made.trans first.created) (first.gone id made dead)
  times := by
    intro id old new isOld isNew
    have made := (wf.live_le id old isOld).2
    cases between : middle.extents id with
    | none =>
        rw [second.gone id (made.trans first.created) between] at isNew
        cases isNew
    | some extent =>
        obtain ⟨oldAtime, oldMtime⟩ := first.times id old extent isOld between
        obtain ⟨newAtime, newMtime⟩ := second.times id extent new between isNew
        exact ⟨BitVec.le_trans oldAtime newAtime, BitVec.le_trans oldMtime newMtime⟩

/-- An inode that is there before and after has been there all the time. -/
theorem Later.stays (wf : map.WF) (first : map.Later middle) (second : middle.Later after)
    {id : Nat} (live : map.extents id ≠ none) (liveAfter : after.extents id ≠ none) :
    middle.extents id ≠ none := by
  intro dead
  obtain ⟨extent, isOld⟩ := Option.ne_none_iff_exists'.mp live
  have made := (wf.live_le id extent isOld).2
  exact liveAfter (second.gone id (made.trans first.created) dead)

/-- One extent changes. -/
theorem update_cases {id other : Nat} {new : Option Extent} {extent : Extent}
    (live : Function.update map.extents id new other = some extent) :
    (other = id ∧ new = some extent) ∨ map.extents other = some extent := by
  by_cases same : other = id
  · subst same
    rw [Function.update_self] at live
    exact Or.inl ⟨rfl, live⟩
  · rw [Function.update_of_ne same] at live
    exact Or.inr live

/-- What holds of the extent that changes holds of all. -/
theorem Dated.update (dated : map.Dated clock) (wf : after.WF)
    (gone : ∀ id ≤ map.created, map.extents id = none → after.extents id = none) {id : Nat}
    {new : Option Extent} (extents : after.extents = Function.update map.extents id new)
    (ticks : map.ticks ≤ after.ticks) (now : clock map.ticks ≤ clock after.ticks)
    (created : map.created ≤ after.created)
    (changed : ∀ extent, new = some extent → extent.mtime = extent.ctime ∧
      extent.atime ≤ clock after.ticks ∧ extent.mtime ≤ clock after.ticks)
    (advances : ∀ old extent, map.extents id = some old → new = some extent →
      old.atime ≤ extent.atime ∧ old.mtime ≤ extent.mtime) :
    after.Dated clock ∧ map.Later after := by
  refine ⟨⟨wf, ?_, ?_⟩, ticks, created, gone, ?_⟩
  · intro other extent live
    rw [extents] at live
    rcases update_cases live with ⟨rfl, isNew⟩ | old
    · exact (changed extent isNew).1
    · exact dated.together other extent old
  · intro other extent live
    rw [extents] at live
    rcases update_cases live with ⟨rfl, isNew⟩ | old
    · exact (changed extent isNew).2
    · obtain ⟨atime, mtime⟩ := dated.past other extent old
      exact ⟨BitVec.le_trans atime now, BitVec.le_trans mtime now⟩
  · intro other old extent isOld live
    rw [extents] at live
    rcases update_cases live with ⟨rfl, isNew⟩ | same
    · exact advances old extent isOld isNew
    · cases isOld.symm.trans same
      exact ⟨BitVec.le_refl _, BitVec.le_refl _⟩

/-- A request keeps the dates and moves them forward. -/
theorem Dated.serve (forward : ∀ tick, clock tick ≤ clock (tick + 1)) (dated : map.Dated clock)
    {request : ExtentRequest} {reply : ExtentReply request}
    (served : serve clock request map = .ok (reply, after)) :
    after.Dated clock ∧ map.Later after := by
  have wf := dated.wf.serve clock request served
  have gone : ∀ id ≤ map.created, map.extents id = none → after.extents id = none := by
    intro id made dead
    exact (dead_serve clock request made dead served).2
  have next := forward map.ticks
  cases request with
  | create type =>
      obtain ⟨-, -, rfl⟩ := create_ok served
      apply dated.update wf gone rfl (Nat.le_succ _) next (Nat.le_succ _)
      · rintro _ ⟨⟩
        exact ⟨rfl, next, next⟩
      · intro old extent isOld
        rw [dated.wf.dead_next] at isOld
        cases isOld
  | put id buf =>
      obtain ⟨held, live, -, -, -, rfl⟩ := put_ok served
      obtain ⟨atime, mtime⟩ := dated.past _ held live
      apply dated.update wf gone rfl (Nat.le_succ _) next (Nat.le_refl _)
      · rintro _ ⟨⟩
        exact ⟨rfl, BitVec.le_trans atime next, next⟩
      · rintro old _ isOld ⟨⟩
        cases live.symm.trans isOld
        exact ⟨BitVec.le_refl _, mtime⟩
  | get id =>
      obtain ⟨held, live, -, rfl⟩ := get_ok served
      obtain ⟨atime, mtime⟩ := dated.past _ held live
      apply dated.update wf gone rfl (Nat.le_succ _) next (Nat.le_refl _)
      · rintro _ ⟨⟩
        exact ⟨dated.together _ held live, next, BitVec.le_trans mtime next⟩
      · rintro old _ isOld ⟨⟩
        cases live.symm.trans isOld
        exact ⟨atime, BitVec.le_refl _⟩
  | getattr id =>
      obtain ⟨-, rfl⟩ := getattr_ok served
      exact ⟨dated, Later.refl _⟩
  | remove id =>
      obtain ⟨held, live, -, rfl⟩ := remove_ok served
      apply dated.update wf gone rfl (Nat.le_refl _) (BitVec.le_refl _) (Nat.le_refl _)
      · rintro _ ⟨⟩
      · rintro _ _ _ ⟨⟩

/-- Every program keeps the dates and moves them forward. -/
theorem Dated.run {β : Type} (forward : ∀ tick, clock tick ≤ clock (tick + 1))
    (dated : map.Dated clock) {program : Client β} {value : β}
    (returns : program.run (ExtentMap.serve clock) map = .ok (value, after)) :
    after.Dated clock ∧ map.Later after := by
  apply Program.run_preserves (ExtentMap.serve clock)
    (fun state => state.Dated clock ∧ map.Later state) _ program ⟨dated, Later.refl map⟩ returns
  rintro request state reply next ⟨datedState, later⟩ served
  obtain ⟨datedNext, laterNext⟩ := datedState.serve forward served
  exact ⟨datedNext, later.trans dated.wf laterNext⟩

theorem dated_init (forward : ∀ tick, clock tick ≤ clock (tick + 1)) :
    (ExtentMap.init clock).Dated clock := by
  have root : ∀ id extent, (ExtentMap.init clock).extents id = some extent →
      extent = .empty tDir (clock 0) := by
    intro id extent live
    by_cases isRoot : id = 1
    · subst isRoot
      cases live
      rfl
    · rw [init_of_ne clock isRoot] at live
      cases live
  refine ⟨wf_init clock, ?_, ?_⟩
  · intro id extent live
    rw [root id extent live]
    rfl
  · intro id extent live
    rw [root id extent live]
    exact ⟨forward 0, forward 0⟩

/-- What `getattr` tells of an inode. -/
def attr (map : ExtentMap) (id : Nat) : Attr :=
  ((map.extents id).map Extent.attr).getD Attr.zero

/-- The times of an inode that does not go in between. -/
theorem Later.attr (later : map.Later after) {id : Nat}
    (stays : map.extents id ≠ none → after.extents id ≠ none) :
    (map.attr id).atime ≤ (after.attr id).atime ∧ (map.attr id).mtime ≤ (after.attr id).mtime := by
  cases isOld : map.extents id with
  | none =>
      simp only [ExtentMap.attr, isOld]
      exact ⟨BitVec.le_def.mpr (Nat.zero_le _), BitVec.le_def.mpr (Nat.zero_le _)⟩
  | some old =>
      obtain ⟨new, isNew⟩ := Option.ne_none_iff_exists'.mp (stays (by rw [isOld]; simp))
      simp only [ExtentMap.attr, isOld, isNew]
      exact later.times id old new isOld isNew

theorem Dated.attr (dated : map.Dated clock) (id : Nat) :
    (map.attr id).mtime = (map.attr id).ctime ∧ (map.attr id).atime ≤ clock map.ticks ∧
      (map.attr id).mtime ≤ clock map.ticks := by
  cases live : map.extents id with
  | none =>
      simp only [ExtentMap.attr, live]
      exact ⟨rfl, BitVec.le_def.mpr (Nat.zero_le _), BitVec.le_def.mpr (Nat.zero_le _)⟩
  | some extent =>
      simp only [ExtentMap.attr, live]
      exact ⟨dated.together id extent live, dated.past id extent live⟩

end Steps

/-- The attributes in the answer are those of the map. -/
def Tells (map : ExtentMap) (answer : FuseAnswer) : Prop :=
  ∀ st, answer.stat = some st → st = (map.attr (inumOf st.stIno)).stat st.stIno

/-- The maps that the answers of a session were given from. -/
inductive Trail (clock : Nat → BitVec 32) : ExtentMap → List FuseAnswer → ExtentMap → Prop
  | nil (map : ExtentMap) : Trail clock map [] map
  | cons {map next last : ExtentMap} {answer : FuseAnswer} {rest : List FuseAnswer}
      (later : map.Later next) (dated : next.Dated clock) (tells : next.Tells answer)
      (trail : Trail clock next rest last) : Trail clock map (answer :: rest) last

namespace Trail

variable {clock : Nat → BitVec 32} {map last : ExtentMap} {answers : List FuseAnswer}

theorem later (trail : Trail clock map answers last) (wf : map.WF) : map.Later last := by
  induction trail with
  | nil map => exact Later.refl map
  | cons later dated _ _ ih => exact later.trans wf (ih dated.wf)

/-- An answer is given from a map on the way. -/
theorem single (trail : Trail clock map answers last) (wf : map.WF) {j : Nat}
    {answer : FuseAnswer} (isAt : answers[j]? = some answer) :
    ∃ second : ExtentMap, map.Later second ∧ second.Dated clock ∧ second.Later last ∧
      second.Tells answer := by
  induction trail generalizing j with
  | nil map => cases isAt
  | @cons map next last first rest later dated tells trail ih =>
      cases j with
      | zero =>
          cases isAt
          exact ⟨next, later, dated, trail.later dated.wf, tells⟩
      | succ j =>
          obtain ⟨second, laterSecond, datedSecond, laterLast, tellsSecond⟩ := ih dated.wf isAt
          exact ⟨second, later.trans wf laterSecond, datedSecond, laterLast, tellsSecond⟩

/-- Two answers are given from maps that follow each other. -/
theorem pair (trail : Trail clock map answers last) {i j : Nat} (ordered : i ≤ j)
    {one other : FuseAnswer} (atFirst : answers[i]? = some one)
    (atSecond : answers[j]? = some other) :
    ∃ first second : ExtentMap, first.Dated clock ∧ first.Tells one ∧ first.Later second ∧
      second.Dated clock ∧ second.Tells other ∧ second.Later last := by
  induction trail generalizing i j with
  | nil map => cases atFirst
  | @cons map next last head rest later dated tells trail ih =>
      cases i with
      | zero =>
          cases atFirst
          cases j with
          | zero =>
              cases atSecond
              exact ⟨next, next, dated, tells, Later.refl next, dated, tells,
                trail.later dated.wf⟩
          | succ j =>
              obtain ⟨second, laterSecond, datedSecond, laterLast, tellsSecond⟩ :=
                trail.single dated.wf atSecond
              exact ⟨next, second, dated, tells, laterSecond, datedSecond, tellsSecond,
                laterLast⟩
      | succ i =>
          cases j with
          | zero => exact absurd ordered (Nat.not_succ_le_zero i)
          | succ j => exact ih (Nat.le_of_succ_le_succ ordered) atFirst atSecond

end Trail

end ExtentMap

/-- A session leaves a trail. -/
theorem Holds.trail {env : Env} {fenv : FuseEnv}
    (forward : ∀ tick, env.clock tick ≤ env.clock (tick + 1))
    {requests : List (FuseRequest × Garbage)} {answers : List FuseAnswer} {im : InodeManager}
    {map last : ExtentMap} (holds : Holds im map) (dated : map.Dated env.clock)
    (returns : (session (fuseserverOper fenv) requests).run (ExtentMap.serve env.clock) map =
      .ok (answers, last)) : ExtentMap.Trail env.clock map answers last := by
  induction answers generalizing requests im map with
  | nil =>
      obtain ⟨-, rfl⟩ := run_session_none _ _ returns
      exact .nil _
  | cons answer rest ih =>
      obtain ⟨request, others, next, rfl, performed, remaining⟩ :=
        run_session_head _ _ returns
      obtain ⟨datedNext, laterNext⟩ := dated.run forward performed
      have served := (simulates_map env).run (fuseserverOper fenv request) holds
      rw [performed] at served
      rcases served with ⟨after, returned, holdsNext⟩
      refine .cons laterNext datedNext ?_ (ih holdsNext datedNext remaining)
      intro st isStat
      obtain ⟨a, told, same⟩ := (oper_fresh request).ok returned st isStat
      obtain ⟨_, again, -⟩ := simulates_map env (.getattr st.stIno) after next holdsNext
      cases told.symm.trans again
      exact same

/-- The times in the reply, as of `now`. -/
structure Stat.Dated (st : Stat) (now : BitVec 32) : Prop where
  together : st.stMtime = st.stCtime
  atime : st.stAtime ≤ now.setWidth 64
  mtime : st.stMtime ≤ now.setWidth 64

/-- The times have not gone back. -/
structure Stat.NotAfter (st later : Stat) : Prop where
  atime : st.stAtime ≤ later.stAtime
  mtime : st.stMtime ≤ later.stMtime

theorem setWidth_le {small large : BitVec 32} (le : small ≤ large) :
    small.setWidth 64 ≤ large.setWidth 64 := by
  rw [BitVec.le_def, BitVec.toNat_setWidth_of_le (by decide),
    BitVec.toNat_setWidth_of_le (by decide)]
  exact le

theorem Attr.stat_times (a : Attr) (ino : ExtentId) :
    (a.stat ino).stAtime = a.atime.setWidth 64 ∧ (a.stat ino).stMtime = a.mtime.setWidth 64 ∧
      (a.stat ino).stCtime = a.ctime.setWidth 64 := by
  rw [Attr.stat]
  split
  · exact ⟨rfl, rfl, rfl⟩
  · split
    · exact ⟨rfl, rfl, rfl⟩
    · exact ⟨rfl, rfl, rfl⟩

theorem Holds.ticks {im : InodeManager} {map : ExtentMap} (holds : Holds im map) :
    im.ticks = map.ticks := by
  rcases holds with ⟨layout, represents, abstracts⟩
  rw [represents.ticks, abstracts.ticks]

section Clocks

variable {clock : Nat → BitVec 32} {map after : ExtentMap} {answer other : FuseAnswer}
  {st st' : Stat}

theorem clock_le (forward : ∀ tick, clock tick ≤ clock (tick + 1)) {tick later : Nat}
    (ordered : tick ≤ later) : clock tick ≤ clock later := by
  induction later, ordered using Nat.le_induction with
  | base => exact BitVec.le_refl _
  | succ later _ ih => exact BitVec.le_trans ih (forward later)

theorem ExtentMap.Tells.dated (tells : map.Tells answer) (dated : map.Dated clock)
    {now : BitVec 32} (past : clock map.ticks ≤ now) (isStat : answer.stat = some st) :
    st.Dated now := by
  have same := tells st isStat
  obtain ⟨together, atime, mtime⟩ := dated.attr (inumOf st.stIno)
  obtain ⟨stAtime, stMtime, stCtime⟩ := (map.attr (inumOf st.stIno)).stat_times st.stIno
  rw [← same] at stAtime stMtime stCtime
  refine ⟨?_, ?_, ?_⟩
  · rw [stMtime, stCtime, together]
  · rw [stAtime]
    exact setWidth_le (BitVec.le_trans atime past)
  · rw [stMtime]
    exact setWidth_le (BitVec.le_trans mtime past)

theorem ExtentMap.Tells.notAfter (tells : map.Tells answer) (tellsOther : after.Tells other)
    (later : map.Later after) (isStat : answer.stat = some st)
    (isOther : other.stat = some st') (same : inumOf st.stIno = inumOf st'.stIno)
    (stays : map.extents (inumOf st'.stIno) ≠ none → after.extents (inumOf st'.stIno) ≠ none) :
    st.NotAfter st' := by
  have told := tells st isStat
  have toldOther := tellsOther st' isOther
  obtain ⟨stAtime, stMtime, -⟩ := (map.attr (inumOf st.stIno)).stat_times st.stIno
  obtain ⟨atime, mtime, -⟩ := (after.attr (inumOf st'.stIno)).stat_times st'.stIno
  rw [← told] at stAtime stMtime
  rw [← toldOther] at atime mtime
  obtain ⟨laterAtime, laterMtime⟩ := later.attr stays
  refine ⟨?_, ?_⟩
  · rw [stAtime, atime, same]
    exact setWidth_le laterAtime
  · rw [stMtime, mtime, same]
    exact setWidth_le laterMtime

end Clocks

/-- While the clock goes forward, no reply shows a time that is still to come, and the
times shown of an inode that is not removed never go back. -/
theorem fuse_times_advance (env : Env) (fenv : FuseEnv)
    (forward : ∀ tick, env.clock tick ≤ env.clock (tick + 1))
    {requests : List (FuseRequest × Garbage)} {answers : List FuseAnswer} {map : ExtentMap}
    (within : (session (fuseserverOper fenv) requests).run (ExtentMap.serve env.clock)
      (ExtentMap.init env.clock) = .ok (answers, map)) :
    ∃ im, fuseRun env fenv requests = .ok (answers, im) ∧
      (∀ answer ∈ answers, ∀ st, answer.stat = some st → st.Dated (env.clock im.ticks)) ∧
      ∀ (i j : Nat) (one other : FuseAnswer) (st st' : Stat), i ≤ j →
        answers[i]? = some one → answers[j]? = some other →
        one.stat = some st → other.stat = some st' →
        inumOf st.stIno = inumOf st'.stIno → im.IsLive (inumOf st'.stIno) →
        st.NotAfter st' := by
  obtain ⟨start, starts, holds⟩ := init_holds env
  have runs := (simulates_map env).run (session (fuseserverOper fenv) requests) holds
  rw [within] at runs
  rcases runs with ⟨im, returns, holdsLast⟩
  have trail := holds.trail forward (ExtentMap.dated_init forward) within
  have ticks : im.ticks = map.ticks := holdsLast.ticks
  refine ⟨im, ?_, ?_, ?_⟩
  · rw [fuseRun, starts]
    exact returns
  · intro answer isAnswer st isStat
    obtain ⟨j, isAt⟩ := List.mem_iff_getElem?.mp isAnswer
    obtain ⟨second, -, dated, laterLast, tells⟩ := trail.single (ExtentMap.wf_init _) isAt
    rw [ticks]
    exact tells.dated dated (clock_le forward laterLast.ticks) isStat
  · intro i j one other st st' ordered atFirst atSecond isStat isOther same isLive
    obtain ⟨first, second, dated, tells, later, -, tellsOther, laterLast⟩ :=
      trail.pair ordered atFirst atSecond
    apply tells.notAfter tellsOther later isStat isOther same
    intro live
    exact later.stays dated.wf laterLast live (holdsLast.isLive_iff.mp isLive)

/-- A clock that counts its first readings and then stands still. -/
def Env.rising : Env where
  clock := fun tick => BitVec.ofNat 32 (min tick 100)
  heap := fun _ _ => 0

theorem Env.rising_forward (tick : Nat) :
    Env.rising.clock tick ≤ Env.rising.clock (tick + 1) := by
  simp only [Env.rising, BitVec.le_def, BitVec.toNat_ofNat]
  omega

/-- What `lookup` shows of a file is not older than what `create` showed. -/
theorem writeAndRead_times :
    ∃ im first last, fuseRun .rising .linux writeAndRead =
        .ok ([.create first, .write 2, .entry last, .buf [7, 8]], im) ∧
      first.attr.NotAfter last.attr ∧ last.attr.Dated (Env.rising.clock im.ticks) := by
  have within : ∃ first last map,
      (session (fuseserverOper .linux) writeAndRead).run (ExtentMap.serve Env.rising.clock)
          (ExtentMap.init Env.rising.clock) =
        .ok ([.create first, .write 2, .entry last, .buf [7, 8]], map) ∧
      inumOf first.attr.stIno = inumOf last.attr.stIno ∧
      map.extents (inumOf last.attr.stIno) ≠ none := by
    refine ⟨_, _, _, rfl, rfl, Option.some_ne_none _⟩
  obtain ⟨first, last, map, within, same, live⟩ := within
  obtain ⟨im, returns, dated, advance⟩ :=
    fuse_times_advance .rising .linux Env.rising_forward within
  obtain ⟨start, starts, holds⟩ := init_holds .rising
  have runs := (simulates_map .rising).run (session (fuseserverOper .linux) writeAndRead) holds
  rw [within] at runs
  rcases runs with ⟨after, again, holdsLast⟩
  rw [fuseRun, starts] at returns
  cases again.symm.trans returns
  refine ⟨im, first, last, by rw [fuseRun, starts]; exact again, ?_, ?_⟩
  · exact advance 0 2 _ _ _ _ (by decide) rfl rfl rfl rfl same (holdsLast.isLive_iff.mpr live)
  · exact dated (.entry last) (by simp) _ rfl

end Yfs
