import Yfs.Attributes
import Yfs.Namespace

/-!
# Setting attributes

`fuseserver_setattr` calls `yfs_client::setattr` with `attr->st_size` whenever the
mask has one of the size, access time or modification time bits.  Without the
size bit the file keeps its bytes only if `st_size` happens to be its size.
-/

namespace Yfs

open ClientServer

theorem cStr_resized {old : List Byte} {size : Nat} (longer : old.length < size)
    (beyond : Nat → Byte) :
    cStr (resized old size) beyond = cStr old (cStr (resized old size) beyond) := by
  funext index
  rcases Nat.lt_trichotomy index old.length with inside | rfl | outside
  · rw [cStr_of_lt old _ inside, cStr_of_lt _ _ (by rw [length_resized]; omega)]
    simp only [resized, List.take_of_length_le longer.le]
    exact List.getElem_append_left inside
  · rw [cStr_of_lt _ _ (by rw [length_resized]; exact longer)]
    simp only [resized, List.take_of_length_le longer.le, cStr]
    rw [List.getElem_append_right (le_refl _), List.getElem_replicate,
      List.getElem?_append_right (le_refl _), Nat.sub_self]
    rfl
  · have none : (old ++ [(0 : Byte)])[index]? = none := by
      rw [List.getElem?_eq_none_iff, List.length_append]
      exact outside
    conv_rhs => rw [cStr, none, Option.getD_none]

namespace InodeManager.Shows

variable {env : Env} {im : InodeManager} {contents : Contents} {ino : ExtentId}
  {type : BitVec 32} {old : List Byte} {size : BitVec 64}

theorem setattr_same (host : Host) (shows : im.Shows contents)
    (entry : contents.ledger (inumOf ino) = some (type, old))
    (same : BitVec.ofNat 64 old.length = size) :
    (YfsClient.setattr host ino size).run (ExtentServer.serve env) im = .ok (.OK, im) := by
  obtain ⟨a, served, -, sizeOf⟩ := shows.getattr ino
  rw [sizeOf_eq entry, same] at sizeOf
  rw [YfsClient.setattr, Program.run_bind, ExtentClient.getattr, Program.run_send,
    ExtentServer.serve, served]
  simp only [sizeOf, if_true]
  rfl

theorem setattr_other (env : Env) (host : Host) (shows : im.Shows contents)
    (entry : contents.ledger (inumOf ino) = some (type, old))
    (other : BitVec.ofNat 64 old.length ≠ size) :
    ∃ mid, mid.Shows contents ∧
      (∀ length, mid.RoomFor (inumOf ino) length ↔ im.RoomFor (inumOf ino) length) ∧
      (YfsClient.setattr host ino size).run (ExtentServer.serve env) im =
        if size.toNat ≤ host.maxString then
          ExtentServer.put env mid ino (resized old size.toNat)
        else .error .lengthError := by
  obtain ⟨a, served, -, sizeOf⟩ := shows.getattr ino
  obtain ⟨mid, got, -, showsMid, room⟩ := shows.get env entry
  rw [sizeOf_eq entry] at sizeOf
  refine ⟨mid, showsMid, room, ?_⟩
  rw [YfsClient.setattr, Program.run_bind, ExtentClient.getattr, Program.run_send,
    ExtentServer.serve, served]
  simp only [sizeOf, if_neg other]
  change Program.run _ (ExtentClient.get ino >>= _) im = _
  rw [Program.run_bind, ExtentClient.get, Program.run_send, ExtentServer.serve, got]
  change Program.run _ (Program.ofExcept (YfsClient.resize host.maxString old _ size) >>= _) mid = _
  by_cases small : size.toNat ≤ host.maxString
  · rw [resize_of_le (shows.fits entry) small, if_pos small]
    exact Program.run_send _ _ mid
  · rw [resize_of_gt host.holdsFiles (shows.fits entry) (Nat.lt_of_not_le small), if_neg small]
    rfl

/-- A size that is the length only after it is cut to 32 bits rewrites the same
bytes. -/
theorem put_wrapped (env : Env) (shows : im.Shows contents)
    (entry : contents.ledger (inumOf ino) = some (type, old)) {length : Nat}
    (longer : old.length < length) (wraps : length % 2 ^ 32 = old.length) :
    ∃ after, ExtentServer.put env im ino (resized old length) = .ok (.OK, after) ∧
      after.Shows contents := by
  have same : BitVec.ofNat 32 (resized old length).length = BitVec.ofNat 32 old.length := by
    rw [length_resized]
    apply BitVec.eq_of_toNat_eq
    rw [BitVec.toNat_ofNat, BitVec.toNat_ofNat, wraps, ← wraps, Nat.mod_mod]
  obtain ⟨after, writes, showsAfter⟩ := shows.allocated.writeFile env entry
    (shows.fits entry) (shows.roomFor_self entry)
    (cStr (resized old length) (env.heap im.mallocs))
  rw [← cStr_resized longer] at writes
  rw [← entry, Function.update_eq_self] at showsAfter
  refine ⟨after, ?_, showsAfter⟩
  simp only [ExtentServer.put, InodeManager.malloc, same,
    toInt_ofNat_of_le (shows.fits entry), writes, bind, Except.bind, pure, Except.pure]

theorem setattr_keeps_iff (env : Env) (host : Host) (shows : im.Shows contents)
    (entry : contents.ledger (inumOf ino) = some (type, old)) :
    (∃ reply after, (YfsClient.setattr host ino size).run (ExtentServer.serve env) im =
        .ok (reply, after) ∧ after.Shows contents) ↔
      size.toNat % 2 ^ 32 = old.length ∧ size.toNat ≤ host.maxString := by
  have fits := shows.fits entry
  have bound : maxFile * blockSize < 2 ^ 31 := by decide
  by_cases same : BitVec.ofNat 64 old.length = size
  · have length : size.toNat = old.length := by
      rw [← same, BitVec.toNat_ofNat, Nat.mod_eq_of_lt (by omega)]
    rw [shows.setattr_same host entry same, length]
    refine iff_of_true ⟨_, im, rfl, shows⟩ ⟨Nat.mod_eq_of_lt (by omega), ?_⟩
    exact fits.trans host.holdsFiles
  · obtain ⟨mid, showsMid, -, run⟩ := shows.setattr_other env host entry same
    rw [run]
    constructor
    · rintro ⟨reply, after, returns, showsAfter⟩
      split at returns
      · rename_i small
        refine ⟨?_, small⟩
        have length := showsAfter.size entry
        rw [ExtentServer.size_put (shows.inside entry) returns, length_resized,
          BitVec.toNat_ofNat] at length
        exact length
      · cases returns
    · rintro ⟨wraps, small⟩
      rw [if_pos small]
      have longer : old.length < size.toNat := by
        have le := Nat.mod_le size.toNat (2 ^ 32)
        refine lt_of_le_of_ne (wraps ▸ le) fun equal => same ?_
        rw [equal, BitVec.ofNat_toNat, BitVec.setWidth_eq]
      obtain ⟨after, put, showsAfter⟩ := showsMid.put_wrapped env entry longer wraps
      exact ⟨_, after, put, showsAfter⟩

theorem setattr_resizes_iff (env : Env) (host : Host) (shows : im.Shows contents)
    (entry : contents.ledger (inumOf ino) = some (type, old))
    (small : size.toNat ≤ maxFile * blockSize) :
    (∃ reply after, (YfsClient.setattr host ino size).run (ExtentServer.serve env) im =
        .ok (reply, after) ∧ after.Shows { contents with
          ledger := Function.update contents.ledger (inumOf ino)
            (some (type, resized old size.toNat)) }) ↔
      im.RoomFor (inumOf ino) size.toNat := by
  have fits := shows.fits entry
  have bound : maxFile * blockSize < 2 ^ 31 := by decide
  by_cases same : BitVec.ofNat 64 old.length = size
  · have length : size.toNat = old.length := by
      rw [← same, BitVec.toNat_ofNat, Nat.mod_eq_of_lt (by omega)]
    rw [shows.setattr_same host entry same, length, resized_length, ← entry,
      Function.update_eq_self]
    exact iff_of_true ⟨_, im, rfl, shows⟩ (shows.roomFor_self entry)
  · obtain ⟨mid, showsMid, room, run⟩ := shows.setattr_other env host entry same
    rw [run, if_pos (small.trans host.holdsFiles), ← room]
    have newFits : (resized old size.toNat).length ≤ maxFile * blockSize := by
      rwa [length_resized]
    constructor
    · rintro ⟨reply, after, returns, -⟩
      by_contra full
      rw [showsMid.put_full env entry newFits (by rwa [length_resized])] at returns
      cases returns
    · intro enough
      obtain ⟨after, put, showsAfter⟩ := showsMid.put env entry newFits
        (by rwa [length_resized])
      exact ⟨_, after, put, showsAfter⟩

end InodeManager.Shows

/-- `fuseserver_setattr` does to the disk what the disk should have afterwards:
without the size bit nothing, with it a new length of one regular file. -/
def SetattrKeeps (env : Env) (host : Host) (flags : SetAttrFlags) (im : InodeManager)
    (ino : ExtentId) (stSize : BitVec 64) (toSet : BitVec 32) : Prop :=
  ∀ contents, im.Shows contents →
    if toSet &&& flags.size = 0 then
      ∃ reply after, (Fuse.fuseserverSetattr host flags ino stSize toSet).run
        (ExtentServer.serve env) im = .ok (reply, after) ∧ after.Shows contents
    else
      ∀ old, contents.ledger (inumOf ino) = some (tFile, old) →
        stSize.toNat ≤ maxFile * blockSize →
          ∃ reply after, (Fuse.fuseserverSetattr host flags ino stSize toSet).run
            (ExtentServer.serve env) im = .ok (reply, after) ∧
              after.Shows { contents with
                ledger := Function.update contents.ledger (inumOf ino)
                  (some (tFile, resized old stSize.toNat)) }

/-- Without the size bit: no bit is set that the handler acts on, or the low 32 bits of
`st_size` are the size of the file and a string of `st_size` bytes can be allocated.
With it: there is room for the new size. -/
def SetattrSafe (host : Host) (flags : SetAttrFlags) (im : InodeManager) (ino : ExtentId)
    (stSize : BitVec 64) (toSet : BitVec 32) : Prop :=
  if toSet &&& flags.size = 0 then
    toSet &&& (flags.atime ||| flags.mtime) = 0 ∨
      stSize.toNat % 2 ^ 32 = (im.inodeAt (inumOf ino)).size.toNat ∧
        stSize.toNat ≤ host.maxString
  else
    (im.inodeAt (inumOf ino)).type.signExtend 32 = tFile →
      stSize.toNat ≤ maxFile * blockSize → im.RoomFor (inumOf ino) stSize.toNat

section Handler

variable {env : Env} {host : Host} {flags : SetAttrFlags} {im : InodeManager} {ino : ExtentId}
  {stSize : BitVec 64} {toSet : BitVec 32}

theorem mask_eq_zero (noSize : toSet &&& flags.size = 0) :
    (flags.size ||| flags.atime ||| flags.mtime) &&& toSet =
      toSet &&& (flags.atime ||| flags.mtime) := by
  rw [BitVec.or_assoc, BitVec.and_comm, BitVec.and_or_distrib_left, noSize]
  exact BitVec.zero_or

theorem mask_ne_zero (hasSize : toSet &&& flags.size ≠ 0) :
    (flags.size ||| flags.atime ||| flags.mtime) &&& toSet ≠ 0 := by
  intro zero
  rw [BitVec.or_assoc, BitVec.and_comm, BitVec.and_or_distrib_left] at zero
  exact hasSize (BitVec.or_eq_zero_iff.mp zero).1

theorem fuseserverSetattr_iff {post : InodeManager → Prop}
    (acts : (flags.size ||| flags.atime ||| flags.mtime) &&& toSet ≠ 0) :
    (∃ reply after, (Fuse.fuseserverSetattr host flags ino stSize toSet).run
        (ExtentServer.serve env) im = .ok (reply, after) ∧ post after) ↔
      ∃ reply after, (YfsClient.setattr host ino stSize).run (ExtentServer.serve env) im =
        .ok (reply, after) ∧ post after := by
  rw [Fuse.fuseserverSetattr, if_pos acts]
  cases returned : (YfsClient.setattr host ino stSize).run (ExtentServer.serve env) im with
  | error fault =>
      rw [Program.run_bind_error _ returned]
      simp only [reduceCtorEq, false_and, exists_false]
  | ok answer =>
      rcases answer with ⟨r, after⟩
      obtain ⟨a, served⟩ := ExtentServer.getattr_returns after ino
      rw [Program.run_bind_ok _ returned, Program.run_bind_ok _ (Fuse.getattr_run served)]
      constructor
      · rintro ⟨reply, last, same, holds⟩
        cases same
        exact ⟨r, after, rfl, holds⟩
      · rintro ⟨reply, last, same, holds⟩
        cases same
        exact ⟨_, after, rfl, holds⟩

theorem InodeManager.Shows.setattrKeeps_iff {contents : Contents} (env : Env) (host : Host)
    (shows : im.Shows contents) (live : im.IsLive (inumOf ino)) :
    SetattrKeeps env host flags im ino stSize toSet ↔
      SetattrSafe host flags im ino stSize toSet := by
  rw [SetattrKeeps, SetattrSafe]
  by_cases noSize : toSet &&& flags.size = 0
  · simp only [if_pos noSize]
    by_cases idle : toSet &&& (flags.atime ||| flags.mtime) = 0
    · refine iff_of_true (fun contents shows => ⟨.err .ENOSYS, im, ?_, shows⟩) (Or.inl idle)
      rw [Fuse.fuseserverSetattr, if_neg (by rw [mask_eq_zero noSize]; exact not_not.mpr idle)]
      rfl
    · have acts : (flags.size ||| flags.atime ||| flags.mtime) &&& toSet ≠ 0 := by
        rwa [mask_eq_zero noSize]
      simp only [fuseserverSetattr_iff acts, idle, false_or]
      constructor
      · intro keeps
        obtain ⟨type, old, entry⟩ := shows.entry live
        rw [shows.size entry]
        exact (shows.setattr_keeps_iff env host entry).mp (keeps contents shows)
      · intro safe contents shows
        obtain ⟨type, old, entry⟩ := shows.entry live
        rw [shows.size entry] at safe
        exact (shows.setattr_keeps_iff env host entry).mpr safe
  · simp only [if_neg noSize, fuseserverSetattr_iff (mask_ne_zero noSize)]
    constructor
    · intro keeps isFile small
      obtain ⟨type, old, entry⟩ := shows.entry live
      obtain rfl := (shows.typeOf_inode entry).symm.trans isFile
      have resizes := keeps contents shows old entry small
      exact (shows.setattr_resizes_iff env host entry small).mp resizes
    · intro room contents shows old entry small
      have enough := room (shows.typeOf_inode entry) small
      exact (shows.setattr_resizes_iff env host entry small).mpr enough

end Handler

/-- In every state that a run within the limits reaches, `fuseserver_setattr` on a
live inode keeps or changes the data as the mask says exactly if the call is
safe. -/
theorem setattr_keeps_data_iff (env : Env) (flags : SetAttrFlags)
    (host : Host) (calls : List Call) (seen : List Output)
    (im : InodeManager) (within : WithinLimits env.clock host calls)
    (returns : yfsRun env host calls = .ok (seen, im)) (ino : ExtentId)
    (live : im.IsLive (inumOf ino)) (stSize : BitVec 64) (toSet : BitVec 32) :
    SetattrKeeps env host flags im ino stSize toSet ↔
      SetattrSafe host flags im ino stSize toSet := by
  obtain ⟨contents, -, shows⟩ := yfsRun_returns within returns
  exact shows.setattrKeeps_iff env host live

/-- The bits of the FUSE library. -/
def SetAttrFlags.fuse : SetAttrFlags where
  size := 8
  atime := 16
  mtime := 32

/-- Truncating the file of one byte. -/
theorem setattr_keeps_data_iff_truncate :
    ∃ seen im, yfsRun Env.zero .three oneByte = .ok (seen, im) ∧
      (SetattrKeeps Env.zero .three .fuse im 2 0 8 ↔ SetattrSafe .three .fuse im 2 0 8) := by
  rcases oneByte_run with ⟨seen, im, contents, returns, live, shows, entry⟩
  exact ⟨seen, im, returns, setattr_keeps_data_iff Env.zero .fuse .three oneByte seen im
    (withinLimits_of_ok rfl) returns 2 live 0 8⟩

/-- Setting both times of a file, as `utimes` does, with `st_size` 0. -/
theorem setattr_times_wipes :
    ∃ seen im, yfsRun Env.zero .three oneByte = .ok (seen, im) ∧ im.IsLive (inumOf 2) ∧
      ¬SetattrKeeps Env.zero .three .fuse im 2 0 48 := by
  rcases oneByte_run with ⟨seen, im, contents, returns, live, shows, entry⟩
  refine ⟨seen, im, returns, live, fun keeps => ?_⟩
  have size : (im.inodeAt (inumOf 2)).size.toNat = 1 := shows.size entry
  have safe := (shows.setattrKeeps_iff Env.zero .three live).mp keeps
  rw [SetattrSafe, if_pos (by decide), size] at safe
  exact absurd safe (by decide)

end Yfs
