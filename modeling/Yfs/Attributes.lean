import Yfs.Fuse
import Yfs.ServerCalls

/-!
# Reading attributes

The calls that only ask the extent server for attributes return from every
state and change nothing: `getattr` reports zeros for an inode that is not live,
and no caller tells them from those of a live inode.
-/

namespace Yfs

open ClientServer

/-- The times and the size, widened. -/
def Attr.fileInfo (a : Attr) : FileInfo where
  size := a.size.setWidth 64
  atime := a.atime.setWidth 64
  mtime := a.mtime.setWidth 64
  ctime := a.ctime.setWidth 64

def Attr.dirInfo (a : Attr) : DirInfo where
  atime := a.atime.setWidth 64
  mtime := a.mtime.setWidth 64
  ctime := a.ctime.setWidth 64

/-- The `stat` that the FUSE server makes of the attributes. -/
def Attr.stat (a : Attr) (inum : ExtentId) : Stat :=
  if a.type = tFile then Fuse.fileStat inum modeFile a.fileInfo
  else if a.type = tDir then Fuse.dirStat inum a.dirInfo
  else Fuse.fileStat inum modeSymlink a.fileInfo

section Answered

variable {env : Env} {im : InodeManager} {ino : ExtentId} {a : Attr}

theorem isfile_run (served : ExtentServer.getattr im ino = .ok ((.OK, a), im)) :
    (YfsClient.isfile ino).run (ExtentServer.serve env) im =
      .ok (decide (a.type = tFile), im) := by
  rw [YfsClient.isfile, Program.run_bind, ExtentClient.getattr, Program.run_send,
    ExtentServer.serve, served]
  rfl

theorem isdir_run (served : ExtentServer.getattr im ino = .ok ((.OK, a), im)) :
    (YfsClient.isdir ino).run (ExtentServer.serve env) im =
      .ok (decide (a.type = tDir), im) := by
  rw [YfsClient.isdir, Program.run_bind, ExtentClient.getattr, Program.run_send,
    ExtentServer.serve, served]
  rfl

theorem getfile_run (served : ExtentServer.getattr im ino = .ok ((.OK, a), im)) :
    (YfsClient.getfile ino).run (ExtentServer.serve env) im =
      .ok ((.OK, some a.fileInfo), im) := by
  rw [YfsClient.getfile, Program.run_bind, ExtentClient.getattr, Program.run_send,
    ExtentServer.serve, served]
  rfl

theorem getdir_run (served : ExtentServer.getattr im ino = .ok ((.OK, a), im)) :
    (YfsClient.getdir ino).run (ExtentServer.serve env) im =
      .ok ((.OK, some a.dirInfo), im) := by
  rw [YfsClient.getdir, Program.run_bind, ExtentClient.getattr, Program.run_send,
    ExtentServer.serve, served]
  rfl

/-- `getattr` of the FUSE server always reports success. -/
theorem Fuse.getattr_run (served : ExtentServer.getattr im ino = .ok ((.OK, a), im)) :
    (Fuse.getattr ino).run (ExtentServer.serve env) im = .ok ((.OK, a.stat ino), im) := by
  rw [Fuse.getattr, Program.run_bind_ok _ (isfile_run served),
    Program.run_bind_ok _ (isfile_run served), Attr.stat]
  by_cases isFile : a.type = tFile
  · rw [decide_eq_true isFile, if_pos rfl, if_pos isFile,
      Program.run_bind_ok _ (getfile_run served)]
    rfl
  · rw [decide_eq_false isFile, if_neg Bool.false_ne_true, if_neg isFile,
      Program.run_bind_ok _ (isdir_run served)]
    by_cases isDir : a.type = tDir
    · rw [decide_eq_true isDir, if_pos rfl, if_pos isDir,
        Program.run_bind_ok _ (getdir_run served)]
      rfl
    · rw [decide_eq_false isDir, if_neg Bool.false_ne_true, if_neg isDir,
        Program.run_bind_ok _ (getfile_run served)]
      rfl

end Answered

end Yfs
