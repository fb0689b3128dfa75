import Noxisa.ProcessResources
import Mathlib.Logic.Function.Basic

/-!
# The virtual filesystem

The model of `fs/vfs.rs` over the two backends that are mounted, `fs/tmpfs.rs`
and `fs/procfs.rs`.  A call works on behalf of the current task; a read is
modelled by the bytes it writes to a buffer of the given length.  The audit log
is left out: nothing reads it back.

`find_spec` and the lemmas on `write` at the end say all that a call can do to
a node.
-/

namespace Vfs

open Scheduler

/-- `FsError` -/
inductive FsError
  | notFound
  | permissionDenied
  | notADirectory
  | isADirectory
  | noSpace
  | invalidPath
  | ioError
  | notMounted
deriving DecidableEq

/-- `O_RDONLY` and `O_WRONLY`, a bit each. -/
def oRdonly : Nat := 0b01
def oWronly : Nat := 0b10

/-- `FileStat` -/
structure FileStat where
  size : Nat
  isDir : Bool
  mode : Nat
  uid : Nat
  gid : Nat
  atime : Nat
  mtime : Nat
deriving DecidableEq

/-- A node of the temporary file system. -/
structure TmpfsNode where
  data : List UInt8
  isDir : Bool
  mode : Nat
  uid : Nat
  gid : Nat
deriving DecidableEq

/-- The nodes by path. -/
abbrev Tmpfs := String → Option TmpfsNode

namespace Tmpfs

/-- `Tmpfs::new`: the directory itself. -/
def new : Tmpfs :=
  Function.update (fun _ => none) "/tmp" (some ⟨[], true, 0o1777, 0, 0⟩)

/-- `Tmpfs::read`: at most the buffer, from the beginning of the file. -/
def read (fs : Tmpfs) (path : String) (len : Nat) : Except FsError (List UInt8) :=
  match fs path with
  | none => .error .notFound
  | some node => if node.isDir then .error .isADirectory else .ok (node.data.take len)

/-- An existing node keeps its owner. -/
def writeOwned (fs : Tmpfs) (path : String) (buf : List UInt8) (uid gid : Nat) :
    Except FsError Nat × Tmpfs :=
  let node := (fs path).getD ⟨[], false, 0o644, uid, gid⟩
  if node.isDir then (.error .isADirectory, Function.update fs path (some node))
  else (.ok buf.length, Function.update fs path (some { node with data := buf }))

/-- `Tmpfs::stat` -/
def stat (fs : Tmpfs) (path : String) : Except FsError FileStat :=
  match fs path with
  | none => .error .notFound
  | some node => .ok ⟨node.data.length, node.isDir, node.mode, node.uid, node.gid, 0, 0⟩

end Tmpfs

namespace Procfs

/-- `free` is `free_frames()`. -/
def content (free : Nat) (path : String) : Except FsError String :=
  if path = "/proc/meminfo" then .ok ("MemFree: " ++ toString (free * 4) ++ " kB\n")
  else if path = "/proc/version" then .ok "Noxisa version 0.1.0 (Rust no_std kernel)\n"
  else if path = "/proc/uptime" then .ok "0.00 0.00\n"
  else if path.startsWith "/proc/" then .error .notFound
  else .error .invalidPath

/-- `Procfs::read` -/
def read (free : Nat) (path : String) (len : Nat) : Except FsError (List UInt8) :=
  match content free path with
  | .error e => .error e
  | .ok s => .ok (s.toUTF8.toList.take len)

/-- `Procfs::stat`: every name below the directory is a file, the ones without content
too. -/
def stat (path : String) : Except FsError FileStat :=
  if path = "/proc" ∨ path.startsWith "/proc/" then .ok ⟨0, path = "/proc", 0o444, 0, 0, 0, 0⟩
  else .error .notFound

end Procfs

/-- The implementations of the trait. -/
inductive Filesystem
  | tmpfs (fs : Tmpfs)
  | procfs

namespace Filesystem

/-- `read`, of either kind. -/
def read (free : Nat) (path : String) (len : Nat) : Filesystem → Except FsError (List UInt8)
  | .tmpfs fs => fs.read path len
  | .procfs => Procfs.read free path len

/-- `Procfs` has the default, which forwards to its `write`. -/
def writeOwned (path : String) (buf : List UInt8) (uid gid : Nat) :
    Filesystem → Except FsError Nat × Filesystem
  | .tmpfs fs => let (r, fs') := fs.writeOwned path buf uid gid; (r, .tmpfs fs')
  | .procfs => (.error .permissionDenied, .procfs)

/-- `stat`, of either kind. -/
def stat (path : String) : Filesystem → Except FsError FileStat
  | .tmpfs fs => fs.stat path
  | .procfs => Procfs.stat path

end Filesystem

/-- `fs` is the place of the boxed filesystem in `devices`. -/
structure MountEntry where
  mountpoint : String
  fs : Nat
deriving DecidableEq

/-- `MOUNTS`, the latest mount first, the filesystems, the scheduler, and the
count of free frames that procfs shows. -/
structure Kernel where
  mounts : List MountEntry
  devices : Nat → Filesystem
  sched : Scheduler Unit
  free : Nat

/-- `mounts.iter().rev().find(|m| path.starts_with(m.mountpoint))` -/
def Kernel.find (k : Kernel) (path : String) : Option Nat :=
  (k.mounts.find? (fun m => path.startsWith m.mountpoint)).map MountEntry.fs

/-- `resolve_path` -/
def resolvePath (base path : String) : String :=
  if path.startsWith '/' then path
  else if base.endsWith '/' then base ++ path
  else base ++ "/" ++ path

/-- The bit of a class for reading, and that for writing. -/
def rBit : Nat := 0o4
def wBit : Nat := 0o2

/-- For a caller with identity `uid`, `gid`. -/
def checkPermission (uid gid : Nat) (stat : FileStat) (want : Nat) : Except FsError Unit :=
  let shift := if uid = stat.uid then 6 else if gid = stat.gid then 3 else 0
  let bits := (stat.mode >>> shift) &&& 0o7
  if bits &&& want = want then .ok () else .error .permissionDenied

namespace Kernel

/-- `vfs::read` -/
def read (k : Kernel) (path : String) (len : Nat) : Except FsError (List UInt8) :=
  match k.find path with
  | none => .error .notMounted
  | some i =>
      match (k.devices i).stat path with
      | .error e => .error e
      | .ok stat =>
          match checkPermission (uid k.sched) (gid k.sched) stat rBit with
          | .error e => .error e
          | .ok () => (k.devices i).read k.free path len

end Kernel

/-- The first half of `write`: what it makes of the result of `stat`. -/
def checkWrite (uid gid : Nat) : Except FsError FileStat → Except FsError Unit
  | .ok stat => checkPermission uid gid stat wBit
  | .error .notFound => .ok ()
  | .error e => .error e

namespace Kernel

/-- `vfs::write` -/
def write (k : Kernel) (path : String) (buf : List UInt8) : Except FsError Nat × Kernel :=
  match k.find path with
  | none => (.error .notMounted, k)
  | some i =>
      match checkWrite (uid k.sched) (gid k.sched) ((k.devices i).stat path) with
      | .error e => (.error e, k)
      | .ok () =>
          let (r, fs) := (k.devices i).writeOwned path buf (uid k.sched) (gid k.sched)
          (r, { k with devices := Function.update k.devices i fs })

/-- `open`; `none` is the allocation error panic of `alloc_fd`. -/
def openFile (k : Kernel) (path : String) (flags : Nat) : Option (Except FsError Int × Kernel) :=
  let resolved := resolvePath (cwd k.sched) path
  match k.find resolved with
  | none => some (.error .notMounted, k)
  | some i =>
      match (k.devices i).stat resolved with
      | .error e => some (.error e, k)
      | .ok stat =>
          let want := (if flags &&& oRdonly ≠ 0 then rBit else 0) |||
            (if flags &&& oWronly ≠ 0 then wBit else 0)
          match checkPermission (uid k.sched) (gid k.sched) stat want with
          | .error e => some (.error e, k)
          | .ok () =>
              match allocFd k.sched ⟨resolved, 0, flags⟩ with
              | none => none
              | some (fd, sched) => some (.ok fd, { k with sched := sched })

/-- `vfs::read_fd`: the file is read from its beginning, as far as the buffer goes, and
the offset is applied to that. -/
def readFd (k : Kernel) (fd : Int) (len : Nat) : Except FsError (List UInt8) × Kernel :=
  match fdInfo k.sched fd with
  | none => (.error .notFound, k)
  | some of =>
      if of.flags &&& oRdonly = 0 then (.error .permissionDenied, k)
      else
        match k.read of.path len with
        | .error e => (.error e, k)
        | .ok bytes =>
            let start := min of.offset bytes.length
            let take := min (bytes.length - start) len
            (.ok ((bytes.drop start).take take),
              { k with sched := setFdOffset k.sched fd (of.offset + take) })

/-- The file with `buf` spliced in at `offset`; `existing` is what could be read
of it into a buffer of `offset + buf.len()` bytes. -/
def splice (existing buf : List UInt8) (offset : Nat) : List UInt8 :=
  let head := existing.take offset
  let merged := head ++ List.replicate (offset - head.length) 0 ++ buf
  merged ++ existing.drop merged.length

/-- `vfs::write_fd`: what is read again to be kept ends with the buffer. -/
def writeFd (k : Kernel) (fd : Int) (buf : List UInt8) : Except FsError Nat × Kernel :=
  match fdInfo k.sched fd with
  | none => (.error .notFound, k)
  | some of =>
      if of.flags &&& oWronly = 0 then (.error .permissionDenied, k)
      else
        let existing := (k.read of.path (of.offset + buf.length)).toOption.getD []
        match k.write of.path (splice existing buf of.offset) with
        | (.error e, k') => (.error e, k')
        | (.ok _, k') =>
            (.ok buf.length, { k' with sched := setFdOffset k'.sched fd (of.offset + buf.length) })

end Kernel

/-- The calls of a process. -/
inductive Call
  | setIdentity (uid gid : Nat)
  | setCwd (path : String)
  | read (path : String) (len : Nat)
  | write (path : String) (buf : List UInt8)
  | openFile (path : String) (flags : Nat)
  | readFd (fd : Int) (len : Nat)
  | writeFd (fd : Int) (buf : List UInt8)
  | closeFd (fd : Int)
deriving DecidableEq

/-- What they return. -/
inductive Reply
  | done
  | bytes (bytes : List UInt8)
  | wrote (n : Nat)
  | opened (fd : Int)
  | closed (done : Bool)
  | failed (e : FsError)
deriving DecidableEq

/-- One call by the current task. -/
def Kernel.call (k : Kernel) : Call → Option (Reply × Kernel)
  | .setIdentity uid gid => some (.done, { k with sched := setIdentity k.sched uid gid })
  | .setCwd path => some (.done, { k with sched := setCwd k.sched path })
  | .read path len =>
      match k.read path len with
      | .ok bytes => some (.bytes bytes, k)
      | .error e => some (.failed e, k)
  | .write path buf =>
      match k.write path buf with
      | (.ok n, k') => some (.wrote n, k')
      | (.error e, k') => some (.failed e, k')
  | .openFile path flags =>
      match k.openFile path flags with
      | none => none
      | some (.ok fd, k') => some (.opened fd, k')
      | some (.error e, k') => some (.failed e, k')
  | .readFd fd len =>
      match k.readFd fd len with
      | (.ok bytes, k') => some (.bytes bytes, k')
      | (.error e, k') => some (.failed e, k')
  | .writeFd fd buf =>
      match k.writeFd fd buf with
      | (.ok n, k') => some (.wrote n, k')
      | (.error e, k') => some (.failed e, k')
  | .closeFd fd =>
      let (done, sched) := closeFd k.sched fd
      some (.closed done, { k with sched := sched })

/-- The node at a path of a filesystem. -/
def Kernel.node (k : Kernel) (i : Nat) (path : String) : Option TmpfsNode :=
  match k.devices i with
  | .tmpfs fs => fs path
  | .procfs => none

end Vfs
