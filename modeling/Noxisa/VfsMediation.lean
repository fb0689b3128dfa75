import Noxisa.Vfs
import Noxisa.TransitionSystem
import Mathlib.Data.Nat.Bitwise
import Mathlib.Tactic.IntervalCases

/-!
# Every file access is checked

`Mediated` says what a call may do, in terms of its caller's identity at that
call, the mode of the file and the flags with which the descriptor was opened.
The flags are read off the history of calls (`openedWith`), so that the
descriptor table is part of what is checked and not of the policy.

`write_node` and `read_ok` say it for the two calls on paths.  The calls on
descriptors are layered on these; what they need besides is that the table
agrees with the history (`Recorded`).
-/

namespace Vfs

open Scheduler

/-- A call, who made it, and its reply. -/
structure Event where
  pid : Nat
  call : Call
  reply : Reply

/-- The calls so far, the latest first. -/
abbrev History := List Event

/-- The kernel, with the history. -/
structure World where
  kernel : Kernel
  history : History

/-- Task `pid` runs, and so many frames are free. -/
def Kernel.running (k : Kernel) (pid free : Nat) : Kernel :=
  { k with sched := { k.sched with current := pid }, free := free }

/-- Calls by any tasks, one at a time, over any mounts and nodes; no file is
open at first. -/
def vfsSystem : TransitionSystem World (Nat × Nat × Call) where
  boot := fun w => w.history = [] ∧
    ∀ pid t, lookup w.kernel.sched.tasks pid = some t → t.openFiles = []
  next := fun w (pid, free, call) =>
    match (w.kernel.running pid free).call call with
    | none => none
    | some (reply, k) => some ⟨k, ⟨pid, call, reply⟩ :: w.history⟩

/-- The three classes of the mode bits. -/
inductive AccessClass
  | owner
  | group
  | other
deriving DecidableEq

/-- The place of the three permission bits of a class in the mode. -/
def AccessClass.low : AccessClass → Nat
  | .owner => 6
  | .group => 3
  | .other => 0

/-- The class of a user: the owner first, then the group. -/
def classOf (uid gid : Nat) (stat : FileStat) : AccessClass :=
  if uid = stat.uid then .owner else if gid = stat.gid then .group else .other

/-- The class has the bit to read. -/
def HasR (uid gid : Nat) (stat : FileStat) : Prop :=
  stat.mode.testBit ((classOf uid gid stat).low + 2)

/-- The class has the bit to write. -/
def HasW (uid gid : Nat) (stat : FileStat) : Prop :=
  stat.mode.testBit ((classOf uid gid stat).low + 1)

/-- The flags of the last `open` by `pid` that returned `fd`, if it was not
closed since. -/
def openedWith : History → Nat → Int → Option Nat
  | [], _, _ => none
  | e :: h, pid, fd =>
      if e.pid = pid then
        match e.call, e.reply with
        | .openFile _ flags, .opened fd' => if fd' = fd then some flags else openedWith h pid fd
        | .closeFd fd', .closed true => if fd' = fd then none else openedWith h pid fd
        | _, _ => openedWith h pid fd
      else openedWith h pid fd

/-- The call is one that may change a file. -/
def MayWrite (h : History) (pid : Nat) : Call → Prop
  | .write _ _ => True
  | .writeFd fd _ => ∃ flags, openedWith h pid fd = some flags ∧ flags &&& oWronly ≠ 0
  | _ => False

/-- The call is one that may read the file at `path`. -/
def MayRead (h : History) (k : Kernel) (path : String) : Call → Prop
  | .read p _ => p = path
  | .readFd fd _ => (∃ flags, openedWith h k.sched.current fd = some flags ∧ flags &&& oRdonly ≠ 0) ∧
      (fdInfo k.sched fd).map OpenFile.path = some path
  | _ => False

/-- What `stat` says about a node. -/
def TmpfsNode.stat (node : TmpfsNode) : FileStat :=
  ⟨node.data.length, node.isDir, node.mode, node.uid, node.gid, 0, 0⟩

/-- What a call may do. -/
structure Mediated (h : History) (k : Kernel) (call : Call) (reply : Reply) (k' : Kernel) :
    Prop where
  writes : ∀ i path node, k.node i path = some node → ∃ node', k'.node i path = some node' ∧
    (node'.data ≠ node.data →
      MayWrite h k.sched.current call ∧ HasW (uid k.sched) (gid k.sched) node.stat)
  reads : ∀ bytes, reply = .bytes bytes → ∃ path i stat, MayRead h k path call ∧
    k.find path = some i ∧ (k.devices i).stat path = .ok stat ∧
    HasR (uid k.sched) (gid k.sched) stat
  failed : ∀ e, reply = .failed e → k'.devices = k.devices

/-- The check on one permission bit. -/
theorem checkPermission_ok_iff (uid gid : Nat) (stat : FileStat) {b : Nat} (hb : b < 3) :
    checkPermission uid gid stat (2 ^ b) = .ok () ↔
      stat.mode.testBit ((classOf uid gid stat).low + b) := by
  have hshift : (if uid = stat.uid then 6 else if gid = stat.gid then 3 else 0) =
      (classOf uid gid stat).low := by
    unfold classOf
    split
    · rfl
    · split <;> rfl
  have hbits : (stat.mode >>> (classOf uid gid stat).low &&& 0o7) &&& 2 ^ b =
      (stat.mode.testBit ((classOf uid gid stat).low + b)).toNat * 2 ^ b := by
    have hseven : Nat.testBit 0o7 b = true := by
      interval_cases b <;> rfl
    rw [Nat.and_two_pow, Nat.testBit_and, Nat.testBit_shiftRight, hseven, Bool.and_true]
  have hpos : 0 ≠ 2 ^ b := (Nat.two_pow_pos b).ne
  simp only [checkPermission, hshift, hbits]
  cases stat.mode.testBit ((classOf uid gid stat).low + b) <;> simp [hpos]

/-- Reading needs the R bit. -/
theorem checkPermission_r (uid gid : Nat) (stat : FileStat) :
    checkPermission uid gid stat rBit = .ok () ↔ HasR uid gid stat :=
  checkPermission_ok_iff uid gid stat (b := 2) (by decide)

/-- Writing needs the W bit. -/
theorem checkPermission_w (uid gid : Nat) (stat : FileStat) :
    checkPermission uid gid stat wBit = .ok () ↔ HasW uid gid stat :=
  checkPermission_ok_iff uid gid stat (b := 1) (by decide)

/-- A read that returns bytes has found a file with the bit to read. -/
theorem read_ok {k : Kernel} {path : String} {len : Nat} {bytes : List UInt8}
    (h : k.read path len = .ok bytes) :
    ∃ i stat, k.find path = some i ∧ (k.devices i).stat path = .ok stat ∧
      HasR (uid k.sched) (gid k.sched) stat := by
  unfold Kernel.read at h
  cases hfind : k.find path with
  | none =>
      rw [hfind] at h
      cases h
  | some i =>
      rw [hfind] at h
      dsimp only at h
      cases hstat : (k.devices i).stat path with
      | error e =>
          rw [hstat] at h
          cases h
      | ok stat =>
          rw [hstat] at h
          dsimp only at h
          cases hcheck : checkPermission (uid k.sched) (gid k.sched) stat rBit with
          | error e =>
              rw [hcheck] at h
              cases h
          | ok _ => exact ⟨i, stat, rfl, hstat, (checkPermission_r _ _ _).mp hcheck⟩

/-- `write` has three outcomes: it is refused, or it calls the backend. -/
theorem write_cases (k : Kernel) (path : String) (buf : List UInt8) :
    (∃ e, k.write path buf = (.error e, k)) ∨
    ∃ i, k.find path = some i ∧
      checkWrite (uid k.sched) (gid k.sched) ((k.devices i).stat path) = .ok () ∧
      k.write path buf =
        (((k.devices i).writeOwned path buf (uid k.sched) (gid k.sched)).1,
          { k with
            devices := Function.update k.devices i
              ((k.devices i).writeOwned path buf (uid k.sched) (gid k.sched)).2 }) := by
  unfold Kernel.write
  cases k.find path with
  | none => exact Or.inl ⟨_, rfl⟩
  | some i =>
      dsimp only
      cases hcheck : checkWrite (uid k.sched) (gid k.sched) ((k.devices i).stat path) with
      | error e => exact Or.inl ⟨e, rfl⟩
      | ok _ => exact Or.inr ⟨i, rfl, hcheck, rfl⟩

/-- A file that is not there is made, with the caller as its owner. -/
theorem Tmpfs.writeOwned_new {fs : Tmpfs} {path : String} (h : fs path = none)
    (buf : List UInt8) (uid gid : Nat) :
    fs.writeOwned path buf uid gid =
      (.ok buf.length, Function.update fs path (some ⟨buf, false, 0o644, uid, gid⟩)) := by
  simp [Tmpfs.writeOwned, h]

/-- A directory is not written to. -/
theorem Tmpfs.writeOwned_dir {fs : Tmpfs} {path : String} {node : TmpfsNode}
    (h : fs path = some node) (hdir : node.isDir) (buf : List UInt8) (uid gid : Nat) :
    fs.writeOwned path buf uid gid = (.error .isADirectory, fs) := by
  simp only [Tmpfs.writeOwned, h, Option.getD_some, if_pos hdir]
  rw [← h, Function.update_eq_self]

/-- A file that is there gets the bytes and keeps its owner and mode. -/
theorem Tmpfs.writeOwned_file {fs : Tmpfs} {path : String} {node : TmpfsNode}
    (h : fs path = some node) (hdir : ¬ node.isDir) (buf : List UInt8) (uid gid : Nat) :
    fs.writeOwned path buf uid gid =
      (.ok buf.length, Function.update fs path (some { node with data := buf })) := by
  simp only [Tmpfs.writeOwned, h, Option.getD_some, if_neg hdir]

/-- A failed write to tmpfs leaves the nodes. -/
theorem Tmpfs.writeOwned_failed {fs : Tmpfs} {path : String} {buf : List UInt8} {uid gid : Nat}
    {e : FsError} (h : (fs.writeOwned path buf uid gid).1 = .error e) :
    (fs.writeOwned path buf uid gid).2 = fs := by
  cases hnode : fs path with
  | none =>
      rw [Tmpfs.writeOwned_new hnode] at h
      cases h
  | some node =>
      by_cases hdir : node.isDir
      · rw [Tmpfs.writeOwned_dir hnode hdir]
      · rw [Tmpfs.writeOwned_file hnode hdir] at h
        cases h

/-- A `write` that fails leaves the files as they are. -/
theorem write_failed {k : Kernel} {path : String} {buf : List UInt8} {e : FsError}
    (h : (k.write path buf).1 = .error e) : (k.write path buf).2.devices = k.devices := by
  rcases write_cases k path buf with ⟨e', heq⟩ | ⟨i, -, -, heq⟩
  · rw [heq]
  · rw [heq] at h ⊢
    have hsame : ((k.devices i).writeOwned path buf (uid k.sched) (gid k.sched)).2 =
        k.devices i := by
      cases hdev : k.devices i with
      | procfs => rfl
      | tmpfs fs =>
          rw [hdev] at h
          exact congrArg Filesystem.tmpfs (Tmpfs.writeOwned_failed h)
    dsimp only
    rw [hsame]
    exact Function.update_eq_self i k.devices

/-- `write` does not touch the tasks. -/
theorem write_sched (k : Kernel) (path : String) (buf : List UInt8) :
    (k.write path buf).2.sched = k.sched := by
  rcases write_cases k path buf with ⟨e', heq⟩ | ⟨i, -, -, heq⟩ <;> rw [heq]

/-- Writing one file leaves the others as they are. -/
theorem Tmpfs.writeOwned_other {fs : Tmpfs} {path q : String} (hq : q ≠ path)
    (buf : List UInt8) (uid gid : Nat) : (fs.writeOwned path buf uid gid).2 q = fs q := by
  rw [Tmpfs.writeOwned]
  split
  · exact Function.update_of_ne hq _ _
  · exact Function.update_of_ne hq _ _

/-- A write to tmpfs changes at most the data of a node that is there. -/
theorem Tmpfs.writeOwned_node {fs : Tmpfs} {q : String} {node : TmpfsNode} (path : String)
    (buf : List UInt8) (uid gid : Nat) (h : fs q = some node) :
    ∃ data, (fs.writeOwned path buf uid gid).2 q = some { node with data := data } ∧
      (data ≠ node.data → q = path) := by
  by_cases hq : q = path
  · subst hq
    by_cases hdir : node.isDir
    · rw [Tmpfs.writeOwned_dir h hdir]
      exact ⟨node.data, h, fun _ => rfl⟩
    · rw [Tmpfs.writeOwned_file h hdir]
      exact ⟨buf, Function.update_self _ _ _, fun _ => rfl⟩
  · rw [Tmpfs.writeOwned_other hq]
    exact ⟨node.data, h, fun hne => absurd rfl hne⟩

/-- **`write`** changes the data of a node only for a caller with the W bit. -/
theorem write_node (k : Kernel) (path : String) (buf : List UInt8) {i : Nat} {q : String}
    {node : TmpfsNode} (h : k.node i q = some node) :
    ∃ node', (k.write path buf).2.node i q = some node' ∧
      (node'.data ≠ node.data → HasW (uid k.sched) (gid k.sched) node.stat) := by
  rcases write_cases k path buf with ⟨e', heq⟩ | ⟨j, -, hcheck, heq⟩
  · rw [heq]
    exact ⟨node, h, fun hne => absurd rfl hne⟩
  · rw [heq]
    by_cases hi : i = j
    · subst hi
      unfold Kernel.node at h ⊢
      cases hdev : k.devices i with
      | procfs =>
          rw [hdev] at h
          cases h
      | tmpfs fs =>
          rw [hdev] at h hcheck
          change fs q = some node at h
          obtain ⟨data, hnode', hpath⟩ :=
            Tmpfs.writeOwned_node path buf (uid k.sched) (gid k.sched) h
          refine ⟨{ node with data := data }, ?_, fun hne => ?_⟩
          · simp only [Function.update_self]
            exact hnode'
          · obtain rfl := hpath hne
            have hstat : fs.stat q = .ok node.stat := by
              rw [Tmpfs.stat, h]
              rfl
            simp only [Filesystem.stat, hstat, checkWrite] at hcheck
            exact (checkPermission_w _ _ _).mp hcheck
    · refine ⟨node, ?_, fun hne => absurd rfl hne⟩
      unfold Kernel.node at h ⊢
      simp only [Function.update_of_ne hi]
      exact h

/-- `open` fails, ends in the allocation panic, or fills a slot for a path that
`stat` finds. -/
theorem openFile_cases (k : Kernel) (path : String) (flags : Nat) :
    (∃ e, k.openFile path flags = some (.error e, k)) ∨ k.openFile path flags = none ∨
    ∃ fd s', (∃ i stat, k.find (resolvePath (cwd k.sched) path) = some i ∧
        (k.devices i).stat (resolvePath (cwd k.sched) path) = .ok stat) ∧
      allocFd k.sched ⟨resolvePath (cwd k.sched) path, 0, flags⟩ = some (fd, s') ∧
      k.openFile path flags = some (.ok fd, { k with sched := s' }) := by
  unfold Kernel.openFile
  generalize resolvePath (cwd k.sched) path = resolved
  dsimp only
  cases k.find resolved with
  | none => exact Or.inl ⟨_, rfl⟩
  | some i =>
      dsimp only
      cases hstat : (k.devices i).stat resolved with
      | error e => exact Or.inl ⟨e, rfl⟩
      | ok stat =>
          dsimp only
          generalize checkPermission (uid k.sched) (gid k.sched) stat _ = checked
          cases checked with
          | error e => exact Or.inl ⟨e, rfl⟩
          | ok _ =>
              dsimp only
              cases halloc : allocFd k.sched ⟨resolved, 0, flags⟩ with
              | none => exact Or.inr (Or.inl rfl)
              | some out => exact Or.inr (Or.inr ⟨out.1, out.2, ⟨i, stat, rfl, hstat⟩, rfl, rfl⟩)

/-- `read_fd` moves an offset, or nothing. -/
theorem readFd_snd (k : Kernel) (fd : Int) (len : Nat) : (k.readFd fd len).2 = k ∨
    ∃ offset, (k.readFd fd len).2 = { k with sched := setFdOffset k.sched fd offset } := by
  unfold Kernel.readFd
  cases fdInfo k.sched fd with
  | none => exact Or.inl rfl
  | some of =>
      dsimp only
      by_cases hflags : of.flags &&& oRdonly = 0
      · rw [if_pos hflags]
        exact Or.inl rfl
      · rw [if_neg hflags]
        cases k.read of.path len with
        | error e => exact Or.inl rfl
        | ok bytes => exact Or.inr ⟨_, rfl⟩

/-- `write_fd` makes one `write` to the path of the descriptor and moves its
offset, or it does nothing. -/
theorem writeFd_snd (k : Kernel) (fd : Int) (buf : List UInt8) : (k.writeFd fd buf).2 = k ∨
    ∃ of merged, fdInfo k.sched fd = some of ∧
      ((k.writeFd fd buf).2 = (k.write of.path merged).2 ∨
        ∃ offset, (k.writeFd fd buf).2 = { (k.write of.path merged).2 with
          sched := setFdOffset k.sched fd offset }) := by
  unfold Kernel.writeFd
  cases fdInfo k.sched fd with
  | none => exact Or.inl rfl
  | some of =>
      dsimp only
      by_cases hflags : of.flags &&& oWronly = 0
      · rw [if_pos hflags]
        exact Or.inl rfl
      · rw [if_neg hflags]
        generalize Kernel.splice ((k.read of.path (of.offset + buf.length)).toOption.getD []) buf
          of.offset = merged
        have hsched := write_sched k of.path merged
        refine Or.inr ⟨of, merged, rfl, ?_⟩
        generalize k.write of.path merged = out at hsched ⊢
        obtain ⟨r, k'⟩ := out
        cases r with
        | error e => exact Or.inl rfl
        | ok n => exact Or.inr ⟨of.offset + buf.length, by rw [← hsched]⟩

section

variable {k k' : Kernel} {path : String} {buf : List UInt8} {fd : Int} {len : Nat} {reply : Reply}

/-- `read` changes nothing. -/
theorem call_read (h : k.call (.read path len) = some (reply, k')) : k' = k := by
  simp only [Kernel.call] at h
  cases hread : k.read path len <;> rw [hread] at h <;>
    exact (Prod.mk.inj (Option.some.inj h)).2.symm

/-- `write` changes what `write` changes. -/
theorem call_write (h : k.call (.write path buf) = some (reply, k')) :
    k' = (k.write path buf).2 := by
  simp only [Kernel.call] at h
  generalize k.write path buf = out at h ⊢
  obtain ⟨r, k''⟩ := out
  cases r <;> exact (Prod.mk.inj (Option.some.inj h)).2.symm

/-- So does `read_fd`. -/
theorem call_readFd (h : k.call (.readFd fd len) = some (reply, k')) :
    k' = (k.readFd fd len).2 := by
  simp only [Kernel.call] at h
  generalize k.readFd fd len = out at h ⊢
  obtain ⟨r, k''⟩ := out
  cases r <;> exact (Prod.mk.inj (Option.some.inj h)).2.symm

/-- So does `write_fd`. -/
theorem call_writeFd (h : k.call (.writeFd fd buf) = some (reply, k')) :
    k' = (k.writeFd fd buf).2 := by
  simp only [Kernel.call] at h
  generalize k.writeFd fd buf = out at h ⊢
  obtain ⟨r, k''⟩ := out
  cases r <;> exact (Prod.mk.inj (Option.some.inj h)).2.symm

end

/-- Every open file has the flags that the history says. -/
def Recorded (s : Scheduler Unit) (h : History) : Prop :=
  ∀ pid fd of, fileAt s pid fd = some of → openedWith h pid fd = some of.flags

/-- A call that neither opens nor closes leaves open what was open. -/
theorem openedWith_cons_of_ne {e : Event} {h : History} {pid : Nat} {fd : Int}
    (hopen : ∀ path flags, e.call ≠ .openFile path flags)
    (hclose : ∀ fd, e.call = .closeFd fd → e.reply ≠ .closed true) :
    openedWith (e :: h) pid fd = openedWith h pid fd := by
  rw [openedWith]
  split
  · split
    case h_1 path flags fd' hcall hreply => exact absurd hcall (hopen path flags)
    case h_2 fd' hcall hreply => exact absurd hreply (hclose fd' hcall)
    case h_3 => rfl
  · rfl

namespace Recorded

variable {s s' : Scheduler Unit} {h : History} {e : Event}

/-- A call that keeps the flags of all open files and opens and closes none. -/
theorem keep (hr : Recorded s h)
    (hflags : ∀ pid fd, (fileAt s' pid fd).map OpenFile.flags =
      (fileAt s pid fd).map OpenFile.flags)
    (hopen : ∀ path flags, e.call ≠ .openFile path flags)
    (hclose : ∀ fd, e.call = .closeFd fd → e.reply ≠ .closed true) : Recorded s' (e :: h) := by
  intro pid fd of hof
  rw [openedWith_cons_of_ne hopen hclose]
  have hsame := hflags pid fd
  rw [hof] at hsame
  obtain ⟨old, hold, heq⟩ := Option.map_eq_some_iff.mp hsame.symm
  rw [hr pid fd old hold, heq]

/-- A failed `open`. -/
theorem refused (hr : Recorded s h) {pid : Nat} {call : Call} {err : FsError} :
    Recorded s (⟨pid, call, .failed err⟩ :: h) := by
  intro p fd of hof
  rw [openedWith]
  split
  · split
    case h_1 path flags fd' hcall hreply => cases hreply
    case h_2 fd' hcall hreply => cases hreply
    case h_3 => exact hr p fd of hof
  · exact hr p fd of hof

/-- A descriptor that is opened has the flags it was opened with. -/
theorem openFile (hr : Recorded s h) {path resolved : String} {flags : Nat} {new : Int}
    (halloc : allocFd s ⟨resolved, 0, flags⟩ = some (new, s')) :
    Recorded s' (⟨s.current, .openFile path flags, .opened new⟩ :: h) := by
  intro pid fd of hof
  rw [openedWith]
  rcases fileAt_allocFd halloc pid fd with ⟨hsame, hother⟩ | ⟨rfl, rfl, hnew⟩
  · rw [hsame] at hof
    have hold := hr pid fd of hof
    by_cases hpid : s.current = pid
    · have hfd : ¬ new = fd := by
        intro heq
        rw [fileAt_neg _ _ (hother hpid.symm heq.symm)] at hof
        cases hof
      simp [hpid, hfd, hold]
    · simp [hpid, hold]
  · rw [hnew] at hof
    obtain rfl := Option.some.inj hof
    simp

/-- One that is closed is open no more. -/
theorem closeFd (hr : Recorded s h) (fd' : Int) :
    Recorded (Scheduler.closeFd s fd').2
      (⟨s.current, .closeFd fd', .closed (Scheduler.closeFd s fd').1⟩ :: h) := by
  intro pid fd of hof
  rw [fileAt_closeFd] at hof
  split at hof
  case isTrue => cases hof
  case isFalse hkept =>
    have hold := hr pid fd of hof
    rw [openedWith]
    by_cases hpid : s.current = pid
    · cases hdone : (Scheduler.closeFd s fd').1 with
      | false => simp [hpid, hold]
      | true =>
          have hfd : ¬ fd' = fd := fun heq => hkept ⟨hdone, hpid.symm, heq.symm⟩
          simp [hpid, hfd, hold]
    · simp [hpid, hold]

end Recorded

namespace Mediated

variable {k : Kernel} {h : History}

/-- A call that touches no node and returns no bytes. -/
theorem idle {call : Call} {reply : Reply} {k' : Kernel} (hdevices : k'.devices = k.devices)
    (hbytes : ∀ bytes, reply ≠ .bytes bytes) : Mediated h k call reply k' := by
  refine ⟨fun i path node hnode => ⟨node, ?_, fun hne => absurd rfl hne⟩,
    fun bytes hreply => absurd hreply (hbytes bytes), fun _ _ => hdevices⟩
  rw [← hnode]
  simp only [Kernel.node, hdevices]

/-- **`write`** is mediated: it is carried out exactly where the bits allow it, and
otherwise refused. -/
theorem write (k : Kernel) (h : History) (path : String) (buf : List UInt8) {reply : Reply}
    {k' : Kernel} (hcall : k.call (.write path buf) = some (reply, k')) :
    Mediated h k (.write path buf) reply k' := by
  have hnode := @write_node k path buf
  have hfailed := @write_failed k path buf
  simp only [Kernel.call] at hcall
  generalize k.write path buf = out at hcall hnode hfailed
  obtain ⟨r, k''⟩ := out
  cases r with
  | error e =>
      simp only [Option.some.injEq, Prod.mk.injEq] at hcall
      obtain ⟨rfl, rfl⟩ := hcall
      exact idle (hfailed rfl) (fun _ => Reply.noConfusion)
  | ok n =>
      simp only [Option.some.injEq, Prod.mk.injEq] at hcall
      obtain ⟨rfl, rfl⟩ := hcall
      refine ⟨fun i q node hq => ?_, fun _ => Reply.noConfusion, fun _ => Reply.noConfusion⟩
      obtain ⟨node', hnode', hright⟩ := hnode hq
      exact ⟨node', hnode', fun hne => ⟨trivial, hright hne⟩⟩

/-- **`read_fd`**: the descriptor has been opened to read. -/
theorem readFd (hr : Recorded k.sched h) (fd : Int) (len : Nat) {reply : Reply} {k' : Kernel}
    (hcall : k.call (.readFd fd len) = some (reply, k')) :
    Mediated h k (.readFd fd len) reply k' := by
  simp only [Kernel.call, Kernel.readFd] at hcall
  cases hinfo : fdInfo k.sched fd with
  | none =>
      simp only [hinfo, Option.some.injEq, Prod.mk.injEq] at hcall
      obtain ⟨rfl, rfl⟩ := hcall
      exact idle rfl (fun _ => Reply.noConfusion)
  | some of =>
      simp only [hinfo] at hcall
      by_cases hflags : of.flags &&& oRdonly = 0
      · simp only [if_pos hflags, Option.some.injEq, Prod.mk.injEq] at hcall
        obtain ⟨rfl, rfl⟩ := hcall
        exact idle rfl (fun _ => Reply.noConfusion)
      · simp only [if_neg hflags] at hcall
        cases hread : k.read of.path len with
        | error e =>
            simp only [hread, Option.some.injEq, Prod.mk.injEq] at hcall
            obtain ⟨rfl, rfl⟩ := hcall
            exact idle rfl (fun _ => Reply.noConfusion)
        | ok bytes =>
            simp only [hread, Option.some.injEq, Prod.mk.injEq] at hcall
            obtain ⟨rfl, rfl⟩ := hcall
            obtain ⟨i, stat, hfind, hstat, hright⟩ := read_ok hread
            refine ⟨fun i q node hq => ⟨node, hq, fun hne => absurd rfl hne⟩,
              fun _ _ => ⟨of.path, i, stat, ?_, hfind, hstat, hright⟩, fun _ _ => rfl⟩
            exact ⟨⟨of.flags, hr _ _ _ hinfo, hflags⟩, by rw [hinfo]; rfl⟩

/-- **`write_fd`**: the descriptor has been opened to write. -/
theorem writeFd (hr : Recorded k.sched h) (fd : Int) (buf : List UInt8) {reply : Reply}
    {k' : Kernel} (hcall : k.call (.writeFd fd buf) = some (reply, k')) :
    Mediated h k (.writeFd fd buf) reply k' := by
  simp only [Kernel.call, Kernel.writeFd] at hcall
  cases hinfo : fdInfo k.sched fd with
  | none =>
      simp only [hinfo, Option.some.injEq, Prod.mk.injEq] at hcall
      obtain ⟨rfl, rfl⟩ := hcall
      exact idle rfl (fun _ => Reply.noConfusion)
  | some of =>
      simp only [hinfo] at hcall
      by_cases hflags : of.flags &&& oWronly = 0
      · simp only [if_pos hflags, Option.some.injEq, Prod.mk.injEq] at hcall
        obtain ⟨rfl, rfl⟩ := hcall
        exact idle rfl (fun _ => Reply.noConfusion)
      · simp only [if_neg hflags] at hcall
        generalize Kernel.splice ((k.read of.path (of.offset + buf.length)).toOption.getD []) buf
          of.offset = merged at hcall
        have hnode := @write_node k of.path merged
        have hfailed := @write_failed k of.path merged
        generalize k.write of.path merged = out at hcall hnode hfailed
        obtain ⟨r, k''⟩ := out
        cases r with
        | error e =>
            simp only [Option.some.injEq, Prod.mk.injEq] at hcall
            obtain ⟨rfl, rfl⟩ := hcall
            exact idle (hfailed rfl) (fun _ => Reply.noConfusion)
        | ok n =>
            simp only [Option.some.injEq, Prod.mk.injEq] at hcall
            obtain ⟨rfl, rfl⟩ := hcall
            refine ⟨fun i q node hq => ?_, fun _ => Reply.noConfusion, fun _ => Reply.noConfusion⟩
            obtain ⟨node', hnode', hright⟩ := hnode hq
            exact ⟨node', hnode', fun hne => ⟨⟨of.flags, hr _ _ _ hinfo, hflags⟩, hright hne⟩⟩

/-- **Any call.** -/
theorem call (hr : Recorded k.sched h) {call : Call} {reply : Reply} {k' : Kernel}
    (hcall : k.call call = some (reply, k')) : Mediated h k call reply k' := by
  cases call with
  | setIdentity uid gid =>
      simp only [Kernel.call, Option.some.injEq, Prod.mk.injEq] at hcall
      obtain ⟨rfl, rfl⟩ := hcall
      exact idle rfl (fun _ => Reply.noConfusion)
  | setCwd path =>
      simp only [Kernel.call, Option.some.injEq, Prod.mk.injEq] at hcall
      obtain ⟨rfl, rfl⟩ := hcall
      exact idle rfl (fun _ => Reply.noConfusion)
  | read path len =>
      simp only [Kernel.call] at hcall
      cases hread : k.read path len with
      | error e =>
          simp only [hread, Option.some.injEq, Prod.mk.injEq] at hcall
          obtain ⟨rfl, rfl⟩ := hcall
          exact idle rfl (fun _ => Reply.noConfusion)
      | ok bytes =>
          simp only [hread, Option.some.injEq, Prod.mk.injEq] at hcall
          obtain ⟨rfl, rfl⟩ := hcall
          obtain ⟨i, stat, hfind, hstat, hright⟩ := read_ok hread
          exact ⟨fun i q node hq => ⟨node, hq, fun hne => absurd rfl hne⟩,
            fun _ _ => ⟨path, i, stat, rfl, hfind, hstat, hright⟩, fun _ _ => rfl⟩
  | write path buf => exact write k h path buf hcall
  | openFile path flags =>
      simp only [Kernel.call] at hcall
      rcases openFile_cases k path flags with ⟨e, heq⟩ | heq | ⟨fd, s', -, -, heq⟩
      · simp only [heq, Option.some.injEq, Prod.mk.injEq] at hcall
        obtain ⟨rfl, rfl⟩ := hcall
        exact idle rfl (fun _ => Reply.noConfusion)
      · simp [heq] at hcall
      · simp only [heq, Option.some.injEq, Prod.mk.injEq] at hcall
        obtain ⟨rfl, rfl⟩ := hcall
        exact idle rfl (fun _ => Reply.noConfusion)
  | readFd fd len => exact readFd hr fd len hcall
  | writeFd fd buf => exact writeFd hr fd buf hcall
  | closeFd fd =>
      simp only [Kernel.call, Option.some.injEq, Prod.mk.injEq] at hcall
      obtain ⟨rfl, rfl⟩ := hcall
      exact idle rfl (fun _ => Reply.noConfusion)

end Mediated

/-- The table after any call. -/
theorem Recorded.call {k k' : Kernel} {h : History} (hr : Recorded k.sched h) {call : Call}
    {reply : Reply} (hcall : k.call call = some (reply, k')) :
    Recorded k'.sched (⟨k.sched.current, call, reply⟩ :: h) := by
  cases call with
  | setIdentity uid gid =>
      simp only [Kernel.call, Option.some.injEq, Prod.mk.injEq] at hcall
      obtain ⟨rfl, rfl⟩ := hcall
      refine hr.keep (fun pid fd => ?_) (fun _ _ => Call.noConfusion) (fun _ => Call.noConfusion)
      rw [fileAt_setIdentity]
  | setCwd path =>
      simp only [Kernel.call, Option.some.injEq, Prod.mk.injEq] at hcall
      obtain ⟨rfl, rfl⟩ := hcall
      refine hr.keep (fun pid fd => ?_) (fun _ _ => Call.noConfusion) (fun _ => Call.noConfusion)
      rw [fileAt_setCwd]
  | read path len =>
      have hsame : k' = k := by
        simp only [Kernel.call] at hcall
        split at hcall <;> simp_all
      rw [hsame]
      exact hr.keep (fun _ _ => rfl) (fun _ _ => Call.noConfusion) (fun _ => Call.noConfusion)
  | write path buf =>
      have hsame : k'.sched = k.sched := by
        have hsched := write_sched k path buf
        simp only [Kernel.call] at hcall
        split at hcall <;> simp_all
      rw [hsame]
      exact hr.keep (fun _ _ => rfl) (fun _ _ => Call.noConfusion) (fun _ => Call.noConfusion)
  | openFile path flags =>
      simp only [Kernel.call] at hcall
      rcases openFile_cases k path flags with ⟨e, heq⟩ | heq | ⟨fd, s', -, halloc, heq⟩
      · simp only [heq, Option.some.injEq, Prod.mk.injEq] at hcall
        obtain ⟨rfl, rfl⟩ := hcall
        exact hr.refused
      · simp [heq] at hcall
      · simp only [heq, Option.some.injEq, Prod.mk.injEq] at hcall
        obtain ⟨rfl, rfl⟩ := hcall
        exact hr.openFile halloc
  | readFd fd len =>
      have hflags : ∀ pid fd, (fileAt k'.sched pid fd).map OpenFile.flags =
          (fileAt k.sched pid fd).map OpenFile.flags := by
        intro p f
        have hoffset := fun offset => flags_setFdOffset k.sched fd offset p f
        simp only [Kernel.call, Kernel.readFd] at hcall
        grind
      exact hr.keep hflags (fun _ _ => Call.noConfusion) (fun _ => Call.noConfusion)
  | writeFd fd buf =>
      have hflags : ∀ pid fd, (fileAt k'.sched pid fd).map OpenFile.flags =
          (fileAt k.sched pid fd).map OpenFile.flags := by
        intro p f
        have hsched := fun path buf => write_sched k path buf
        have hoffset := fun offset => flags_setFdOffset k.sched fd offset p f
        simp only [Kernel.call, Kernel.writeFd] at hcall
        grind
      exact hr.keep hflags (fun _ _ => Call.noConfusion) (fun _ => Call.noConfusion)
  | closeFd fd =>
      simp only [Kernel.call, Option.some.injEq, Prod.mk.injEq] at hcall
      obtain ⟨rfl, rfl⟩ := hcall
      exact hr.closeFd fd

/-- **The descriptors** of every reachable state are those of the history. -/
theorem reach_recorded {w : World} (hrun : vfsSystem.Reach w) :
    Recorded w.kernel.sched w.history := by
  refine hrun.invariant (I := fun w => Recorded w.kernel.sched w.history)
    (fun s hboot => ?_) (fun s e t hs hnext => ?_)
  · obtain ⟨-, hfiles⟩ := hboot
    intro pid fd of hof
    unfold fileAt at hof
    split at hof
    case isTrue => cases hof
    case isFalse =>
      cases ht : lookup s.kernel.sched.tasks pid with
      | none => simp [ht] at hof
      | some t => simp [ht, hfiles pid t ht] at hof
  · obtain ⟨pid, free, call⟩ := e
    simp only [vfsSystem] at hnext
    split at hnext
    case h_1 => cases hnext
    case h_2 reply k hcall =>
      obtain rfl := Option.some.inj hnext
      have hrunning : Recorded (s.kernel.running pid free).sched s.history := hs
      exact hrunning.call hcall

/-- **Complete mediation.**  After any run, whatever task calls what: the data
of a node changes only if the caller's class has the W bit (and the descriptor
was opened for writing), bytes are returned only if it has the R bit (and the
descriptor was opened for reading), and a failed call leaves every node. -/
theorem file_access_mediated {w : World} (hrun : vfsSystem.Reach w) {pid free : Nat} {call : Call}
    {reply : Reply} {k : Kernel}
    (hcall : (w.kernel.running pid free).call call = some (reply, k)) :
    Mediated w.history (w.kernel.running pid free) call reply k := by
  have hrunning : Recorded (w.kernel.running pid free).sched w.history := reach_recorded hrun
  exact Mediated.call hrunning hcall

/-- Tmpfs at `/tmp`, procfs at `/proc` and two tasks with different uids. -/
def sampleKernel : Kernel where
  mounts := [⟨"/proc", 1⟩, ⟨"/tmp", 0⟩]
  devices := fun i => if i = 0 then .tmpfs Tmpfs.new else .procfs
  sched :=
    { tasks := [none, some { newTcb 1 0 0 () with uid := 0, gid := 0 }, some (newTcb 2 0 0 ())]
      rq := RunQueue.new, current := 0, nextPid := 3 }
  free := 0

/-- Task 1 creates a file; task 2 may not write it, but opens and reads it. -/
def sampleCalls : List (Nat × Nat × Call) :=
  [(1, 0, .write "/tmp/permtest.txt" [1, 2, 3]), (2, 0, .write "/tmp/permtest.txt" [9]),
    (2, 0, .setCwd "/tmp"), (2, 0, .openFile "permtest.txt" oRdonly), (2, 0, .readFd 0 2),
    (2, 0, .writeFd 0 [9])]

/-- A run of two users, one of whom is refused. -/
theorem sample_file_access_mediated :
    ∃ w k, vfsSystem.exec ⟨sampleKernel, []⟩ sampleCalls = some w ∧
      w.history.map Event.reply = [.failed .permissionDenied, .bytes [1, 2], .opened 0, .done,
        .failed .permissionDenied, .wrote 3] ∧
      (w.kernel.running 1 0).call (.write "/tmp/permtest.txt" [4]) = some (.wrote 1, k) ∧
      Mediated w.history (w.kernel.running 1 0) (.write "/tmp/permtest.txt" [4]) (.wrote 1) k := by
  have hrun : (vfsSystem.exec ⟨sampleKernel, []⟩ sampleCalls).map (fun w =>
      (w.history.map Event.reply, ((w.kernel.running 1 0).call
        (.write "/tmp/permtest.txt" [4])).map Prod.fst)) =
      some ([.failed .permissionDenied, .bytes [1, 2], .opened 0, .done,
        .failed .permissionDenied, .wrote 3], some (.wrote 1)) := by
    decide +kernel
  obtain ⟨w, hw, heq⟩ := Option.map_eq_some_iff.mp hrun
  obtain ⟨⟨reply, k⟩, hcall, hreply⟩ := Option.map_eq_some_iff.mp (congrArg Prod.snd heq)
  obtain rfl : reply = .wrote 1 := hreply
  have hboot : vfsSystem.boot ⟨sampleKernel, []⟩ := by
    refine ⟨rfl, fun pid t ht => ?_⟩
    match pid, ht with
    | 1, ht => exact (Option.some.inj ht) ▸ rfl
    | 2, ht => exact (Option.some.inj ht) ▸ rfl
  have hreach := TransitionSystem.Reach.exec (TransitionSystem.Run.boot hboot) hw
  exact ⟨w, k, hw, congrArg Prod.fst heq, hcall, file_access_mediated hreach hcall⟩

end Vfs
