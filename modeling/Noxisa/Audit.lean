import Noxisa.Framebuffer
import Noxisa.SysWrite
import Noxisa.Channels
import Noxisa.Vfs
import Mathlib.Data.List.DropRight

/-!
# The audit log

The model of `audit.rs` and of the eight calls that write to it: `read`, `write`
and `open` of `fs/vfs.rs`, `grant`, `send` and `recv` of `ipc/mod.rs`, and the
two checked system calls of `main.rs`.  `Vfs`, `Ipc` and `Scheduler` have these
calls without the log; here they are with it, and `read_vfs` and its like say
that the log changes nothing else.

Besides the log, which holds `LOG_CAPACITY` events, a state has the list of all
events that were ever logged.  Between two calls the machine may change in any
way: another task runs, time passes, memory and channels change.

A call is recorded (`Recorded`) if it logs one event, its caller's, that is
allowed exactly if the call was carried out.  `Accounted` is the condition on
the state before the call under which it is.  The calls on channels are always
recorded; those on files are not where there is no file to look at, nor where
the file system refuses what the permission check let through.
-/

namespace Audit

open Scheduler FrameAllocator PhysicalMemory ElfLoader
open Vfs (FsError FileStat checkPermission rBit wBit oRdonly oWronly resolvePath)
open Ipc (IpcError canAccess)

/-- `AuditEvent` -/
structure AuditEvent where
  tick : Nat
  subsystem : String
  action : String
  uid : Nat
  allowed : Bool
  detail : String
deriving DecidableEq

/-- The events, oldest first. -/
structure AuditLog where
  events : List AuditEvent

/-- `LOG_CAPACITY` -/
def logCapacity : Nat := 256

namespace AuditLog

/-- `AuditLog::new` -/
def empty : AuditLog := ⟨[]⟩

/-- A full log drops its oldest event. -/
def push (log : AuditLog) (event : AuditEvent) : AuditLog :=
  let events := if logCapacity ≤ log.events.length then log.events.tail else log.events
  ⟨events ++ [event]⟩

/-- `AuditLog::snapshot`: the events, oldest first. -/
def snapshot (log : AuditLog) : List AuditEvent := log.events

/-- `AuditLog::count` -/
def count (log : AuditLog) : Nat := log.events.length

end AuditLog

/-- What the calls work on: the files and the tasks, the channels, the memory
and the page table of the caller, what went to the serial port, latest first,
the framebuffer and what was drawn, the clock. -/
structure Machine where
  vfs : Vfs.Kernel
  reg : Ipc.Registry
  mem : Memory
  cr3 : Nat
  serial : List Out
  fb : Option Framebuffer.Fb
  pixels : List Framebuffer.Store
  ticks : Nat

/-- With the log, and all events that were ever logged. -/
structure Sys extends Machine where
  log : AuditLog
  logged : List AuditEvent

/-- A system that has logged nothing. -/
def Machine.boot (m : Machine) : Sys := { m with log := AuditLog.empty, logged := [] }

namespace Sys

variable (s : Sys)

/-- `audit_log`: one event, with the clock's tick. It goes to the log and, in the model,
to the list of all that were ever logged. -/
def auditLog (subsystem action : String) (uid : Nat) (allowed : Bool) (detail : String) : Sys :=
  let event := ⟨s.ticks, subsystem, action, uid, allowed, detail⟩
  { s with log := s.log.push event, logged := s.logged ++ [event] }

/-- `current_uid` -/
def currentUid : Nat := uid s.vfs.sched

/-- `current_gid` -/
def currentGid : Nat := gid s.vfs.sched

/-- `vfs::read`: a path that is not mounted and a file that is not there are errors
without an event. -/
def read (path : String) (len : Nat) : Except FsError (List UInt8) × Sys :=
  match s.vfs.find path with
  | none => (.error .notMounted, s)
  | some i =>
      let uid := s.currentUid
      match (s.vfs.devices i).stat path with
      | .ok stat =>
          match checkPermission uid s.currentGid stat rBit with
          | .error e => (.error e, s.auditLog "vfs" "read" uid false path)
          | .ok () =>
              ((s.vfs.devices i).read s.vfs.free path len, s.auditLog "vfs" "read" uid true path)
      | .error .notFound => (.error .notFound, s)
      | .error e => (.error e, s)

/-- The end of `write`, after the check. -/
def writeOwned (i : Nat) (path : String) (buf : List UInt8) : Except FsError Nat × Sys :=
  let s := s.auditLog "vfs" "write" s.currentUid true path
  let (r, fs) := (s.vfs.devices i).writeOwned path buf s.currentUid s.currentGid
  (r, { s with vfs := { s.vfs with devices := Function.update s.vfs.devices i fs } })

/-- `vfs::write`: a file that is not there is made, without a check. -/
def write (path : String) (buf : List UInt8) : Except FsError Nat × Sys :=
  match s.vfs.find path with
  | none => (.error .notMounted, s)
  | some i =>
      let uid := s.currentUid
      match (s.vfs.devices i).stat path with
      | .ok stat =>
          match checkPermission uid s.currentGid stat wBit with
          | .error e => (.error e, s.auditLog "vfs" "write" uid false path)
          | .ok () => s.writeOwned i path buf
      | .error .notFound => s.writeOwned i path buf
      | .error e => (.error e, s)

/-- The bits that `open` asks for. -/
def want (flags : Nat) : Nat :=
  (if flags &&& oRdonly ≠ 0 then rBit else 0) ||| (if flags &&& oWronly ≠ 0 then wBit else 0)

/-- `open`; without a value it ends in the allocation error panic of
`alloc_fd`, when the event is logged already. -/
def openFile (path : String) (flags : Nat) : Option (Except FsError Int) × Sys :=
  let resolved := resolvePath (cwd s.vfs.sched) path
  match s.vfs.find resolved with
  | none => (some (.error .notMounted), s)
  | some i =>
      let uid := s.currentUid
      match (s.vfs.devices i).stat resolved with
      | .error e => (some (.error e), s)
      | .ok stat =>
          match checkPermission uid s.currentGid stat (want flags) with
          | .error e => (some (.error e), s.auditLog "vfs" "open" uid false resolved)
          | .ok () =>
              let s := s.auditLog "vfs" "open" uid true resolved
              match allocFd s.vfs.sched ⟨resolved, 0, flags⟩ with
              | none => (none, s)
              | some (fd, sched) => (some (.ok fd), { s with vfs := { s.vfs with sched := sched } })

/-- `ipc::grant`, by the owner only. -/
def grant (id uid : Nat) : Except IpcError Unit × Sys :=
  let caller := s.currentUid
  match s.reg.find id with
  | none =>
      (.error .notFound,
        s.auditLog "ipc" "grant" caller false ("channel " ++ toString id ++ " not found"))
  | some ch =>
      if ch.owner ≠ caller then
        (.error .permissionDenied,
          s.auditLog "ipc" "grant" caller false ("channel " ++ toString id ++ " (not owner)"))
      else
        let reg :=
          if ch.allowed.contains uid then s.reg
          else s.reg.update id (fun c => { c with allowed := c.allowed ++ [uid] })
        let s := { s with reg := reg }
        (.ok (), s.auditLog "ipc" "grant" caller true
          ("channel " ++ toString id ++ " -> uid " ++ toString uid))

/-- `ipc::send` -/
def send (id : Nat) (data : List UInt8) : Except IpcError Nat × Sys :=
  let caller := s.currentUid
  match s.reg.find id with
  | none =>
      (.error .notFound,
        s.auditLog "ipc" "send" caller false ("channel " ++ toString id ++ " not found"))
  | some ch =>
      if canAccess ch caller then
        let s := s.auditLog "ipc" "send" caller true ("channel " ++ toString id)
        let (n, ring) := ch.ring.push data
        (.ok n, { s with reg := s.reg.update id (fun c => { c with ring := ring }) })
      else
        (.error .permissionDenied,
          s.auditLog "ipc" "send" caller false ("channel " ++ toString id))

/-- `recv` into a buffer of `len` bytes: the bytes written to it. -/
def recv (id len : Nat) : Except IpcError (List UInt8) × Sys :=
  let caller := s.currentUid
  match s.reg.find id with
  | none =>
      (.error .notFound,
        s.auditLog "ipc" "recv" caller false ("channel " ++ toString id ++ " not found"))
  | some ch =>
      if canAccess ch caller then
        let s := s.auditLog "ipc" "recv" caller true ("channel " ++ toString id)
        let (bytes, ring) := ch.ring.pop len
        (.ok bytes, { s with reg := s.reg.update id (fun c => { c with ring := ring }) })
      else
        (.error .permissionDenied,
          s.auditLog "ipc" "recv" caller false ("channel " ++ toString id))

/-- What a command sends to the serial port. -/
def withPort (c : Command Port Fault Unit) : Outcome Fault Unit × Sys :=
  let (r, port) := c Port.empty
  (r, { s with serial := port.out ++ s.serial })

/-- `checked_sys_write`: the capability decides which of two lines is written. -/
def checkedSysWrite (buf len : Nat) : Outcome Fault Unit × Sys :=
  if caps s.vfs.sched &&& capWriteSerial = 0 then
    let (r, s) := s.withPort (kprintln "[cap] sys_write DENIED - process lacks CAP_WRITE_SERIAL")
    (r, s.auditLog "cap" "write" s.currentUid false "CAP_WRITE_SERIAL")
  else
    let s := s.auditLog "cap" "write" s.currentUid true "CAP_WRITE_SERIAL"
    s.withPort (serialWriteBytes (fetch s.mem s.cr3) s.cr3 buf len)

/-- Without a framebuffer nothing is drawn. -/
def drawSuccessMarker : Bool × Sys :=
  match s.fb with
  | none => (false, s)
  | some fb => (true, { s with pixels := s.pixels ++ Framebuffer.fillRect fb 20 20 100 100 0x00FF00 })

/-- `CAP_DRAW` -/
def capDraw : Nat := 1 <<< 1

/-- Whether the marker was drawn. -/
def checkedSysDraw : Bool × Sys :=
  if caps s.vfs.sched &&& capDraw = 0 then
    let (_, s) := s.withPort (kprintln "[cap] sys_draw DENIED - process lacks CAP_DRAW")
    (false, s.auditLog "cap" "draw" s.currentUid false "CAP_DRAW")
  else (s.auditLog "cap" "draw" s.currentUid true "CAP_DRAW").drawSuccessMarker

end Sys

/-- The eight calls that log. -/
inductive Call
  | read (path : String) (len : Nat)
  | write (path : String) (buf : List UInt8)
  | openFile (path : String) (flags : Nat)
  | send (id : Nat) (data : List UInt8)
  | recv (id len : Nat)
  | grant (id uid : Nat)
  | checkedSysWrite (buf len : Nat)
  | checkedSysDraw
deriving DecidableEq

/-- An `open` that returned a descriptor. -/
def opened : Option (Except FsError Int) → Bool
  | some (.ok fd) => 0 ≤ fd
  | _ => false

/-- A system call that came to its end. -/
def completed : Outcome Fault Unit → Bool
  | .ok _ => true
  | _ => false

/-- One call, and whether it passed its check and was carried out. -/
def Sys.call (s : Sys) : Call → Bool × Sys
  | .read path len => ((s.read path len).1.isOk, (s.read path len).2)
  | .write path buf => ((s.write path buf).1.isOk, (s.write path buf).2)
  | .openFile path flags => (opened (s.openFile path flags).1, (s.openFile path flags).2)
  | .send id data => ((s.send id data).1.isOk, (s.send id data).2)
  | .recv id len => ((s.recv id len).1.isOk, (s.recv id len).2)
  | .grant id uid => ((s.grant id uid).1.isOk, (s.grant id uid).2)
  | .checkedSysWrite buf len =>
      (caps s.vfs.sched &&& capWriteSerial ≠ 0 && completed (s.checkedSysWrite buf len).1,
        (s.checkedSysWrite buf len).2)
  | .checkedSysDraw => s.checkedSysDraw

/-- A call, or whatever else happens to the machine: none of it is logged. -/
inductive Event
  | call (c : Call)
  | other (m : Machine)

/-- One event: a call by the task that runs, or whatever happens between two calls. -/
def Sys.next (s : Sys) : Event → Sys
  | .call c => (s.call c).2
  | .other m => { s with toMachine := m }

/-- A sequence of events. -/
def Sys.run (s : Sys) (es : List Event) : Sys := es.foldl Sys.next s

/-- The number of calls of a run. -/
def calls : List Event → Nat
  | [] => 0
  | .call _ :: es => calls es + 1
  | .other _ :: es => calls es

/-- Every call of a run has `P` in the state it is made in. -/
def EachCall (P : Sys → Call → Prop) : Sys → List Event → Prop
  | _, [] => True
  | s, .call c :: es => P s c ∧ EachCall P (s.call c).2 es
  | s, .other m :: es => EachCall P (s.next (.other m)) es

section

variable (s : Sys)

/-- `read` with the log is `read` without it, and changes nothing else. -/
theorem read_vfs (path : String) (len : Nat) :
    (s.read path len).1 = s.vfs.read path len ∧ (s.read path len).2.toMachine = s.toMachine := by
  unfold Sys.read Vfs.Kernel.read
  cases s.vfs.find path with
  | none => exact ⟨rfl, rfl⟩
  | some i =>
      dsimp only
      cases (s.vfs.devices i).stat path with
      | error e => cases e <;> exact ⟨rfl, rfl⟩
      | ok stat =>
          dsimp only [Sys.currentUid, Sys.currentGid]
          cases checkPermission (uid s.vfs.sched) (gid s.vfs.sched) stat rBit <;>
            exact ⟨rfl, rfl⟩

/-- `write` with the log does to the files what it does without. -/
theorem write_vfs (path : String) (buf : List UInt8) :
    ((s.write path buf).1, (s.write path buf).2.vfs) = s.vfs.write path buf := by
  unfold Sys.write Vfs.Kernel.write
  cases s.vfs.find path with
  | none => rfl
  | some i =>
      dsimp only
      cases (s.vfs.devices i).stat path with
      | error e => cases e <;> rfl
      | ok stat =>
          dsimp only [Sys.currentUid, Sys.currentGid, Vfs.checkWrite]
          cases checkPermission (uid s.vfs.sched) (gid s.vfs.sched) stat wBit <;> rfl

/-- So does `open`. -/
theorem openFile_vfs (path : String) (flags : Nat) :
    (s.openFile path flags).1.map (fun r => (r, (s.openFile path flags).2.vfs)) =
      s.vfs.openFile path flags := by
  unfold Sys.openFile Vfs.Kernel.openFile
  dsimp only
  cases s.vfs.find (resolvePath (cwd s.vfs.sched) path) with
  | none => rfl
  | some i =>
      dsimp only
      cases (s.vfs.devices i).stat (resolvePath (cwd s.vfs.sched) path) with
      | error e => rfl
      | ok stat =>
          dsimp only [Sys.currentUid, Sys.currentGid, Sys.want, Sys.auditLog]
          cases checkPermission (uid s.vfs.sched) (gid s.vfs.sched) stat _ with
          | error e => rfl
          | ok _ =>
              dsimp only
              cases allocFd s.vfs.sched ⟨resolvePath (cwd s.vfs.sched) path, 0, flags⟩ <;> rfl

/-- `grant` with the log does to the channels what it does without. -/
theorem grant_ipc (id uid : Nat) :
    ((s.grant id uid).1, (s.grant id uid).2.reg) = Ipc.grant s.currentUid id uid s.reg := by
  unfold Sys.grant Ipc.grant
  cases s.reg.find id with
  | none => rfl
  | some ch =>
      dsimp only
      by_cases howner : ch.owner ≠ s.currentUid
      · rw [if_pos howner, if_pos howner]
        rfl
      · rw [if_neg howner, if_neg howner]
        by_cases hgranted : ch.allowed.contains uid = true
        · rw [if_pos hgranted, if_pos hgranted]
          rfl
        · rw [if_neg hgranted, if_neg hgranted]
          rfl

/-- So does `send`. -/
theorem send_ipc (id : Nat) (data : List UInt8) :
    ((s.send id data).1, (s.send id data).2.reg) = Ipc.send s.currentUid id data s.reg := by
  unfold Sys.send Ipc.send
  cases s.reg.find id with
  | none => rfl
  | some ch =>
      dsimp only
      by_cases haccess : canAccess ch s.currentUid = true
      · rw [if_pos haccess, if_pos haccess]
        rfl
      · rw [if_neg haccess, if_neg haccess]
        rfl

/-- So does `recv`. -/
theorem recv_ipc (id len : Nat) :
    ((s.recv id len).1, (s.recv id len).2.reg) = Ipc.recv s.currentUid id len s.reg := by
  unfold Sys.recv Ipc.recv
  cases s.reg.find id with
  | none => rfl
  | some ch =>
      dsimp only
      by_cases haccess : canAccess ch s.currentUid = true
      · rw [if_pos haccess, if_pos haccess]
        rfl
      · rw [if_neg haccess, if_neg haccess]
        rfl

/-- A kernel with the memory, the page table and the capabilities of the
caller. -/
theorem checkedSysWrite_kernel {k : Scheduler.Kernel} (hmem : k.mem = s.mem)
    (hcr3 : k.cpu.cr3 = s.cr3) (hcaps : caps k.sched = caps s.vfs.sched) (buf len : Nat) :
    ((s.checkedSysWrite buf len).1, (s.checkedSysWrite buf len).2.serial) =
      ((Scheduler.checkedSysWrite k buf len Port.empty).1,
        (Scheduler.checkedSysWrite k buf len Port.empty).2.out ++ s.serial) := by
  unfold Sys.checkedSysWrite Scheduler.checkedSysWrite
  rw [hmem, hcr3, hcaps]
  by_cases hcap : caps s.vfs.sched &&& capWriteSerial = 0
  · rw [if_pos hcap, if_pos hcap]
    rfl
  · rw [if_neg hcap, if_neg hcap]
    rfl

end

/-- The call logs one event, its caller's, and it says whether the call was
carried out. -/
def Recorded (s : Sys) (c : Call) : Prop :=
  ∃ event, (s.call c).2.logged = s.logged ++ [event] ∧ event.uid = s.currentUid ∧
    event.allowed = (s.call c).1

/-- Every call is recorded, and the log has the last of their events. -/
structure Complete (s : Sys) (es : List Event) : Prop where
  recorded : EachCall Recorded s es
  snapshot_eq : (s.run es).log.snapshot =
    (s.run es).logged.rtake (min logCapacity (calls es))

/-- What procfs has. -/
def procFiles : List String := ["/proc/meminfo", "/proc/version", "/proc/uptime"]

/-- There is something to read at the path. -/
def Readable (path : String) : Vfs.Filesystem → Prop
  | .tmpfs fs => ∃ node, fs path = some node ∧ node.isDir = false
  | .procfs => path ∈ procFiles

/-- There is no directory at the path, and the file system takes writes. -/
def Writable (path : String) : Vfs.Filesystem → Prop
  | .tmpfs fs => ∀ node, fs path = some node → node.isDir = false
  | .procfs => False

namespace Sys

/-- The permission check lets the caller through. -/
def Permitted (s : Sys) (stat : FileStat) (want : Nat) : Prop :=
  checkPermission s.currentUid s.currentGid stat want = .ok ()

/-- The caller's table of open files has room for one more. -/
def RoomForFd (s : Sys) : Prop :=
  ∃ t, currentTcb s.vfs.sched = some t ∧
    (none ∈ t.openFiles ∨ HeapHolds openFileSize (t.openFiles.length + 1))

/-- The condition on the state before the call. -/
def Accounted (s : Sys) : Call → Prop
  | .read path _ => ∃ i stat, s.vfs.find path = some i ∧
      (s.vfs.devices i).stat path = .ok stat ∧
      (s.Permitted stat rBit → Readable path (s.vfs.devices i))
  | .write path _ => ∃ i, s.vfs.find path = some i ∧
      (Writable path (s.vfs.devices i) ∨
        ∃ stat, (s.vfs.devices i).stat path = .ok stat ∧ ¬s.Permitted stat wBit)
  | .openFile path flags => ∃ i stat,
      s.vfs.find (resolvePath (cwd s.vfs.sched) path) = some i ∧
      (s.vfs.devices i).stat (resolvePath (cwd s.vfs.sched) path) = .ok stat ∧
      (s.Permitted stat (want flags) → s.RoomForFd)
  | .send _ _ => True
  | .recv _ _ => True
  | .grant _ _ => True
  | .checkedSysWrite buf len => caps s.vfs.sched &&& capWriteSerial = 0 ∨
      ∀ i < len, ∃ b, fetch s.mem s.cr3 (MachineWord.add buf i) = .ok b
  | .checkedSysDraw => caps s.vfs.sched &&& capDraw = 0 ∨ s.fb.isSome

end Sys

/-- A full log has the last events, and so has the log after one more. -/
theorem AuditLog.push_events {log : AuditLog} {l : List AuditEvent} {event : AuditEvent}
    (h : log.events = l.rtake logCapacity) :
    (log.push event).events = (l ++ [event]).rtake logCapacity := by
  have hpos : 0 < logCapacity := by decide
  have hlen : log.events.length = l.length - (l.length - logCapacity) := by
    rw [h, List.rtake, List.length_drop]
  have hnew : (l ++ [event]).rtake logCapacity =
      l.drop (l.length + 1 - logCapacity) ++ [event] := by
    rw [List.rtake, List.length_append, List.length_singleton, List.drop_append_of_le_length]
    omega
  rw [hnew, push]
  by_cases hfull : logCapacity ≤ log.events.length
  · have hsucc : l.length + 1 - logCapacity = l.length - logCapacity + 1 := by omega
    simp only [if_pos hfull]
    rw [h, List.rtake, List.tail_drop, hsucc]
  · have hall : l.length - logCapacity = 0 ∧ l.length + 1 - logCapacity = 0 := by omega
    simp only [if_neg hfull]
    rw [h, List.rtake, hall.1, hall.2]

/-- The log has the last of all events. -/
def Sys.Kept (s : Sys) : Prop := s.log.events = s.logged.rtake logCapacity

/-- A system that has logged nothing has lost nothing. -/
theorem Machine.boot_kept (m : Machine) : m.boot.Kept := by
  unfold Sys.Kept
  rw [Machine.boot, List.rtake_nil]
  rfl

/-- What a call does to the log: nothing, or one event of its caller's with
this verdict. -/
inductive Logs (s : Sys) : Sys → Option Bool → Prop
  | silent {t : Sys} (hlog : t.log = s.log) (hlogged : t.logged = s.logged) : Logs s t none
  | event {t : Sys} (e : AuditEvent) (huid : e.uid = s.currentUid)
      (hlog : t.log = s.log.push e) (hlogged : t.logged = s.logged ++ [e]) :
      Logs s t (some e.allowed)

/-- A call that logs at most one event keeps the log in order. -/
theorem Sys.Kept.logs {s t : Sys} {v : Option Bool} (h : s.Kept) (hlogs : Logs s t v) :
    t.Kept := by
  unfold Sys.Kept
  cases hlogs with
  | silent hlog hlogged =>
      rw [hlog, hlogged]
      exact h
  | event e _ hlog hlogged =>
      rw [hlog, hlogged]
      exact AuditLog.push_events h

/-- A call is recorded exactly if its event says whether it was carried out. -/
theorem recorded_iff {s : Sys} {c : Call} {v : Option Bool} (h : Logs s (s.call c).2 v) :
    Recorded s c ↔ v = some (s.call c).1 := by
  unfold Recorded
  cases h with
  | silent _ hlogged => simp [hlogged]
  | event e huid _ hlogged => simp [hlogged, huid]

/-- What there is to show about a call. -/
def Specified (s : Sys) (c : Call) : Prop :=
  ∃ v, Logs s (s.call c).2 v ∧ (v = some (s.call c).1 ↔ s.Accounted c)

section

variable (s : Sys)

/-- `audit_log` logs its one event, for the uid that runs. -/
theorem logs_auditLog (subsystem action : String) (allowed : Bool) (detail : String) :
    Logs s (s.auditLog subsystem action s.currentUid allowed detail) (some allowed) :=
  .event ⟨s.ticks, subsystem, action, s.currentUid, allowed, detail⟩ rfl rfl rfl

/-- A read returns bytes exactly where there is a file to read. -/
theorem readable_iff (free : Nat) (path : String) (len : Nat) (fs : Vfs.Filesystem) :
    (fs.read free path len).isOk = true ↔ Readable path fs := by
  cases fs with
  | tmpfs fs =>
      simp only [Vfs.Filesystem.read, Vfs.Tmpfs.read, Readable]
      cases fs path with
      | none => simp [Except.isOk, Except.toBool]
      | some node => cases hdir : node.isDir <;> simp [Except.isOk, Except.toBool, hdir]
  | procfs =>
      have hcontent : (Vfs.Procfs.content free path).isOk = true ↔ path ∈ procFiles := by
        unfold Vfs.Procfs.content
        simp only [procFiles, List.mem_cons, List.not_mem_nil, or_false]
        split_ifs <;> simp [Except.isOk, Except.toBool, *]
      rw [Vfs.Filesystem.read, Readable, ← hcontent, Vfs.Procfs.read]
      cases Vfs.Procfs.content free path <;> simp [Except.isOk, Except.toBool]

/-- A write is made exactly where the file system lets the path be written. -/
theorem writable_iff (path : String) (buf : List UInt8) (uid gid : Nat) (fs : Vfs.Filesystem) :
    (fs.writeOwned path buf uid gid).1.isOk = true ↔ Writable path fs := by
  cases fs with
  | tmpfs fs =>
      simp only [Vfs.Filesystem.writeOwned, Vfs.Tmpfs.writeOwned, Writable]
      cases fs path with
      | none => simp [Except.isOk, Except.toBool]
      | some node => cases hdir : node.isDir <;> simp [Except.isOk, Except.toBool, hdir]
  | procfs => simp [Vfs.Filesystem.writeOwned, Writable, Except.isOk, Except.toBool]

/-- `stat` fails for one reason only. -/
private theorem stat_error {path : String} {fs : Vfs.Filesystem} {e : FsError}
    (h : fs.stat path = .error e) : e = .notFound := by
  cases fs with
  | tmpfs fs =>
      simp only [Vfs.Filesystem.stat, Vfs.Tmpfs.stat] at h
      cases hnode : fs path <;> grind
  | procfs =>
      simp only [Vfs.Filesystem.stat, Vfs.Procfs.stat] at h
      grind

/-- `read` logs once a file has been found, and says what the check did. -/
theorem read_specified (path : String) (len : Nat) : Specified s (.read path len) := by
  simp only [Specified, Sys.call, Sys.read, Sys.Accounted, Sys.Permitted]
  cases hfind : s.vfs.find path with
  | none => exact ⟨none, .silent rfl rfl, by simp⟩
  | some i =>
      dsimp only
      cases hstat : (s.vfs.devices i).stat path with
      | error e => cases e <;> exact ⟨none, .silent rfl rfl, by simp [hstat]⟩
      | ok stat =>
          dsimp only
          cases hperm : checkPermission s.currentUid s.currentGid stat rBit with
          | error e =>
              exact ⟨some false, logs_auditLog s _ _ _ _,
                by simp [hstat, hperm, Except.isOk, Except.toBool]⟩
          | ok _ =>
              exact ⟨some true, logs_auditLog s _ _ _ _,
                by simp [hstat, hperm, ← readable_iff s.vfs.free path len]⟩

/-- What the permission check lets through is logged as allowed. -/
theorem writeOwned_logs (i : Nat) (path : String) (buf : List UInt8) :
    Logs s (s.writeOwned i path buf).2 (some true) :=
  .event ⟨s.ticks, "vfs", "write", s.currentUid, true, path⟩ rfl rfl rfl

/-- The end of a write depends on the device alone. -/
theorem writeOwned_isOk_iff (i : Nat) (path : String) (buf : List UInt8) :
    (s.writeOwned i path buf).1.isOk = true ↔ Writable path (s.vfs.devices i) :=
  writable_iff path buf s.currentUid s.currentGid (s.vfs.devices i)

/-- `write` logs unless the path is not mounted or cannot be looked at. -/
theorem write_specified (path : String) (buf : List UInt8) : Specified s (.write path buf) := by
  simp only [Specified, Sys.call, Sys.write, Sys.Accounted, Sys.Permitted]
  cases hfind : s.vfs.find path with
  | none => exact ⟨none, .silent rfl rfl, by simp⟩
  | some i =>
      dsimp only
      cases hstat : (s.vfs.devices i).stat path with
      | error e =>
          have hmissing : e = .notFound := stat_error hstat
          subst hmissing
          exact ⟨some true, writeOwned_logs s i path buf,
            by simp [hstat, ← writeOwned_isOk_iff s i path buf]⟩
      | ok stat =>
          dsimp only
          cases hperm : checkPermission s.currentUid s.currentGid stat wBit with
          | error e =>
              exact ⟨some false, logs_auditLog s _ _ _ _,
                by simp [hstat, hperm, Except.isOk, Except.toBool]⟩
          | ok _ =>
              exact ⟨some true, writeOwned_logs s i path buf,
                by simp [hstat, hperm, ← writeOwned_isOk_iff s i path buf]⟩

/-- A descriptor is allocated if there is a number and room in the heap for it. -/
theorem opened_iff (of : OpenFile) :
    opened ((allocFd s.vfs.sched of).map fun p => .ok p.1) = true ↔ s.RoomForFd := by
  unfold allocFd Sys.RoomForFd
  cases currentTcb s.vfs.sched with
  | none => simp [opened]
  | some t =>
      cases hslot : t.openFiles.findIdx? Option.isNone with
      | some slot =>
          have hmem : none ∈ t.openFiles := by
            have hsome : (t.openFiles.findIdx? Option.isNone).isSome = true := by simp [hslot]
            simpa using hsome
          simp [opened, hslot, hmem]
      | none =>
          have hmem : none ∉ t.openFiles := by
            intro h
            simpa using List.findIdx?_eq_none_iff.mp hslot none h
          by_cases hroom : HeapHolds openFileSize (t.openFiles.length + 1)
          · simp [opened, hslot, hroom]
          · simp [opened, hslot, hmem, hroom]

/-- `open` logs as its check of the permission does. -/
theorem openFile_specified (path : String) (flags : Nat) :
    Specified s (.openFile path flags) := by
  simp only [Specified, Sys.call, Sys.openFile, Sys.Accounted, Sys.Permitted]
  cases hfind : s.vfs.find (resolvePath (cwd s.vfs.sched) path) with
  | none => exact ⟨none, .silent rfl rfl, by simp⟩
  | some i =>
      dsimp only
      cases hstat : (s.vfs.devices i).stat (resolvePath (cwd s.vfs.sched) path) with
      | error e => exact ⟨none, .silent rfl rfl, by simp [hstat]⟩
      | ok stat =>
          dsimp only
          cases hperm : checkPermission s.currentUid s.currentGid stat (Sys.want flags) with
          | error e =>
              exact ⟨some false, logs_auditLog s _ _ _ _, by simp [hstat, hperm, opened]⟩
          | ok _ =>
              have hroom := opened_iff s ⟨resolvePath (cwd s.vfs.sched) path, 0, flags⟩
              dsimp only [Sys.auditLog]
              cases halloc :
                  allocFd s.vfs.sched ⟨resolvePath (cwd s.vfs.sched) path, 0, flags⟩ with
              | none =>
                  rw [halloc, Option.map_none] at hroom
                  exact ⟨some true, logs_auditLog s _ _ _ _, by simp [hstat, hperm, ← hroom]⟩
              | some p =>
                  rw [halloc, Option.map_some] at hroom
                  exact ⟨some true,
                    .event ⟨s.ticks, "vfs", "open", s.currentUid, true, _⟩ rfl rfl rfl,
                    by simp [hstat, hperm, ← hroom]⟩

/-- `grant` always logs, and says whether it was granted. -/
theorem grant_specified (id uid : Nat) : Specified s (.grant id uid) := by
  simp only [Specified, Sys.call, Sys.grant, Sys.Accounted]
  cases s.reg.find id with
  | none => exact ⟨some false, logs_auditLog s _ _ _ _, by simp [Except.isOk, Except.toBool]⟩
  | some ch =>
      dsimp only
      by_cases howner : ch.owner ≠ s.currentUid
      · rw [if_pos howner]
        exact ⟨some false, logs_auditLog s _ _ _ _, by simp [Except.isOk, Except.toBool]⟩
      · rw [if_neg howner]
        exact ⟨some true, .event ⟨s.ticks, "ipc", "grant", s.currentUid, true, _⟩ rfl rfl rfl,
          by simp [Except.isOk, Except.toBool]⟩

/-- `send` always logs. -/
theorem send_specified (id : Nat) (data : List UInt8) : Specified s (.send id data) := by
  simp only [Specified, Sys.call, Sys.send, Sys.Accounted]
  cases s.reg.find id with
  | none => exact ⟨some false, logs_auditLog s _ _ _ _, by simp [Except.isOk, Except.toBool]⟩
  | some ch =>
      dsimp only
      by_cases haccess : canAccess ch s.currentUid = true
      · rw [if_pos haccess]
        exact ⟨some true, .event ⟨s.ticks, "ipc", "send", s.currentUid, true, _⟩ rfl rfl rfl,
          by simp [Except.isOk, Except.toBool]⟩
      · rw [if_neg haccess]
        exact ⟨some false, logs_auditLog s _ _ _ _, by simp [Except.isOk, Except.toBool]⟩

/-- `recv` always logs. -/
theorem recv_specified (id len : Nat) : Specified s (.recv id len) := by
  simp only [Specified, Sys.call, Sys.recv, Sys.Accounted]
  cases s.reg.find id with
  | none => exact ⟨some false, logs_auditLog s _ _ _ _, by simp [Except.isOk, Except.toBool]⟩
  | some ch =>
      dsimp only
      by_cases haccess : canAccess ch s.currentUid = true
      · rw [if_pos haccess]
        exact ⟨some true, .event ⟨s.ticks, "ipc", "recv", s.currentUid, true, _⟩ rfl rfl rfl,
          by simp [Except.isOk, Except.toBool]⟩
      · rw [if_neg haccess]
        exact ⟨some false, logs_auditLog s _ _ _ _, by simp [Except.isOk, Except.toBool]⟩

/-- The bytes are sent if none of them faults. -/
theorem completed_serialWriteBytes (view : Nat → Except Fault UInt8) (cr3 buf len : Nat) :
    completed (serialWriteBytes view cr3 buf len Port.empty).1 = true ↔
      ∀ i < len, ∃ b, view (MachineWord.add buf i) = .ok b := by
  have hempty : Fetching view buf len 0 Port.empty :=
    ⟨fun j hj => absurd hj (Nat.not_lt_zero j), fun j hj => absurd hj (Nat.not_lt_zero j),
      fun v hv => absurd hv List.not_mem_nil⟩
  have hrun := serialWriteBytes_fetched cr3 Port.empty hempty
  cases ho : (serialWriteBytes view cr3 buf len Port.empty).1 with
  | ok _ =>
      rw [ho] at hrun
      exact ⟨fun _ => hrun.fetched, fun _ => rfl⟩
  | err f =>
      rw [ho] at hrun
      obtain ⟨i, hi, -, hfault⟩ := hrun
      constructor
      · intro h
        cases h
      · intro h
        obtain ⟨b, hb⟩ := h i hi
        rw [hfault] at hb
        cases hb
  | panic m =>
      rw [ho] at hrun
      exact hrun.elim

/-- `checked_sys_write` logs whether the capability was there. -/
theorem checkedSysWrite_specified (buf len : Nat) : Specified s (.checkedSysWrite buf len) := by
  simp only [Specified, Sys.call, Sys.checkedSysWrite, Sys.Accounted]
  by_cases hcap : caps s.vfs.sched &&& capWriteSerial = 0
  · rw [if_pos hcap]
    exact ⟨some false, .event ⟨s.ticks, "cap", "write", s.currentUid, false, _⟩ rfl rfl rfl,
      by simp [hcap]⟩
  · rw [if_neg hcap]
    have hok := completed_serialWriteBytes (fetch s.mem s.cr3) s.cr3 buf len
    exact ⟨some true, .event ⟨s.ticks, "cap", "write", s.currentUid, true, _⟩ rfl rfl rfl,
      by simp [hcap, ← hok, Sys.withPort, Sys.auditLog]⟩

/-- `checked_sys_draw` as well, with or without a framebuffer. -/
theorem checkedSysDraw_specified : Specified s .checkedSysDraw := by
  simp only [Specified, Sys.call, Sys.checkedSysDraw, Sys.Accounted]
  by_cases hcap : caps s.vfs.sched &&& Sys.capDraw = 0
  · rw [if_pos hcap]
    exact ⟨some false, .event ⟨s.ticks, "cap", "draw", s.currentUid, false, _⟩ rfl rfl rfl,
      by simp [hcap]⟩
  · rw [if_neg hcap]
    simp only [Sys.drawSuccessMarker, Sys.auditLog]
    cases hfb : s.fb with
    | none => exact ⟨some true, logs_auditLog s _ _ _ _, by simp [hcap]⟩
    | some fb =>
        exact ⟨some true, .event ⟨s.ticks, "cap", "draw", s.currentUid, true, _⟩ rfl rfl rfl,
          by simp⟩

/-- **One call**: it logs at most one event, and that is right exactly if the
condition holds. -/
theorem call_specified (c : Call) : Specified s c := by
  cases c with
  | read path len => exact read_specified s path len
  | write path buf => exact write_specified s path buf
  | openFile path flags => exact openFile_specified s path flags
  | send id data => exact send_specified s id data
  | recv id len => exact recv_specified s id len
  | grant id uid => exact grant_specified s id uid
  | checkedSysWrite buf len => exact checkedSysWrite_specified s buf len
  | checkedSysDraw => exact checkedSysDraw_specified s

/-- **One call is recorded** exactly under the condition on the state before it. -/
theorem recorded_iff_accounted (c : Call) : Recorded s c ↔ s.Accounted c := by
  obtain ⟨v, hlogs, hiff⟩ := call_specified s c
  rw [recorded_iff hlogs, hiff]

end

section

variable {s : Sys}

/-- A call keeps the log in order. -/
theorem Sys.Kept.call (h : s.Kept) (c : Call) : (s.call c).2.Kept := by
  obtain ⟨v, hlogs, -⟩ := call_specified s c
  exact h.logs hlogs

/-- **The log of any run** has the last of the events logged. -/
theorem Sys.Kept.run (h : s.Kept) (es : List Event) : (s.run es).Kept := by
  induction es generalizing s with
  | nil => exact h
  | cons e es ih =>
      cases e with
      | call c => exact ih (h.call c)
      | other m => exact ih h

/-- Two conditions on each call of a run that are the same for every call. -/
private theorem eachCall_congr {P Q : Sys → Call → Prop} (hiff : ∀ s c, P s c ↔ Q s c)
    (es : List Event) : EachCall P s es ↔ EachCall Q s es := by
  induction es generalizing s with
  | nil => exact Iff.rfl
  | cons e es ih =>
      cases e with
      | call c => exact and_congr (hiff s c) ih
      | other m => exact ih

/-- As many events as calls. -/
theorem EachCall.length {es : List Event} (h : EachCall Recorded s es) :
    (s.run es).logged.length = s.logged.length + calls es := by
  induction es generalizing s with
  | nil => rfl
  | cons e es ih =>
      cases e with
      | call c =>
          obtain ⟨⟨event, hlogged, -⟩, hrest⟩ := h
          have hlen : (s.call c).2.logged.length = s.logged.length + 1 := by simp [hlogged]
          have hrun := ih hrest
          rw [hlen] at hrun
          simp only [calls]
          exact hrun.trans (by omega)
      | other m => exact ih h

end

/-- **When the audit log is complete.**  From any machine and for any sequence
of calls by any tasks, whatever happens between them: every call appends one
event, its caller's, allowed exactly if the call was carried out, and the
snapshot is the last `min 256 n` of the events of the `n` calls, if and only if
every call is accounted for in the state it is made in. -/
theorem audit_complete_iff (m : Machine) (es : List Event) :
    Complete m.boot es ↔ EachCall Sys.Accounted m.boot es := by
  constructor
  · intro h
    exact (eachCall_congr recorded_iff_accounted es).mp h.recorded
  · intro h
    have hrecorded := (eachCall_congr recorded_iff_accounted es).mpr h
    refine ⟨hrecorded, ?_⟩
    have hkept := m.boot_kept.run es
    have hlen : (m.boot.run es).logged.length = calls es := by
      simpa [Machine.boot] using hrecorded.length
    have hdrop : calls es - min logCapacity (calls es) = calls es - logCapacity := by omega
    rw [AuditLog.snapshot, hkept, List.rtake, List.rtake, hlen, hdrop]

/-- A machine with tmpfs on `/tmp`, a framebuffer and one task. -/
def tmpMachine : Machine where
  vfs :=
    { mounts := [⟨"/tmp", 0⟩], devices := fun _ => .tmpfs Vfs.Tmpfs.new
      sched :=
        { tasks := [none, some (newTcb 1 0 0 ())]
          rq := RunQueue.new, current := 1, nextPid := 2 }
      free := 0 }
  reg := Ipc.Registry.boot
  mem := ⟨Pmm.empty, fun _ => 0, Trace.empty⟩
  cr3 := 0
  serial := []
  fb := some ⟨0xE0000000, 640, 480, 2560⟩
  pixels := []
  ticks := 0

/-- **A read of a file that is not there** leaves no event, and a read of a
directory leaves one that says it was allowed. -/
theorem missing_file_not_logged :
    (tmpMachine.boot.read "/tmp/missing" 16).1 = .error .notFound ∧
    (tmpMachine.boot.read "/tmp/missing" 16).2.log.snapshot = [] ∧
    (tmpMachine.boot.read "/tmp" 16).1 = .error .isADirectory ∧
    (tmpMachine.boot.read "/tmp" 16).2.log.snapshot.map AuditEvent.allowed = [true] ∧
    ¬Complete tmpMachine.boot [.call (.read "/tmp/missing" 16)] ∧
    ¬Complete tmpMachine.boot [.call (.read "/tmp" 16)] := by
  have hmissing : (tmpMachine.boot.call (.read "/tmp/missing" 16)).2.logged = [] := by
    decide +kernel
  have hdir : (tmpMachine.boot.call (.read "/tmp" 16)).2.logged.map AuditEvent.allowed = [true] ∧
      (tmpMachine.boot.call (.read "/tmp" 16)).1 = false := by decide +kernel
  refine ⟨by decide +kernel, by decide +kernel, by decide +kernel, by decide +kernel, ?_, ?_⟩
  · intro h
    obtain ⟨event, hlogged, -⟩ := h.recorded.1
    rw [hmissing] at hlogged
    cases hlogged
  · intro h
    obtain ⟨event, hlogged, -, hallowed⟩ := h.recorded.1
    rw [hdir.2] at hallowed
    rw [hlogged] at hdir
    simp [Machine.boot, hallowed] at hdir

end Audit
