import Noxisa.Capabilities
import Noxisa.MacLabels

/-!
# The tables of the security layers

The models of the tables in `security/capabilities.rs`, `namespaces.rs` and
`seccomp.rs`, each a list of entries by pid under a lock. `Given` says what the
calls made so far mean for a pid, and `Follows` that the tables agree with it.

A process can only get the namespaces of one that is in the table, and
`create_isolated` puts nothing there.
-/

namespace SecurityTables

open Capabilities
open Mac (find assign find_assign find_filter find_cons)

/-- `type Pid = u32` -/
abbrev Pid := UInt32

/-- `NsId` -/
abbrev NsId := UInt32

/-- `NsId::INIT` -/
def nsInit : NsId := 1

/-- The namespaces of a process, one of each kind. -/
structure NsMembership where
  pid : NsId
  mnt : NsId
  net : NsId
  user : NsId
  ipc : NsId
deriving DecidableEq

/-- `NsMembership::init()`: the namespaces of the first process. -/
def initNs : NsMembership := ⟨nsInit, nsInit, nsInit, nsInit, nsInit⟩

/-- `NsFlags`, which kinds of namespace `create_isolated` makes new. -/
abbrev NsFlags := BitVec 8

namespace NsFlags

/-- `NsFlags::PID` and the other kinds, a bit each. -/
def pid : NsFlags := 1 <<< 0
def mnt : NsFlags := 1 <<< 1
def net : NsFlags := 1 <<< 2
def user : NsFlags := 1 <<< 3
def ipc : NsFlags := 1 <<< 4

/-- `NsFlags::contains` -/
def contains (s other : NsFlags) : Bool := s &&& other == other

end NsFlags

/-- The counter wraps. -/
def newNsId (counter : UInt32) : NsId × UInt32 := (counter, counter + 1)

/-- One component of `create_isolated`. -/
def pick (flags flag : NsFlags) (base : NsId) (counter : UInt32) : NsId × UInt32 :=
  if flags.contains flag then newNsId counter else (base, counter)

/-- `create_isolated`: a new id for every kind that the flags name, in the order of the
fields, and the initial namespace for the others. The counter is shared by all kinds. -/
def createIsolated (flags : NsFlags) (counter : UInt32) : NsMembership × UInt32 :=
  let base := initNs
  let pid := pick flags .pid base.pid counter
  let mnt := pick flags .mnt base.mnt pid.2
  let net := pick flags .net base.net mnt.2
  let user := pick flags .user base.user net.2
  let ipc := pick flags .ipc base.ipc user.2
  (⟨pid.1, mnt.1, net.1, user.1, ipc.1⟩, ipc.2)

namespace nr

/-- The numbers of the system calls, as in the module `nr`. -/
def read : UInt32 := 0
def write : UInt32 := 1
def openNr : UInt32 := 2
def close : UInt32 := 3
def stat : UInt32 := 4
def fstat : UInt32 := 5
def lstat : UInt32 := 6
def poll : UInt32 := 7
def lseek : UInt32 := 8
def mmap : UInt32 := 9
def mprotect : UInt32 := 10
def munmap : UInt32 := 11
def brk : UInt32 := 12
def rtSigaction : UInt32 := 13
def rtSigreturn : UInt32 := 15
def ioctl : UInt32 := 16
def readv : UInt32 := 19
def writev : UInt32 := 20
def pipe2 : UInt32 := 293
def dup2 : UInt32 := 33
def nanosleep : UInt32 := 35
def getpid : UInt32 := 39
def sendfile : UInt32 := 40
def socket : UInt32 := 41
def connect : UInt32 := 42
def accept : UInt32 := 43
def sendto : UInt32 := 44
def recvfrom : UInt32 := 45
def bind : UInt32 := 49
def listen : UInt32 := 50
def exit : UInt32 := 60
def fcntl : UInt32 := 72
def getuid : UInt32 := 102
def getgid : UInt32 := 104
def getppid : UInt32 := 110
def prctl : UInt32 := 157
def futex : UInt32 := 202
def getdents64 : UInt32 := 217
def clockGettime : UInt32 := 228
def exitGroup : UInt32 := 231
def epollWait : UInt32 := 232
def epollCtl : UInt32 := 233
def openat : UInt32 := 257
def newfstatat : UInt32 := 262
def readlinkat : UInt32 := 267
def accept4 : UInt32 := 288
def epollCreate1 : UInt32 := 291
def getrandom : UInt32 := 318

end nr

/-- `SeccompProfile` -/
inductive SeccompProfile
  | unconfined
  | strict
  | default
  | network
  | allow (list : List UInt32)

/-- The `matches!` of the strict profile. -/
def strictList : List UInt32 :=
  [nr.read, nr.write, nr.exit, nr.exitGroup, nr.rtSigreturn, nr.nanosleep]

/-- The `matches!` of the default profile. -/
def defaultList : List UInt32 :=
  [nr.read, nr.write, nr.openNr, nr.openat, nr.close, nr.stat, nr.fstat, nr.lstat, nr.newfstatat,
    nr.lseek, nr.mmap, nr.mprotect, nr.munmap, nr.brk, nr.rtSigaction, nr.rtSigreturn, nr.ioctl,
    nr.readv, nr.writev, nr.getdents64, nr.readlinkat, nr.fcntl, nr.pipe2, nr.dup2, nr.poll,
    nr.epollCreate1, nr.epollCtl, nr.epollWait, nr.sendfile, nr.futex, nr.nanosleep,
    nr.clockGettime, nr.getuid, nr.getgid, nr.getpid, nr.getppid, nr.exit, nr.exitGroup, nr.prctl,
    nr.getrandom]

/-- What the network profile allows besides. -/
def networkList : List UInt32 :=
  [nr.socket, nr.connect, nr.accept, nr.accept4, nr.sendto, nr.recvfrom, nr.bind, nr.listen]

/-- `SeccompProfile::allows` -/
def SeccompProfile.allows (sysno : UInt32) : SeccompProfile → Bool
  | .unconfined => true
  | .strict => strictList.contains sysno
  | .default => defaultList.contains sysno
  | .network => defaultList.contains sysno || networkList.contains sysno
  | .allow list => list.contains sysno

/-- `SeccompAction` -/
inductive SeccompAction
  | kill
  | errno
  | log
deriving DecidableEq

/-- `SeccompProfile::on_deny`, which asks for nothing: a call that is denied kills. -/
def SeccompProfile.onDeny (_ : SeccompProfile) : SeccompAction := .kill

/-- `CAP_TABLE`, `PROC_NS`, `NS_COUNTER` and `PROFILES`. -/
structure Layers where
  capTable : List (Pid × ProcCaps)
  procNs : List (Pid × NsMembership)
  nsCounter : UInt32
  profiles : List (Pid × SeccompProfile)

namespace Layers

/-- The three `init`s. -/
def init : Layers where
  capTable := [(0, ProcCaps.allPowerful)]
  procNs := [(0, initNs)]
  nsCounter := 2
  profiles := [(0, .unconfined)]

/-- `capabilities::check`: a process that is not in the table has no capability. -/
def check (l : Layers) (pid : Pid) (cap : Cap) : Bool :=
  (find l.capTable pid).any (·.check cap)

/-- `namespaces::get` -/
def getNs (l : Layers) (pid : Pid) : Option NsMembership := find l.procNs pid

/-- `seccomp::check_syscall`: a process without a profile is killed, whatever it calls.
-/
def checkSyscall (l : Layers) (pid : Pid) (sysno : UInt32) : SeccompAction :=
  match find l.profiles pid with
  | some profile => if profile.allows sysno then .log else profile.onDeny
  | none => .kill

/-- `fork_namespaces`: an entry that the child has already is not replaced. -/
def forkNamespaces (l : Layers) (parent child : Pid) : Layers :=
  match find l.procNs parent with
  | some ns => { l with procNs := l.procNs ++ [(child, ns)] }
  | none => l

end Layers

/-- A call to one of the three tables. -/
inductive Call
  | register (pid : Pid) (caps : ProcCaps)
  | deregisterCaps (pid : Pid)
  | forkNamespaces (parent child : Pid)
  | createIsolated (flags : NsFlags)
  | deregisterNs (pid : Pid)
  | setProfile (pid : Pid) (profile : SeccompProfile)
  | deregisterProfile (pid : Pid)

/-- What a call does to the tables. -/
def Layers.step (l : Layers) : Call → Layers
  | .register pid caps => { l with capTable := assign pid caps l.capTable }
  | .deregisterCaps pid => { l with capTable := l.capTable.filter (·.1 ≠ pid) }
  | .forkNamespaces parent child => l.forkNamespaces parent child
  | .createIsolated flags => { l with nsCounter := (createIsolated flags l.nsCounter).2 }
  | .deregisterNs pid => { l with procNs := l.procNs.filter (·.1 ≠ pid) }
  | .setProfile pid profile => { l with profiles := assign pid profile l.profiles }
  | .deregisterProfile pid => { l with profiles := l.profiles.filter (·.1 ≠ pid) }

/-- The tables after a sequence of calls. -/
def run (calls : List Call) : Layers := calls.foldl Layers.step Layers.init

/-- What the calls have given each pid. -/
structure Given where
  caps : Pid → Option ProcCaps
  joined : Pid → Bool
  profiles : Pid → Option SeccompProfile

namespace Given

/-- Before any call: pid 0 has every capability, is in the initial namespaces and is not
confined. -/
def init : Given where
  caps := Function.update (fun _ => none) 0 (some ProcCaps.allPowerful)
  joined := Function.update (fun _ => false) 0 true
  profiles := Function.update (fun _ => none) 0 (some .unconfined)

/-- What a call means for the pids it is about. A fork of a process that has no
namespaces means nothing. -/
def step (g : Given) : Call → Given
  | .register pid caps => { g with caps := Function.update g.caps pid (some caps) }
  | .deregisterCaps pid => { g with caps := Function.update g.caps pid none }
  | .forkNamespaces parent child =>
      if g.joined parent then { g with joined := Function.update g.joined child true } else g
  | .createIsolated _ => g
  | .deregisterNs pid => { g with joined := Function.update g.joined pid false }
  | .setProfile pid profile =>
      { g with profiles := Function.update g.profiles pid (some profile) }
  | .deregisterProfile pid => { g with profiles := Function.update g.profiles pid none }

end Given

/-- What a sequence of calls means. -/
def given (calls : List Call) : Given := calls.foldl Given.step Given.init

/-- The namespaces of a pid: all that are joined are the initial ones. -/
def Given.ns (g : Given) (pid : Pid) : Option NsMembership :=
  if g.joined pid then some initNs else none

/-- The namespaces after a change of who has joined. -/
theorem Given.ns_update (g : Given) (pid : Pid) (b : Bool) :
    Given.ns { g with joined := Function.update g.joined pid b } =
      Function.update g.ns pid (if b then some initNs else none) := by
  funext other
  simp only [Given.ns, Function.update_apply]
  split_ifs <;> rfl

/-- The tables agree with what the calls mean. -/
structure Follows (l : Layers) (g : Given) : Prop where
  caps : find l.capTable = g.caps
  ns : find l.procNs = g.ns
  profiles : find l.profiles = g.profiles

section

variable {α : Type}

/-- A table of one entry, as a map. -/
theorem find_one (pid : Pid) (a : α) :
    find [(pid, a)] = Function.update (fun _ => none) pid (some a) := by
  funext other
  rw [find_cons, Function.update_apply]
  simp only [eq_comm]
  rfl

/-- An entry at the end counts only where there is none before it. -/
private theorem find_push (table : List (Pid × α)) (pid : Pid) (a : α) (other : Pid) :
    find (table ++ [(pid, a)]) other =
      (find table other).or (if pid = other then some a else none) := by
  induction table with
  | nil => rw [List.nil_append, find_cons]; rfl
  | cons e table ih =>
      rw [List.cons_append, find_cons, find_cons, ih]
      split_ifs <;> rfl

end

/-- **A call** keeps the tables in agreement with what the calls mean. -/
theorem Follows.step {l : Layers} {g : Given} (h : Follows l g) (call : Call) :
    Follows (l.step call) (g.step call) := by
  obtain ⟨hcaps, hns, hprofiles⟩ := h
  cases call with
  | register pid caps =>
      exact ⟨(find_assign pid caps _).trans (by rw [hcaps]; rfl), hns, hprofiles⟩
  | deregisterCaps pid =>
      exact ⟨(find_filter pid _).trans (by rw [hcaps]; rfl), hns, hprofiles⟩
  | forkNamespaces parent child =>
      have hparent : find l.procNs parent = g.ns parent := congrFun hns parent
      simp only [Layers.step, Layers.forkNamespaces, Given.step, hparent]
      by_cases hjoined : g.joined parent
      · have hinit : g.ns parent = some initNs := if_pos hjoined
        rw [hinit, if_pos hjoined]
        refine ⟨hcaps, ?_, hprofiles⟩
        rw [Given.ns_update]
        funext pid
        rw [find_push, congrFun hns pid, Function.update_apply]
        by_cases hpid : pid = child
        · rw [if_pos hpid.symm, if_pos hpid, Given.ns]
          cases g.joined pid <;> rfl
        · rw [if_neg (fun h => hpid h.symm), if_neg hpid, Option.or_none]
      · have hnone : g.ns parent = none := if_neg hjoined
        rw [hnone, if_neg hjoined]
        exact ⟨hcaps, hns, hprofiles⟩
  | createIsolated flags => exact ⟨hcaps, hns, hprofiles⟩
  | deregisterNs pid =>
      refine ⟨hcaps, (find_filter pid _).trans ?_, hprofiles⟩
      rw [hns, Given.step, Given.ns_update]
      rfl
  | setProfile pid profile =>
      exact ⟨hcaps, hns, (find_assign pid profile _).trans (by rw [hprofiles]; rfl)⟩
  | deregisterProfile pid =>
      exact ⟨hcaps, hns, (find_filter pid _).trans (by rw [hprofiles]; rfl)⟩

/-- The tables agree with the calls at the start. -/
private theorem follows_init : Follows Layers.init Given.init := by
  refine ⟨find_one 0 ProcCaps.allPowerful, ?_, find_one 0 SeccompProfile.unconfined⟩
  refine (find_one 0 initNs).trans ?_
  funext pid
  simp only [Given.ns, Given.init, Function.update_apply]
  by_cases hpid : pid = 0 <;> simp [hpid]

/-- After any calls, the tables say what the calls mean. -/
theorem follows (calls : List Call) : Follows (run calls) (given calls) := by
  have hfollows {l : Layers} {g : Given} (h : Follows l g) :
      Follows (calls.foldl Layers.step l) (calls.foldl Given.step g) := by
    induction calls generalizing l g with
    | nil => exact h
    | cons call calls ih => exact ih (h.step call)
  exact hfollows follows_init

/-- Whether a kind is asked for, as a number. -/
def NsFlags.one (flags flag : NsFlags) : Nat := if flags.contains flag then 1 else 0

/-- How many of the five kinds are asked for. -/
def NsFlags.count (flags : NsFlags) : Nat :=
  flags.one .pid + flags.one .mnt + flags.one .net + flags.one .user + flags.one .ipc

/-- The components that were asked for, in order. -/
def NsMembership.fresh (flags : NsFlags) (m : NsMembership) : List NsId :=
  let one (flag : NsFlags) (id : NsId) : List NsId := if flags.contains flag then [id] else []
  one .pid m.pid ++ one .mnt m.mnt ++ one .net m.net ++ one .user m.user ++ one .ipc m.ipc

/-- The ids that a call hands out, and how many it is asked for. -/
def Layers.handed (l : Layers) : Call → List NsId
  | .createIsolated flags => (createIsolated flags l.nsCounter).1.fresh flags
  | _ => []

/-- How many namespaces a call asks for. -/
def Call.asked : Call → Nat
  | .createIsolated flags => flags.count
  | _ => 0

/-- All ids that the calls hand out. -/
def handed (l : Layers) : List Call → List NsId
  | [] => []
  | call :: calls => l.handed call ++ handed (l.step call) calls

/-- How many namespaces a sequence of calls asks for. -/
def asked (calls : List Call) : Nat := (calls.map Call.asked).sum

/-- `k` words from `c` on. -/
def consecutive (c : UInt32) (k : Nat) : List UInt32 :=
  (List.range k).map fun i => c + UInt32.ofNat i

/-- Ids taken one after another, as two runs of them. -/
theorem consecutive_add (c : UInt32) (j k : Nat) :
    consecutive c (j + k) = consecutive c j ++ consecutive (c + UInt32.ofNat j) k := by
  have hshift (i : Nat) : c + UInt32.ofNat (j + i) = c + UInt32.ofNat j + UInt32.ofNat i := by
    rw [UInt32.ofNat_add, UInt32.add_assoc]
  simp only [consecutive, List.range_add, List.map_append, List.map_map, Function.comp_def,
    hshift]

/-- A kind that is asked for gets the next id, one that is not gets none. -/
private theorem pick_fresh (flags flag : NsFlags) (base : NsId) (c : UInt32) :
    (if flags.contains flag then [(pick flags flag base c).1] else []) =
      consecutive c (flags.one flag) := by
  unfold pick NsFlags.one
  split_ifs
  · exact congrArg (· :: []) (UInt32.add_zero c).symm
  · rfl

/-- The counter moves on by the ids that were handed out. -/
private theorem pick_counter (flags flag : NsFlags) (base : NsId) (c : UInt32) :
    (pick flags flag base c).2 = c + UInt32.ofNat (flags.one flag) := by
  unfold pick NsFlags.one
  split_ifs
  · rfl
  · exact (UInt32.add_zero c).symm

/-- A call uses up the words that it hands out. -/
private theorem createIsolated_fresh (flags : NsFlags) (c : UInt32) :
    (createIsolated flags c).1.fresh flags = consecutive c flags.count ∧
      (createIsolated flags c).2 = c + UInt32.ofNat flags.count := by
  simp only [createIsolated, NsMembership.fresh, NsFlags.count, pick_fresh, pick_counter,
    consecutive_add, UInt32.ofNat_add, UInt32.add_assoc, and_self]

/-- A call hands out the next ids, as many as it asks for. -/
theorem handed_step (l : Layers) (call : Call) :
    l.handed call = consecutive l.nsCounter call.asked ∧
      (l.step call).nsCounter = l.nsCounter + UInt32.ofNat call.asked := by
  have hnone : consecutive l.nsCounter 0 = [] := rfl
  have hsame : l.nsCounter + UInt32.ofNat 0 = l.nsCounter := UInt32.add_zero _
  cases call with
  | createIsolated flags => exact createIsolated_fresh flags l.nsCounter
  | forkNamespaces parent child =>
      refine ⟨hnone.symm, Eq.trans ?_ hsame.symm⟩
      simp only [Layers.step, Layers.forkNamespaces]
      cases find l.procNs parent <;> rfl
  | register pid caps => exact ⟨hnone.symm, hsame.symm⟩
  | deregisterCaps pid => exact ⟨hnone.symm, hsame.symm⟩
  | deregisterNs pid => exact ⟨hnone.symm, hsame.symm⟩
  | setProfile pid profile => exact ⟨hnone.symm, hsame.symm⟩
  | deregisterProfile pid => exact ⟨hnone.symm, hsame.symm⟩

/-- A sequence of calls hands out consecutive ids. -/
theorem handed_eq (l : Layers) (calls : List Call) :
    handed l calls = consecutive l.nsCounter (asked calls) := by
  induction calls generalizing l with
  | nil => rfl
  | cons call calls ih =>
      obtain ⟨hhanded, hcounter⟩ := handed_step l call
      rw [handed, ih, hhanded, hcounter, ← consecutive_add]
      rfl

/-- Two words from 2 on are the same a whole turn apart. -/
theorem word_eq_iff {i j : Nat} :
    2 + UInt32.ofNat i = 2 + UInt32.ofNat j ↔ i % 2 ^ 32 = j % 2 ^ 32 := by
  have hword (k : Nat) : 2 + UInt32.ofNat k = UInt32.ofNat (2 + k) := (UInt32.ofNat_add 2 k).symm
  rw [hword, hword, UInt32.ofNat_eq_iff_mod_eq_toNat, UInt32.toNat_ofNat']
  omega

/-- The ids are all different up to one turn of the counter. -/
theorem nodup_consecutive {n : Nat} : (consecutive 2 n).Nodup ↔ n ≤ 2 ^ 32 := by
  constructor
  · intro hnodup
    by_contra hlong
    have hinj := List.inj_on_of_nodup_map hnodup
    have hsame := hinj (List.mem_range.mpr (show 0 < n by omega))
      (List.mem_range.mpr (show 2 ^ 32 < n by omega)) (word_eq_iff.mpr (by norm_num))
    omega
  · intro hshort
    refine List.Nodup.map_on (fun i hi j hj hij => ?_) List.nodup_range
    have hi := List.mem_range.mp hi
    have hj := List.mem_range.mp hj
    have hmod := word_eq_iff.mp hij
    omega

/-- The initial namespace comes at the end of the first turn. -/
private theorem nsInit_mem_consecutive {n : Nat} : nsInit ∈ consecutive 2 n ↔ 2 ^ 32 ≤ n := by
  have hlast : nsInit = 2 + UInt32.ofNat (2 ^ 32 - 1) := by decide +kernel
  rw [consecutive, List.mem_map, hlast]
  constructor
  · rintro ⟨i, hi, hword⟩
    have hi := List.mem_range.mp hi
    have hmod := word_eq_iff.mp hword
    omega
  · exact fun hlong => ⟨2 ^ 32 - 1, List.mem_range.mpr (by omega), rfl⟩

/-- The presets from the strictest on. -/
theorem presets_ordered (sysno : UInt32) :
    (SeccompProfile.strict.allows sysno → SeccompProfile.default.allows sysno) ∧
      (SeccompProfile.default.allows sysno → SeccompProfile.network.allows sysno) ∧
      (SeccompProfile.network.allows sysno → SeccompProfile.unconfined.allows sysno) := by
  have hstrict : strictList ⊆ defaultList := by simp [strictList, defaultList]
  refine ⟨fun h => ?_, fun h => ?_, fun _ => rfl⟩
  · exact List.contains_iff_mem.mpr (hstrict (List.contains_iff_mem.mp h))
  · exact Bool.or_eq_true_iff.mpr (Or.inl h)

/-- In every run of calls, a capability check answers by what the pid was given
last, a system call goes through only under a profile that allows it, and a pid
has no namespaces or the initial ones: what `create_isolated` makes reaches no
process. The ids that it hands out are all different for one turn of the
counter, and with the last of that turn it hands out the initial one. -/
theorem tables_follow_calls (calls : List Call) :
    (∀ pid cap, (run calls).check pid cap = ((given calls).caps pid).any (·.check cap)) ∧
      (∀ pid sysno, (run calls).checkSyscall pid sysno =
        if ∃ profile, (given calls).profiles pid = some profile ∧ profile.allows sysno
          then .log else .kill) ∧
      (∀ pid, (run calls).getNs pid = if (given calls).joined pid then some initNs else none) ∧
      ((handed Layers.init calls).Nodup ↔ asked calls ≤ 2 ^ 32) ∧
      (nsInit ∈ handed Layers.init calls ↔ 2 ^ 32 ≤ asked calls) := by
  obtain ⟨hcaps, hns, hprofiles⟩ := follows calls
  refine ⟨fun pid cap => ?_, fun pid sysno => ?_, fun pid => congrFun hns pid, ?_, ?_⟩
  · rw [Layers.check, hcaps]
  · rw [Layers.checkSyscall, hprofiles]
    cases (given calls).profiles pid with
    | none => simp
    | some profile => simp [SeccompProfile.onDeny]
  · rw [handed_eq]
    exact nodup_consecutive
  · rw [handed_eq]
    exact nsInit_mem_consecutive

end SecurityTables
