import Noxisa.VfsMediation
import Mathlib.Data.List.Permutation

/-!
# Concurrent writes

`vfs::write` under preemption: `stat` with the check that follows it is one
step and `write_owned` another, and the steps of different processes come in
any order.

The calls finish in some order, and `Replays` compares the run with the calls
made one after the other in that order.  A denied call takes effect at its
`stat`, any other one at its `write_owned`.  There the check of a sequential
call would be passed again: a node keeps its mode and its owner
(`Tmpfs.writeOwned_node`), unless the check was skipped because the file was
absent.  `Unraced` excludes exactly that.
-/

namespace Vfs

/-- A call of `write` by a process with identity `uid`, `gid`. -/
structure WriteCall where
  uid : Nat
  gid : Nat
  path : String
  buf : List UInt8
deriving DecidableEq

/-- The call when nothing comes between its steps. -/
def Tmpfs.write (fs : Tmpfs) (c : WriteCall) : Except FsError Nat × Tmpfs :=
  match checkWrite c.uid c.gid (fs.stat c.path) with
  | .error e => (.error e, fs)
  | .ok () => fs.writeOwned c.path c.buf c.uid c.gid

/-- Where a process is; `absent` if `stat` has not found the file. -/
inductive Phase
  | idle
  | called (c : WriteCall)
  | checked (c : WriteCall) (absent : Bool)
deriving DecidableEq

/-- A finished call. -/
structure Finished where
  call : WriteCall
  result : Except FsError Nat
deriving DecidableEq

/-- The nodes, the processes, and the finished calls, latest first. -/
structure Writers where
  fs : Tmpfs
  phase : Nat → Phase
  log : List Finished

namespace Writers

/-- A process goes on. -/
def goto (w : Writers) (p : Nat) (x : Phase) : Writers :=
  { w with phase := Function.update w.phase p x }

/-- The first half of a write: the file is looked at, and the check made on what it
says. -/
def stat (w : Writers) (p : Nat) (c : WriteCall) : Writers :=
  match checkWrite c.uid c.gid (w.fs.stat c.path) with
  | .error e => { w.goto p .idle with log := ⟨c, .error e⟩ :: w.log }
  | .ok () => w.goto p (.checked c (w.fs c.path).isNone)

/-- The second half: the file is made or gets the bytes. -/
def writeOwned (w : Writers) (p : Nat) (c : WriteCall) : Writers :=
  let (r, fs) := w.fs.writeOwned c.path c.buf c.uid c.gid
  { w.goto p .idle with fs := fs, log := ⟨c, r⟩ :: w.log }

end Writers

/-- A process begins a write or makes its next step. -/
inductive WriteStep
  | call (p : Nat) (c : WriteCall)
  | step (p : Nat)

/-- Any processes with any identities, from any nodes. -/
def writeSystem (fs : Tmpfs) : TransitionSystem Writers WriteStep where
  boot := fun w => w = ⟨fs, fun _ => .idle, []⟩
  next := fun w e => match e with
    | .call p c => if w.phase p = .idle then some (w.goto p (.called c)) else none
    | .step p => match w.phase p with
      | .idle => none
      | .called c => some (w.stat p c)
      | .checked c _ => some (w.writeOwned p c)

instance (uid gid : Nat) (stat : FileStat) : Decidable (HasW uid gid stat) := by
  unfold HasW
  infer_instance

/-- A `write_owned` after a `stat` that has not found the file finds no file
still, or one that the caller may write. -/
def Unraced (w : Writers) : WriteStep → Prop
  | .call _ _ => True
  | .step p => match w.phase p with
    | .checked c true => match w.fs c.path with
      | none => True
      | some node => HasW c.uid c.gid node.stat
    | _ => True

instance (w : Writers) (e : WriteStep) : Decidable (Unraced w e) := by
  unfold Unraced
  split
  · infer_instance
  · split
    · split <;> infer_instance
    · infer_instance

/-- The calls made one after the other, the last one first in the list, take the
nodes from `start` to `fs` and return what they returned. -/
def Replays (start : Tmpfs) : List Finished → Tmpfs → Prop
  | [], fs => fs = start
  | d :: past, fs => ∃ mid, Replays start past mid ∧ mid.write d.call = (d.result, fs)

/-- Some order of the finished calls replays the run. -/
def Linearizable (start : Tmpfs) (w : Writers) : Prop :=
  ∃ order, order.Perm w.log ∧ Replays start order w.fs

/-- `Kernel.write` is the sequential call. -/
theorem write_eq {k : Kernel} {c : WriteCall} {i : Nat} {fs : Tmpfs}
    (hfind : k.find c.path = some i) (hdev : k.devices i = .tmpfs fs)
    (huid : Scheduler.uid k.sched = c.uid) (hgid : Scheduler.gid k.sched = c.gid) :
    k.write c.path c.buf =
      ((fs.write c).1, { k with devices := Function.update k.devices i (.tmpfs (fs.write c).2) }) := by
  simp only [Kernel.write, hfind, hdev, huid, hgid, Filesystem.stat, Tmpfs.write]
  cases checkWrite c.uid c.gid (fs.stat c.path) with
  | error e =>
      dsimp only
      rw [← hdev, Function.update_eq_self]
  | ok _ => rfl

/-- What a passed check is still worth. -/
def Phase.Holds (fs : Tmpfs) : Phase → Prop
  | .checked c false => ∃ node, fs c.path = some node ∧ HasW c.uid c.gid node.stat
  | .checked c true => ∀ node, fs c.path = some node → node.mode = 0o644
  | _ => True

/-- **Everything so far could have happened one after the other**, and everybody in the
middle of a write still sees what it checked. -/
structure Writers.Ordered (start : Tmpfs) (w : Writers) : Prop where
  replays : Replays start w.log w.fs
  holds : ∀ p, (w.phase p).Holds w.fs

/-- A file that is there is described by its node. -/
theorem Tmpfs.stat_some {fs : Tmpfs} {path : String} {node : TmpfsNode}
    (h : fs path = some node) : fs.stat path = .ok node.stat := by
  rw [Tmpfs.stat, h]
  rfl

/-- One that is not is not found. -/
theorem Tmpfs.stat_none {fs : Tmpfs} {path : String} (h : fs path = none) :
    fs.stat path = .error .notFound := by
  rw [Tmpfs.stat, h]

/-- A check that is passed, or skipped, leaves `write_owned` to be called. -/
theorem Tmpfs.write_checked {fs : Tmpfs} {c : WriteCall}
    (h : ∀ node, fs c.path = some node → HasW c.uid c.gid node.stat) :
    fs.write c = fs.writeOwned c.path c.buf c.uid c.gid := by
  rw [Tmpfs.write]
  cases hnode : fs c.path with
  | none => rw [Tmpfs.stat_none hnode, checkWrite]
  | some node =>
      have hcheck := (checkPermission_w c.uid c.gid node.stat).mpr (h node hnode)
      rw [Tmpfs.stat_some hnode, checkWrite, hcheck]

/-- What a passed check is worth is kept by every write. -/
theorem Phase.Holds.writeOwned {fs : Tmpfs} {x : Phase} (h : x.Holds fs) (path : String)
    (buf : List UInt8) (uid gid : Nat) : x.Holds (fs.writeOwned path buf uid gid).2 := by
  cases x with
  | idle => trivial
  | called c => trivial
  | checked c absent =>
      cases hold : fs c.path with
      | some node =>
          obtain ⟨data, hdata, -⟩ :=
            Tmpfs.writeOwned_node path buf uid gid hold
          cases absent with
          | false =>
              obtain ⟨node', hnode', hright⟩ := h
              obtain rfl := Option.some.inj (hold.symm.trans hnode')
              exact ⟨_, hdata, hright⟩
          | true =>
              intro node' hnode'
              obtain rfl := Option.some.inj (hdata.symm.trans hnode')
              exact h node hold
      | none =>
          cases absent with
          | false =>
              obtain ⟨node', hnode', -⟩ := h
              rw [hold] at hnode'
              cases hnode'
          | true =>
              intro node' hnode'
              by_cases hpath : c.path = path
              · rw [← hpath, Tmpfs.writeOwned_new hold] at hnode'
                have hnew := (Function.update_self _ _ _).symm.trans hnode'
                exact (Option.some.inj hnew) ▸ rfl
              · rw [Tmpfs.writeOwned_other hpath, hold] at hnode'
                cases hnode'

namespace Writers.Ordered

variable {start : Tmpfs} {w : Writers}

/-- A process goes on; the nodes stay. -/
theorem goto (h : w.Ordered start) {p : Nat} {x : Phase} (hx : x.Holds w.fs) :
    (w.goto p x).Ordered start := by
  refine ⟨h.replays, fun q => ?_⟩
  by_cases hq : q = p
  · subst hq
    simp only [Writers.goto, Function.update_self]
    exact hx
  · simp only [Writers.goto, Function.update_of_ne hq]
    exact h.holds q

/-- The first half of a write. -/
theorem stat (h : w.Ordered start) (p : Nat) (c : WriteCall) : (w.stat p c).Ordered start := by
  unfold Writers.stat
  cases hcheck : checkWrite c.uid c.gid (w.fs.stat c.path) with
  | error e =>
      have hidle := h.goto (p := p) (x := .idle) trivial
      refine ⟨⟨w.fs, h.replays, ?_⟩, hidle.holds⟩
      simp only [Tmpfs.write, hcheck]
      rfl
  | ok _ =>
      refine h.goto ?_
      cases hnode : w.fs c.path with
      | none =>
          intro node hsome
          rw [hnode] at hsome
          cases hsome
      | some node =>
          rw [Tmpfs.stat_some hnode] at hcheck
          exact ⟨node, hnode, (checkPermission_w _ _ _).mp hcheck⟩

/-- The second half, with nobody in between. -/
theorem writeOwned (h : w.Ordered start) {p : Nat} {c : WriteCall} {absent : Bool}
    (hp : w.phase p = .checked c absent) (hok : Unraced w (.step p)) :
    (w.writeOwned p c).Ordered start := by
  have hright : ∀ node, w.fs c.path = some node → HasW c.uid c.gid node.stat := by
    intro node hnode
    cases absent with
    | false =>
        have hheld := h.holds p
        rw [hp] at hheld
        obtain ⟨node', hnode', hright⟩ := hheld
        obtain rfl := Option.some.inj (hnode.symm.trans hnode')
        exact hright
    | true =>
        simp only [Unraced, hp, hnode] at hok
        exact hok
  have hidle := h.goto (p := p) (x := .idle) trivial
  refine ⟨⟨w.fs, h.replays, Tmpfs.write_checked hright⟩, fun q => ?_⟩
  exact (hidle.holds q).writeOwned c.path c.buf c.uid c.gid

end Writers.Ordered

/-- **Every run** without a race keeps the order. -/
theorem run_ordered {start : Tmpfs} {w : Writers} (hrun : (writeSystem start).Run Unraced w) :
    w.Ordered start := by
  refine hrun.invariant (fun s hboot => ?_) (fun s e t hs hok hnext => ?_)
  · obtain rfl := hboot
    exact ⟨rfl, fun _ => trivial⟩
  · cases e with
    | call p c =>
        simp only [writeSystem] at hnext
        split at hnext
        case isTrue => exact Option.some.inj hnext ▸ hs.goto trivial
        case isFalse => cases hnext
    | step p =>
        simp only [writeSystem] at hnext
        split at hnext
        case h_1 => cases hnext
        case h_2 c hp => exact Option.some.inj hnext ▸ hs.stat p c
        case h_3 c absent hp => exact Option.some.inj hnext ▸ hs.writeOwned hp hok

/-- **Writes are linearizable** in the runs in which no `write_owned` after a
`stat` that has not found the file finds one that its caller may not write.
A file found there nevertheless is then the caller's own. -/
theorem writes_linearizable {start : Tmpfs} {w : Writers}
    (hrun : (writeSystem start).Run Unraced w) :
    Linearizable start w ∧
      ∀ p c node, w.phase p = .checked c true → w.fs c.path = some node →
        Unraced w (.step p) → node.uid = c.uid := by
  have h := run_ordered hrun
  refine ⟨⟨w.log, List.Perm.refl _, h.replays⟩, fun p c node hp hnode hok => ?_⟩
  have hheld := h.holds p
  rw [hp] at hheld
  have hmode : node.mode = 0o644 := hheld node hnode
  simp only [Unraced, hp, hnode, HasW, TmpfsNode.stat, hmode, classOf] at hok
  by_contra hne
  have hother : ¬ c.uid = node.uid := fun heq => hne heq.symm
  rw [if_neg hother] at hok
  split at hok <;> exact absurd hok (by decide)

/-- Two processes of one user race for a new file. -/
def sampleSteps : List WriteStep :=
  [.call 0 ⟨1000, 1000, "/tmp/a", [1]⟩, .call 1 ⟨1000, 1000, "/tmp/a", [2]⟩, .step 0, .step 1,
    .step 1, .step 0]

/-- Two writes, the second one refused. -/
theorem sample_writes_linearizable :
    ∃ w, (writeSystem Tmpfs.new).execIf Unraced ⟨Tmpfs.new, fun _ => .idle, []⟩ sampleSteps =
        some w ∧
      w.fs "/tmp/a" = some ⟨[1], false, 0o644, 1000, 1000⟩ ∧ Linearizable Tmpfs.new w := by
  have hrun : ((writeSystem Tmpfs.new).execIf Unraced ⟨Tmpfs.new, fun _ => .idle, []⟩
      sampleSteps).map (fun w => w.fs "/tmp/a") = some (some ⟨[1], false, 0o644, 1000, 1000⟩) := by
    decide +kernel
  obtain ⟨w, hw, hnode⟩ := Option.map_eq_some_iff.mp hrun
  have hreach := TransitionSystem.Run.execIf (TransitionSystem.Run.boot rfl) hw
  exact ⟨w, hw, hnode, (writes_linearizable hreach).1⟩

/-- The other process creates the file between the two steps. -/
def racedSteps : List WriteStep :=
  [.call 0 ⟨1000, 1000, "/tmp/a", [1]⟩, .step 0, .call 1 ⟨2000, 2000, "/tmp/a", [2]⟩, .step 1,
    .step 1, .step 0]

/-- Made one after the other, one of the two calls is denied. -/
theorem not_replays_two {a b : Finished} {start fs : Tmpfs}
    (hdenied : ((start.write b.call).2.write a.call).1 ≠ a.result) :
    ¬ Replays start [a, b] fs := by
  intro h
  obtain ⟨mid, ⟨first, rfl, hb⟩, ha⟩ := h
  rw [hb, ha] at hdenied
  exact hdenied rfl

/-- Two writes that both find no file: the second one changes a file of somebody else.
-/
theorem writes_not_linearizable :
    ¬ ∀ start w, (writeSystem start).Reach w → Linearizable start w := by
  intro hclaim
  have hrun : ((writeSystem Tmpfs.new).exec ⟨Tmpfs.new, fun _ => .idle, []⟩ racedSteps).map
      Writers.log = some [⟨⟨1000, 1000, "/tmp/a", [1]⟩, .ok 1⟩,
        ⟨⟨2000, 2000, "/tmp/a", [2]⟩, .ok 1⟩] := by
    decide +kernel
  obtain ⟨w, hw, hlog⟩ := Option.map_eq_some_iff.mp hrun
  have hreach := TransitionSystem.Reach.exec (TransitionSystem.Run.boot rfl) hw
  obtain ⟨order, hperm, hreplays⟩ := hclaim _ w hreach
  rw [hlog] at hperm
  rcases List.perm_pair.mp hperm with rfl | rfl
  · exact not_replays_two (by decide +kernel) hreplays
  · exact not_replays_two (by decide +kernel) hreplays

end Vfs
