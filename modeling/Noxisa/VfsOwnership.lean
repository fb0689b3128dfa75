import Noxisa.VfsWrites

/-!
# Who owns a node

`vfs::write`, `vfs::open`, `vfs::write_fd` and `vfs::set_identity` under
preemption.  A call is taken apart at every access to what tasks share: the
identity is read three times in a `write`, before and after `stat`, and the node
is made at the end.

`Stamping` is what the local variables of a call are worth: what a task has read
of its identity is its identity still, since it changes it in calls of its own
only.  `ownership_stamped_once` reads off it who owns a new node, and that
nothing of this changes afterwards.
-/

namespace Vfs

open Scheduler

/-- The arguments of `write`, and the offset that `write_fd` sets after it. -/
structure PathWrite where
  path : String
  buf : List UInt8
  after : Option (Int × Nat)

/-- Where a task is in its call, with the local variables. -/
inductive Point
  | idle
  /-- `write` -/
  | scan (w : PathWrite)
  | stat (w : PathWrite) (i uid : Nat)
  | check (w : PathWrite) (i uid : Nat) (found : Except FsError FileStat)
  | group (w : PathWrite) (i uid : Nat)
  | create (w : PathWrite) (i uid gid : Nat)
  | advance (fd : Int) (offset : Nat)
  /-- `write_fd`, until it has read the file -/
  | readScan (fd : Int) (of : OpenFile) (buf : List UInt8)
  | readStat (fd : Int) (of : OpenFile) (buf : List UInt8) (i : Nat)
  | readCheck (fd : Int) (of : OpenFile) (buf : List UInt8) (i : Nat) (found : FileStat)
  | readData (fd : Int) (of : OpenFile) (buf : List UInt8) (i : Nat)
  /-- `open` -/
  | openScan (path : String) (flags : Nat)
  | openStat (path : String) (flags i : Nat)
  | openCheck (path : String) (flags : Nat) (found : FileStat)
  | openAlloc (path : String) (flags : Nat)

/-- `write_fd` splices `buf` into what it has read and calls `write`. -/
def Point.merge (fd : Int) (of : OpenFile) (buf existing : List UInt8) : Point :=
  .scan ⟨of.path, Kernel.splice existing buf of.offset, some (fd, of.offset + buf.length)⟩

/-- The next step of the current task; `none` is the panic of `alloc_fd`. -/
def Point.next (k : Kernel) : Point → Option (Kernel × Point)
  | .idle => none
  | .scan w =>
      match k.find w.path with
      | none => some (k, .idle)
      | some i => some (k, .stat w i (uid k.sched))
  | .stat w i u => some (k, .check w i u ((k.devices i).stat w.path))
  | .check w i u found =>
      match checkWrite (uid k.sched) (gid k.sched) found with
      | .error _ => some (k, .idle)
      | .ok () => some (k, .group w i u)
  | .group w i u => some (k, .create w i u (gid k.sched))
  | .create w i u g =>
      let (r, fs) := (k.devices i).writeOwned w.path w.buf u g
      let k' := { k with devices := Function.update k.devices i fs }
      match r, w.after with
      | .ok _, some (fd, offset) => some (k', .advance fd offset)
      | _, _ => some (k', .idle)
  | .advance fd offset => some ({ k with sched := setFdOffset k.sched fd offset }, .idle)
  | .readScan fd of buf =>
      match k.find of.path with
      | none => some (k, .merge fd of buf [])
      | some i => some (k, .readStat fd of buf i)
  | .readStat fd of buf i =>
      match (k.devices i).stat of.path with
      | .error _ => some (k, .merge fd of buf [])
      | .ok found => some (k, .readCheck fd of buf i found)
  | .readCheck fd of buf i found =>
      match checkPermission (uid k.sched) (gid k.sched) found rBit with
      | .error _ => some (k, .merge fd of buf [])
      | .ok () => some (k, .readData fd of buf i)
  | .readData fd of buf i =>
      some (k, .merge fd of buf
        (((k.devices i).read k.free of.path (of.offset + buf.length)).toOption.getD []))
  | .openScan path flags =>
      match k.find path with
      | none => some (k, .idle)
      | some i => some (k, .openStat path flags i)
  | .openStat path flags i =>
      match (k.devices i).stat path with
      | .error _ => some (k, .idle)
      | .ok found => some (k, .openCheck path flags found)
  | .openCheck path flags found =>
      let want := (if flags &&& oRdonly ≠ 0 then rBit else 0) |||
        (if flags &&& oWronly ≠ 0 then wBit else 0)
      match checkPermission (uid k.sched) (gid k.sched) found want with
      | .error _ => some (k, .idle)
      | .ok () => some (k, .openAlloc path flags)
  | .openAlloc path flags =>
      match allocFd k.sched ⟨path, 0, flags⟩ with
      | none => none
      | some (_, sched) => some ({ k with sched := sched }, .idle)

/-- The calls that matter for ownership. -/
inductive OwnerCall
  | setIdentity (uid gid : Nat)
  | write (path : String) (buf : List UInt8)
  | openFile (path : String) (flags : Nat)
  | writeFd (fd : Int) (buf : List UInt8)

/-- The current task makes a call. -/
def OwnerCall.start (k : Kernel) : OwnerCall → Kernel × Point
  | .setIdentity uid gid => ({ k with sched := Scheduler.setIdentity k.sched uid gid }, .idle)
  | .write path buf => (k, .scan ⟨path, buf, none⟩)
  | .openFile path flags => (k, .openScan (resolvePath (cwd k.sched) path) flags)
  | .writeFd fd buf =>
      match fdInfo k.sched fd with
      | none => (k, .idle)
      | some of => if of.flags &&& oWronly = 0 then (k, .idle) else (k, .readScan fd of buf)

/-- The kernel, and where every process is. -/
structure Callers where
  kernel : Kernel
  point : Nat → Point

/-- A process begins a call or makes a step of one. -/
inductive OwnerStep
  | call (pid free : Nat) (c : OwnerCall)
  | step (pid free : Nat)

/-- Whose step it is. -/
def OwnerStep.pid : OwnerStep → Nat
  | .call pid _ _ => pid
  | .step pid _ => pid

/-- Any tasks in any order, from any nodes and mounts. -/
def ownerSystem : TransitionSystem Callers OwnerStep where
  boot := fun s => ∀ pid, s.point pid = .idle
  next := fun s e => match e with
    | .call pid free c =>
        match s.point pid with
        | .idle =>
            let (k, p) := c.start (s.kernel.running pid free)
            some ⟨k, Function.update s.point pid p⟩
        | _ => none
    | .step pid free =>
        match (s.point pid).next (s.kernel.running pid free) with
        | none => none
        | some (k, p) => some ⟨k, Function.update s.point pid p⟩

/-- What `current_uid` and `current_gid` say while `pid` runs. -/
def identityOf (s : Scheduler Unit) (pid : Nat) : Nat × Nat :=
  (((lookup s.tasks pid).map Tcb.uid).getD 1000, ((lookup s.tasks pid).map Tcb.gid).getD 1000)

/-- A change of the running task leaves the identities of the others alone. -/
theorem identityOf_adjustCurrent_of_ne {s : Scheduler Unit} {pid : Nat} (h : pid ≠ s.current)
    (f : Tcb Unit → Tcb Unit) : identityOf (adjustCurrent s f) pid = identityOf s pid := by
  unfold identityOf
  rw [lookup_adjustCurrent, if_neg h]

/-- A change that leaves it alone leaves everybody's. -/
theorem identityOf_adjustCurrent {s : Scheduler Unit} {f : Tcb Unit → Tcb Unit}
    (h : ∀ t, (f t).uid = t.uid ∧ (f t).gid = t.gid) (pid : Nat) :
    identityOf (adjustCurrent s f) pid = identityOf s pid := by
  unfold identityOf
  rw [lookup_adjustCurrent]
  by_cases hpid : pid = s.current
  · rw [if_pos hpid]
    cases lookup s.tasks pid with
    | none => rfl
    | some t => exact Prod.ext (h t).1 (h t).2
  · rw [if_neg hpid]

/-- Moving an offset does. -/
theorem identityOf_setFdOffset (s : Scheduler Unit) (fd : Int) (offset pid : Nat) :
    identityOf (setFdOffset s fd offset) pid = identityOf s pid := by
  unfold setFdOffset
  split
  · rfl
  · apply identityOf_adjustCurrent
    exact fun t => ⟨rfl, rfl⟩

/-- Allocating a descriptor does. -/
theorem identityOf_allocFd {s s' : Scheduler Unit} {of : OpenFile} {fd : Int}
    (h : allocFd s of = some (fd, s')) (pid : Nat) : identityOf s' pid = identityOf s pid := by
  unfold allocFd at h
  split at h
  · obtain ⟨-, rfl⟩ := Prod.mk.inj (Option.some.inj h)
    rfl
  · split at h
    · obtain ⟨-, rfl⟩ := Prod.mk.inj (Option.some.inj h)
      apply identityOf_adjustCurrent
      exact fun t => ⟨rfl, rfl⟩
    · split at h
      · cases h
      · obtain ⟨-, rfl⟩ := Prod.mk.inj (Option.some.inj h)
        apply identityOf_adjustCurrent
        exact fun t => ⟨rfl, rfl⟩

/-- A step leaves the identities, and every device unless it is a `write_owned`. -/
theorem Point.next_kept {k k' : Kernel} {p p' : Point} (h : p.next k = some (k', p')) :
    (∀ pid, identityOf k'.sched pid = identityOf k.sched pid) ∧
      (k'.devices = k.devices ∨ ∃ w i u g, p = .create w i u g ∧
        k'.devices = Function.update k.devices i
          ((k.devices i).writeOwned w.path w.buf u g).2) := by
  have hsame : ∀ {q : Point}, some (k, q) = some (k', p') → (∀ pid,
      identityOf k'.sched pid = identityOf k.sched pid) ∧ k'.devices = k.devices := by
    intro q heq
    obtain ⟨rfl, -⟩ := Prod.mk.inj (Option.some.inj heq)
    exact ⟨fun _ => rfl, rfl⟩
  cases p with
  | idle => cases h
  | create w i u g =>
      simp only [Point.next] at h
      split at h
      all_goals
        obtain ⟨rfl, -⟩ := Prod.mk.inj (Option.some.inj h)
        exact ⟨fun _ => rfl, Or.inr ⟨w, i, u, g, rfl, rfl⟩⟩
  | advance fd offset =>
      obtain ⟨rfl, -⟩ := Prod.mk.inj (Option.some.inj h)
      exact ⟨identityOf_setFdOffset k.sched fd offset, Or.inl rfl⟩
  | openAlloc path flags =>
      simp only [Point.next] at h
      split at h
      · cases h
      · next fd sched halloc =>
          obtain ⟨rfl, -⟩ := Prod.mk.inj (Option.some.inj h)
          exact ⟨identityOf_allocFd halloc, Or.inl rfl⟩
  | stat w i u => exact (hsame h).imp_right Or.inl
  | group w i u => exact (hsame h).imp_right Or.inl
  | readData fd of buf i => exact (hsame h).imp_right Or.inl
  | _ =>
      simp only [Point.next] at h
      split at h
      all_goals exact (hsame h).imp_right Or.inl

/-- What a task has read of its identity. -/
def Point.Holds (identity : Nat × Nat) : Point → Prop
  | .stat _ _ u => u = identity.1
  | .check _ _ u _ => u = identity.1
  | .group _ _ u => u = identity.1
  | .create _ _ u g => u = identity.1 ∧ g = identity.2
  | _ => True

/-- A step of a call holds the caller's identity, if it held it. -/
theorem Point.next_holds {k k' : Kernel} {p p' : Point} (h : p.next k = some (k', p'))
    (hp : p.Holds (uid k.sched, gid k.sched)) : p'.Holds (uid k.sched, gid k.sched) := by
  cases p with
  | idle => cases h
  | stat w i u =>
      obtain ⟨-, rfl⟩ := Prod.mk.inj (Option.some.inj h)
      exact hp
  | group w i u =>
      obtain ⟨-, rfl⟩ := Prod.mk.inj (Option.some.inj h)
      exact ⟨hp, rfl⟩
  | readData fd of buf i =>
      obtain ⟨-, rfl⟩ := Prod.mk.inj (Option.some.inj h)
      trivial
  | advance fd offset =>
      obtain ⟨-, rfl⟩ := Prod.mk.inj (Option.some.inj h)
      trivial
  | scan w =>
      simp only [Point.next] at h
      split at h
      · obtain ⟨-, rfl⟩ := Prod.mk.inj (Option.some.inj h)
        trivial
      · obtain ⟨-, rfl⟩ := Prod.mk.inj (Option.some.inj h)
        rfl
  | check w i u found =>
      simp only [Point.next] at h
      split at h
      · obtain ⟨-, rfl⟩ := Prod.mk.inj (Option.some.inj h)
        trivial
      · obtain ⟨-, rfl⟩ := Prod.mk.inj (Option.some.inj h)
        exact hp
  | openAlloc path flags =>
      simp only [Point.next] at h
      split at h
      · cases h
      · obtain ⟨-, rfl⟩ := Prod.mk.inj (Option.some.inj h)
        trivial
  | _ =>
      simp only [Point.next] at h
      split at h
      all_goals
        obtain ⟨-, rfl⟩ := Prod.mk.inj (Option.some.inj h)
        trivial

/-- A call that begins does. -/
theorem OwnerCall.start_holds (k : Kernel) (c : OwnerCall) (identity : Nat × Nat) :
    (c.start k).2.Holds identity := by
  cases c with
  | writeFd fd buf =>
      simp only [OwnerCall.start]
      split
      · trivial
      · split <;> trivial
  | _ => trivial

/-- A call changes no device, and no identity but that of the caller. -/
theorem OwnerCall.start_kept (k : Kernel) (c : OwnerCall) :
    (c.start k).1.devices = k.devices ∧ ∀ pid, pid ≠ k.sched.current →
      identityOf (c.start k).1.sched pid = identityOf k.sched pid := by
  cases c with
  | setIdentity uid gid =>
      refine ⟨rfl, fun pid hpid => ?_⟩
      exact identityOf_adjustCurrent_of_ne hpid _
  | writeFd fd buf =>
      simp only [OwnerCall.start]
      split
      · exact ⟨rfl, fun _ _ => rfl⟩
      · split <;> exact ⟨rfl, fun _ _ => rfl⟩
  | _ => exact ⟨rfl, fun _ _ => rfl⟩

/-- What the tasks have read of their identities is their identities. -/
def Stamping (s : Callers) : Prop :=
  ∀ pid, (s.point pid).Holds (identityOf s.kernel.sched pid)

/-- **In every reachable state** everybody in the middle of a call holds its identity.
-/
theorem reach_stamping {s : Callers} (h : ownerSystem.Reach s) : Stamping s := by
  refine h.invariant (fun s hboot pid => ?_) (fun s e t hs hnext q => ?_)
  · rw [hboot pid]
    trivial
  · cases e with
    | call pid free c =>
        simp only [ownerSystem] at hnext
        split at hnext
        case h_1 hidle =>
          obtain rfl := Option.some.inj hnext
          obtain ⟨-, hkept⟩ := OwnerCall.start_kept (s.kernel.running pid free) c
          by_cases hq : q = pid
          · subst hq
            simp only [Function.update_self]
            exact OwnerCall.start_holds _ _ _
          · simp only [Function.update_of_ne hq]
            rw [hkept q hq]
            exact hs q
        case h_2 => cases hnext
    | step pid free =>
        simp only [ownerSystem] at hnext
        split at hnext
        case h_1 => cases hnext
        case h_2 k p hstep =>
          obtain rfl := Option.some.inj hnext
          obtain ⟨hkept, -⟩ := Point.next_kept hstep
          dsimp only
          rw [hkept q]
          by_cases hq : q = pid
          · subst hq
            simp only [Function.update_self]
            exact Point.next_holds hstep (hs q)
          · simp only [Function.update_of_ne hq]
            exact hs q

/-- The devices change by `write_owned` alone. -/
theorem owner_devices {s t : Callers} {e : OwnerStep} (h : ownerSystem.next s e = some t) :
    t.kernel.devices = s.kernel.devices ∨ ∃ w i u g, s.point e.pid = .create w i u g ∧
      t.kernel.devices = Function.update s.kernel.devices i
        ((s.kernel.devices i).writeOwned w.path w.buf u g).2 := by
  cases e with
  | call pid free c =>
      simp only [ownerSystem] at h
      split at h
      case h_1 =>
        obtain rfl := Option.some.inj h
        exact Or.inl (OwnerCall.start_kept (s.kernel.running pid free) c).1
      case h_2 => cases h
  | step pid free =>
      simp only [ownerSystem] at h
      split at h
      case h_1 => cases h
      case h_2 k p hstep =>
        obtain rfl := Option.some.inj h
        exact (Point.next_kept hstep).2

/-- What a node has besides its data. -/
structure Stamp where
  uid : Nat
  gid : Nat
  mode : Nat
  isDir : Bool
deriving DecidableEq

/-- What must not change of a node. -/
def TmpfsNode.stamp (node : TmpfsNode) : Stamp := ⟨node.uid, node.gid, node.mode, node.isDir⟩

/-- A step keeps the stamp of a node. -/
theorem stamp_kept {s t : Callers} {e : OwnerStep} (h : ownerSystem.next s e = some t) {i : Nat}
    {path : String} {node : TmpfsNode} (hnode : s.kernel.node i path = some node) :
    ∃ node', t.kernel.node i path = some node' ∧ node'.stamp = node.stamp := by
  unfold Kernel.node at hnode ⊢
  rcases owner_devices h with heq | ⟨w, j, u, g, -, heq⟩
  · rw [heq]
    exact ⟨node, hnode, rfl⟩
  · by_cases hj : i = j
    · subst hj
      rw [heq, Function.update_self]
      cases hdev : s.kernel.devices i with
      | procfs =>
          rw [hdev] at hnode
          cases hnode
      | tmpfs fs =>
          rw [hdev] at hnode
          obtain ⟨data, hdata, -⟩ := Tmpfs.writeOwned_node w.path w.buf u g hnode
          exact ⟨_, hdata, rfl⟩
    · rw [heq, Function.update_of_ne hj]
      exact ⟨node, hnode, rfl⟩

/-- A new node comes from a `write_owned` with its path. -/
theorem stamp_new {s t : Callers} {e : OwnerStep} (h : ownerSystem.next s e = some t) {i : Nat}
    {path : String} {node : TmpfsNode} (hnone : s.kernel.node i path = none)
    (hnode : t.kernel.node i path = some node) :
    ∃ w u g, s.point e.pid = .create w i u g ∧ w.path = path ∧ node.stamp = ⟨u, g, 0o644, false⟩ := by
  unfold Kernel.node at hnone hnode
  rcases owner_devices h with heq | ⟨w, j, u, g, hpoint, heq⟩
  · rw [heq, hnone] at hnode
    cases hnode
  · by_cases hj : i = j
    · subst hj
      rw [heq, Function.update_self] at hnode
      cases hdev : s.kernel.devices i with
      | procfs =>
          rw [hdev] at hnode
          cases hnode
      | tmpfs fs =>
          rw [hdev] at hnone hnode
          change (fs.writeOwned w.path w.buf u g).2 path = some node at hnode
          by_cases hpath : path = w.path
          · subst hpath
            simp only [Tmpfs.writeOwned_new hnone, Function.update_self] at hnode
            obtain rfl := Option.some.inj hnode
            exact ⟨w, u, g, hpoint, rfl, rfl⟩
          · rw [Tmpfs.writeOwned_other hpath] at hnode
            exact absurd (hnone.symm.trans hnode) (by simp)
    · rw [heq, Function.update_of_ne hj, hnone] at hnode
      cases hnode

/-- The runs that start in `s`. -/
def ownerSystemFrom (s : Callers) : TransitionSystem Callers OwnerStep :=
  { ownerSystem with boot := fun s' => s' = s }

/-- **Ownership is stamped once.**  Whatever tasks call what in whatever order,
the step that makes a node is the end of a `write` of its path, and the node gets
the identity of the task that makes it, mode `0o644`, and is no directory; in
every state after that it has kept all four. -/
theorem ownership_stamped_once {s : Callers} (hreach : ownerSystem.Reach s) :
    (∀ e t i path node, ownerSystem.next s e = some t → s.kernel.node i path = none →
      t.kernel.node i path = some node →
      (∃ w u g, s.point e.pid = .create w i u g ∧ w.path = path) ∧
        node.stamp = ⟨(identityOf s.kernel.sched e.pid).1, (identityOf s.kernel.sched e.pid).2,
          0o644, false⟩) ∧
    ∀ t i path node, (ownerSystemFrom s).Reach t → s.kernel.node i path = some node →
      ∃ node', t.kernel.node i path = some node' ∧ node'.stamp = node.stamp := by
  constructor
  · intro e t i path node hnext hnone hnode
    obtain ⟨w, u, g, hpoint, hpath, hstamp⟩ := stamp_new hnext hnone hnode
    have hheld := reach_stamping hreach e.pid
    rw [hpoint] at hheld
    obtain ⟨rfl, rfl⟩ := hheld
    exact ⟨⟨w, _, _, hpoint, hpath⟩, hstamp⟩
  · intro t i path node hrun hnode
    refine hrun.invariant (I := fun t => ∃ node', t.kernel.node i path = some node' ∧
      node'.stamp = node.stamp) ?_ ?_
    · rintro t rfl
      exact ⟨node, hnode, rfl⟩
    · rintro t e t' ⟨mid, hmid, hstamp⟩ hnext
      obtain ⟨node', hnode', hsame⟩ := stamp_kept hnext hmid
      exact ⟨node', hnode', hsame.trans hstamp⟩

/-- Tasks 1 and 2 race for a new file; task 2 has changed its identity before. -/
def raceSteps : List OwnerStep :=
  [.call 2 0 (.setIdentity 7 8), .call 1 0 (.write "/tmp/a" [1]), .call 2 0 (.write "/tmp/a" [2]),
    .step 1 0, .step 2 0, .step 2 0, .step 1 0, .step 1 0, .step 2 0, .step 2 0]

/-- Two processes make the same file; it is stamped with one identity for good. -/
theorem sample_ownership_stamped :
    ∃ s t node, ownerSystem.exec ⟨sampleKernel, fun _ => .idle⟩ raceSteps = some s ∧
      ownerSystem.next s (.step 2 0) = some t ∧ t.kernel.node 0 "/tmp/a" = some node ∧
      node.stamp = ⟨7, 8, 0o644, false⟩ ∧
      ∀ t', (ownerSystemFrom t).Reach t' →
        ∃ node', t'.kernel.node 0 "/tmp/a" = some node' ∧ node'.stamp = node.stamp := by
  have hrun : ((ownerSystem.exec ⟨sampleKernel, fun _ => .idle⟩ raceSteps).map (fun s =>
      (s.kernel.node 0 "/tmp/a", identityOf s.kernel.sched 2,
        (ownerSystem.next s (.step 2 0)).map (fun t => (t.kernel.node 0 "/tmp/a").isSome)))) =
      some (none, (7, 8), some true) := by
    decide +kernel
  obtain ⟨s, hs, heq⟩ := Option.map_eq_some_iff.mp hrun
  obtain ⟨hnone, hrest⟩ := Prod.mk.inj heq
  obtain ⟨hidentity, hnext⟩ := Prod.mk.inj hrest
  obtain ⟨t, ht, hsome⟩ := Option.map_eq_some_iff.mp hnext
  obtain ⟨node, hnode⟩ := Option.isSome_iff_exists.mp hsome
  have hreach : ownerSystem.Reach s :=
    TransitionSystem.Reach.exec (TransitionSystem.Run.boot (fun _ => rfl)) hs
  have hstamp := ((ownership_stamped_once hreach).1 _ t 0 "/tmp/a" node ht hnone hnode).2
  change node.stamp = ⟨(identityOf s.kernel.sched 2).1, (identityOf s.kernel.sched 2).2, 0o644,
    false⟩ at hstamp
  rw [hidentity] at hstamp
  have hreach' : ownerSystem.Reach t := hreach.step trivial ht
  exact ⟨s, t, node, hs, ht, hnode, hstamp,
    fun t' ht' => (ownership_stamped_once hreach').2 t' 0 "/tmp/a" node ht' hnode⟩

end Vfs
