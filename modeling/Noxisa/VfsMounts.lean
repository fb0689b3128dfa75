import Noxisa.VfsMediation
import Mathlib.Data.List.MinMax

/-!
# Which mount serves a path

`vfs::mount` appends to the table, and `read`, `stat`, `write` and `open` each
scan it from the end for a mountpoint that is a prefix of the text of the path.
Here the scan is compared with the directory tree, where a path belongs to its
longest ancestor (`ancestor`).

The two disagree when the scan meets a prefix that is no ancestor (`/tmp` for
`/tmpfoo`), or an ancestor that was mounted after a longer one.  `InOrder`
excludes exactly that, and `mounts_resolve_iff` says so for the four calls.
-/

namespace Vfs

open Scheduler

/-- `MOUNTS.write().push(..)`; the box of the new entry is a place of its own. -/
def pushMount (table : List MountEntry) (mountpoint : String) : List MountEntry :=
  ⟨mountpoint, table.length⟩ :: table

namespace Kernel

/-- `mount` (vfs.rs:96): the mountpoint is pushed on `MOUNT_TABLE` and the filesystem
takes the next device number. -/
def mount (k : Kernel) (mountpoint : String) (fs : Filesystem) : Kernel :=
  { k with
    mounts := pushMount k.mounts mountpoint
    devices := Function.update k.devices k.mounts.length fs }

/-- The kernel after a list of mounts, in the order in which they were made. -/
def mountAll (k : Kernel) (calls : List (String × Filesystem)) : Kernel :=
  calls.foldl (fun k c => k.mount c.1 c.2) k

/-- `stat` (vfs.rs:178): the backend the path is dispatched to answers, and `NotMounted`
where there is none. -/
def stat (k : Kernel) (path : String) : Except FsError FileStat :=
  match k.find path with
  | none => .error .notMounted
  | some i => (k.devices i).stat path

/-- `read` (vfs.rs:154) on the backend of device `i`: `stat`, the read permission, then
the bytes. -/
def readFrom (k : Kernel) (i : Nat) (path : String) (len : Nat) : Except FsError (List UInt8) :=
  match (k.devices i).stat path with
  | .error e => .error e
  | .ok stat =>
      match checkPermission (uid k.sched) (gid k.sched) stat rBit with
      | .error e => .error e
      | .ok () => (k.devices i).read k.free path len

/-- `write` (vfs.rs:187) on the backend of device `i`: the write permission or the
parent's, then `write_owned` with the caller's ids. -/
def writeTo (k : Kernel) (i : Nat) (path : String) (buf : List UInt8) :
    Except FsError Nat × Kernel :=
  match checkWrite (uid k.sched) (gid k.sched) ((k.devices i).stat path) with
  | .error e => (.error e, k)
  | .ok () =>
      let (r, fs) := (k.devices i).writeOwned path buf (uid k.sched) (gid k.sched)
      (r, { k with devices := Function.update k.devices i fs })

/-- `open` (vfs.rs:231) on the backend of device `i`: the permissions the flags ask for,
then a descriptor. It is `none` when the descriptor table finds no heap. -/
def openOn (k : Kernel) (i : Nat) (path : String) (flags : Nat) :
    Option (Except FsError Int × Kernel) :=
  match (k.devices i).stat path with
  | .error e => some (.error e, k)
  | .ok stat =>
      let want := (if flags &&& oRdonly ≠ 0 then rBit else 0) |||
        (if flags &&& oWronly ≠ 0 then wBit else 0)
      match checkPermission (uid k.sched) (gid k.sched) stat want with
      | .error e => some (.error e, k)
      | .ok () =>
          match allocFd k.sched ⟨path, 0, flags⟩ with
          | none => none
          | some (fd, sched) => some (.ok fd, { k with sched := sched })

/-- The four calls on `path` are served by `target`, or fail if there is none. -/
structure Dispatched (k : Kernel) (path : String) (target : Option Nat) : Prop where
  stat : k.stat path = target.elim (.error .notMounted) (fun i => (k.devices i).stat path)
  read : ∀ len, k.read path len =
    target.elim (.error .notMounted) (fun i => k.readFrom i path len)
  write : ∀ buf, k.write path buf =
    target.elim (.error .notMounted, k) (fun i => k.writeTo i path buf)
  openFile : ∀ flags, k.openFile path flags =
    target.elim (some (.error .notMounted, k)) (fun i => k.openOn i path flags)

/-- Each of the four calls is served by what the scan finds. -/
theorem dispatched_find (k : Kernel) {path : String} (habs : path.startsWith '/') :
    k.Dispatched path (k.find path) := by
  have hresolved : ∀ base, resolvePath base path = path := fun base => if_pos habs
  constructor
  · unfold Kernel.stat
    cases k.find path <;> rfl
  · intro len
    unfold Kernel.read
    cases k.find path <;> rfl
  · intro buf
    unfold Kernel.write
    cases k.find path <;> rfl
  · intro flags
    unfold Kernel.openFile
    rw [hresolved]
    dsimp only
    cases k.find path <;> rfl

end Kernel

/-- The mountpoint is the path or one of its ancestors, component by component. -/
def Covers (mountpoint path : String) : Prop :=
  mountpoint = path ∨ mountpoint = "/" ∨ path.startsWith (mountpoint ++ "/")

instance (mountpoint path : String) : Decidable (Covers mountpoint path) := by
  unfold Covers
  infer_instance

/-- The mount that the directory tree gives to the path. -/
def ancestor (table : List MountEntry) (path : String) : Option MountEntry :=
  (table.filter (fun m => Covers m.mountpoint path)).argmax (fun m => m.mountpoint.length)

/-- No mountpoint that is a prefix of the path, other than that of `ancestor`,
was mounted after `ancestor`. -/
def InOrder (table : List MountEntry) (path : String) : Prop :=
  ∀ i : Fin table.length, path.startsWith table[i].mountpoint →
    ∃ j : Fin table.length, j ≤ i ∧ ancestor table path = some table[j]

instance (table : List MountEntry) (path : String) : Decidable (InOrder table path) := by
  unfold InOrder
  infer_instance

/-- For a path from the root an ancestor is a prefix. -/
theorem Covers.startsWith {mountpoint path : String} (h : Covers mountpoint path)
    (habs : path.startsWith '/') : path.startsWith mountpoint := by
  rw [String.startsWith_string_iff]
  rcases h with rfl | rfl | h
  · exact List.prefix_rfl
  · obtain ⟨rest, hrest⟩ := String.startsWith_char_iff_exists_append.mp habs
    exact ⟨rest.toList, by rw [hrest, String.toList_append]; rfl⟩
  · rw [String.startsWith_string_iff, String.toList_append] at h
    exact (List.prefix_append _ _).trans h

/-- A mount that `ancestor` finds is in the table and covers the path. -/
theorem ancestor_covers {table : List MountEntry} {path : String} {m : MountEntry}
    (h : ancestor table path = some m) : m ∈ table ∧ Covers m.mountpoint path := by
  have hmem := List.argmax_mem (Option.mem_def.mpr h)
  rw [List.mem_filter, decide_eq_true_iff] at hmem
  exact hmem

/-- `ancestor` finds nothing exactly when no mountpoint covers the path. -/
theorem ancestor_none_iff {table : List MountEntry} {path : String} :
    ancestor table path = none ↔ ∀ m ∈ table, ¬ Covers m.mountpoint path := by
  rw [ancestor, List.argmax_eq_none, List.filter_eq_nil_iff]
  simp only [decide_eq_true_iff]

/-- Entries have boxes of their own. -/
theorem nodup_foldl_pushMount (points : List String) {table : List MountEntry}
    (hlt : ∀ m ∈ table, m.fs < table.length) (hnodup : (table.map MountEntry.fs).Nodup) :
    ((points.foldl pushMount table).map MountEntry.fs).Nodup := by
  induction points generalizing table with
  | nil => exact hnodup
  | cons p points ih =>
      apply ih
      · intro m hm
        rcases List.mem_cons.mp hm with rfl | hm
        · exact Nat.lt_succ_self _
        · exact Nat.lt_succ_of_lt (hlt m hm)
      · refine List.nodup_cons.mpr ⟨fun hmem => ?_, hnodup⟩
        obtain ⟨m, hm, heq⟩ := List.mem_map.mp hmem
        exact absurd (hlt m hm) (heq ▸ Nat.lt_irrefl _)

/-- The mount table after a list of mounts is the fold of the pushes. -/
private theorem mountAll_mounts (k : Kernel) (calls : List (String × Filesystem)) :
    (k.mountAll calls).mounts = (calls.map Prod.fst).foldl pushMount k.mounts := by
  induction calls generalizing k with
  | nil => rfl
  | cons c calls ih => exact ih (k.mount c.1 c.2)

/-- In order, the scan finds the ancestor. -/
theorem find_of_inOrder {k : Kernel} {path : String} (habs : path.startsWith '/')
    (h : InOrder k.mounts path) : k.find path = (ancestor k.mounts path).map MountEntry.fs := by
  unfold Kernel.find
  congr 1
  cases hfind : k.mounts.find? (fun m => path.startsWith m.mountpoint) with
  | none =>
      rw [List.find?_eq_none] at hfind
      exact (ancestor_none_iff.mpr (fun m hm hcovers => hfind m hm (hcovers.startsWith habs))).symm
  | some m =>
      obtain ⟨hm, i, hi, hget, hfirst⟩ := List.find?_eq_some_iff_getElem.mp hfind
      obtain ⟨j, hj, hanc⟩ := h ⟨i, hi⟩ (by simpa [hget] using hm)
      have hpre : path.startsWith k.mounts[j].mountpoint :=
        (ancestor_covers hanc).2.startsWith habs
      by_cases hlt : j.val < i
      · exact absurd hpre (by simpa using hfirst j.val hlt)
      · have heq : j.val = i := Nat.le_antisymm hj (Nat.le_of_not_lt hlt)
        rw [hanc, ← hget]
        simp [heq]

/-- The device of one entry alone has the node. -/
def markedDevices (i : Nat) (path : String) : Nat → Filesystem :=
  Function.update (fun _ => .tmpfs (fun _ => none)) i
    (.tmpfs (Function.update (fun _ => none) path (some ⟨[], false, 0o644, 0, 0⟩)))

/-- A scan that stops before the ancestor is seen by `stat`. -/
theorem inOrder_of_stat {table : List MountEntry} {path : String} {sched : Scheduler Unit}
    (hnodup : (table.map MountEntry.fs).Nodup)
    (h : ∀ devices, (Kernel.mk table devices sched 0).stat path =
      ((ancestor table path).map MountEntry.fs).elim (.error .notMounted)
        (fun i => (devices i).stat path)) :
    InOrder table path := by
  intro i hpre
  have hsome : (table.find? (fun m => path.startsWith m.mountpoint)).isSome := by
    rw [List.find?_isSome]
    exact ⟨table[i], List.getElem_mem _, hpre⟩
  obtain ⟨m, hfind⟩ := Option.isSome_iff_exists.mp hsome
  obtain ⟨hm, j, hj, hget, hfirst⟩ := List.find?_eq_some_iff_getElem.mp hfind
  have hji : j ≤ i.val := by
    by_contra hlt
    have hskipped : (!path.startsWith table[i].mountpoint) = true :=
      hfirst i.val (Nat.lt_of_not_le hlt)
    rw [hpre] at hskipped
    cases hskipped
  refine ⟨⟨j, hj⟩, hji, ?_⟩
  have hstat := h (markedDevices m.fs path)
  have hfound : (Kernel.mk table (markedDevices m.fs path) sched 0).find path = some m.fs := by
    rw [Kernel.find, hfind]
    rfl
  rw [Kernel.stat, hfound] at hstat
  cases hanc : ancestor table path with
  | none =>
      rw [hanc] at hstat
      simp [markedDevices, Filesystem.stat, Tmpfs.stat] at hstat
  | some m' =>
      rw [hanc] at hstat
      by_cases hfs : m'.fs = m.fs
      · have hmem := (ancestor_covers hanc).1
        have hmem' : m ∈ table := hget ▸ List.getElem_mem hj
        rw [List.inj_on_of_nodup_map hnodup hmem hmem' hfs]
        exact congrArg some hget.symm
      · simp [markedDevices, Function.update_of_ne hfs, Filesystem.stat, Tmpfs.stat] at hstat

/-- **Mount resolution.**  Whatever is in the filesystems and whoever calls, the
four calls on a path from the root are served by the longest ancestor among the
mountpoints, and fail with `NotMounted` where there is none, exactly when the
table is in order for that path. -/
theorem mounts_resolve_iff {boot : Kernel} (hboot : boot.mounts = [])
    (calls : List (String × Filesystem)) {path : String} (habs : path.startsWith '/') :
    (∀ k : Kernel, k.mounts = (boot.mountAll calls).mounts →
      k.Dispatched path ((ancestor k.mounts path).map MountEntry.fs)) ↔
    InOrder (boot.mountAll calls).mounts path := by
  constructor
  · intro h
    have hnodup : ((boot.mountAll calls).mounts.map MountEntry.fs).Nodup := by
      rw [mountAll_mounts, hboot]
      apply nodup_foldl_pushMount
      · simp
      · exact List.nodup_nil
    exact @inOrder_of_stat _ _ boot.sched hnodup
      (fun devices => (h ⟨(boot.mountAll calls).mounts, devices, boot.sched, 0⟩ rfl).stat)
  · intro h k hk
    rw [← hk] at h
    rw [← find_of_inOrder habs h]
    exact k.dispatched_find habs

/-- Tmpfs at `/tmp`, then procfs at `/proc`. -/
def mountedKernel : Kernel :=
  { sampleKernel with mounts := [] }.mountAll [("/tmp", .tmpfs Tmpfs.new), ("/proc", .procfs)]

/-- The hypothesis of the dispatch theorem is met by the two mounts of the kernel's
boot. -/
theorem sample_mounts_resolve : mountedKernel.Dispatched "/proc/meminfo" (some 1) := by
  have horder : InOrder mountedKernel.mounts "/proc/meminfo" := by decide +kernel
  have htarget : (ancestor mountedKernel.mounts "/proc/meminfo").map MountEntry.fs = some 1 := by
    decide +kernel
  rw [← htarget]
  exact (mounts_resolve_iff rfl _ (by decide +kernel)).mpr horder mountedKernel rfl

/-- `/tmpfoo` is not below `/tmp`, and goes to the filesystem there. -/
theorem sibling_not_refused :
    ¬ ∀ (boot : Kernel) (calls : List (String × Filesystem)) (path : String), boot.mounts = [] →
      (calls.map Prod.fst).Nodup → path.startsWith '/' →
        ∀ k : Kernel, k.mounts = (boot.mountAll calls).mounts →
          k.Dispatched path ((ancestor k.mounts path).map MountEntry.fs) := by
  intro hclaim
  have htable : ancestor mountedKernel.mounts "/tmpfoo" = none := by decide +kernel
  have hstat : mountedKernel.stat "/tmpfoo" ≠ .error .notMounted := by decide +kernel
  have h := (hclaim _ _ "/tmpfoo" rfl (by decide) (by decide +kernel) mountedKernel rfl).stat
  rw [htable] at h
  exact hstat h

end Vfs
