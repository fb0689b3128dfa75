import Noxisa.VfsMediation

/-!
# Reading and writing at the offset of a descriptor

The backends of `fs/vfs.rs` read a file from its start only and write it as a
whole.  `read_fd` and `write_fd` build on that a transfer at the offset that
the descriptor has reached.

`ReadsFile` and `Splices` say what such transfers ought to do.  Both functions
look at the file through a buffer that may be too short for it: `read_fd`
through the buffer of its caller, `write_fd` through one that ends where the
new bytes end.  `readFd_eq` and `writeFd_eq` say what that leaves, and the
theorems on `ReadsFile` and `Splices` when it is what it ought to be.
-/

namespace Vfs

open Scheduler

/-- `O_RDWR` -/
def oRdwr : Nat := oRdonly ||| oWronly

/-- There is a file of tmpfs at `path`. -/
structure FileOn (k : Kernel) (path : String) (i : Nat) (node : TmpfsNode) : Prop where
  found : k.find path = some i
  there : k.node i path = some node
  file : node.isDir = false

/-- The current task may read the file at `path`, which holds `data`. -/
def Readable (k : Kernel) (path : String) (data : List UInt8) : Prop :=
  ∃ i node, FileOn k path i node ∧ node.data = data ∧
    HasR (uid k.sched) (gid k.sched) node.stat

section

variable {k k' : Kernel} {path : String} {i : Nat} {node : TmpfsNode}

/-- The file is in a temporary file system. -/
theorem FileOn.device (h : FileOn k path i node) :
    ∃ fs : Tmpfs, k.devices i = .tmpfs fs ∧ fs path = some node := by
  have hnode := h.there
  unfold Kernel.node at hnode
  cases hdev : k.devices i with
  | procfs =>
      rw [hdev] at hnode
      cases hnode
  | tmpfs fs =>
      rw [hdev] at hnode
      exact ⟨fs, rfl, hnode⟩

/-- It can be looked at. -/
theorem FileOn.stat (h : FileOn k path i node) : (k.devices i).stat path = .ok node.stat := by
  obtain ⟨fs, hdev, hfs⟩ := h.device
  rw [hdev, Filesystem.stat, Tmpfs.stat, hfs]
  rfl

open Classical in
/-- A read of a file gives its first bytes, or is refused. -/
theorem FileOn.read (h : FileOn k path i node) (len : Nat) :
    (k.read path len).toOption =
      if HasR (uid k.sched) (gid k.sched) node.stat then some (node.data.take len) else none := by
  obtain ⟨fs, hdev, hfs⟩ := h.device
  unfold Kernel.read
  rw [h.found]
  dsimp only
  rw [h.stat]
  dsimp only
  by_cases hr : HasR (uid k.sched) (gid k.sched) node.stat
  · rw [(checkPermission_r _ _ _).mpr hr, if_pos hr]
    dsimp only
    rw [hdev, Filesystem.read, Tmpfs.read, hfs]
    simp [h.file, Except.toOption]
  · rw [if_neg hr]
    cases hcheck : checkPermission (uid k.sched) (gid k.sched) node.stat rBit with
    | error e => rfl
    | ok _ => exact absurd ((checkPermission_r _ _ _).mp hcheck) hr

/-- A file that may be read is, from its beginning. -/
theorem Readable.read {data : List UInt8} (h : Readable k path data) (len : Nat) :
    k.read path len = .ok (data.take len) := by
  obtain ⟨i, node, hon, rfl, hr⟩ := h
  have hread := hon.read len
  rw [if_pos hr] at hread
  cases hout : k.read path len with
  | error e =>
      rw [hout] at hread
      cases hread
  | ok bytes =>
      rw [hout] at hread
      rw [Option.some.inj hread]

end

/-- One call of `read_fd`: the offset it starts at, the length of the buffer,
and what it returns. -/
structure Transfer where
  offset : Nat
  len : Nat
  reply : Except FsError (List UInt8)

/-- Calls of `read_fd` with buffers of the lengths `lens`.  Anything may happen
before each call that leaves the descriptor and the file as they were and the
file readable. -/
inductive Reads (fd : Int) (path : String) (data : List UInt8) :
    Kernel → List Nat → List Transfer → Prop
  | nil (k : Kernel) : Reads fd path data k [] []
  | cons {k k₁ k₂ : Kernel} {len : Nat} {lens : List Nat} {of : OpenFile}
      {reply : Except FsError (List UInt8)} {ts : List Transfer}
      (hsame : fdInfo k₁.sched fd = fdInfo k.sched fd) (hfile : Readable k₁ path data)
      (hfd : fdInfo k₁.sched fd = some of) (hcall : k₁.readFd fd len = (reply, k₂))
      (rest : Reads fd path data k₂ lens ts) :
      Reads fd path data k (len :: lens) (⟨of.offset, len, reply⟩ :: ts)

/-- What a transfer has brought. -/
def Transfer.bytes (t : Transfer) : List UInt8 := t.reply.toOption.getD []

/-- It is what was returned. -/
@[simp] theorem bytes_ok (offset len : Nat) (bytes : List UInt8) :
    (⟨offset, len, .ok bytes⟩ : Transfer).bytes = bytes := rfl

/-- Each call returns the bytes at its offset, as many as fit or are left;
together they are the file as far as the buffers go; and nothing is returned at
the end of the file only. -/
structure ReadsFile (data : List UInt8) (lens : List Nat) (ts : List Transfer) : Prop where
  each : ∀ t ∈ ts, t.reply = .ok ((data.drop t.offset).take t.len)
  whole : (ts.map Transfer.bytes).flatten = data.take lens.sum
  eof : ∀ t ∈ ts, t.reply = .ok [] → data.length ≤ t.offset

/-- One of the first two buffers is as long as the file, if there are two. -/
def HoldsFile (size : Nat) : List Nat → Prop
  | len :: len' :: _ => size ≤ len ∨ size ≤ len'
  | _ => True

section

variable {fd : Int} {path : String} {data : List UInt8} {k : Kernel} {lens : List Nat}
  {ts : List Transfer} {offset len : Nat}

/-- `read_fd` returns what the buffer holds beyond the offset. -/
theorem readFd_eq (hfd : fdInfo k.sched fd = some ⟨path, offset, oRdonly⟩)
    (hfile : Readable k path data) :
    k.readFd fd len = (.ok ((data.take len).drop offset),
      { k with sched := setFdOffset k.sched fd (offset + (min len data.length - offset)) }) := by
  have hflags : ¬ oRdonly &&& oRdonly = 0 := by decide
  have htake : ∀ n, (data.take n).length = min n data.length := fun n => List.length_take
  unfold Kernel.readFd
  rw [hfd]
  dsimp only
  rw [if_neg hflags, hfile.read]
  dsimp only
  have hmin : min ((data.take len).length - min offset (data.take len).length) len =
      min len data.length - offset := by
    rw [htake]
    omega
  rw [hmin]
  congr 2
  by_cases hlt : offset ≤ (data.take len).length
  · rw [Nat.min_eq_left hlt, List.take_of_length_le]
    rw [List.length_drop, htake]
  · rw [List.drop_eq_nil_of_le (by omega), List.drop_eq_nil_of_le (by omega), List.take_nil]

/-- The first call of a sequence, and the offset it leaves. -/
theorem Reads.first (hfd : fdInfo k.sched fd = some ⟨path, offset, oRdonly⟩)
    (h : Reads fd path data k (len :: lens) ts) :
    ∃ k' ts', ts = ⟨offset, len, .ok ((data.take len).drop offset)⟩ :: ts' ∧
      fdInfo k'.sched fd = some ⟨path, offset + (min len data.length - offset), oRdonly⟩ ∧
      Reads fd path data k' lens ts' := by
  cases h with
  | @cons _ k₁ k₂ _ _ of reply ts' hsame hfile hof hcall rest =>
      have hfd₁ := hsame.trans hfd
      obtain rfl := Option.some.inj (hof.symm.trans hfd₁)
      rw [readFd_eq hfd₁ hfile] at hcall
      obtain ⟨rfl, rfl⟩ := Prod.mk.inj hcall
      refine ⟨_, ts', rfl, ?_, rest⟩
      dsimp only
      rw [fdInfo_setFdOffset, hfd₁]
      rfl

/-- A call leaves the file readable, so that calls can be made without end. -/
theorem exists_reads (hfd : fdInfo k.sched fd = some ⟨path, offset, oRdonly⟩)
    (hfile : Readable k path data) (lens : List Nat) : ∃ ts, Reads fd path data k lens ts := by
  induction lens generalizing k offset with
  | nil => exact ⟨[], .nil k⟩
  | cons len lens ih =>
      have hcall := @readFd_eq _ _ _ _ _ len hfd hfile
      have hfile' : Readable (k.readFd fd len).2 path data := by
        obtain ⟨i, node, ⟨hfound, hthere, hdir⟩, hdata, hr⟩ := hfile
        obtain ⟨huid, hgid⟩ := identity_setFdOffset k.sched fd
          (offset + (min len data.length - offset))
        rw [hcall]
        exact ⟨i, node, ⟨hfound, hthere, hdir⟩, hdata, by rwa [huid, hgid]⟩
      have hfd' : fdInfo (k.readFd fd len).2.sched fd =
          some ⟨path, offset + (min len data.length - offset), oRdonly⟩ := by
        rw [hcall]
        dsimp only
        rw [fdInfo_setFdOffset, hfd]
        rfl
      obtain ⟨ts, hts⟩ := ih hfd' hfile'
      exact ⟨_, Reads.cons rfl hfile hfd rfl hts⟩

/-- At the end of the file every call returns nothing. -/
theorem Reads.at_end (hend : data.length ≤ offset)
    (hfd : fdInfo k.sched fd = some ⟨path, offset, oRdonly⟩)
    (h : Reads fd path data k lens ts) :
    ∀ t ∈ ts, t.reply = .ok [] ∧ data.length ≤ t.offset := by
  induction lens generalizing k ts with
  | nil =>
      cases h
      simp
  | cons len lens ih =>
      obtain ⟨k', ts', rfl, hfd', hrest⟩ := h.first hfd
      have hsame : offset + (min len data.length - offset) = offset := by omega
      rw [hsame] at hfd'
      intro t ht
      rcases List.mem_cons.mp ht with rfl | ht
      · exact ⟨by rw [List.drop_eq_nil_of_le (by simp; omega)], hend⟩
      · exact ih hfd' hrest t ht

/-- The transfers are those of the buffers. -/
theorem Reads.lens_eq (h : Reads fd path data k lens ts) : ts.map Transfer.len = lens := by
  induction h with
  | nil => rfl
  | cons _ _ _ _ _ ih => rw [List.map_cons, ih]

/-- The end of the file is seen in a right reply: the buffers are not empty. -/
theorem readsFile_of_right (hpos : ∀ t ∈ ts, 0 < t.len)
    (hright : ∀ t ∈ ts, t.reply = .ok ((data.drop t.offset).take t.len))
    (hwhole : (ts.map Transfer.bytes).flatten = data.take lens.sum) : ReadsFile data lens ts := by
  refine ⟨hright, hwhole, fun t ht hnil => ?_⟩
  rw [hright t ht] at hnil
  have hlength := congrArg List.length (Except.ok.inj hnil)
  simp only [List.length_take, List.length_drop, List.length_nil] at hlength
  have hlen := hpos t ht
  omega

/-- Calls at the end of the file are right, and add nothing. -/
theorem right_at_end (h : ∀ t ∈ ts, t.reply = .ok [] ∧ data.length ≤ t.offset) :
    (∀ t ∈ ts, t.reply = .ok ((data.drop t.offset).take t.len)) ∧
      (ts.map Transfer.bytes).flatten = [] := by
  constructor
  · intro t ht
    obtain ⟨hreply, hend⟩ := h t ht
    rw [hreply, List.drop_eq_nil_of_le hend, List.take_nil]
  · rw [List.flatten_eq_nil_iff]
    intro bytes hbytes
    obtain ⟨t, ht, rfl⟩ := List.mem_map.mp hbytes
    rw [Transfer.bytes, (h t ht).1]
    rfl

/-- **Reading through a descriptor** from offset 0 gives the whole file exactly
when the first or the second buffer is as long as the file. -/
theorem reads_iff (hfd : fdInfo k.sched fd = some ⟨path, 0, oRdonly⟩)
    (hpos : ∀ len ∈ lens, 0 < len) (h : Reads fd path data k lens ts) :
    ReadsFile data lens ts ↔ HoldsFile data.length lens := by
  have hlens := h.lens_eq
  have hposts : ∀ t ∈ ts, 0 < t.len := fun t ht => hpos _ (hlens ▸ List.mem_map_of_mem ht)
  cases lens with
  | nil =>
      cases h
      exact iff_of_true ⟨by simp, by simp, by simp⟩ trivial
  | cons len lens =>
      obtain ⟨k', ts', rfl, hfd', hrest⟩ := h.first hfd
      by_cases hsize : data.length ≤ len
      · -- the first buffer holds the file
        obtain ⟨hright, hnone⟩ := right_at_end (hrest.at_end (by omega) hfd')
        have hhold : HoldsFile data.length (len :: lens) := by
          cases lens with
          | nil => trivial
          | cons len' lens => exact Or.inl hsize
        refine iff_of_true (readsFile_of_right hposts ?_ ?_) hhold
        · intro t ht
          rcases List.mem_cons.mp ht with rfl | ht
          · rfl
          · exact hright t ht
        · have hall : data.length ≤ (len :: lens).sum := by
            rw [List.sum_cons]
            omega
          rw [List.map_cons, List.flatten_cons, hnone, List.append_nil,
            List.take_of_length_le hall]
          exact List.take_of_length_le hsize
      · have hoffset : 0 + (min len data.length - 0) = len := by omega
        rw [hoffset] at hfd'
        cases lens with
        | nil =>
            cases hrest
            refine iff_of_true (readsFile_of_right hposts ?_ ?_) trivial
            · intro t ht
              obtain rfl := List.mem_singleton.mp ht
              rfl
            · simp [Transfer.bytes, Except.toOption]
        | cons len' lens =>
            obtain ⟨k'', ts'', rfl, hfd'', hrest'⟩ := hrest.first hfd'
            have hlen := hpos len List.mem_cons_self
            have hlen' := hpos len' (List.mem_cons_of_mem _ List.mem_cons_self)
            by_cases hsize' : data.length ≤ len'
            · -- the second buffer holds it
              obtain ⟨hright, hnone⟩ := right_at_end (hrest'.at_end (by omega) hfd'')
              refine iff_of_true (readsFile_of_right hposts ?_ ?_) (Or.inr hsize')
              · intro t ht
                rcases List.mem_cons.mp ht with rfl | ht
                · rfl
                rcases List.mem_cons.mp ht with rfl | ht
                · have hdrop : (data.drop len).length ≤ len' := by
                    rw [List.length_drop]
                    omega
                  rw [List.take_of_length_le hsize', List.take_of_length_le hdrop]
                · exact hright t ht
              · have hall : data.length ≤ (len :: len' :: lens).sum := by
                  simp only [List.sum_cons]
                  omega
                rw [List.take_of_length_le hall]
                simp only [List.map_cons, List.flatten_cons, hnone, List.append_nil, bytes_ok]
                rw [List.take_of_length_le hsize', List.drop_zero]
                exact List.take_append_drop len data
            · -- the second call sees the file through a buffer that ends before it
              refine iff_of_false (fun hr => ?_) (by simp [HoldsFile]; omega)
              have hright := hr.each _ (List.mem_cons_of_mem _ List.mem_cons_self)
              have hlength := congrArg List.length (Except.ok.inj hright)
              simp only [List.length_take, List.length_drop] at hlength
              omega

/-- The descriptor that `open` returns. -/
theorem openFile_opened {k₀ : Kernel} {name : String} {flags : Nat}
    (htask : (currentTcb k₀.sched).isSome)
    (hopen : k₀.openFile name flags = some (.ok fd, k)) :
    fdInfo k.sched fd = some ⟨resolvePath (cwd k₀.sched) name, 0, flags⟩ := by
  rcases openFile_cases k₀ name flags with ⟨e, heq⟩ | heq | ⟨fd', s', -, halloc, heq⟩
  · rw [heq] at hopen
    cases hopen
  · rw [heq] at hopen
    cases hopen
  · rw [heq] at hopen
    obtain ⟨hfd, rfl⟩ := Prod.mk.inj (Option.some.inj hopen)
    obtain rfl := Except.ok.inj hfd
    exact allocFd_opened htask halloc

/-- **Reading a file that was opened** at offset 0 gives the whole file exactly
when the first or the second buffer is as long as the file. -/
theorem opened_reads_file_iff {k₀ : Kernel} {name : String} (htask : (currentTcb k₀.sched).isSome)
    (hopen : k₀.openFile name oRdonly = some (.ok fd, k))
    (hpos : ∀ len ∈ lens, 0 < len)
    (h : Reads fd (resolvePath (cwd k₀.sched) name) data k lens ts) :
    ReadsFile data lens ts ↔ HoldsFile data.length lens :=
  reads_iff (openFile_opened htask hopen) hpos h

end

/-- Three bytes in a file of tmpfs that the current task may read. -/
def notesKernel : Kernel where
  mounts := [⟨"/tmp", 0⟩]
  devices := fun _ => .tmpfs
    (Function.update Tmpfs.new "/tmp/notes" (some ⟨[1, 2, 3], false, 0o644, 0, 0⟩))
  sched :=
    { tasks := [none, some { newTcb 1 0 0 () with uid := 0, gid := 0 }]
      rq := RunQueue.new, current := 1, nextPid := 2 }
  free := 0

/-- The same, with the file open as descriptor 0. -/
def openedKernel (flags : Nat) : Kernel :=
  ((notesKernel.openFile "/tmp/notes" flags).map Prod.snd).getD notesKernel

/-- The sample opens its file. -/
theorem openedKernel_eq : notesKernel.openFile "/tmp/notes" oRdonly =
    some (.ok 0, openedKernel oRdonly) := by
  have hopen : (notesKernel.openFile "/tmp/notes" oRdonly).map Prod.fst = some (.ok 0) := by
    decide +kernel
  obtain ⟨⟨reply, k⟩, hk, hreply⟩ := Option.map_eq_some_iff.mp hopen
  obtain rfl : reply = .ok 0 := hreply
  rw [openedKernel, hk]
  rfl

/-- Which may be read. -/
theorem openedKernel_readable : Readable (openedKernel oRdonly) "/tmp/notes" [1, 2, 3] :=
  ⟨0, ⟨[1, 2, 3], false, 0o644, 0, 0⟩, ⟨by decide +kernel, by decide +kernel, rfl⟩, rfl, by
    unfold HasR
    decide +kernel⟩

/-- Three buffers that read it. -/
theorem sample_opened_reads_file :
    ∃ ts, Reads 0 "/tmp/notes" [1, 2, 3] (openedKernel oRdonly) [2, 4, 1] ts ∧
      ReadsFile [1, 2, 3] [2, 4, 1] ts := by
  have htask : (currentTcb notesKernel.sched).isSome := by decide
  obtain ⟨ts, hts⟩ := exists_reads (openFile_opened htask openedKernel_eq)
    openedKernel_readable [2, 4, 1]
  refine ⟨ts, hts, ?_⟩
  exact (opened_reads_file_iff htask openedKernel_eq (by decide) hts).mpr (Or.inr (by decide))

/-- **A short buffer loses the rest.**  With buffers of two bytes the second
call on a file of three returns nothing. -/
theorem short_buffers_lose_the_rest :
    ∃ ts, Reads 0 "/tmp/notes" [1, 2, 3] (openedKernel oRdonly) [2, 2] ts ∧
      ts.map Transfer.reply = [.ok [1, 2], .ok []] ∧ ¬ ReadsFile [1, 2, 3] [2, 2] ts := by
  have hopened := openFile_opened (by decide) openedKernel_eq
  obtain ⟨ts, hts⟩ := exists_reads hopened openedKernel_readable [2, 2]
  obtain ⟨k', ts', rfl, hfd', hrest⟩ := hts.first hopened
  obtain ⟨k'', ts'', rfl, -, hnone⟩ := hrest.first hfd'
  cases hnone
  refine ⟨_, hts, rfl, fun hr => ?_⟩
  have hheld := (reads_iff hopened (by decide) hts).mp hr
  exact absurd hheld (by simp [HoldsFile])

/-- `old` with `buf` in the place of its bytes from `offset` on. -/
def spliced (old buf : List UInt8) (offset : Nat) : List UInt8 :=
  old.take offset ++ List.replicate (offset - old.length) 0 ++ buf ++ old.drop (offset + buf.length)

/-- What a write through the descriptor `fd` of the file `node` ought to do. -/
structure Splices (k : Kernel) (fd : Int) (buf : List UInt8) (of : OpenFile) (i : Nat)
    (node : TmpfsNode) (k' : Kernel) : Prop where
  spliced : k'.node i of.path = some { node with data := spliced node.data buf of.offset }
  offset : fdInfo k'.sched fd = some { of with offset := of.offset + buf.length }
  files : ∀ j path, ¬(j = i ∧ path = of.path) → k'.node j path = k.node j path
  fds : ∀ pid fd', ¬(pid = k.sched.current ∧ fd' = fd) →
    fileAt k'.sched pid fd' = fileAt k.sched pid fd'

/-- The file ends where the new bytes end or before, and the caller may read
what is in front of them, or it is zero. -/
def Covered (uid gid : Nat) (node : TmpfsNode) (offset len : Nat) : Prop :=
  node.data.length ≤ offset + len ∧
    (HasR uid gid node.stat ∨ ∀ b ∈ node.data.take offset, b = 0)

section

variable {k k' : Kernel} {path : String} {i : Nat} {node : TmpfsNode} {fd : Int}
  {buf : List UInt8} {of : OpenFile}

/-- A write that goes through replaces the data of one node. -/
theorem FileOn.write (h : FileOn k path i node) {n : Nat}
    (hrun : k.write path buf = (.ok n, k')) :
    k'.sched = k.sched ∧ k'.node i path = some { node with data := buf } ∧
      ∀ j q, ¬(j = i ∧ q = path) → k'.node j q = k.node j q := by
  obtain ⟨fs, hdev, hfs⟩ := h.device
  rcases write_cases k path buf with ⟨e, heq⟩ | ⟨j, hfind, -, heq⟩
  · rw [heq] at hrun
    cases hrun
  · obtain rfl := Option.some.inj (h.found.symm.trans hfind)
    have hfile : ¬ node.isDir = true := by simp [h.file]
    rw [heq, hdev] at hrun
    simp only [Filesystem.writeOwned, Tmpfs.writeOwned_file hfs hfile] at hrun
    obtain ⟨-, rfl⟩ := Prod.mk.inj hrun
    refine ⟨rfl, ?_, fun j q hother => ?_⟩
    · simp [Kernel.node]
    · by_cases hj : j = i
      · subst hj
        have hq : q ≠ path := fun heq => hother ⟨rfl, heq⟩
        simp [Kernel.node, hdev, hq]
      · simp [Kernel.node, hj]

/-- `write_fd`, when it goes through. -/
theorem writeFd_eq (hfd : fdInfo k.sched fd = some of) (hflags : of.flags = oRdwr) {n : Nat}
    (hrun : k.writeFd fd buf = (.ok n, k')) :
    ∃ k₁ m, k.write of.path
        (Kernel.splice ((k.read of.path (of.offset + buf.length)).toOption.getD []) buf of.offset) =
          (.ok m, k₁) ∧
      k' = { k₁ with sched := setFdOffset k₁.sched fd (of.offset + buf.length) } := by
  have hwrite : ¬ of.flags &&& oWronly = 0 := by
    rw [hflags]
    decide
  unfold Kernel.writeFd at hrun
  rw [hfd] at hrun
  dsimp only at hrun
  rw [if_neg hwrite] at hrun
  split at hrun
  · cases hrun
  · next m k₁ heq =>
    obtain ⟨-, rfl⟩ := Prod.mk.inj hrun
    exact ⟨k₁, m, heq, rfl⟩

/-- `write_fd` drops what its buffer does not hold. -/
theorem splice_eq (existing buf : List UInt8) (offset : Nat)
    (hlen : existing.length ≤ offset + buf.length) :
    Kernel.splice existing buf offset =
      existing.take offset ++ List.replicate (offset - existing.length) 0 ++ buf := by
  have hpad : offset - (existing.take offset).length = offset - existing.length := by
    rw [List.length_take]
    omega
  unfold Kernel.splice
  dsimp only
  rw [hpad, List.drop_eq_nil_of_le, List.append_nil]
  simp only [List.length_append, List.length_take, List.length_replicate]
  omega

/-- If the file can be read, what is lost is what lies behind the new bytes. -/
theorem splice_readable_iff (old buf : List UInt8) (offset : Nat) :
    Kernel.splice (old.take (offset + buf.length)) buf offset = spliced old buf offset ↔
      old.length ≤ offset + buf.length := by
  have hlen : (old.take (offset + buf.length)).length ≤ offset + buf.length := by
    rw [List.length_take]
    omega
  have hpad : offset - (old.take (offset + buf.length)).length = offset - old.length := by
    rw [List.length_take]
    omega
  have htake : min offset (offset + buf.length) = offset := by omega
  rw [splice_eq _ _ _ hlen, hpad, List.take_take, htake, spliced, List.self_eq_append_right,
    List.drop_eq_nil_iff]

/-- If it cannot, what lies in front of them is taken to be zero. -/
theorem splice_unreadable_iff (old buf : List UInt8) (offset : Nat) :
    Kernel.splice [] buf offset = spliced old buf offset ↔
      old.length ≤ offset + buf.length ∧ ∀ b ∈ old.take offset, b = 0 := by
  rw [splice_eq _ _ _ (Nat.zero_le _), List.take_nil, List.nil_append, List.length_nil,
    Nat.sub_zero, spliced]
  constructor
  · intro h
    have hlength := congrArg List.length h
    simp only [List.length_append, List.length_replicate, List.length_take,
      List.length_drop] at hlength
    have hle : old.length ≤ offset + buf.length := by omega
    refine ⟨hle, fun b hb => ?_⟩
    rw [List.drop_eq_nil_of_le hle, List.append_nil] at h
    have hfront := List.append_cancel_right h
    have hmem : b ∈ List.replicate offset (0 : UInt8) :=
      hfront ▸ List.mem_append_left _ hb
    exact List.eq_of_mem_replicate hmem
  · rintro ⟨hle, hzero⟩
    have hfront : old.take offset = List.replicate (old.take offset).length 0 :=
      List.eq_replicate_iff.mpr ⟨rfl, hzero⟩
    have hsum : (old.take offset).length + (offset - old.length) = offset := by
      rw [List.length_take]
      omega
    rw [List.drop_eq_nil_of_le hle, List.append_nil, hfront, List.replicate_append_replicate, hsum]

/-- **Writing through a descriptor** splices the bytes into the file exactly
when the file is covered. -/
theorem writeFd_splices_iff (hfd : fdInfo k.sched fd = some of) (hflags : of.flags = oRdwr)
    (hon : FileOn k of.path i node) {n : Nat} (hrun : k.writeFd fd buf = (.ok n, k')) :
    Splices k fd buf of i node k' ↔
      Covered (uid k.sched) (gid k.sched) node of.offset buf.length := by
  obtain ⟨k₁, m, hwrite, rfl⟩ := writeFd_eq hfd hflags hrun
  obtain ⟨hsched, hnode, hfiles⟩ := hon.write hwrite
  have hdata : Splices k fd buf of i node
        { k₁ with sched := setFdOffset k₁.sched fd (of.offset + buf.length) } ↔
      Kernel.splice ((k.read of.path (of.offset + buf.length)).toOption.getD []) buf of.offset =
        spliced node.data buf of.offset := by
    constructor
    · intro h
      have hsame := hnode.symm.trans h.spliced
      exact congrArg TmpfsNode.data (Option.some.inj hsame)
    · intro h
      rw [h] at hnode
      refine ⟨hnode, ?_, hfiles, fun pid fd' hother => ?_⟩
      · dsimp only
        rw [fdInfo_setFdOffset, hsched, hfd]
        rfl
      · dsimp only
        rw [fileAt_setFdOffset, hsched, if_neg hother]
  rw [hdata, hon.read]
  by_cases hr : HasR (uid k.sched) (gid k.sched) node.stat
  · rw [if_pos hr, Option.getD_some, splice_readable_iff]
    exact ⟨fun h => ⟨h, Or.inl hr⟩, And.left⟩
  · rw [if_neg hr, Option.getD_none, splice_unreadable_iff]
    exact ⟨fun h => ⟨h.1, Or.inr h.2⟩, fun h => ⟨h.1, h.2.resolve_left hr⟩⟩

end

/-- Three bytes that are written over it. -/
theorem sample_writeFd_splices :
    ∃ k', (openedKernel oRdwr).writeFd 0 [7, 8, 9] = (.ok 3, k') ∧
      Splices (openedKernel oRdwr) 0 [7, 8, 9] ⟨"/tmp/notes", 0, oRdwr⟩ 0
        ⟨[1, 2, 3], false, 0o644, 0, 0⟩ k' := by
  have hrun : (openedKernel oRdwr).writeFd 0 [7, 8, 9] =
      (.ok 3, ((openedKernel oRdwr).writeFd 0 [7, 8, 9]).2) :=
    Prod.ext (by decide +kernel) rfl
  refine ⟨_, hrun, ?_⟩
  refine (writeFd_splices_iff (by decide +kernel) rfl ⟨by decide +kernel, by decide +kernel, rfl⟩
    hrun).mpr ⟨by decide, Or.inr (by simp)⟩

/-- **A write into the middle of a file cuts it off**: of three bytes the first
is replaced, and the two behind it are gone. -/
theorem write_cuts_off :
    ∃ k', (openedKernel oRdwr).writeFd 0 [7] = (.ok 1, k') ∧
      (k'.node 0 "/tmp/notes").map TmpfsNode.data = some [7] ∧
      ¬ Splices (openedKernel oRdwr) 0 [7] ⟨"/tmp/notes", 0, oRdwr⟩ 0
        ⟨[1, 2, 3], false, 0o644, 0, 0⟩ k' := by
  have hrun : (openedKernel oRdwr).writeFd 0 [7] =
      (.ok 1, ((openedKernel oRdwr).writeFd 0 [7]).2) :=
    Prod.ext (by decide +kernel) rfl
  have hleft : ((((openedKernel oRdwr).writeFd 0 [7]).2).node 0 "/tmp/notes").map TmpfsNode.data =
      some [7] := by decide +kernel
  refine ⟨_, hrun, hleft, fun h => ?_⟩
  have hdata := congrArg (Option.map TmpfsNode.data) h.spliced
  rw [hleft] at hdata
  exact absurd hdata (by decide)

end Vfs
