import Noxisa.TmpfsTree

/-!
# What a path is to the backends

`stat`, `read` and `readdir` match the path each in its own way.
`backend_coherent_iff` says where the three agree: everywhere in `Tmpfs`, where
they look at one map, and in `Procfs` on the paths outside `/proc` and on the
three files there.
-/

namespace Vfs

/-- `readdir` (procfs.rs:39): the three files, and `NotFound` for any other directory.
-/
def Procfs.readdir (path : String) : Except FsError (List DirEntry) :=
  if path = "/proc" then
    .ok [⟨"meminfo", false, 64⟩, ⟨"version", false, 64⟩, ⟨"uptime", false, 16⟩]
  else .error .notFound

/-- The implementations of the trait, with the order of their entries. -/
inductive Backend
  | tmpfs (m : NodeMap)
  | procfs

namespace Backend

/-- The backend as the mount table sees it, without its directory listing. -/
def filesystem : Backend → Filesystem
  | .tmpfs m => .tmpfs m.nodes
  | .procfs => .procfs

/-- `readdir` of the backend. -/
def readdir (path : String) : Backend → Except FsError (List DirEntry)
  | .tmpfs m => m.readdir path
  | .procfs => Procfs.readdir path

/-- `Tmpfs` changes by its writes, `Procfs` never. -/
def Reachable : Backend → Prop
  | .tmpfs m => tmpfsSystem.Reach m
  | .procfs => True

/-- What `stat` says of the path is what `read` and `readdir` do with it. -/
structure CoherentAt (b : Backend) (path : String) : Prop where
  file : (∃ stat, b.filesystem.stat path = .ok stat ∧ stat.isDir = false) ↔
    ∀ free len, ∃ bytes, b.filesystem.read free path len = .ok bytes
  dir : (∃ stat, b.filesystem.stat path = .ok stat ∧ stat.isDir = true) ↔
    ∃ entries, b.readdir path = .ok entries
  names : ∀ entries, b.readdir path = .ok entries → ∀ e ∈ entries,
    ∃ stat, b.filesystem.stat (path ++ "/" ++ e.name) = .ok stat ∧ stat.isDir = e.isDir

/-- `Procfs` has three files. -/
def Served (path : String) : Backend → Prop
  | .tmpfs _ => True
  | .procfs => path.startsWith "/proc/" →
      path = "/proc/meminfo" ∨ path = "/proc/version" ∨ path = "/proc/uptime"

end Backend

/-- A kind of node, as `stat` sees it. -/
theorem Tmpfs.stat_ok_iff (fs : Tmpfs) (path : String) (isDir : Bool) :
    (∃ stat, fs.stat path = .ok stat ∧ stat.isDir = isDir) ↔
      ∃ node, fs path = some node ∧ node.isDir = isDir := by
  cases hnode : fs path with
  | none =>
      rw [Tmpfs.stat_none hnode]
      simp
  | some node =>
      rw [Tmpfs.stat_some hnode]
      simp [TmpfsNode.stat]

/-- Tmpfs reads a path exactly when it holds a file there. -/
theorem Tmpfs.read_ok_iff (fs : Tmpfs) (path : String) (len : Nat) :
    (∃ bytes, fs.read path len = .ok bytes) ↔
      ∃ node, fs path = some node ∧ node.isDir = false := by
  unfold Tmpfs.read
  cases fs path with
  | none => simp
  | some node => cases hdir : node.isDir <;> simp [hdir]

/-- Tmpfs lists a path exactly when it holds a directory there. -/
theorem NodeMap.readdir_ok_iff (m : NodeMap) (path : String) :
    (∃ entries, m.readdir path = .ok entries) ↔
      ∃ node, m.nodes path = some node ∧ node.isDir = true := by
  unfold NodeMap.readdir
  cases m.nodes path with
  | none => simp
  | some node => cases hdir : node.isDir <;> simp [hdir]

/-- With one directory, `Tmpfs` is coherent. -/
theorem Rooted.coherent {m : NodeMap} (h : Rooted m) (path : String) :
    (Backend.tmpfs m).CoherentAt path := by
  constructor
  · rw [show (∀ free len, ∃ bytes,
      (Backend.tmpfs m).filesystem.read free path len = .ok bytes) ↔
        ∃ node, m.nodes path = some node ∧ node.isDir = false from
      ⟨fun hread => (Tmpfs.read_ok_iff m.nodes path 0).mp (hread 0 0),
        fun hnode _ len => (Tmpfs.read_ok_iff m.nodes path len).mpr hnode⟩]
    exact Tmpfs.stat_ok_iff m.nodes path false
  · exact (Tmpfs.stat_ok_iff m.nodes path true).trans (m.readdir_ok_iff path).symm
  · intro entries heq e he
    obtain ⟨rfl, rfl⟩ := h.readdir_ok heq
    obtain ⟨k, -, hke⟩ := List.mem_filterMap.mp he
    obtain ⟨rfl, -, node, hnode, hsame, -⟩ := NodeMap.entry_eq_some_iff.mp hke
    exact ⟨node.stat, Tmpfs.stat_some hnode, hsame.symm⟩

/-- What `Procfs` reads. -/
theorem Procfs.read_ok_iff (path : String) :
    (∀ free len, ∃ bytes, Procfs.read free path len = .ok bytes) ↔
      path = "/proc/meminfo" ∨ path = "/proc/version" ∨ path = "/proc/uptime" := by
  by_cases hmem : path = "/proc/meminfo"
  · simp [Procfs.read, Procfs.content, hmem]
  by_cases hver : path = "/proc/version"
  · simp [Procfs.read, Procfs.content, hver]
  by_cases hup : path = "/proc/uptime"
  · simp [Procfs.read, Procfs.content, hup]
  refine iff_of_false (fun hread => ?_) (by simp [hmem, hver, hup])
  obtain ⟨bytes, hbytes⟩ := hread 0 0
  unfold Procfs.read Procfs.content at hbytes
  rw [if_neg hmem, if_neg hver, if_neg hup] at hbytes
  by_cases hproc : path.startsWith "/proc/"
  · rw [if_pos hproc] at hbytes
    cases hbytes
  · rw [if_neg hproc] at hbytes
    cases hbytes

/-- Procfs takes every path under `/proc/` for a file. -/
theorem Procfs.stat_file_iff (path : String) :
    (∃ stat, Procfs.stat path = .ok stat ∧ stat.isDir = false) ↔ path.startsWith "/proc/" := by
  unfold Procfs.stat
  by_cases hroot : path = "/proc"
  · have hnot : ("/proc".startsWith "/proc/") = false := by decide +kernel
    simp [hroot, hnot]
  · by_cases hproc : path.startsWith "/proc/" <;> simp [hroot, hproc]

/-- Procfs has one directory. -/
theorem Procfs.stat_dir_iff (path : String) :
    (∃ stat, Procfs.stat path = .ok stat ∧ stat.isDir = true) ↔ path = "/proc" := by
  unfold Procfs.stat
  by_cases hroot : path = "/proc"
  · simp [hroot]
  · by_cases hproc : path.startsWith "/proc/" <;> simp [hroot, hproc]

/-- Procfs lists that directory only. -/
theorem Procfs.readdir_ok_iff (path : String) :
    (∃ entries, Procfs.readdir path = .ok entries) ↔ path = "/proc" := by
  unfold Procfs.readdir
  by_cases hroot : path = "/proc" <;> simp [hroot]

/-- The three files are in `/proc`. -/
theorem Procfs.coherent_iff (path : String) :
    Backend.procfs.CoherentAt path ↔ Backend.procfs.Served path := by
  have hbelow : path = "/proc/meminfo" ∨ path = "/proc/version" ∨ path = "/proc/uptime" →
      path.startsWith "/proc/" := by
    rintro (rfl | rfl | rfl) <;> decide +kernel
  constructor
  · intro h hproc
    exact (Procfs.read_ok_iff path).mp (h.file.mp ((Procfs.stat_file_iff path).mpr hproc))
  · intro h
    constructor
    · rw [show (∃ stat, Backend.procfs.filesystem.stat path = .ok stat ∧ stat.isDir = false) ↔
        path.startsWith "/proc/" from Procfs.stat_file_iff path]
      exact ⟨fun hproc => (Procfs.read_ok_iff path).mpr (h hproc),
        fun hread => hbelow ((Procfs.read_ok_iff path).mp hread)⟩
    · exact (Procfs.stat_dir_iff path).trans (Procfs.readdir_ok_iff path).symm
    · intro entries heq e he
      obtain rfl := (Procfs.readdir_ok_iff path).mp ⟨entries, heq⟩
      obtain rfl := Except.ok.inj heq
      fin_cases he
      all_goals exact (Procfs.stat_file_iff _).mpr (by decide +kernel)

/-- **Coherence of the backends.**  In every reachable state of either one, what
`stat` says of a path is what `read` and `readdir` do with it exactly when the
path is served: always in `Tmpfs`, and in `Procfs` unless it is below `/proc`
and none of the three files. -/
theorem backend_coherent_iff {b : Backend} (hb : b.Reachable) (path : String) :
    b.CoherentAt path ↔ b.Served path := by
  cases b with
  | tmpfs m => exact iff_of_true ((reach_rooted hb).coherent path) trivial
  | procfs => exact Procfs.coherent_iff path

/-- The condition is met by a written file of tmpfs. -/
theorem sample_backend_coherent :
    (Backend.tmpfs (NodeMap.new.writeOwned ⟨0, 0, "/tmp/a", [1]⟩)).CoherentAt "/tmp/a" := by
  have hreach : tmpfsSystem.Reach (NodeMap.new.writeOwned ⟨0, 0, "/tmp/a", [1]⟩) :=
    (TransitionSystem.Run.boot rfl).step trivial rfl
  exact (backend_coherent_iff (b := .tmpfs _) hreach "/tmp/a").mpr trivial

/-- `open` would accept `/proc/cpuinfo`, which cannot be read. -/
theorem procfs_not_coherent :
    ¬ ∀ (b : Backend) (path : String), b.Reachable → b.CoherentAt path := by
  intro hclaim
  have hfile := (hclaim .procfs "/proc/cpuinfo" trivial).file
  have hstat := (Procfs.stat_file_iff "/proc/cpuinfo").mpr (by decide +kernel)
  have hread := (Procfs.read_ok_iff "/proc/cpuinfo").mp (hfile.mp hstat)
  exact absurd hread (by decide)

end Vfs
