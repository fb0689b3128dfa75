import Noxisa.VfsWrites
import Mathlib.Data.String.Basic
import Mathlib.Data.List.Sort

/-!
# The tree of tmpfs

`Tmpfs` keeps its nodes in one map from paths, and its directories are implicit
in the text of the keys: `readdir` filters the keys by the text of the path.
Nodes are made by `write_owned` alone, under any path that is written.

`tmpfs_is_tree` says of which runs the map is a tree whose directories list their
children: those in which every path that makes a node is a name in `/tmp`.
-/

namespace Vfs

open Scheduler

/-- `DirEntry` -/
structure DirEntry where
  name : String
  isDir : Bool
  size : Nat
deriving DecidableEq

/-- The nodes, with their keys in the order of the `BTreeMap`. -/
structure NodeMap where
  nodes : Tmpfs
  keys : List String
  sorted : keys.Pairwise (· < ·)
  mem_keys : ∀ k, k ∈ keys ↔ (nodes k).isSome

/-- A path is put among the sorted keys, once. -/
def insertKey (path : String) (keys : List String) : List String :=
  if path ∈ keys then keys else keys.orderedInsert (· ≤ ·) path

/-- The keys then are those that were, and the path. -/
theorem mem_insertKey {path k : String} {keys : List String} :
    k ∈ insertKey path keys ↔ k = path ∨ k ∈ keys := by
  unfold insertKey
  by_cases hmem : path ∈ keys
  · rw [if_pos hmem]
    constructor
    · exact Or.inr
    · rintro (rfl | hk)
      · exact hmem
      · exact hk
  · rw [if_neg hmem, List.mem_orderedInsert]

/-- They are still sorted. -/
theorem sorted_insertKey {path : String} {keys : List String} (h : keys.Pairwise (· < ·)) :
    (insertKey path keys).Pairwise (· < ·) := by
  unfold insertKey
  by_cases hmem : path ∈ keys
  · rw [if_pos hmem]
    exact h
  · rw [if_neg hmem]
    have hle := (h.imp le_of_lt).orderedInsert path keys
    have hne : (keys.orderedInsert (· ≤ ·) path).Nodup := by
      rw [(List.perm_orderedInsert _ path keys).nodup_iff, List.nodup_cons]
      exact ⟨hmem, h.imp ne_of_lt⟩
    exact (hle.and hne).imp (fun hab => lt_of_le_of_ne hab.1 hab.2)

namespace Tmpfs

/-- After `write_owned` there is a node at the path. -/
theorem writeOwned_isSome (fs : Tmpfs) (path : String) (buf : List UInt8) (uid gid : Nat)
    (k : String) : ((fs.writeOwned path buf uid gid).2 k).isSome ↔ k = path ∨ (fs k).isSome := by
  by_cases hk : k = path
  · subst hk
    simp only [Tmpfs.writeOwned]
    split <;> simp
  · rw [Tmpfs.writeOwned_other hk]
    simp [hk]

end Tmpfs

namespace NodeMap

/-- `Tmpfs::new`, with its one key. -/
def new : NodeMap where
  nodes := Tmpfs.new
  keys := ["/tmp"]
  sorted := List.pairwise_singleton _ _
  mem_keys := by
    intro k
    by_cases hk : k = "/tmp" <;> simp [Tmpfs.new, hk]

/-- `Tmpfs::write_owned` on the map. -/
def writeOwned (m : NodeMap) (c : WriteCall) : NodeMap where
  nodes := (m.nodes.writeOwned c.path c.buf c.uid c.gid).2
  keys := insertKey c.path m.keys
  sorted := sorted_insertKey m.sorted
  mem_keys := by
    intro k
    rw [mem_insertKey, Tmpfs.writeOwned_isSome, m.mem_keys]

end NodeMap

/-- What the names of the entries of a directory follow in their keys. -/
def below (path : String) : String :=
  if path.endsWith '/' then path else path ++ "/"

/-- `k[prefix.len()..]` -/
def nameIn (base k : String) : String := String.ofList (k.toList.drop base.toList.length)

/-- The entry of a key, if it is one; a key of the map has a node. -/
def NodeMap.entry (m : NodeMap) (base k : String) : Option DirEntry :=
  if k.startsWith base ∧ ¬ '/' ∈ (nameIn base k).toList then
    (m.nodes k).map (fun n => ⟨nameIn base k, n.isDir, n.data.length⟩)
  else none

/-- `readdir`, which goes through all keys. -/
def NodeMap.readdir (m : NodeMap) (path : String) : Except FsError (List DirEntry) :=
  if (m.nodes path).any TmpfsNode.isDir then .ok (m.keys.filterMap (m.entry (below path)))
  else .error .notADirectory

/-- A name of one component. -/
def IsName (name : String) : Prop := name ≠ "" ∧ '/' ∉ name.toList

instance (name : String) : Decidable (IsName name) := inferInstanceAs (Decidable (_ ∧ _))

/-- The name of a path in a directory is what follows. -/
theorem nameIn_append (base name : String) : nameIn base (base ++ name) = name := by
  simp [nameIn]

/-- The keys that `readdir` shows. -/
theorem NodeMap.entry_eq_some_iff {m : NodeMap} {base k : String} {e : DirEntry} :
    m.entry base k = some e ↔ k = base ++ e.name ∧ '/' ∉ e.name.toList ∧
      ∃ node, m.nodes k = some node ∧ e.isDir = node.isDir ∧ e.size = node.data.length := by
  unfold NodeMap.entry
  constructor
  · intro h
    split at h
    next hshown =>
      obtain ⟨hstart, hname⟩ := hshown
      obtain ⟨node, hnode, rfl⟩ := Option.map_eq_some_iff.mp h
      refine ⟨?_, hname, node, hnode, rfl, rfl⟩
      obtain ⟨rest, hrest⟩ := String.startsWith_string_iff.mp hstart
      apply String.toList_inj.mp
      simp [nameIn, ← hrest]
    next => cases h
  · rintro ⟨rfl, hname, node, hnode, hdir, hsize⟩
    have hstart : (base ++ e.name).startsWith base := by
      rw [String.startsWith_string_iff, String.toList_append]
      exact List.prefix_append _ _
    rw [nameIn_append, if_pos ⟨hstart, hname⟩, hnode, Option.map_some]
    rw [← hdir, ← hsize]

/-- Every node but the root is in a directory, under a name of one component, and
a directory lists its nodes, each once with its size, and nothing else. -/
structure IsTree (m : NodeMap) : Prop where
  parent : ∀ k node, m.nodes k = some node → k ≠ "/tmp" →
    ∃ dir name d, k = dir ++ "/" ++ name ∧ IsName name ∧ m.nodes dir = some d ∧ d.isDir
  listed : ∀ dir name d node, m.nodes dir = some d → d.isDir → IsName name →
    m.nodes (dir ++ "/" ++ name) = some node → ∃ entries, m.readdir dir = .ok entries ∧
      entries.filter (fun e => e.name = name) = [⟨name, node.isDir, node.data.length⟩]
  only : ∀ dir entries, m.readdir dir = .ok entries → ∀ e ∈ entries, IsName e.name ∧
    ∃ node, m.nodes (dir ++ "/" ++ e.name) = some node ∧ e = ⟨e.name, node.isDir, node.data.length⟩

/-- Any sequence of `write_owned`. -/
def tmpfsSystem : TransitionSystem NodeMap WriteCall where
  boot := fun m => m = NodeMap.new
  next := fun m c => some (m.writeOwned c)

/-- A call that makes a node names a file in `/tmp`. -/
def NamesFile (m : NodeMap) (c : WriteCall) : Prop :=
  m.nodes c.path = none → ∃ name, IsName name ∧ c.path = "/tmp" ++ "/" ++ name

/-- The only directory is the root. -/
structure Rooted (m : NodeMap) : Prop where
  root : ∃ d, m.nodes "/tmp" = some d ∧ d.isDir
  files : ∀ k node, m.nodes k = some node → k ≠ "/tmp" → ¬ node.isDir

/-- The nodes besides the root are named files. -/
def AllNamed (m : NodeMap) : Prop :=
  ∀ k node, m.nodes k = some node → k ≠ "/tmp" → ∃ name, IsName name ∧ k = "/tmp" ++ "/" ++ name

/-- At first there is the root alone. -/
theorem eq_root_of_new {k : String} {node : TmpfsNode} (h : NodeMap.new.nodes k = some node) :
    k = "/tmp" := by
  by_contra hk
  simp [NodeMap.new, Tmpfs.new, Function.update_of_ne hk] at h

/-- A node after a write was there before, but for its data, or is a new file at
the path. -/
theorem NodeMap.writeOwned_cases {m : NodeMap} {c : WriteCall} {k : String} {node : TmpfsNode}
    (h : (m.writeOwned c).nodes k = some node) :
    (∃ old, m.nodes k = some old ∧ node.isDir = old.isDir) ∨
      m.nodes c.path = none ∧ k = c.path ∧ node.isDir = false := by
  cases hold : m.nodes k with
  | some old =>
      obtain ⟨data, hdata, -⟩ := Tmpfs.writeOwned_node c.path c.buf c.uid c.gid hold
      obtain rfl := Option.some.inj (hdata.symm.trans h)
      exact Or.inl ⟨old, rfl, rfl⟩
  | none =>
      change (m.nodes.writeOwned c.path c.buf c.uid c.gid).2 k = some node at h
      by_cases hk : k = c.path
      · subst hk
        simp only [Tmpfs.writeOwned_new hold, Function.update_self] at h
        obtain rfl := Option.some.inj h
        exact Or.inr ⟨hold, rfl, rfl⟩
      · rw [Tmpfs.writeOwned_other hk, hold] at h
        cases h

/-- **The root** of every reachable map is the one directory. -/
theorem reach_rooted {m : NodeMap} (h : tmpfsSystem.Reach m) : Rooted m := by
  apply h.invariant
  · rintro s rfl
    constructor
    · exact ⟨⟨[], true, 0o1777, 0, 0⟩, rfl, rfl⟩
    · intro k node hnode hk
      exact absurd (eq_root_of_new hnode) hk
  · intro s c t hs hnext
    obtain rfl := Option.some.inj hnext
    constructor
    · obtain ⟨d, hd, hdir⟩ := hs.root
      obtain ⟨data, hdata, -⟩ := Tmpfs.writeOwned_node c.path c.buf c.uid c.gid hd
      exact ⟨_, hdata, hdir⟩
    · intro k node hnode hk
      rcases NodeMap.writeOwned_cases hnode with ⟨old, hold, hsame⟩ | ⟨-, -, hfile⟩
      · rw [hsame]
        exact hs.files k old hold hk
      · simp [hfile]

/-- It is about the nodes, not the order of the keys. -/
theorem Rooted.congr {m m' : NodeMap} (h : Rooted m) (hnodes : m.nodes = m'.nodes) : Rooted m' := by
  constructor
  · rw [← hnodes]
    exact h.root
  · rw [← hnodes]
    exact h.files

/-- **Every run** that names files has names only. -/
theorem run_allNamed {m : NodeMap} (h : tmpfsSystem.Run NamesFile m) : AllNamed m := by
  apply h.invariant
  · rintro s rfl k node hnode hk
    exact absurd (eq_root_of_new hnode) hk
  · intro s c t hs hc hnext k node hnode hk
    obtain rfl := Option.some.inj hnext
    rcases NodeMap.writeOwned_cases hnode with ⟨old, hold, -⟩ | ⟨hnew, rfl, -⟩
    · exact hs k old hold hk
    · exact hc hnew

/-- The beginning that the names in the root have. -/
theorem below_tmp : below "/tmp" = "/tmp/" := by
  decide +kernel

/-- The directories. -/
theorem Rooted.dir {m : NodeMap} (h : Rooted m) {dir : String} {d : TmpfsNode}
    (hd : m.nodes dir = some d) (hdir : d.isDir) : dir = "/tmp" := by
  by_contra hne
  exact h.files dir d hd hne hdir

/-- Only the root can be listed, with the files in it. -/
theorem Rooted.readdir_ok {m : NodeMap} (h : Rooted m) {dir : String} {entries : List DirEntry}
    (hlist : m.readdir dir = .ok entries) :
    dir = "/tmp" ∧ entries = m.keys.filterMap (m.entry "/tmp/") := by
  unfold NodeMap.readdir at hlist
  split at hlist
  next hany =>
    obtain ⟨d, hd, hdir⟩ := Option.any_eq_true _ _ |>.mp hany
    obtain rfl := h.dir hd hdir
    obtain rfl := Except.ok.inj hlist
    exact ⟨rfl, by rw [below_tmp]⟩
  next => cases hlist

/-- And it can be. -/
theorem Rooted.readdir_root {m : NodeMap} (h : Rooted m) :
    m.readdir "/tmp" = .ok (m.keys.filterMap (m.entry "/tmp/")) := by
  obtain ⟨d, hd, hdir⟩ := h.root
  unfold NodeMap.readdir
  rw [hd, Option.any_some, if_pos hdir, below_tmp]

/-- The names that `readdir` shows come from different keys. -/
theorem filter_entries {m : NodeMap} {base name : String} {node : TmpfsNode}
    (hname : '/' ∉ name.toList) (hnode : m.nodes (base ++ name) = some node) :
    (m.keys.filterMap (m.entry base)).filter (fun e => e.name = name) =
      [⟨name, node.isDir, node.data.length⟩] := by
  have hentry : m.entry base (base ++ name) = some ⟨name, node.isDir, node.data.length⟩ :=
    NodeMap.entry_eq_some_iff.mpr ⟨rfl, hname, node, hnode, rfl, rfl⟩
  have hothers : ∀ k e, k ≠ base ++ name → m.entry base k = some e → e.name ≠ name := by
    intro k e hk he heq
    exact hk (heq ▸ (NodeMap.entry_eq_some_iff.mp he).1)
  have hmem : base ++ name ∈ m.keys := (m.mem_keys _).mpr (Option.isSome_of_eq_some hnode)
  obtain ⟨before, after, hkeys⟩ := List.append_of_mem hmem
  have hnodup : m.keys.Nodup := m.sorted.imp ne_of_lt
  rw [hkeys] at hnodup ⊢
  obtain ⟨-, hnodup', hdisjoint⟩ := List.nodup_append.mp hnodup
  have hskip : ∀ ks : List String, base ++ name ∉ ks →
      (ks.filterMap (m.entry base)).filter (fun e => e.name = name) = [] := by
    intro ks hks
    rw [List.filter_eq_nil_iff]
    intro e he
    obtain ⟨k, hk, hke⟩ := List.mem_filterMap.mp he
    simpa using hothers k e (fun heq => hks (heq ▸ hk)) hke
  have hbefore : base ++ name ∉ before := by
    intro hin
    exact hdisjoint _ hin _ List.mem_cons_self rfl
  rw [List.filterMap_append, List.filter_append, hskip before hbefore, List.nil_append,
    List.filterMap_cons, hentry]
  dsimp only
  rw [List.filter_cons_of_pos (by simp), hskip after (List.nodup_cons.mp hnodup').1]

/-- Named files under one root are a tree. -/
theorem Rooted.isTree {m : NodeMap} (h : Rooted m) (hnamed : AllNamed m) : IsTree m := by
  constructor
  · intro k node hnode hk
    obtain ⟨name, hname, rfl⟩ := hnamed k node hnode hk
    obtain ⟨d, hd, hdir⟩ := h.root
    exact ⟨"/tmp", name, d, rfl, hname, hd, hdir⟩
  · intro dir name d node hd hdir hname hnode
    obtain rfl := h.dir hd hdir
    exact ⟨_, h.readdir_root, filter_entries hname.2 hnode⟩
  · intro dir entries hlist e he
    obtain ⟨rfl, rfl⟩ := h.readdir_ok hlist
    obtain ⟨k, -, hke⟩ := List.mem_filterMap.mp he
    obtain ⟨hk, hslash, node, hnode, hdir, hsize⟩ := NodeMap.entry_eq_some_iff.mp hke
    have hroot : k ≠ "/tmp" := by
      intro heq
      have hlen := congrArg String.length (hk.symm.trans heq)
      rw [String.length_append] at hlen
      change 5 + e.name.length = 4 at hlen
      omega
    obtain ⟨name, hname, hkname⟩ := hnamed k node hnode hroot
    have hsame : e.name = name := by
      rw [← nameIn_append "/tmp/" e.name, ← hk, hkname]
      exact nameIn_append "/tmp/" name
    refine ⟨hsame ▸ hname, node, ?_, ?_⟩
    · rw [← hnode, hk]
      rfl
    · rw [← hdir, ← hsize]

/-- A node that is no named file is in no directory. -/
theorem Rooted.not_isTree {m : NodeMap} (h : Rooted m) {k : String} {node : TmpfsNode}
    (hnode : m.nodes k = some node) (hk : k ≠ "/tmp")
    (hname : ∀ name, IsName name → k ≠ "/tmp" ++ "/" ++ name) : ¬ IsTree m := by
  intro htree
  obtain ⟨dir, name, d, rfl, hisName, hd, hdir⟩ := htree.parent k node hnode hk
  obtain rfl := h.dir hd hdir
  exact hname name hisName rfl

/-- A `write` makes one `write_owned` or none. -/
theorem write_devices (k : Kernel) (path : String) (buf : List UInt8) :
    (k.write path buf).2.mounts = k.mounts ∧
      ((k.write path buf).2.devices = k.devices ∨ ∃ i, k.find path = some i ∧
        (k.write path buf).2.devices = Function.update k.devices i
          ((k.devices i).writeOwned path buf (uid k.sched) (gid k.sched)).2) := by
  rcases write_cases k path buf with ⟨e, heq⟩ | ⟨i, hfind, -, heq⟩
  · rw [heq]
    exact ⟨rfl, Or.inl rfl⟩
  · rw [heq]
    exact ⟨rfl, Or.inr ⟨i, hfind, rfl⟩⟩

/-- The path that a call may write, if it is one that the call names or one that
is open. -/
def Writes (k : Kernel) (path : String) : Call → Prop
  | .write p _ => p = path
  | .writeFd fd _ => (fdInfo k.sched fd).map OpenFile.path = some path
  | _ => False

/-- A call makes one `write_owned` or none. -/
theorem call_devices {k k' : Kernel} {call : Call} {reply : Reply}
    (h : k.call call = some (reply, k')) : k'.mounts = k.mounts ∧
      (k'.devices = k.devices ∨ ∃ i path buf, Writes k path call ∧ k.find path = some i ∧
        k'.devices = Function.update k.devices i
          ((k.devices i).writeOwned path buf (uid k.sched) (gid k.sched)).2) := by
  cases call with
  | write path buf =>
      obtain rfl := call_write h
      obtain ⟨hmounts, hdev⟩ := write_devices k path buf
      refine ⟨hmounts, hdev.imp_right ?_⟩
      rintro ⟨i, hfind, heq⟩
      exact ⟨i, path, buf, rfl, hfind, heq⟩
  | writeFd fd buf =>
      obtain rfl := call_writeFd h
      rcases writeFd_snd k fd buf with heq | ⟨of, merged, hinfo, hafter⟩
      · rw [heq]
        exact ⟨rfl, Or.inl rfl⟩
      · have hsame : (k.writeFd fd buf).2.mounts = (k.write of.path merged).2.mounts ∧
            (k.writeFd fd buf).2.devices = (k.write of.path merged).2.devices := by
          rcases hafter with heq | ⟨offset, heq⟩ <;> rw [heq] <;> exact ⟨rfl, rfl⟩
        rw [hsame.1, hsame.2]
        obtain ⟨hmounts, hdev⟩ := write_devices k of.path merged
        refine ⟨hmounts, hdev.imp_right ?_⟩
        rintro ⟨i, hfind, heq⟩
        exact ⟨i, of.path, merged, by rw [Writes, hinfo]; rfl, hfind, heq⟩
  | openFile path flags =>
      simp only [Kernel.call] at h
      rcases openFile_cases k path flags with ⟨e, heq⟩ | heq | ⟨fd, s', -, -, heq⟩
      · rw [heq] at h
        exact (Prod.mk.inj (Option.some.inj h)).2 ▸ ⟨rfl, Or.inl rfl⟩
      · rw [heq] at h
        cases h
      · rw [heq] at h
        exact (Prod.mk.inj (Option.some.inj h)).2 ▸ ⟨rfl, Or.inl rfl⟩
  | read path len => exact call_read h ▸ ⟨rfl, Or.inl rfl⟩
  | readFd fd len =>
      obtain rfl := call_readFd h
      rcases readFd_snd k fd len with heq | ⟨offset, heq⟩ <;> rw [heq] <;> exact ⟨rfl, Or.inl rfl⟩
  | setIdentity uid gid => exact (Prod.mk.inj (Option.some.inj h)).2 ▸ ⟨rfl, Or.inl rfl⟩
  | setCwd path => exact (Prod.mk.inj (Option.some.inj h)).2 ▸ ⟨rfl, Or.inl rfl⟩
  | closeFd fd => exact (Prod.mk.inj (Option.some.inj h)).2 ▸ ⟨rfl, Or.inl rfl⟩

/-- The path of an open file was open before, or `stat` has just found it. -/
theorem call_opened {k k' : Kernel} {call : Call} {reply : Reply}
    (h : k.call call = some (reply, k')) {pid : Nat} {fd : Int} {of : OpenFile}
    (hof : fileAt k'.sched pid fd = some of) :
    (∃ old, fileAt k.sched pid fd = some old ∧ old.path = of.path) ∨
      ∃ i stat, k.find of.path = some i ∧ (k.devices i).stat of.path = .ok stat := by
  have hkept : k'.sched = k.sched →
      ∃ old, fileAt k.sched pid fd = some old ∧ old.path = of.path := by
    intro hsched
    exact ⟨of, hsched ▸ hof, rfl⟩
  have hmoved : ∀ fd' offset, k'.sched = setFdOffset k.sched fd' offset →
      ∃ old, fileAt k.sched pid fd = some old ∧ old.path = of.path := by
    intro fd' offset hsched
    rw [hsched, fileAt_setFdOffset] at hof
    by_cases hat : pid = k.sched.current ∧ fd = fd'
    · rw [if_pos hat] at hof
      obtain ⟨old, hold, rfl⟩ := Option.map_eq_some_iff.mp hof
      exact ⟨old, hold, rfl⟩
    · rw [if_neg hat] at hof
      exact ⟨of, hof, rfl⟩
  cases call with
  | setIdentity uid gid =>
      obtain rfl := (Prod.mk.inj (Option.some.inj h)).2
      exact Or.inl ⟨of, (fileAt_setIdentity _ _ _ _ _).symm.trans hof, rfl⟩
  | setCwd path =>
      obtain rfl := (Prod.mk.inj (Option.some.inj h)).2
      exact Or.inl ⟨of, (fileAt_setCwd _ _ _ _).symm.trans hof, rfl⟩
  | read path len => exact Or.inl (hkept (by rw [call_read h]))
  | write path buf => exact Or.inl (hkept (by rw [call_write h, write_sched]))
  | openFile path flags =>
      simp only [Kernel.call] at h
      rcases openFile_cases k path flags with ⟨e, heq⟩ | heq | ⟨fd', s', hstat, halloc, heq⟩
      · rw [heq] at h
        obtain rfl := (Prod.mk.inj (Option.some.inj h)).2
        exact Or.inl (hkept rfl)
      · rw [heq] at h
        cases h
      · rw [heq] at h
        obtain rfl := (Prod.mk.inj (Option.some.inj h)).2
        rcases fileAt_allocFd halloc pid fd with ⟨hold, -⟩ | ⟨-, -, hnew⟩
        · exact Or.inl ⟨of, hold.symm.trans hof, rfl⟩
        · obtain rfl := Option.some.inj (hnew.symm.trans hof)
          exact Or.inr hstat
  | readFd fd' len =>
      obtain rfl := call_readFd h
      rcases readFd_snd k fd' len with heq | ⟨offset, heq⟩
      · exact Or.inl (hkept (by rw [heq]))
      · exact Or.inl (hmoved fd' offset (by rw [heq]))
  | writeFd fd' buf =>
      obtain rfl := call_writeFd h
      rcases writeFd_snd k fd' buf with heq | ⟨old, merged, -, heq | ⟨offset, heq⟩⟩
      · exact Or.inl (hkept (by rw [heq]))
      · exact Or.inl (hkept (by rw [heq, write_sched]))
      · exact Or.inl (hmoved fd' offset (by rw [heq]))
  | closeFd fd' =>
      obtain rfl := (Prod.mk.inj (Option.some.inj h)).2
      have hclosed := (fileAt_closeFd k.sched fd' pid fd).symm.trans hof
      split at hclosed
      · cases hclosed
      · exact Or.inl ⟨of, hclosed, rfl⟩

/-- `Tmpfs::new()` is mounted at `/tmp`, in box `i`, beside any other mounts. -/
def treeSystem (i : Nat) : TransitionSystem World (Nat × Nat × Call) where
  boot := fun w => vfsSystem.boot w ∧ w.kernel.devices i = .tmpfs Tmpfs.new ∧
    ⟨"/tmp", i⟩ ∈ w.kernel.mounts ∧ ∀ m ∈ w.kernel.mounts, m.fs = i → m.mountpoint = "/tmp"
  next := vfsSystem.next

/-- A `write` that makes a node in box `i` names a file in `/tmp`. -/
def CreatesNamed (i : Nat) (w : World) : Nat × Nat × Call → Prop
  | (_, _, .write path _) => w.kernel.find path = some i → w.kernel.node i path = none →
      ∃ name, IsName name ∧ path = "/tmp" ++ "/" ++ name
  | _ => True

/-- The box has been through a run of `write_owned`, and the open files are there. -/
structure Grown (ok : NodeMap → WriteCall → Prop) (i : Nat) (k : Kernel) : Prop where
  map : ∃ m, tmpfsSystem.Run ok m ∧ k.devices i = .tmpfs m.nodes
  opened : ∀ pid fd of, fileAt k.sched pid fd = some of → k.find of.path = some i →
    (k.node i of.path).isSome

/-- A call, if the `write_owned` that it makes is one of the run's. -/
theorem Grown.call {ok : NodeMap → WriteCall → Prop} {i : Nat} {k k' : Kernel} {call : Call}
    {reply : Reply} (h : Grown ok i k) (hcall : k.call call = some (reply, k'))
    (hok : ∀ (m : NodeMap) (c : WriteCall), k.devices i = .tmpfs m.nodes → Writes k c.path call →
      k.find c.path = some i → ok m c) : Grown ok i k' := by
  obtain ⟨m, hm, hdev⟩ := h.map
  obtain ⟨hmounts, hdevices⟩ := call_devices hcall
  have hfind : ∀ path, k'.find path = k.find path := by
    intro path
    rw [Kernel.find, hmounts, Kernel.find]
  have hmap : ∃ m', tmpfsSystem.Run ok m' ∧ k'.devices i = .tmpfs m'.nodes ∧
      ∀ path, (m.nodes path).isSome → (m'.nodes path).isSome := by
    rcases hdevices with hsame | ⟨j, path, buf, hwrites, hfound, heq⟩
    · exact ⟨m, hm, hsame ▸ hdev, fun _ => id⟩
    · by_cases hj : i = j
      · subst hj
        have hnext : tmpfsSystem.next m ⟨uid k.sched, gid k.sched, path, buf⟩ = some _ := rfl
        refine ⟨_, hm.step (hok m _ hdev hwrites hfound) hnext, ?_, fun q hq => ?_⟩
        · rw [heq, Function.update_self, hdev]
          rfl
        · exact (Tmpfs.writeOwned_isSome _ _ _ _ _ q).mpr (Or.inr hq)
      · exact ⟨m, hm, by rw [heq, Function.update_of_ne hj, hdev], fun _ => id⟩
  obtain ⟨m', hm', hdev', hkept⟩ := hmap
  refine ⟨⟨m', hm', hdev'⟩, fun pid fd of hof hfound => ?_⟩
  rw [hfind] at hfound
  rw [Kernel.node, hdev']
  apply hkept
  rcases call_opened hcall hof with ⟨old, hold, hpath⟩ | ⟨j, stat, hj, hstat⟩
  · have hnode := h.opened pid fd old hold (hpath ▸ hfound)
    rw [Kernel.node, hdev, hpath] at hnode
    exact hnode
  · obtain rfl := Option.some.inj (hfound.symm.trans hj)
    rw [hdev] at hstat
    change Tmpfs.stat m.nodes of.path = .ok stat at hstat
    cases hnode : m.nodes of.path with
    | some node => rfl
    | none =>
        rw [Tmpfs.stat_none hnode] at hstat
        cases hstat

/-- At the start the tree is as it was made. -/
theorem Grown.boot {ok : NodeMap → WriteCall → Prop} {i : Nat} {w : World}
    (h : (treeSystem i).boot w) : Grown ok i w.kernel := by
  obtain ⟨⟨-, hfiles⟩, hdev, -⟩ := h
  refine ⟨⟨NodeMap.new, TransitionSystem.Run.boot rfl, hdev⟩, fun pid fd of hof => ?_⟩
  unfold fileAt at hof
  split at hof
  case isTrue => cases hof
  case isFalse =>
    cases ht : lookup w.kernel.sched.tasks pid with
    | none => simp [ht] at hof
    | some t => simp [ht, hfiles pid t ht] at hof

/-- A step of the calls. -/
theorem Grown.next {ok : NodeMap → WriteCall → Prop} {i : Nat} {s t : World} {pid free : Nat}
    {call : Call} (h : Grown ok i s.kernel) (hnext : vfsSystem.next s (pid, free, call) = some t)
    (hok : ∀ (m : NodeMap) (c : WriteCall), s.kernel.devices i = .tmpfs m.nodes →
      Writes (s.kernel.running pid free) c.path call → s.kernel.find c.path = some i → ok m c) :
    Grown ok i t.kernel := by
  simp only [vfsSystem] at hnext
  split at hnext
  case h_1 => cases hnext
  case h_2 reply k hcall =>
    obtain rfl := Option.some.inj hnext
    have hrunning : Grown ok i (s.kernel.running pid free) := ⟨h.map, h.opened⟩
    exact hrunning.call hcall hok

/-- **Every reachable state** of the kernel has its tree from calls of the map. -/
theorem reach_grown {i : Nat} {w : World} (h : (treeSystem i).Reach w) :
    Grown (fun _ _ => True) i w.kernel := by
  refine h.invariant (I := fun w => Grown (fun _ _ => True) i w.kernel) (fun _ => Grown.boot) ?_
  rintro s ⟨pid, free, call⟩ t hs hnext
  exact hs.next hnext (fun _ _ _ _ _ => trivial)

/-- **Tmpfs is a tree** after every run in which each `write` that makes a node
names a file in `/tmp`. -/
theorem tmpfs_is_tree {i : Nat} {w : World} (hrun : (treeSystem i).Run (CreatesNamed i) w) :
    ∃ m : NodeMap, w.kernel.devices i = .tmpfs m.nodes ∧ IsTree m := by
  have hgrown : Grown NamesFile i w.kernel := by
    refine hrun.invariant (I := fun w => Grown NamesFile i w.kernel) (fun _ => Grown.boot) ?_
    rintro s ⟨pid, free, call⟩ t hs hok hnext
    refine hs.next hnext (fun m c hdev hwrites hfound hnone => ?_)
    have hnode : s.kernel.node i c.path = none := by
      rw [Kernel.node, hdev]
      exact hnone
    cases call with
    | write path buf =>
        obtain rfl : path = c.path := hwrites
        exact hok hfound hnode
    | writeFd fd buf =>
        -- the file of a descriptor is there
        obtain ⟨of, hinfo, hpath⟩ := Option.map_eq_some_iff.mp hwrites
        have hopen := hs.opened _ _ of hinfo (hpath ▸ hfound)
        rw [hpath, hnode] at hopen
        cases hopen
    | _ => exact hwrites.elim
  obtain ⟨m, hm, hdev⟩ := hgrown.map
  exact ⟨m, hdev, (reach_rooted hm.reach).isTree (run_allNamed hm)⟩

/-- The sample kernel is at the start. -/
theorem sample_boot : (treeSystem 0).boot ⟨sampleKernel, []⟩ := by
  refine ⟨⟨rfl, fun pid t ht => ?_⟩, rfl, by decide, by decide⟩
  match pid, ht with
  | 1, ht => exact (Option.some.inj ht) ▸ rfl
  | 2, ht => exact (Option.some.inj ht) ▸ rfl

/-- A file is made, opened and written through its descriptor. -/
def treeCalls : List (Nat × Nat × Call) :=
  [(1, 0, .write "/tmp/a" [1]), (1, 0, .setCwd "/tmp"), (1, 0, .openFile "a" oWronly),
    (1, 0, .writeFd 0 [2, 3])]

/-- A file that is made and overwritten. -/
theorem sample_tmpfs_is_tree :
    ∃ w, (treeSystem 0).exec ⟨sampleKernel, []⟩ treeCalls = some w ∧
      (w.kernel.node 0 "/tmp/a").map TmpfsNode.data = some [2, 3] ∧
      ∃ m : NodeMap, w.kernel.devices 0 = .tmpfs m.nodes ∧ IsTree m := by
  have hrun : ((treeSystem 0).exec ⟨sampleKernel, []⟩ treeCalls).map
      (fun w => (w.kernel.node 0 "/tmp/a").map TmpfsNode.data) = some (some [2, 3]) := by
    decide +kernel
  obtain ⟨w, hw, hdata⟩ := Option.map_eq_some_iff.mp hrun
  have hnamed : ∀ e ∈ treeCalls, ∀ s, CreatesNamed 0 s e := by
    intro e he s
    simp only [treeCalls, List.mem_cons, List.not_mem_nil, or_false] at he
    rcases he with rfl | rfl | rfl | rfl
    · exact fun _ _ => ⟨"a", by decide +kernel, by decide +kernel⟩
    all_goals trivial
  have hreach := TransitionSystem.Run.exec (TransitionSystem.Run.boot sample_boot) hnamed hw
  exact ⟨w, hw, hdata, tmpfs_is_tree hreach⟩

/-- A write to `/tmp/a/b` makes a node whose directory does not exist. -/
theorem orphan_is_made :
    ¬ ∀ i w, (treeSystem i).Reach w →
      ∃ m : NodeMap, w.kernel.devices i = .tmpfs m.nodes ∧ IsTree m := by
  intro hclaim
  have hrun : ((treeSystem 0).exec ⟨sampleKernel, []⟩ [(1, 0, .write "/tmp/a/b" [1])]).map
      (fun w => (w.kernel.node 0 "/tmp/a/b").isSome) = some true := by
    decide +kernel
  obtain ⟨w, hw, hsome⟩ := Option.map_eq_some_iff.mp hrun
  have hreach : (treeSystem 0).Reach w :=
    TransitionSystem.Reach.exec (TransitionSystem.Run.boot sample_boot) hw
  obtain ⟨m, hdev, htree⟩ := hclaim 0 w hreach
  obtain ⟨m', hm', hdev'⟩ := (reach_grown hreach).map
  have hsame : m'.nodes = m.nodes := Filesystem.tmpfs.inj (hdev'.symm.trans hdev)
  have hrooted : Rooted m := (reach_rooted hm').congr hsame
  obtain ⟨node, hnode⟩ := Option.isSome_iff_exists.mp hsome
  rw [Kernel.node, hdev] at hnode
  refine hrooted.not_isTree hnode (by decide) (fun name hname heq => ?_) htree
  rw [← nameIn_append ("/tmp" ++ "/") name, ← heq] at hname
  exact absurd hname (by decide +kernel)

end Vfs
