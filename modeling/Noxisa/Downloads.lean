import Mathlib
import Noxisa.GoPath
import Noxisa.Inodes
import Noxisa.Packages
import Noxisa.Sha256
import Noxisa.TransitionSystem

/-!
# Concurrent downloads

The model of `DownloadAll`, `downloadOne`, `fetchFile` and `verifyHash` in
`pkg_manager/main.go`: a goroutine for each package and a semaphore, where every
file operation is a step of its own.  A mirror answers with any status and any
bytes, and every operation may fail.

Two packages with one `SHA256` share their `.partial` file.  A goroutine holds
that file from its own `open` until it has done with the attempt; `Exclusive` is
the guard that nobody else opens it meanwhile, and `downloads_hold` says what it
is good for.
-/

namespace Npkg

/-- What the downloader uses of its configuration. -/
structure Config where
  cacheDir : List String
  concurrency : Nat
  mirrors : List String

/-- `hex.EncodeToString(h.Sum(nil))` -/
def hash (content : List UInt8) : String := Sha256.encodeToString (Sha256.sum content)

/-- `filepath.Join(d.cfg.CacheDir, pkg.SHA256[:2], pkg.SHA256+".tar.zst")` -/
def cachePath (cacheDir : List String) (sha256 : String) : List String :=
  GoPath.join cacheDir (GoPath.parts (String.ofList (sha256.toList.take 2)) ++
    GoPath.parts (sha256 ++ ".tar.zst"))

/-- `dest + ".partial"` -/
def partialPath (cacheDir : List String) (sha256 : String) : List String :=
  GoPath.addSuffix (cachePath cacheDir sha256) ".partial"

/-- An open file of `fetchFile`. -/
structure Handle where
  inode : Nat
  append : Bool
  offset : Nat
deriving DecidableEq

/-- Where a goroutine is, with its variables: the mirrors that are left,
`startByte`, and what a hash has read so far. -/
inductive Pc
  | waiting
  | checkDest
  | hashDest (inode : Nat) (read : List UInt8)
  | statPartial
  | loop (mirrors : List String) (startByte : Nat)
  | response (mirrors : List String) (startByte status : Nat)
  | copy (mirrors : List String) (startByte : Nat) (f : Handle)
  | checkPartial (mirrors : List String) (startByte : Nat)
  | hashPartial (mirrors : List String) (startByte inode : Nat) (read : List UInt8)
  | remove (mirrors : List String) (startByte : Nat)
  | mkdirAll
  | rename
  | returned (ok : Bool)
deriving DecidableEq

/-- How the next operation goes: a failure, a cancelled context among them; an
answer of a mirror; a piece of its body; a read of at most `n` bytes; or the
only way that is left. -/
inductive Choice
  | fails
  | answers (status : Nat)
  | receives (bytes : List UInt8)
  | reads (n : Nat)
  | succeeds
deriving DecidableEq

/-- A slot of `sem` is taken. -/
def Pc.running : Pc → Bool
  | .waiting => false
  | .returned _ => false
  | _ => true

/-- The goroutine has the `.partial` file of this attempt. -/
def Pc.holds : Pc → Bool
  | .copy _ _ _ => true
  | .checkPartial _ _ => true
  | .hashPartial _ _ _ _ => true
  | .remove _ _ => true
  | .mkdirAll => true
  | .rename => true
  | _ => false

/-- The files of the cache, by their paths. -/
abbrev Files := Inodes GoPath.dir

/-- `os.MkdirAll`: the directory and those above it. -/
def Files.mkdirAll (files : Files) (path : List String) : Files :=
  files.makeDirs (·.isPrefixOf path)

/-- The next `Read` of at most `n` bytes. -/
def readNext (files : Files) (inode n : Nat) (read : List UInt8) : List UInt8 :=
  ((files.content inode).drop read.length).take n

/-- A `Write` of `io.CopyBuffer`. -/
def write (files : Files) (f : Handle) (bytes : List UInt8) : Files × Handle :=
  let content := files.content f.inode
  if f.append then (files.setContent f.inode (content ++ bytes), f)
  else
    (files.setContent f.inode (Inodes.splice content f.offset bytes),
      { f with offset := f.offset + bytes.length })

/-- A step of the goroutine of a package. -/
def goStep (cfg : Config) (sha256 : String) (free : Bool) (files : Files) :
    Pc → Choice → Option (Files × Pc)
  | .waiting, .succeeds => if free then some (files, .checkDest) else none
  | .waiting, .fails => some (files, .returned false)
  -- `pkg.SHA256[:2]` panics, and that ends the program
  | .checkDest, .fails => if sha256.length < 2 then none else some (files, .statPartial)
  | .checkDest, .succeeds =>
      if sha256.length < 2 then none
      else
        match files.inode (cachePath cfg.cacheDir sha256) with
        | none => some (files, .statPartial)
        | some n => some (files, .hashDest n [])
  | .hashDest _ _, .fails => some (files, .statPartial)
  | .hashDest inode read, .reads n =>
      if n = 0 then none
      else if readNext files inode n read ≠ [] then
        some (files, .hashDest inode (read ++ readNext files inode n read))
      else if hash read = sha256 then some (files, .returned true)
      else some (files, .statPartial)
  | .statPartial, .fails => some (files, .loop cfg.mirrors 0)
  | .statPartial, .succeeds =>
      match files.file (partialPath cfg.cacheDir sha256) with
      | none => some (files, .loop cfg.mirrors 0)
      | some content => some (files, .loop cfg.mirrors content.length)
  | .loop [] _, .succeeds => some (files, .returned false)
  | .loop (_ :: mirrors) _, .fails => some (files, .loop mirrors 0)
  | .loop (_ :: mirrors) startByte, .answers status =>
      if status ≠ 200 ∧ status ≠ 206 then some (files, .loop mirrors 0)
      else some (files, .response mirrors startByte status)
  | .response mirrors _ _, .fails => some (files, .loop mirrors 0)
  | .response mirrors startByte status, .succeeds =>
      let append : Bool := 0 < startByte ∧ status = 206
      match files.openFile (partialPath cfg.cacheDir sha256) (!append) with
      | none => some (files, .loop mirrors 0)
      | some (inode, files) => some (files, .copy mirrors startByte ⟨inode, append, 0⟩)
  | .copy mirrors _ _, .fails => some (files, .loop mirrors 0)
  | .copy mirrors startByte f, .receives bytes =>
      some ((write files f bytes).1, .copy mirrors startByte (write files f bytes).2)
  | .copy mirrors startByte _, .succeeds => some (files, .checkPartial mirrors startByte)
  | .checkPartial mirrors startByte, .fails => some (files, .remove mirrors startByte)
  | .checkPartial mirrors startByte, .succeeds =>
      match files.inode (partialPath cfg.cacheDir sha256) with
      | none => some (files, .remove mirrors startByte)
      | some n => some (files, .hashPartial mirrors startByte n [])
  | .hashPartial mirrors startByte _ _, .fails => some (files, .remove mirrors startByte)
  | .hashPartial mirrors startByte inode read, .reads n =>
      if n = 0 then none
      else if readNext files inode n read ≠ [] then
        some (files, .hashPartial mirrors startByte inode (read ++ readNext files inode n read))
      else if hash read = sha256 then some (files, .mkdirAll)
      else some (files, .remove mirrors startByte)
  | .remove mirrors startByte, .fails => some (files, .loop mirrors startByte)
  | .remove mirrors startByte, .succeeds =>
      some (files.remove (partialPath cfg.cacheDir sha256), .loop mirrors startByte)
  | .mkdirAll, .fails => some (files, .returned false)
  | .mkdirAll, .succeeds =>
      some (Files.mkdirAll files (GoPath.dir (cachePath cfg.cacheDir sha256)), .rename)
  | .rename, .fails => some (files, .returned false)
  | .rename, .succeeds =>
      match files.rename (partialPath cfg.cacheDir sha256) (cachePath cfg.cacheDir sha256) with
      | none => some (files, .returned false)
      | some files' => some (files', .returned true)
  | _, _ => none

/-- The files and the goroutines of `DownloadAll`. -/
structure Downloads (pkgs : List Package) where
  files : Files
  pc : Fin pkgs.length → Pc

/-- A slot of the semaphore is free. -/
def Downloads.free {pkgs : List Package} (cfg : Config) (s : Downloads pkgs) : Bool :=
  (Finset.univ.filter fun i => (s.pc i).running).card < cfg.concurrency

/-- A step of one goroutine. -/
def step (cfg : Config) {pkgs : List Package} (s : Downloads pkgs)
    (e : Fin pkgs.length × Choice) : Option (Downloads pkgs) :=
  (goStep cfg pkgs[e.1].sha256 (s.free cfg) s.files (s.pc e.1) e.2).map fun r =>
    ⟨r.1, Function.update s.pc e.1 r.2⟩

/-- `DownloadAll` over any files. -/
def downloadAll (cfg : Config) (pkgs : List Package) :
    TransitionSystem (Downloads pkgs) (Fin pkgs.length × Choice) where
  boot s := ∀ i, s.pc i = .waiting
  next := step cfg

/-- A goroutine opens its `.partial` file. -/
def Pc.opens : Pc → Choice → Bool
  | .response _ _ _, .succeeds => true
  | _, _ => false

/-- Nobody opens a `.partial` file that another goroutine has. -/
def Exclusive (cfg : Config) {pkgs : List Package} (s : Downloads pkgs)
    (e : Fin pkgs.length × Choice) : Prop :=
  (s.pc e.1).opens e.2 = true → ∀ j, j ≠ e.1 →
    partialPath cfg.cacheDir pkgs[j].sha256 = partialPath cfg.cacheDir pkgs[e.1].sha256 →
      (s.pc j).holds = false

instance (cfg : Config) {pkgs : List Package} (s : Downloads pkgs) (e : Fin pkgs.length × Choice) :
    Decidable (Exclusive cfg s e) := inferInstanceAs (Decidable (_ → _))

/-- The name of an archive is a plain name. -/
theorem plain_archive (x : String) : GoPath.Plain (x ++ ".tar.zst") := by
  apply GoPath.plain_of_length
  rw [String.length_append]
  exact Nat.lt_add_left _ (by decide)

/-- The path in the cache ends in the name of an archive. -/
theorem cachePath_last (cacheDir : List String) (sha256 : String) :
    ∃ before last, cachePath cacheDir sha256 = before ++ [last ++ ".tar.zst"] := by
  have hslash : '/' ∉ ".tar.zst".toList := by decide
  obtain ⟨before, last, hparts⟩ := GoPath.parts_append hslash sha256
  unfold cachePath
  rw [hparts, ← List.append_assoc, GoPath.join_append _ _ (by simpa using plain_archive last)]
  exact ⟨_, last, rfl⟩

/-- A `.partial` file is never in the place of a package. -/
theorem partialPath_ne_cachePath (cacheDir : List String) (sha256 sha256' : String) :
    cachePath cacheDir sha256 ≠ partialPath cacheDir sha256' := by
  obtain ⟨before, last, hpath⟩ := cachePath_last cacheDir sha256
  obtain ⟨before', last', hpath'⟩ := cachePath_last cacheDir sha256'
  unfold partialPath
  rw [hpath, hpath', GoPath.addSuffix_concat]
  intro h
  have hlast := (List.append_inj' h rfl).2
  have hend := congrArg (fun s : String => s.toList.getLast?) (List.singleton_inj.mp hlast)
  simp [String.toList_append, List.getLast?_append] at hend

/-- A `.partial` file is in the directory of its package. -/
theorem dir_partialPath (cacheDir : List String) (sha256 : String) :
    GoPath.dir (partialPath cacheDir sha256) = GoPath.dir (cachePath cacheDir sha256) := by
  unfold partialPath GoPath.addSuffix GoPath.dir
  rw [List.dropLast_concat]

/-- A hash is written in hexadecimal digits. -/
private theorem hash_hex (content : List UInt8) : Sha256.IsHex (hash content) :=
  Sha256.encodeToString_hex (Sha256.sum content)

/-- For a hash, it ends in the hash itself. -/
theorem cachePath_hash (cacheDir : List String) (content : List UInt8) :
    ∃ before, cachePath cacheDir (hash content) = before ++ [hash content ++ ".tar.zst"] := by
  have hnot : '/' ∉ (hash content).toList := by
    intro h
    exact absurd (hash_hex content '/' h) (by decide)
  have hnot' : '/' ∉ (hash content ++ ".tar.zst").toList := by
    rw [String.toList_append, List.mem_append, not_or]
    exact ⟨hnot, by decide⟩
  unfold cachePath
  rw [GoPath.parts_of_notMem hnot', GoPath.join_append _ _ (by simpa using plain_archive _)]
  exact ⟨_, rfl⟩

/-- The path of a content names its hash. -/
private theorem hash_eq_of_cachePath_eq {cacheDir : List String} {content content' : List UInt8}
    (h : cachePath cacheDir (hash content) = cachePath cacheDir (hash content')) :
    hash content = hash content' := by
  obtain ⟨before, hpath⟩ := cachePath_hash cacheDir content
  obtain ⟨before', hpath'⟩ := cachePath_hash cacheDir content'
  rw [hpath, hpath'] at h
  have hlast := (List.append_inj' h (by simp)).2
  exact (String.append_left_inj _).mp (List.singleton_inj.mp hlast)

/-- The file has the hash. -/
def Verified (files : Files) (p : List String) (sha256 : String) : Prop :=
  ∃ content, files.file p = some content ∧ hash content = sha256

/-- The file has the hash that its path is made of. -/
def Named (cacheDir : List String) (files : Files) (p : List String) : Prop :=
  ∃ content, files.file p = some content ∧ cachePath cacheDir (hash content) = p

/-- What a goroutine knows of the files. -/
def PcOk (cacheDir : List String) (sha256 : String) (files : Files) : Pc → Prop
  | .hashDest inode read =>
      Named cacheDir files (cachePath cacheDir sha256) ∨
        files.inode (cachePath cacheDir sha256) = some inode ∧ read <+: files.content inode
  | .copy _ _ f => files.inode (partialPath cacheDir sha256) = some f.inode
  | .hashPartial _ _ inode read =>
      files.inode (partialPath cacheDir sha256) = some inode ∧ read <+: files.content inode
  | .mkdirAll => Verified files (partialPath cacheDir sha256) sha256
  | .rename => Verified files (partialPath cacheDir sha256) sha256
  | .returned true => Verified files (cachePath cacheDir sha256) sha256
  | _ => True

section

variable {cfg : Config} {cacheDir : List String} {sha256 : String} {files files' : Files}
  {pc pc' : Pc} {c : Choice} {free : Bool}

/-- A file that is not touched keeps its content. -/
theorem Verified.unchanged {p : List String} (h : Verified files p sha256)
    (hsame : Inodes.Unchanged files files' p) : Verified files' p sha256 := by
  obtain ⟨content, hfile, hhash⟩ := h
  exact ⟨content, hsame.file.trans hfile, hhash⟩

/-- A file that is not touched still has the hash of its path. -/
theorem Named.unchanged {p : List String} (h : Named cacheDir files p)
    (hsame : Inodes.Unchanged files files' p) : Named cacheDir files' p := by
  obtain ⟨content, hfile, hhash⟩ := h
  exact ⟨content, hsame.file.trans hfile, hhash⟩

/-- A hash that has been seen is the one that the path is made of. -/
theorem Named.verified {read : List UInt8} (h : Named cacheDir files (cachePath cacheDir sha256))
    (hread : hash read = sha256) : Verified files (cachePath cacheDir sha256) sha256 := by
  obtain ⟨content, hfile, hpath⟩ := h
  rw [← hread] at hpath
  exact ⟨content, hfile, (hash_eq_of_cachePath_eq hpath).trans hread⟩

/-- What a goroutine has read is still the beginning of the file. -/
theorem prefix_unchanged {p : List String} {inode : Nat} {read : List UInt8}
    (hsame : Inodes.Unchanged files files' p)
    (h : files.inode p = some inode ∧ read <+: files.content inode) :
    files'.inode p = some inode ∧ read <+: files'.content inode := by
  refine ⟨hsame.inode.trans h.1, ?_⟩
  rw [hsame.content inode h.1]
  exact h.2

/-- What others do: the `.partial` file stays as it is for whom it belongs to, and
in the place of the package it does, or a package has come there. -/
theorem PcOk.others (h : PcOk cacheDir sha256 files pc)
    (hdest : Inodes.Unchanged files files' (cachePath cacheDir sha256) ∨
      Named cacheDir files' (cachePath cacheDir sha256))
    (hkept : pc.holds = true → Inodes.Unchanged files files' (partialPath cacheDir sha256)) :
    PcOk cacheDir sha256 files' pc := by
  cases pc with
  | hashDest inode read =>
      rcases hdest with hdest | hdest
      · rcases h with h | h
        · exact Or.inl (h.unchanged hdest)
        · exact Or.inr (prefix_unchanged hdest h)
      · exact Or.inl hdest
  | copy mirrors startByte f => exact (hkept rfl).inode.trans h
  | hashPartial mirrors startByte inode read => exact prefix_unchanged (hkept rfl) h
  | mkdirAll => exact Verified.unchanged h (hkept rfl)
  | rename => exact Verified.unchanged h (hkept rfl)
  | returned ok =>
      cases ok with
      | false => trivial
      | true =>
          rcases hdest with hdest | hdest
          · exact Verified.unchanged h hdest
          · obtain ⟨content, -, hhash⟩ := h
            exact hdest.verified hhash
  | waiting => trivial
  | checkDest => trivial
  | statPartial => trivial
  | loop mirrors startByte => trivial
  | response mirrors startByte status => trivial
  | checkPartial mirrors startByte => trivial
  | remove mirrors startByte => trivial

/-- What a step of a goroutine does: nothing to other paths than its own two, and
nothing to its `.partial` file if it neither has nor opens it. -/
structure GoStep (cacheDir : List String) (sha256 : String) (files files' : Files) (pc : Pc)
    (c : Choice) (pc' : Pc) : Prop where
  other : ∀ p, p ≠ partialPath cacheDir sha256 → p ≠ cachePath cacheDir sha256 →
    Inodes.Unchanged files files' p
  dest : Inodes.Unchanged files files' (cachePath cacheDir sha256) ∨
    Named cacheDir files' (cachePath cacheDir sha256)
  idle : pc.holds = false → pc.opens c = false →
    Inodes.Unchanged files files' (partialPath cacheDir sha256)
  holds : pc'.holds = true → pc.holds = true ∨ pc.opens c = true
  knows : PcOk cacheDir sha256 files' pc'

/-- A step that leaves the files alone. -/
theorem GoStep.stay {next : Pc} (h : some (files, next) = some (files', pc'))
    (hknows : PcOk cacheDir sha256 files next) (hholds : next.holds = true → pc.holds = true) :
    GoStep cacheDir sha256 files files' pc c pc' := by
  obtain ⟨rfl, rfl⟩ := Prod.mk.inj (Option.some.inj h)
  exact {
    other := fun p _ _ => Inodes.Unchanged.refl files p
    dest := Or.inl (Inodes.Unchanged.refl files _)
    idle := fun _ _ => Inodes.Unchanged.refl files _
    holds := fun hnext => Or.inl (hholds hnext)
    knows := hknows }

/-- A step that does something to the `.partial` file alone. -/
theorem GoStep.work
    (hsame : ∀ p, p ≠ partialPath cacheDir sha256 → Inodes.Unchanged files files' p)
    (hmine : pc.holds = true ∨ pc.opens c = true) (hknows : PcOk cacheDir sha256 files' pc') :
    GoStep cacheDir sha256 files files' pc c pc' where
  other p hp _ := hsame p hp
  dest := Or.inl (hsame _ (partialPath_ne_cachePath cacheDir sha256 sha256))
  idle hholds hopens := by
    rw [hholds, hopens] at hmine
    rcases hmine with h | h <;> cases h
  holds _ := hmine
  knows := hknows

/-- A write changes the content of one inode. -/
theorem write_setContent (f : Handle) (bytes : List UInt8) :
    ∃ content, (write files f bytes).1 = files.setContent f.inode content ∧
      (write files f bytes).2.inode = f.inode := by
  unfold write
  dsimp only
  split
  next => exact ⟨_, rfl, rfl⟩
  next => exact ⟨_, rfl, rfl⟩

/-- One more piece of a file that nobody writes to. -/
theorem readNext_prefix {inode n : Nat} {read : List UInt8} (h : read <+: files.content inode) :
    read ++ readNext files inode n read <+: files.content inode := by
  obtain ⟨rest, hrest⟩ := h
  unfold readNext
  rw [← hrest, List.drop_left]
  exact (List.prefix_append_right_inj read).mpr (List.take_prefix n rest)

/-- The end of a file. -/
private theorem readNext_nil {inode n : Nat} {read : List UInt8} (hn : n ≠ 0)
    (h : read <+: files.content inode) (hnil : readNext files inode n read = []) :
    read = files.content inode := by
  obtain ⟨rest, hrest⟩ := h
  unfold readNext at hnil
  rw [← hrest, List.drop_left, List.take_eq_nil_iff] at hnil
  rcases hnil with hnil | hnil
  · exact absurd hnil hn
  · rw [← hrest, hnil, List.append_nil]

/-- A file that has been read to its end and has the hash is verified. -/
theorem verified_of_read {p : List String} {inode n : Nat} {read : List UInt8} (hn : n ≠ 0)
    (h : files.inode p = some inode ∧ read <+: files.content inode)
    (hnil : readNext files inode n read = []) (hhash : hash read = sha256) :
    Verified files p sha256 := by
  rw [readNext_nil hn h.2 hnil] at hhash
  exact ⟨files.content inode, Inodes.file_eq_some.mpr ⟨inode, h.1, rfl⟩, hhash⟩

/-- The rename puts a verified file into its place. -/
theorem rename_goStep (h : Verified files (partialPath cacheDir sha256) sha256)
    (hrename : files.rename (partialPath cacheDir sha256) (cachePath cacheDir sha256) =
      some files') :
    GoStep cacheDir sha256 files files' .rename c (.returned true) := by
  obtain ⟨content, hfile, hhash⟩ := h
  have hnew : files'.file (cachePath cacheDir sha256) = some content :=
    (Inodes.rename_file hrename).trans hfile
  exact {
    other := fun p hne hcache => Inodes.rename_unchanged hrename hne hcache
    dest := Or.inr ⟨content, hnew, by rw [hhash]⟩
    idle := fun hholds _ => by cases hholds
    holds := fun hholds => by cases hholds
    knows := ⟨content, hnew, hhash⟩ }

/-- **What a goroutine does**, said once for all its steps. -/
theorem goStep_spec (h : goStep cfg sha256 free files pc c = some (files', pc'))
    (hpc : PcOk cfg.cacheDir sha256 files pc) :
    GoStep cfg.cacheDir sha256 files files' pc c pc' := by
  unfold goStep at h
  split at h
  -- waiting
  · split at h
    · exact GoStep.stay h trivial nofun
    · cases h
  · exact GoStep.stay h trivial nofun
  -- checkDest
  · split at h
    · cases h
    · exact GoStep.stay h trivial nofun
  · split at h
    · cases h
    · split at h
      · exact GoStep.stay h trivial nofun
      next n hn =>
        exact GoStep.stay h (Or.inr ⟨hn, List.nil_prefix⟩) nofun
  -- hashDest
  · exact GoStep.stay h trivial nofun
  next inode read n =>
    split at h
    · cases h
    next hn =>
      split at h
      · refine GoStep.stay h ?_ nofun
        rcases hpc with hnamed | ⟨hinode, hread⟩
        · exact Or.inl hnamed
        · exact Or.inr ⟨hinode, readNext_prefix hread⟩
      next hnil =>
        split at h
        next hhash =>
          refine GoStep.stay h ?_ nofun
          rcases hpc with hnamed | hprefix
          · exact hnamed.verified hhash
          · exact verified_of_read hn hprefix (not_not.mp hnil) hhash
        · exact GoStep.stay h trivial nofun
  -- statPartial
  · exact GoStep.stay h trivial nofun
  · split at h
    · exact GoStep.stay h trivial nofun
    · exact GoStep.stay h trivial nofun
  -- loop
  · exact GoStep.stay h trivial nofun
  · exact GoStep.stay h trivial nofun
  · split at h
    · exact GoStep.stay h trivial nofun
    · exact GoStep.stay h trivial nofun
  -- response
  · exact GoStep.stay h trivial nofun
  · dsimp only at h
    split at h
    · exact GoStep.stay h trivial nofun
    next inode opened hopen =>
      obtain ⟨rfl, rfl⟩ := Prod.mk.inj (Option.some.inj h)
      have hopened := Inodes.openFile_opened hopen
      exact GoStep.work hopened.other (Or.inr rfl) hopened.inode
  -- copy
  · exact GoStep.stay h trivial nofun
  next mirrors startByte f bytes =>
    obtain ⟨rfl, rfl⟩ := Prod.mk.inj (Option.some.inj h)
    have hcontent := @write_setContent files f bytes
    obtain ⟨content, hwrite, hinode⟩ := hcontent
    rw [hwrite]
    have hf : files.inode (partialPath cfg.cacheDir sha256) = some f.inode := hpc
    refine GoStep.work (fun p hp => Inodes.setContent_unchanged hf hp content) (Or.inl rfl) ?_
    change files.inode (partialPath cfg.cacheDir sha256) = _
    rw [hinode]
    exact hf
  · exact GoStep.stay h trivial (fun _ => rfl)
  -- checkPartial
  · exact GoStep.stay h trivial (fun _ => rfl)
  · split at h
    · exact GoStep.stay h trivial (fun _ => rfl)
    next n hn =>
      exact GoStep.stay h ⟨hn, List.nil_prefix⟩ (fun _ => rfl)
  -- hashPartial
  · exact GoStep.stay h trivial (fun _ => rfl)
  next mirrors startByte inode read n =>
    split at h
    · cases h
    next hn =>
      split at h
      · exact GoStep.stay h ⟨hpc.1, readNext_prefix hpc.2⟩ (fun _ => rfl)
      next hnil =>
        split at h
        next hhash =>
          exact GoStep.stay h (verified_of_read hn hpc (not_not.mp hnil) hhash) (fun _ => rfl)
        · exact GoStep.stay h trivial (fun _ => rfl)
  -- remove
  · exact GoStep.stay h trivial nofun
  · obtain ⟨rfl, rfl⟩ := Prod.mk.inj (Option.some.inj h)
    exact GoStep.work (fun p hp => Inodes.remove_unchanged hp) (Or.inl rfl) trivial
  -- mkdirAll
  · exact GoStep.stay h trivial nofun
  · obtain ⟨rfl, rfl⟩ := Prod.mk.inj (Option.some.inj h)
    exact GoStep.work (fun p _ => Inodes.makeDirs_unchanged _) (Or.inl rfl)
      (Verified.unchanged hpc (Inodes.makeDirs_unchanged _))
  -- rename
  · exact GoStep.stay h trivial nofun
  · split at h
    · exact GoStep.stay h trivial nofun
    next files'' hrename =>
      obtain ⟨rfl, rfl⟩ := Prod.mk.inj (Option.some.inj h)
      exact rename_goStep hpc hrename
  · cases h

end

section

variable {cfg : Config} {pkgs : List Package} {s t : Downloads pkgs}
  {e : Fin pkgs.length × Choice}

/-- A `.partial` file belongs to one goroutine at a time, and each knows what is
in its files. -/
structure Intact (cfg : Config) (s : Downloads pkgs) : Prop where
  alone : ∀ i j, i ≠ j → partialPath cfg.cacheDir pkgs[i].sha256 =
    partialPath cfg.cacheDir pkgs[j].sha256 → (s.pc i).holds = true → (s.pc j).holds = false
  knows : ∀ i, PcOk cfg.cacheDir pkgs[i].sha256 s.files (s.pc i)

/-- A step is the step of one goroutine. -/
private theorem step_eq (h : step cfg s e = some t) :
    ∃ pc', t.pc = Function.update s.pc e.1 pc' ∧
      goStep cfg pkgs[e.1].sha256 (s.free cfg) s.files (s.pc e.1) e.2 = some (t.files, pc') := by
  obtain ⟨⟨files', pc'⟩, hstep, rfl⟩ := Option.map_eq_some_iff.mp h
  exact ⟨pc', rfl, hstep⟩

/-- A goroutine that has a file has it alone, whatever the others do. -/
theorem Intact.idle (hs : Intact cfg s) (hok : Exclusive cfg s e) {j : Fin pkgs.length}
    (hj : j ≠ e.1) (hpath : partialPath cfg.cacheDir pkgs[j].sha256 =
      partialPath cfg.cacheDir pkgs[e.1].sha256) (hholds : (s.pc j).holds = true) :
    (s.pc e.1).holds = false ∧ (s.pc e.1).opens e.2 = false := by
  refine ⟨hs.alone j e.1 hj hpath hholds, ?_⟩
  by_contra hopens
  rw [Bool.not_eq_false] at hopens
  rw [hok hopens j hj hpath] at hholds
  cases hholds

/-- **One step** keeps the files intact, if it does not share a `.partial` file. -/
theorem Intact.step (hs : Intact cfg s) (hok : Exclusive cfg s e) (h : step cfg s e = some t) :
    Intact cfg t := by
  obtain ⟨pc', hpc, hgo⟩ := step_eq h
  have hstep := goStep_spec hgo (hs.knows e.1)
  have hself : t.pc e.1 = pc' := by rw [hpc, Function.update_self]
  have hother : ∀ j, j ≠ e.1 → t.pc j = s.pc j := fun j hj => by
    rw [hpc, Function.update_of_ne hj]
  -- a goroutine with the file of another one that acts keeps the other out
  have hout : ∀ j, j ≠ e.1 → partialPath cfg.cacheDir pkgs[j].sha256 =
      partialPath cfg.cacheDir pkgs[e.1].sha256 → (s.pc j).holds = true → pc'.holds = false := by
    intro j hj hpath hholds
    obtain ⟨hidle, hopens⟩ := hs.idle hok hj hpath hholds
    by_contra hnew
    rw [Bool.not_eq_false] at hnew
    rcases hstep.holds hnew with h | h
    · rw [hidle] at h
      cases h
    · rw [hopens] at h
      cases h
  refine ⟨fun i j hij hpath hholds => ?_, fun j => ?_⟩
  · by_cases hi : i = e.1
    · have hj : j ≠ e.1 := fun hj => hij (hi.trans hj.symm)
      rw [hother j hj]
      by_contra hj'
      rw [Bool.not_eq_false] at hj'
      rw [hi] at hpath hholds
      rw [hself, hout j hj hpath.symm hj'] at hholds
      cases hholds
    · rw [hother i hi] at hholds
      by_cases hj : j = e.1
      · rw [hj] at hpath ⊢
        rw [hself]
        exact hout i hi hpath hholds
      · rw [hother j hj]
        exact hs.alone i j hij hpath hholds
  · by_cases hj : j = e.1
    · rw [hj, hself]
      exact hstep.knows
    · rw [hother j hj]
      apply (hs.knows j).others
      · by_cases hdest : cachePath cfg.cacheDir pkgs[j].sha256 =
            cachePath cfg.cacheDir pkgs[e.1].sha256
        · rw [hdest]
          exact hstep.dest
        · exact Or.inl (hstep.other _ (partialPath_ne_cachePath _ _ _) hdest)
      · intro hholds
        by_cases hpath : partialPath cfg.cacheDir pkgs[j].sha256 =
            partialPath cfg.cacheDir pkgs[e.1].sha256
        · rw [hpath]
          obtain ⟨hidle, hopens⟩ := hs.idle hok hj hpath hholds
          exact hstep.idle hidle hopens
        · exact hstep.other _ hpath (partialPath_ne_cachePath _ _ _).symm

/-- **Every run** does. -/
theorem run_intact (h : (downloadAll cfg pkgs).Run (Exclusive cfg) s) : Intact cfg s := by
  refine TransitionSystem.Run.invariant (fun s hboot => ?_) (fun s e t hs hok hnext => ?_) h
  · have hpc : ∀ i, s.pc i = .waiting := hboot
    refine ⟨fun i j _ _ hholds => ?_, fun i => ?_⟩
    · rw [hpc i] at hholds
      cases hholds
    · rw [hpc i]
      trivial
  · exact hs.step hok hnext

/-- **The cache holds what it says**: if nobody opens a `.partial` file that
another goroutine has, the file of a package whose download has returned has the
hash of the package. -/
theorem downloads_hold (h : (downloadAll cfg pkgs).Run (Exclusive cfg) s)
    {i : Fin pkgs.length} (hret : s.pc i = .returned true) :
    Verified s.files (cachePath cfg.cacheDir pkgs[i].sha256) pkgs[i].sha256 := by
  have hknows := (run_intact h).knows i
  rw [hret] at hknows
  exact hknows

/-- Packages with different cache files never meet. -/
theorem downloads_hold_of_distinct
    (hpkgs : ∀ i j : Fin pkgs.length, partialPath cfg.cacheDir pkgs[i].sha256 =
      partialPath cfg.cacheDir pkgs[j].sha256 → i = j)
    (h : (downloadAll cfg pkgs).Reach s) {i : Fin pkgs.length} (hret : s.pc i = .returned true) :
    Verified s.files (cachePath cfg.cacheDir pkgs[i].sha256) pkgs[i].sha256 := by
  refine downloads_hold (TransitionSystem.Run.mono (fun s e _ => ?_) h) hret
  intro _ j hj hpath
  exact absurd (hpkgs j e.1 hpath) hj

end

/-- Two slots and one mirror. -/
def sampleConfig : Config := ⟨["cache"], 2, ["https://mirror1.nexusos.org/v1"]⟩

/-- A package with the hash of the one byte `a`. -/
def sampleDownload (name : String) : Package :=
  ⟨name, "1", "x86_64", "ca978112ca1bbdcafac231b39a23dc4da786eff8147c4e72b9807785afee48bb", [], []⟩

/-- No files, and the directories down to the one given. -/
def emptyIn (path : List String) : Files where
  inode _ := none
  content _ := []
  next := 0
  isDir := (·.isPrefixOf path)
  placed := nofun
  used := nofun
  single := nofun

/-- What a goroutine does that finds nothing, up to its `open`, and from there to
the end of its hash. -/
def untilAnswer : List Choice := [.succeeds, .succeeds, .succeeds, .answers 200]

/-- A download of one byte up to the hash. -/
def untilHash : List Choice :=
  [.succeeds, .receives [97], .succeeds, .succeeds, .reads 64, .reads 64]

/-- One package. -/
def onePackage : List Package := [sampleDownload "a"]

/-- Its download from beginning to end. -/
def oneDownload : List (Fin onePackage.length × Choice) :=
  (untilAnswer ++ untilHash ++ [Choice.succeeds, .succeeds]).map fun c => (⟨0, by decide⟩, c)

/-- Every directory is there at the start. -/
theorem emptyIn_isDir (path : List String) : (emptyIn path).isDir path = true :=
  List.isPrefixOf_iff_prefix.mpr List.prefix_rfl

/-- An empty cache with the directory for hashes that start with `ca`. -/
def start (pkgs : List Package) : Downloads pkgs := ⟨emptyIn ["cache", "ca"], fun _ => .waiting⟩

/-- A run that downloads one package. -/
theorem sample_downloads_hold :
    ∃ s, ∃ i : Fin onePackage.length,
      (downloadAll sampleConfig onePackage).Run (Exclusive sampleConfig) s ∧
      Verified s.files (cachePath sampleConfig.cacheDir onePackage[i].sha256)
        onePackage[i].sha256 := by
  have hrun : (((downloadAll sampleConfig onePackage).execIf (Exclusive sampleConfig)
      (start onePackage) oneDownload).map fun s => s.pc ⟨0, by decide⟩) =
        some (.returned true) := by decide +kernel
  obtain ⟨s, hexec, hret⟩ := Option.map_eq_some_iff.mp hrun
  have hboot : (downloadAll sampleConfig onePackage).Run (Exclusive sampleConfig)
      (start onePackage) := .boot fun _ => rfl
  have hs := hboot.execIf hexec
  exact ⟨s, _, hs, downloads_hold hs hret⟩

/-- Two packages with one hash. -/
def twoPackages : List Package := [sampleDownload "a", sampleDownload "b"]

/-- The second goroutine empties the file that the first one has verified. -/
def twoDownloads : List (Fin twoPackages.length × Choice) :=
  (untilAnswer ++ untilHash).map (fun c => (⟨0, by decide⟩, c)) ++
    (untilAnswer ++ [Choice.succeeds]).map (fun c => (⟨1, by decide⟩, c)) ++
      [(⟨0, by decide⟩, .succeeds), (⟨0, by decide⟩, .succeeds)]

/-- A run in which the second of them empties the file that the first has verified. -/
theorem downloads_mix :
    ¬ ∀ s, (downloadAll sampleConfig twoPackages).Reach s → ∀ i, s.pc i = .returned true →
      Verified s.files (cachePath sampleConfig.cacheDir twoPackages[i].sha256)
        twoPackages[i].sha256 := by
  intro h
  have hrun : (((downloadAll sampleConfig twoPackages).exec (start twoPackages) twoDownloads).map
      fun s => (s.pc ⟨0, by decide⟩,
        s.files.file (cachePath sampleConfig.cacheDir (sampleDownload "a").sha256))) =
          some (.returned true, some []) := by decide +kernel
  obtain ⟨s, hexec, hend⟩ := Option.map_eq_some_iff.mp hrun
  obtain ⟨hret, hfile⟩ := Prod.mk.inj hend
  have hboot : (downloadAll sampleConfig twoPackages).Reach (start twoPackages) :=
    .boot fun _ => rfl
  obtain ⟨content, hcontent, hhash⟩ := h s (hboot.exec hexec) ⟨0, by decide⟩ hret
  obtain rfl : [] = content := Option.some.inj (hfile.symm.trans hcontent)
  exact absurd hhash (by decide +kernel)

end Npkg
