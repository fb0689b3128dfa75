import Mathlib
import Noxisa.Command
import Noxisa.FileTree
import Noxisa.GoPath
import Noxisa.Packages

/-!
# The extraction of a package

The model of `Installer.extract` in `pkg_manager/main.go` over a file tree with
links: the temporary directory, the loop over the entries of the archive with
its two lexical checks, and the rename.  The tar and zstd readers are their list
of entries, and no operation is refused for want of rights or room.

A disk keeps the locations that have been written to.  `mkdirAll_covers` and
`extractEntry_covers` say where an entry writes: in the first place that it
reaches through the links of the tree, and below.
-/

namespace Npkg

open FileTree (Loc Node Target Found stat lstat Right)
open GoPath (Plain isUnder)

/-- The kinds of archive entry that `Extract` tells apart. -/
inductive Typeflag
  | dir
  | reg
  | symlink
  | other
deriving DecidableEq

/-- A header of the archive and its data; `copied` says whether `io.Copy` comes
to the end of them. -/
structure Entry where
  name : String
  typeflag : Typeflag
  linkname : String
  content : List UInt8
  copied : Bool

/-- What the readers yield; `ends` says whether `io.EOF` follows or an error. -/
structure Archive where
  entries : List Entry
  ends : Bool

/-- The operations whose errors `Extract` wraps. -/
inductive FileOp
  | mkdir
  | openFile
  | copy
  | symlink
  | rename
  | open
  | next
deriving DecidableEq

/-- How an extraction can fail: in an operation, or in one of its two checks, with the
names in the message. -/
inductive ExtractError
  | os (op : FileOp)
  | zipSlip (name : String)
  | unsafeSymlink (name linkname : String)
deriving DecidableEq

/-- The file tree, and the locations where a node has been created or written,
latest first. -/
structure Disk where
  fs : FileTree
  touched : List Loc

/-- An extraction works on the disk. -/
abbrev Extracting := Command Disk ExtractError

/-- What is missing is no directory. -/
theorem ne_dir_of_missing {fs : FileTree} {l : Loc} {x : String} (h : Right fs (.missing l x)) :
    fs.node (l ++ [x]) ≠ some .dir := by
  rw [h.2]
  nofun

/-- Nor is what is a file. -/
theorem ne_dir_of_file {fs : FileTree} {l : Loc} {x : String} (h : Right fs (.file l x)) :
    fs.node (l ++ [x]) ≠ some .dir := by
  obtain ⟨-, content, hnode⟩ := h
  rw [hnode]
  nofun

/-- Put a node into the directory `l`, and take a note of it. -/
def Disk.put (d : Disk) (l : Loc) (x : String) (n : Node) (hdir : d.fs.node l = some .dir)
    (hfree : d.fs.node (l ++ [x]) ≠ some .dir) : Disk :=
  ⟨d.fs.put l x n hdir hfree, (l ++ [x]) :: d.touched⟩

/-- `os.Mkdir`, and what `os.MkdirAll` does after its failure. -/
def mkdir (path : Loc) : Extracting Unit := fun d =>
  match h : lstat d.fs path with
  | some (.missing l x) =>
      have hr := FileTree.lstat_right h
      (.ok (), d.put l x .dir hr.1 (ne_dir_of_missing hr))
  | some (.dir _) => (.ok (), d)
  | _ => (.err (.os .mkdir), d)

/-- `os.MkdirAll` of a path with its last part in front. -/
def mkdirAllRev : List String → Extracting Unit
  | [] => pure ()
  | c :: path => do
      match ← Command.gets fun d => stat d.fs (path.reverse ++ [c]) with
      | some (.dir _) => pure ()
      | some (.file _ _) => Command.fail (.os .mkdir)
      | _ => do
          mkdirAllRev path
          mkdir (path.reverse ++ [c])

/-- `os.MkdirAll` -/
def mkdirAll (path : Loc) : Extracting Unit := mkdirAllRev path.reverse

/-- `os.OpenFile` with `O_CREATE|O_WRONLY|O_TRUNC`, and the `io.Copy` into it. -/
def writeFile (path : Loc) (content : List UInt8) : Extracting Unit := fun d =>
  match h : stat d.fs path with
  | some (.file l x) =>
      have hr := FileTree.stat_right h
      (.ok (), d.put l x (.file content) hr.1 (ne_dir_of_file hr))
  | some (.missing l x) =>
      have hr := FileTree.stat_right h
      (.ok (), d.put l x (.file content) hr.1 (ne_dir_of_missing hr))
  | _ => (.err (.os .openFile), d)

/-- `os.Symlink`, where `os.IsExist` is no error. -/
def symlink (oldname : String) (newname : Loc) : Extracting Unit := fun d =>
  if oldname = "" then (.err (.os .symlink), d)
  else
    match h : lstat d.fs newname with
    | some (.missing l x) =>
        have hr := FileTree.lstat_right h
        (.ok (), d.put l x (.link ⟨GoPath.isRooted oldname, GoPath.parts oldname⟩) hr.1
          (ne_dir_of_missing hr))
    | some _ => (.ok (), d)
    | none => (.err (.os .symlink), d)

/-- The move into a directory; nothing moves into itself. -/
def moveTo (d : Disk) (o l : Loc) (y : String) (hdir : d.fs.node l = some .dir) :
    Outcome ExtractError Unit × Disk :=
  if h : o ≠ [] ∧ ¬ o <+: l then (.ok (), { d with fs := d.fs.move o l y h.1 hdir h.2 })
  else (.err (.os .rename), d)

/-- `os.Rename`: nothing replaces a directory, and a directory replaces nothing. -/
def rename (oldpath newpath : Loc) : Extracting Unit := fun d =>
  match lstat d.fs oldpath with
  | none => (.err (.os .rename), d)
  | some (.missing _ _) => (.err (.os .rename), d)
  | some old =>
      match h : lstat d.fs newpath with
      | some (.missing l y) => moveTo d old.loc l y (FileTree.lstat_right h).1
      | some (.file l y) =>
          if old = .dir old.loc then (.err (.os .rename), d)
          else moveTo d old.loc l y (FileTree.lstat_right h).1
      | some (.link l y) =>
          if old = .dir old.loc then (.err (.os .rename), d)
          else moveTo d old.loc l y (FileTree.lstat_right h).1
      | _ => (.err (.os .rename), d)

/-- `case tar.TypeReg` -/
def extractRegular (target : Loc) (hdr : Entry) : Extracting Unit := do
  mkdirAll (GoPath.dir target)
  writeFile target hdr.content
  if hdr.copied then pure () else Command.fail (.os .copy)

/-- The body of the loop over the archive: the target is checked after it has been
joined to the temporary directory. -/
def extractEntry (tmp : Loc) (hdr : Entry) : Extracting Unit := do
  let target := GoPath.join tmp (GoPath.clean hdr.name)
  if ¬ isUnder target tmp then
    Command.fail (.zipSlip hdr.name)
  else
    match hdr.typeflag with
    | .dir => mkdirAll target
    | .reg => extractRegular target hdr
    | .symlink =>
        -- only the text of the link is checked, the link is made as it is given
        let linkTarget := GoPath.join (GoPath.dir target) (GoPath.parts hdr.linkname)
        if ¬ isUnder linkTarget tmp then
          Command.fail (.unsafeSymlink hdr.name hdr.linkname)
        else symlink hdr.linkname target
    | .other => pure ()

/-- The loop over the archive's entries, up to the first error. -/
def extractEntries (tmp : Loc) : List Entry → Extracting Unit
  | [] => pure ()
  | hdr :: entries => do
      extractEntry tmp hdr
      extractEntries tmp entries

/-- `filepath.Join(inst.cfg.StoreDir, pkg.SHA256)` -/
def dst (storeDir : Loc) (pkg : Package) : Loc := GoPath.join storeDir (GoPath.parts pkg.sha256)

/-- `dst + ".tmp"` -/
def tmp (storeDir : Loc) (pkg : Package) : Loc := GoPath.addSuffix (dst storeDir pkg) ".tmp"

/-- `extract` up to the opening of the archive; `false` if there is nothing left
to do. -/
def prepare (storeDir : Loc) (pkg : Package) : Extracting Bool := do
  if pkg.sha256.length < 2 then Command.panic "slice bounds out of range"
  else
    match ← Command.gets fun d => stat d.fs (dst storeDir pkg) with
    | some (.dir _) => pure false
    | some (.file _ _) => pure false
    | _ => do
        mkdirAll (tmp storeDir pkg)
        pure true

/-- `extract` from the opening of the archive, which may fail. -/
def unpack (storeDir : Loc) (pkg : Package) : Option Archive → Extracting Unit
  | none => Command.fail (.os .open)
  | some archive => do
      extractEntries (tmp storeDir pkg) archive.entries
      if archive.ends then rename (tmp storeDir pkg) (dst storeDir pkg)
      else Command.fail (.os .next)

/-- `Extract`: a package that is in the store already is not unpacked again. -/
def extract (storeDir : Loc) (pkg : Package) (archive : Option Archive) : Extracting Unit := do
  if ← prepare storeDir pkg then unpack storeDir pkg archive
  else pure ()

/-- `ts` has every place in `reach`, and nothing that is not below one. -/
structure Covers (reach ts : List Loc) : Prop where
  first : reach ⊆ ts
  below : ∀ t ∈ ts, ∃ loc ∈ reach, loc <+: t

/-- A list of locations covers itself. -/
theorem Covers.refl (reach : List Loc) : Covers reach reach :=
  ⟨List.Subset.refl _, fun t ht => ⟨t, ht, List.prefix_rfl⟩⟩

/-- One write more below a location that is reached. -/
theorem Covers.cons {reach ts : List Loc} {loc t : Loc} (h : Covers reach ts) (hloc : loc ∈ reach)
    (ht : loc <+: t) : Covers reach (t :: ts) where
  first := List.subset_cons_of_subset t h.first
  below := by
    intro t' ht'
    rcases List.mem_cons.mp ht' with rfl | ht'
    · exact ⟨loc, hloc, ht⟩
    · exact h.below t' ht'

/-- All writes are below `T` exactly if all that is reached is. -/
theorem Covers.inside_iff {reach ts : List Loc} (h : Covers reach ts) (T : Loc) :
    (∀ t ∈ ts, T <+: t) ↔ ∀ loc ∈ reach, T <+: loc := by
  constructor
  · exact fun hts loc hloc => hts loc (h.first hloc)
  · intro hreach t ht
    obtain ⟨loc, hloc, hbelow⟩ := h.below t ht
    exact (hreach loc hloc).trans hbelow

/-- The places written from `d` to `d'`, latest first. -/
structure Writes (d d' : Disk) (ts : List Loc) : Prop where
  touched : d'.touched = ts ++ d.touched
  grows : FileTree.Grows d.fs d'.fs
  same : ∀ loc, loc ∉ ts → d'.fs.node loc = d.fs.node loc

section

variable {d d' d'' : Disk} {ts ts' : List Loc}

/-- Nothing has been written. -/
theorem Writes.refl (d : Disk) : Writes d d [] :=
  ⟨rfl, FileTree.Grows.refl d.fs, fun _ _ => rfl⟩

/-- Writes one after the other, the later ones first. -/
theorem Writes.trans (h : Writes d d' ts) (h' : Writes d' d'' ts') : Writes d d'' (ts' ++ ts) where
  touched := by rw [h'.touched, h.touched, List.append_assoc]
  grows := h.grows.trans h'.grows
  same loc hloc := by
    rw [List.mem_append, not_or] at hloc
    rw [h'.same loc hloc.1, h.same loc hloc.2]

/-- Without a write the disk is as it was. -/
theorem Writes.eq_of_nil (h : Writes d d' []) : d' = d := by
  obtain ⟨fs, touched⟩ := d
  obtain ⟨fs', touched'⟩ := d'
  have hfs : fs' = fs := FileTree.ext (funext fun loc => h.same loc (by simp))
  have htouched : touched' = touched := h.touched
  rw [hfs, htouched]

/-- A node put where no directory and no link was. -/
theorem Disk.put_writes {l : Loc} {x : String} {n : Node} (hdir : d.fs.node l = some .dir)
    (hfree : d.fs.node (l ++ [x]) ≠ some .dir)
    (hnolink : ∀ target, d.fs.node (l ++ [x]) ≠ some (.link target)) :
    Writes d (d.put l x n hdir hfree) [l ++ [x]] where
  touched := rfl
  grows := FileTree.put_grows hdir hfree hnolink
  same _ hloc := FileTree.put_node_of_ne hdir hfree (by simpa using hloc)

end

/-- The place that a missing name has. -/
def vacant : Option Found → List Loc
  | some (.missing l x) => [l ++ [x]]
  | _ => []

/-- The place of a file that is opened to be written. -/
def opened : Option Found → List Loc
  | some (.missing l x) => [l ++ [x]]
  | some (.file l x) => [l ++ [x]]
  | _ => []

/-- A node put where there was nothing. -/
theorem put_missing_writes {d : Disk} {l : Loc} {x : String} (n : Node)
    (h : Right d.fs (.missing l x)) :
    Writes d (d.put l x n h.1 (ne_dir_of_missing h)) [l ++ [x]] :=
  Disk.put_writes h.1 _ (fun target => by rw [h.2]; nofun)

/-- `mkdir` writes at the place that it finds vacant, if it finds one. -/
theorem mkdir_writes (path : Loc) (d : Disk) :
    Writes d (mkdir path d).2 (vacant (lstat d.fs path)) := by
  unfold mkdir
  split
  next l x h =>
    rw [congrArg vacant h]
    exact put_missing_writes _ (FileTree.lstat_right h)
  next l h =>
    rw [h]
    exact Writes.refl d
  next hmissing hdir =>
    have hvacant : vacant (lstat d.fs path) = [] := by
      unfold vacant
      split
      next l x h => exact absurd h (hmissing l x)
      next => rfl
    rw [hvacant]
    exact Writes.refl d

/-- Writing a file writes where it opens one. -/
theorem writeFile_writes (path : Loc) (content : List UInt8) (d : Disk) :
    Writes d (writeFile path content d).2 (opened (stat d.fs path)) := by
  unfold writeFile
  split
  next l x h =>
    rw [congrArg opened h]
    have hr := FileTree.stat_right h
    obtain ⟨-, _, hnode⟩ := id hr
    exact Disk.put_writes hr.1 (ne_dir_of_file hr) (fun target => by rw [hnode]; nofun)
  next l x h =>
    rw [congrArg opened h]
    exact put_missing_writes _ (FileTree.stat_right h)
  next hfile hmissing =>
    have hopened : opened (stat d.fs path) = [] := by
      unfold opened
      split
      next l x h => exact absurd h (hmissing l x)
      next l x h => exact absurd h (hfile l x)
      next => rfl
    rw [hopened]
    exact Writes.refl d

/-- `symlink` writes at the place that it finds vacant. -/
theorem symlink_writes {oldname : String} (hold : oldname ≠ "") (newname : Loc) (d : Disk) :
    Writes d (symlink oldname newname d).2 (vacant (lstat d.fs newname)) := by
  unfold symlink
  rw [if_neg hold]
  split
  next l x h =>
    rw [congrArg vacant h]
    exact put_missing_writes _ (FileTree.lstat_right h)
  next found hmissing h =>
    rw [h]
    cases found with
    | missing l x => exact absurd rfl (hmissing l x)
    | dir l => exact Writes.refl d
    | file l x => exact Writes.refl d
    | link l x => exact Writes.refl d
  next h =>
    rw [h]
    exact Writes.refl d

/-- The first place where `mkdirAllRev` makes a directory. -/
def firstMissing (fs : FileTree) : List String → List Loc
  | [] => []
  | c :: path =>
      match stat fs (path.reverse ++ [c]) with
      | some (.dir _) => []
      | some (.file _ _) => []
      | _ =>
          match stat fs path.reverse with
          | some (.dir _) => vacant (lstat fs (path.reverse ++ [c]))
          | _ => firstMissing fs path

/-- A directory that has been made is found there. -/
theorem mkdir_entry {path k : Loc} {c : String} {d : Disk} (hc : Plain c)
    (hk : stat d.fs path = some (.dir k)) (hok : (mkdir (path ++ [c]) d).1 = .ok ()) :
    stat (mkdir (path ++ [c]) d).2.fs (path ++ [c]) = some (.dir (k ++ [c])) := by
  have hnode : (mkdir (path ++ [c]) d).2.fs.node (k ++ [c]) = some .dir := by
    have hentry := FileTree.lstat_snoc hc hk
    unfold mkdir at hok ⊢
    split at hok
    next l x h =>
      obtain ⟨rfl, rfl, -⟩ := FileTree.entry_eq_missing (hentry.symm.trans h)
      have hr := FileTree.lstat_right h
      exact FileTree.put_node_self hr.1 (ne_dir_of_missing hr)
    next l h => exact (FileTree.entry_eq_dir (hentry.symm.trans h)).2
    next => cases hok
  exact FileTree.stat_snoc_dir hc hnode (FileTree.stat_grows (mkdir_writes _ d).grows hk)

/-- Where the directory is there already, nothing is made. -/
theorem mkdirAllRev_of_dir {path : List String} {d : Disk} {k : Loc}
    (h : stat d.fs path.reverse = some (.dir k)) : mkdirAllRev path d = (.ok (), d) := by
  cases path with
  | nil => rfl
  | cons c path =>
      rw [List.reverse_cons] at h
      unfold mkdirAllRev
      rw [Command.gets_bind, h]
      rfl

/-- `mkdirAllRev` writes to the first missing place and below, and what it has
made is empty. -/
structure Made (path : List String) (d : Disk) (r : Outcome ExtractError Unit × Disk)
    (ts : List Loc) : Prop where
  writes : Writes d r.2 ts
  covers : Covers (firstMissing d.fs path) ts
  returns : r.1 = .ok () → ∃ k, stat r.2.fs path.reverse = some (.dir k) ∧
    ∀ loc ∈ firstMissing d.fs path, loc <+: k ∧ ∀ x, r.2.fs.node (k ++ [x]) = none

/-- `mkdirAll` is at its end: nothing was missing. -/
theorem Made.done {path : List String} {d : Disk} {o : Outcome ExtractError Unit}
    (hfirst : firstMissing d.fs path = [])
    (hdir : o = .ok () → ∃ k, stat d.fs path.reverse = some (.dir k)) :
    Made path d (o, d) [] where
  writes := Writes.refl d
  covers := hfirst ▸ Covers.refl []
  returns ho := by
    obtain ⟨k, hk⟩ := hdir ho
    exact ⟨k, hk, by simp [hfirst]⟩

/-- A directory that was not there is made below the first missing place. -/
theorem Made.new {path : List String} {d d' : Disk} {ts : List Loc}
    (h : Made path d (.ok (), d') ts) (hnot : ∀ k, stat d.fs path.reverse ≠ some (.dir k)) :
    ∃ k loc, stat d'.fs path.reverse = some (.dir k) ∧ loc ∈ firstMissing d.fs path ∧ loc <+: k ∧
      ∀ x, d'.fs.node (k ++ [x]) = none := by
  obtain ⟨k, hk, hbelow⟩ := h.returns rfl
  have hne : firstMissing d.fs path ≠ [] := by
    intro hnil
    have hts : ts = [] := List.eq_nil_iff_forall_not_mem.mpr fun t ht => by
      obtain ⟨loc, hloc, -⟩ := h.covers.below t ht
      simp [hnil] at hloc
    subst hts
    exact hnot k (h.writes.eq_of_nil ▸ hk)
  obtain ⟨loc, hloc⟩ := List.exists_mem_of_ne_nil _ hne
  exact ⟨k, loc, hk, hloc, hbelow loc hloc⟩

/-- `mkdir` behind a directory that was there: it makes the first missing place. -/
theorem made_mkdir_first {path : List String} {c : String} {d : Disk} {k : Loc} (hc : Plain c)
    (hk : stat d.fs path.reverse = some (.dir k))
    (hfirst : firstMissing d.fs (c :: path) = vacant (lstat d.fs (path.reverse ++ [c]))) :
    ∃ ts, Made (c :: path) d (mkdir (path.reverse ++ [c]) d) ts := by
  refine ⟨_, mkdir_writes _ d, hfirst ▸ Covers.refl _, ?_⟩
  intro hok
  have hdir := mkdir_entry hc hk hok
  refine ⟨k ++ [c], by rwa [List.reverse_cons], ?_⟩
  rw [hfirst, FileTree.lstat_snoc hc hk]
  intro loc hloc
  unfold vacant at hloc
  split at hloc
  next l x h =>
    obtain ⟨rfl, rfl, hnode⟩ := FileTree.entry_eq_missing h
    obtain rfl := List.mem_singleton.mp hloc
    refine ⟨List.prefix_rfl, fun x => ?_⟩
    have hw := mkdir_writes (path.reverse ++ [c]) d
    rw [hw.same _ (by simp [FileTree.lstat_snoc hc hk, h, vacant])]
    exact FileTree.below_none d.fs (by rw [hnode]; nofun) x
  next => cases hloc

/-- `mkdir` in a directory that has just been made. -/
theorem made_mkdir_next {path : List String} {c : String} {d d' : Disk} {ts : List Loc}
    (hc : Plain c) (hmade : Made path d (.ok (), d') ts)
    (hnot : ∀ k, stat d.fs path.reverse ≠ some (.dir k))
    (hfirst : firstMissing d.fs (c :: path) = firstMissing d.fs path) :
    ∃ ts', Made (c :: path) d (mkdir (path.reverse ++ [c]) d') ts' := by
  obtain ⟨k, loc, hk, hloc, hle, hbelow⟩ := hmade.new hnot
  have hnode := hbelow c
  have hl : lstat d'.fs (path.reverse ++ [c]) = some (.missing k c) := by
    rw [FileTree.lstat_snoc hc hk, FileTree.entry_of_none hnode]
  have hw : Writes d' (mkdir (path.reverse ++ [c]) d').2 [k ++ [c]] := by
    simpa [hl, vacant] using mkdir_writes (path.reverse ++ [c]) d'
  refine ⟨[k ++ [c]] ++ ts, hmade.writes.trans hw, ?_, ?_⟩
  · rw [hfirst]
    exact hmade.covers.cons hloc (hle.trans (List.prefix_append k [c]))
  · intro hok
    refine ⟨k ++ [c], by rw [List.reverse_cons]; exact mkdir_entry hc hk hok, ?_⟩
    rw [hfirst]
    intro loc' hloc'
    obtain ⟨k', hk', hbelow'⟩ := hmade.returns rfl
    obtain rfl : k' = k := Found.dir.inj (Option.some.inj (hk'.symm.trans hk))
    refine ⟨(hbelow' loc' hloc').1.trans (List.prefix_append k' [c]), fun x => ?_⟩
    rw [hw.same _ (by simp)]
    exact FileTree.below_none d'.fs (by rw [hnode]; nofun) x

/-- **`mkdirAll`** makes what is missing, from the first missing place on. -/
theorem mkdirAllRev_made {path : List String} (hpath : ∀ x ∈ path, Plain x) (d : Disk) :
    ∃ ts, Made path d (mkdirAllRev path d) ts := by
  induction path with
  | nil => exact ⟨[], Made.done rfl (fun _ => ⟨[], rfl⟩)⟩
  | cons c path ih =>
      have hc := hpath c List.mem_cons_self
      obtain ⟨ts, hmade⟩ := ih (fun x hx => hpath x (List.mem_cons_of_mem c hx))
      have hfirst : firstMissing d.fs (c :: path) =
          match stat d.fs (path.reverse ++ [c]) with
          | some (.dir _) => []
          | some (.file _ _) => []
          | _ =>
              match stat d.fs path.reverse with
              | some (.dir _) => vacant (lstat d.fs (path.reverse ++ [c]))
              | _ => firstMissing d.fs path := rfl
      unfold mkdirAllRev
      rw [Command.gets_bind]
      split at hfirst
      next k hk =>
        rw [hk]
        exact ⟨[], Made.done hfirst (fun _ => ⟨k, by rwa [List.reverse_cons]⟩)⟩
      next l x hl =>
        rw [hl]
        exact ⟨[], Made.done hfirst nofun⟩
      next hnodir hnofile =>
        split at hfirst
        next k hk =>
          rw [Command.bind_apply, mkdirAllRev_of_dir hk]
          exact made_mkdir_first hc hk hfirst
        next hnot =>
          rw [Command.bind_apply]
          split
          next u d' hrun =>
            rw [hrun] at hmade
            exact made_mkdir_next hc hmade hnot hfirst
          next e d' hrun =>
            rw [hrun] at hmade
            exact ⟨ts, hmade.writes, hfirst ▸ hmade.covers, nofun⟩
          next m d' hrun =>
            rw [hrun] at hmade
            exact ⟨ts, hmade.writes, hfirst ▸ hmade.covers, nofun⟩

/-- The same for a path read from its beginning. -/
theorem mkdirAll_made {path : Loc} (hpath : ∀ x ∈ path, Plain x) (d : Disk) :
    ∃ ts, Made path.reverse d (mkdirAll path d) ts :=
  mkdirAllRev_made (fun x hx => hpath x (List.mem_reverse.mp hx)) d

/-- The file that a regular entry is written to, or the first missing place. -/
def reachRegular (fs : FileTree) (target : Loc) : List Loc :=
  match stat fs (GoPath.dir target) with
  | some (.dir _) => opened (stat fs target)
  | _ => firstMissing fs (GoPath.dir target).reverse

/-- What an entry reaches through the links of the tree. -/
def reach (fs : FileTree) (tmp : Loc) (hdr : Entry) : List Loc :=
  let target := GoPath.join tmp (GoPath.clean hdr.name)
  if ¬ isUnder target tmp then []
  else
    match hdr.typeflag with
    | .dir => firstMissing fs target.reverse
    | .reg => reachRegular fs target
    | .symlink =>
        let linkTarget := GoPath.join (GoPath.dir target) (GoPath.parts hdr.linkname)
        if ¬ isUnder linkTarget tmp ∨ hdr.linkname = "" then [] else vacant (lstat fs target)
    | .other => []

/-- A copy that breaks off has written what it has written. -/
theorem write_copy_snd (target : Loc) (hdr : Entry) (d : Disk) :
    ((do
      writeFile target hdr.content
      if hdr.copied then pure () else Command.fail (.os .copy) : Extracting Unit) d).2 =
        (writeFile target hdr.content d).2 := by
  rw [Command.bind_apply]
  split
  next u d' hrun =>
    rw [hrun]
    split <;> rfl
  next e d' hrun => rw [hrun]
  next m d' hrun => rw [hrun]

/-- A regular file writes where `reachRegular` says. -/
theorem extractRegular_covers {target : Loc} (htarget : ∀ x ∈ target, Plain x) (hdr : Entry)
    (d : Disk) :
    ∃ ts, Writes d (extractRegular target hdr d).2 ts ∧ Covers (reachRegular d.fs target) ts := by
  by_cases hdir : ∃ k, stat d.fs (GoPath.dir target) = some (.dir k)
  · obtain ⟨k, hk⟩ := hdir
    have hdone : mkdirAll (GoPath.dir target) d = (.ok (), d) :=
      mkdirAllRev_of_dir (by rwa [List.reverse_reverse])
    have hreach : reachRegular d.fs target = opened (stat d.fs target) := by
      unfold reachRegular
      rw [hk]
    unfold extractRegular
    rw [Command.bind_apply, hdone, hreach]
    dsimp only
    rw [write_copy_snd]
    exact ⟨_, writeFile_writes target hdr.content d, Covers.refl _⟩
  · have hnot : ∀ k, stat d.fs (GoPath.dir target) ≠ some (.dir k) := fun k hk => hdir ⟨k, hk⟩
    have hreach : reachRegular d.fs target = firstMissing d.fs (GoPath.dir target).reverse := by
      unfold reachRegular
      split
      next k hk => exact absurd hk (hnot k)
      next => rfl
    have hdirs : ∀ x ∈ GoPath.dir target, Plain x := fun x hx =>
      htarget x (List.dropLast_subset target hx)
    obtain ⟨ts, hmade⟩ := mkdirAll_made hdirs d
    unfold extractRegular
    rw [Command.bind_apply, hreach]
    split
    next u d' hrun =>
      rw [hrun] at hmade
      obtain ⟨k, loc, hk, hloc, hle, hbelow⟩ := hmade.new (by rwa [List.reverse_reverse])
      rw [List.reverse_reverse] at hk
      have hne : target ≠ [] := by
        intro hnil
        subst hnil
        exact hnot [] rfl
      have hsnoc : target = GoPath.dir target ++ [target.getLast hne] :=
        (List.dropLast_append_getLast hne).symm
      have hst : stat d'.fs target = some (.missing k (target.getLast hne)) := by
        rw [congrArg (stat d'.fs) hsnoc, FileTree.stat_snoc (htarget _ (List.getLast_mem hne))
          (fun t => by rw [hbelow]; nofun) hk]
        exact FileTree.entry_of_none (hbelow _)
      rw [write_copy_snd]
      have hw := writeFile_writes target hdr.content d'
      rw [hst] at hw
      exact ⟨_, hmade.writes.trans hw, hmade.covers.cons hloc (hle.trans (List.prefix_append k _))⟩
    next e d' hrun =>
      rw [hrun] at hmade
      exact ⟨ts, hmade.writes, hmade.covers⟩
    next m d' hrun =>
      rw [hrun] at hmade
      exact ⟨ts, hmade.writes, hmade.covers⟩

/-- **Where an entry writes**: in the place that it reaches, and below. -/
theorem extractEntry_covers (tmp : Loc) (hdr : Entry) (d : Disk) :
    ∃ ts, Writes d (extractEntry tmp hdr d).2 ts ∧ Covers (reach d.fs tmp hdr) ts := by
  have htarget := GoPath.join_plain tmp (GoPath.clean hdr.name)
  unfold extractEntry reach
  dsimp only
  split
  next => exact ⟨[], Writes.refl d, Covers.refl []⟩
  next =>
    cases hdr.typeflag with
    | dir =>
        obtain ⟨ts, hmade⟩ := mkdirAll_made htarget d
        exact ⟨ts, hmade.writes, hmade.covers⟩
    | reg => exact extractRegular_covers htarget hdr d
    | symlink =>
        dsimp only
        by_cases hunder : isUnder (GoPath.join
            (GoPath.dir (GoPath.join tmp (GoPath.clean hdr.name))) (GoPath.parts hdr.linkname)) tmp
        · rw [if_neg (not_not.mpr hunder)]
          by_cases hname : hdr.linkname = ""
          · rw [if_pos (Or.inr hname)]
            unfold symlink
            rw [if_pos hname]
            exact ⟨[], Writes.refl d, Covers.refl []⟩
          · rw [if_neg (by simp [hunder, hname])]
            exact ⟨_, symlink_writes hname _ d, Covers.refl _⟩
        · rw [if_pos hunder, if_pos (Or.inl hunder)]
          exact ⟨[], Writes.refl d, Covers.refl []⟩
    | other => exact ⟨[], Writes.refl d, Covers.refl []⟩

/-- Every entry that the loop comes to reaches a place inside `T` only. -/
def Sheltered (T tmp : Loc) : Disk → List Entry → Prop
  | _, [] => True
  | d, hdr :: entries =>
      (∀ loc ∈ reach d.fs tmp hdr, T <+: loc) ∧
        ∀ d', extractEntry tmp hdr d = (.ok (), d') → Sheltered T tmp d' entries

/-- **Where the loop writes.** -/
theorem extractEntries_inside_iff (T tmp : Loc) (entries : List Entry) (d : Disk) :
    ∃ ts, Writes d (extractEntries tmp entries d).2 ts ∧
      ((∀ t ∈ ts, T <+: t) ↔ Sheltered T tmp d entries) := by
  induction entries generalizing d with
  | nil => exact ⟨[], Writes.refl d, by simp [Sheltered]⟩
  | cons hdr entries ih =>
      obtain ⟨ts, hw, hcov⟩ := extractEntry_covers tmp hdr d
      unfold extractEntries Sheltered
      rw [Command.bind_apply]
      split
      next u d' hrun =>
        rw [hrun] at hw
        obtain ⟨ts', hw', hinside⟩ := ih d'
        refine ⟨ts' ++ ts, hw.trans hw', ?_⟩
        rw [← hcov.inside_iff T, List.forall_mem_append, hinside, and_comm]
        simp [hrun]
      next e d' hrun =>
        rw [hrun] at hw
        refine ⟨ts, hw, ?_⟩
        rw [hcov.inside_iff T]
        simp [hrun]
      next m d' hrun =>
        rw [hrun] at hw
        refine ⟨ts, hw, ?_⟩
        rw [hcov.inside_iff T]
        simp [hrun]

/-- A sheltered archive leaves the tree outside `T` as it is. -/
theorem extractEntries_outside {T tmp : Loc} {entries : List Entry} {d : Disk}
    (h : Sheltered T tmp d entries) {loc : Loc} (hloc : ¬ T <+: loc) :
    (extractEntries tmp entries d).2.fs.node loc = d.fs.node loc := by
  obtain ⟨ts, hw, hinside⟩ := extractEntries_inside_iff T tmp entries d
  exact hw.same loc (fun hmem => hloc (hinside.mpr h loc hmem))

/-- What has been written between two states. -/
def Disk.since (d d' : Disk) : List Loc := d'.touched.take (d'.touched.length - d.touched.length)

/-- What has been written since, from the record of the disk. -/
theorem since_eq {d d' : Disk} {ts : List Loc} (h : d'.touched = ts ++ d.touched) :
    d.since d' = ts := by
  unfold Disk.since
  rw [h]
  simp

/-- A move is no write. -/
theorem moveTo_touched (d : Disk) (o l : Loc) (y : String) (hdir : d.fs.node l = some .dir) :
    (moveTo d o l y hdir).2.touched = d.touched := by
  unfold moveTo
  split <;> rfl

/-- Nor is a rename. -/
theorem rename_touched (oldpath newpath : Loc) (d : Disk) :
    (rename oldpath newpath d).2.touched = d.touched := by
  unfold rename
  split
  next => rfl
  next => rfl
  next =>
    split
    next => exact moveTo_touched ..
    next =>
      split
      next => rfl
      next => exact moveTo_touched ..
    next =>
      split
      next => rfl
      next => exact moveTo_touched ..
    next => rfl

/-- Unpacking writes what the archive's entries write, renames apart. -/
theorem unpack_touched (storeDir : Loc) (pkg : Package) (archive : Archive) (d : Disk) :
    (unpack storeDir pkg (some archive) d).2.touched =
      (extractEntries (tmp storeDir pkg) archive.entries d).2.touched := by
  unfold unpack
  dsimp only
  rw [Command.bind_apply]
  split
  next u d' hrun =>
    rw [hrun]
    split
    next => exact rename_touched _ _ d'
    next => rfl
  next e d' hrun => rw [hrun]
  next m d' hrun => rw [hrun]

/-- The temporary directory has a plain path. -/
private theorem tmp_plain (storeDir : Loc) (pkg : Package) : ∀ x ∈ tmp storeDir pkg, Plain x := by
  intro x hx
  rcases List.mem_append.mp hx with hx | hx
  · exact GoPath.join_plain _ _ x (List.dropLast_subset _ hx)
  · obtain rfl := List.mem_singleton.mp hx
    refine GoPath.plain_of_length ?_
    rw [String.length_append]
    exact Nat.lt_add_left _ (by decide)

/-- Once the loop begins, the temporary directory is there. -/
theorem prepare_dir {storeDir : Loc} {pkg : Package} {d begun : Disk}
    (h : prepare storeDir pkg d = (.ok true, begun)) :
    ∃ T, stat begun.fs (tmp storeDir pkg) = some (.dir T) := by
  have hmkdir : (do mkdirAll (tmp storeDir pkg); pure true : Extracting Bool) d =
      (.ok true, begun) → ∃ T, stat begun.fs (tmp storeDir pkg) = some (.dir T) := by
    intro hboth
    obtain ⟨u, d', hrun, hpure⟩ := Command.bind_eq_ok.mp hboth
    obtain rfl : d' = begun := congrArg Prod.snd hpure
    obtain ⟨ts, hmade⟩ := mkdirAll_made (tmp_plain storeDir pkg) d
    rw [hrun] at hmade
    obtain ⟨T, hT, -⟩ := hmade.returns rfl
    rw [List.reverse_reverse] at hT
    exact ⟨T, hT⟩
  unfold prepare at h
  split at h
  next => cases h
  next =>
    rw [Command.gets_bind] at h
    generalize stat d.fs (dst storeDir pkg) = found at h
    cases found with
    | none => exact hmkdir h
    | some found =>
        cases found with
        | dir l => cases h
        | file l x => cases h
        | link l x => exact hmkdir h
        | missing l x => exact hmkdir h

/-- Whatever `extract` writes to once the temporary directory is there is inside it. -/
def Confined (storeDir : Loc) (pkg : Package) (archive : Option Archive) (d : Disk) : Prop :=
  ∀ begun, prepare storeDir pkg d = (.ok true, begun) →
    ∃ T, stat begun.fs (tmp storeDir pkg) = some (.dir T) ∧
      ∀ loc ∈ begun.since (extract storeDir pkg archive d).2, T <+: loc

/-- **Extraction is confined exactly if no entry leads out.** -/
theorem extract_confined_iff (storeDir : Loc) (pkg : Package) (archive : Option Archive)
    (d : Disk) :
    Confined storeDir pkg archive d ↔
      ∀ begun T a, prepare storeDir pkg d = (.ok true, begun) →
        stat begun.fs (tmp storeDir pkg) = some (.dir T) → archive = some a →
          Sheltered T (tmp storeDir pkg) begun a.entries := by
  have hsince : ∀ begun T, prepare storeDir pkg d = (.ok true, begun) →
      ((∀ loc ∈ begun.since (extract storeDir pkg archive d).2, T <+: loc) ↔
        ∀ a, archive = some a → Sheltered T (tmp storeDir pkg) begun a.entries) := by
    intro begun T hbegun
    have hrun : extract storeDir pkg archive d = unpack storeDir pkg archive begun := by
      unfold extract
      rw [Command.bind_apply, hbegun]
      rfl
    rw [hrun]
    cases archive with
    | none =>
        have hnil : begun.since (unpack storeDir pkg none begun).2 = [] := since_eq rfl
        simp [hnil]
    | some archive =>
        obtain ⟨ts, hw, hinside⟩ :=
          extractEntries_inside_iff T (tmp storeDir pkg) archive.entries begun
        have hts : begun.since (unpack storeDir pkg (some archive) begun).2 = ts :=
          since_eq ((unpack_touched storeDir pkg archive begun).trans hw.touched)
        rw [hts, hinside]
        simp
  constructor
  · intro h begun T a hbegun hT ha
    obtain ⟨T', hT', hin⟩ := h begun hbegun
    obtain rfl : T' = T := Found.dir.inj (Option.some.inj (hT'.symm.trans hT))
    exact (hsince begun T' hbegun).mp hin a ha
  · intro h begun hbegun
    obtain ⟨T, hT⟩ := prepare_dir hbegun
    exact ⟨T, hT, (hsince begun T hbegun).mpr (fun a ha => h begun T a hbegun hT ha)⟩

/-- A tree with `/etc/passwd`. -/
def sampleDisk : Disk where
  fs :=
    { node := fun l =>
        if l = [] then some .dir
        else if l = ["etc"] then some .dir
        else if l = ["etc", "passwd"] then some (.file [])
        else none
      root := rfl
      tree := by
        intro l x h
        rcases l with - | ⟨y, - | ⟨z, l⟩⟩
        · rfl
        · simp_all
        · simp at h }
  touched := []

/-- The package of the sample archive. -/
def sampleExtracted : Package := ⟨"a", "1", "x86_64", "ab", [], []⟩

/-- A link out of the directory, and a file behind it. -/
def linkOut : Archive where
  entries :=
    [⟨"l", .symlink, "/etc", [], true⟩,
      ⟨"l/passwd", .reg, "", [1], true⟩]
  ends := true

/-- The link passes its check, and the file is written through it. -/
theorem extract_leaves : ¬ Confined ["store"] sampleExtracted (some linkOut) sampleDisk := by
  intro h
  have hbegun : (prepare ["store"] sampleExtracted sampleDisk).1 = .ok true := by decide +kernel
  obtain ⟨T, hT, hin⟩ := h _ (Command.eq_of_fst hbegun)
  have hstat : stat (prepare ["store"] sampleExtracted sampleDisk).2.fs
      (tmp ["store"] sampleExtracted) = some (.dir ["store", "ab.tmp"]) := by decide +kernel
  obtain rfl : T = ["store", "ab.tmp"] := Found.dir.inj (Option.some.inj (hT.symm.trans hstat))
  have hpasswd := hin ["etc", "passwd"] (by decide +kernel)
  exact absurd hpasswd (by decide)

end Npkg
