import Noxisa.Downloads

/-!
# Mirrors that fail

`downloadOne` by itself, for mirrors of any behaviour: each mirror in turn is
asked for what comes after `startByte`, which is read off the `.partial` file
once.  A transfer that breaks off sets it to zero, so that the next mirror sends
the whole package.  A mismatch removes the file and leaves `startByte` as it is,
so that the next mirror sends the end of a package whose beginning is gone.

The `.partial` file is opened before any directory is made for it, so nothing
comes where the directory is missing.  `downloadOne_runs` says that this is what
a goroutine does that is alone.
-/

namespace Npkg

/-- What a mirror answers: nothing, or a status and some bytes, all of which come or not. -/
inductive Reply
  | unreachable
  | answer (status : Nat) (body : List UInt8) (whole : Bool)
deriving DecidableEq

/-- The answer to a request from a byte on; from 0 it has no `Range` header. -/
abbrev Mirror := Nat → Reply

/-- `fetchFile`, with the mirror's reply: the body is appended if a part was asked for
and is sent, and it overwrites the file otherwise. -/
def fetchFile (files : Files) (path : List String) (reply : Reply) (resumeAt : Nat) :
    Files × Bool :=
  match reply with
  | .unreachable => (files, false)
  | .answer status body whole =>
      if status ≠ 200 ∧ status ≠ 206 then (files, false)
      else
        let append : Bool := 0 < resumeAt ∧ status = 206
        match files.openFile path (!append) with
        | none => (files, false)
        | some (inode, files) => ((write files ⟨inode, append, 0⟩ body).1, whole)

/-- `verifyHash` -/
def verifyHash (files : Files) (path : List String) (expected : String) : Bool :=
  match files.file path with
  | none => false
  | some content => hash content = expected

/-- The transfer from one mirror. -/
def transfer (cacheDir : List String) (sha256 : String) (mirror : Mirror) (startByte : Nat)
    (files : Files) : Files × Bool :=
  fetchFile files (partialPath cacheDir sha256) (mirror startByte) startByte

/-- The loop over the mirrors. -/
def tryMirrors (cacheDir : List String) (sha256 : String) :
    List Mirror → Nat → Files → Files × Bool
  | [], _, files => (files, false)
  | mirror :: mirrors, startByte, files =>
      let fetched := transfer cacheDir sha256 mirror startByte files
      if !fetched.2 then tryMirrors cacheDir sha256 mirrors 0 fetched.1
      else if !verifyHash fetched.1 (partialPath cacheDir sha256) sha256 then
        tryMirrors cacheDir sha256 mirrors startByte
          (fetched.1.remove (partialPath cacheDir sha256))
      else
        let files := Files.mkdirAll fetched.1 (GoPath.dir (cachePath cacheDir sha256))
        match files.rename (partialPath cacheDir sha256) (cachePath cacheDir sha256) with
        | none => (files, false)
        | some files' => (files', true)

/-- How much is already downloaded. -/
def startByte (cacheDir : List String) (sha256 : String) (files : Files) : Nat :=
  ((files.file (partialPath cacheDir sha256)).map List.length).getD 0

/-- The files afterwards, and whether the error is nil; none where `pkg.SHA256[:2]` panics. -/
def downloadOne (cacheDir : List String) (sha256 : String) (mirrors : List Mirror) (files : Files) :
    Option (Files × Bool) :=
  if sha256.length < 2 then none
  else if verifyHash files (cachePath cacheDir sha256) sha256 then some (files, true)
  else some (tryMirrors cacheDir sha256 mirrors (startByte cacheDir sha256 files) files)

/-- What is in the file after an answer that comes whole. -/
def received (reply : Reply) (held : Option (List UInt8)) (resumeAt : Nat) :
    Option (List UInt8) :=
  match reply with
  | .answer 200 body true => some body
  | .answer 206 body true => some (if 0 < resumeAt then held.getD [] ++ body else body)
  | _ => none

/-- The file is then the package. -/
def Right (sha256 : String) (reply : Reply) (held : Option (List UInt8)) (resumeAt : Nat) : Prop :=
  ∃ content, received reply held resumeAt = some content ∧ hash content = sha256

/-- The answer is no error. -/
def Reply.completes : Reply → Bool
  | .answer 200 _ true => true
  | .answer 206 _ true => true
  | _ => false

/-- The mirror serves the package: a request for a range gets that range, or all of it. -/
structure Serves (mirror : Mirror) (content : List UInt8) : Prop where
  whole : mirror 0 = .answer 200 content true
  range : ∀ start, 0 < start → mirror start = .answer 206 (content.drop start) true ∨
    mirror start = .answer 200 content true

/-- Some mirror sends what makes the file the package: after a transfer that broke off,
in answer to a request for all of it, and before that to one from `start` on, where only the
first mirror finds the file that was there. -/
def Useful (sha256 : String) (mirrors : List Mirror) (start : Nat) (held : Option (List UInt8)) :
    Prop :=
  ∃ before mirror later, mirrors = before ++ mirror :: later ∧
    if ∀ m ∈ before, (m start).completes = true then
      Right sha256 (mirror start) (if before = [] then held else none) start
    else Right sha256 (mirror 0) none 0

section
variable {cacheDir : List String} {sha256 : String} {files : Files} {path : List String}
  {mirrors : List Mirror} {start : Nat} {held : Option (List UInt8)}

/-- The check looks at the content of the file. -/
theorem verifyHash_iff : verifyHash files path sha256 = true ↔ Verified files path sha256 := by
  unfold verifyHash Verified
  cases files.file path with
  | none => simp
  | some content => simp

/-- Where nothing is asked to be left out, it does not matter what is held. -/
theorem right_zero {reply : Reply} (held' : Option (List UInt8)) :
    Right sha256 reply held 0 ↔ Right sha256 reply held' 0 := by
  have hsame : received reply held 0 = received reply held' 0 := by
    unfold received
    split <;> rfl
  unfold Right
  rw [hsame]

/-- A reply that breaks off does not give the package. -/
private theorem not_right {reply : Reply} (h : reply.completes = false) :
    ¬Right sha256 reply held start := by
  rintro ⟨content, hcontent, -⟩
  unfold received at hcontent
  unfold Reply.completes at h
  split at hcontent
  · cases h
  · cases h
  · cases hcontent

/-- Once the whole package is asked for, any mirror that gives it is useful. -/
theorem useful_zero : Useful sha256 mirrors 0 held ↔ ∃ m ∈ mirrors, Right sha256 (m 0) none 0 := by
  constructor
  · rintro ⟨before, m, later, rfl, h⟩
    refine ⟨m, List.mem_append_right _ List.mem_cons_self, ?_⟩
    split at h
    · exact (right_zero none).mp h
    · exact h
  · rintro ⟨m, hm, hright⟩
    obtain ⟨before, later, rfl⟩ := List.append_of_mem hm
    refine ⟨before, m, later, rfl, ?_⟩
    split
    · exact (right_zero _).mp hright
    · exact hright

/-- After a transfer that breaks off. -/
theorem useful_broken {m : Mirror} (h : (m start).completes = false) :
    Useful sha256 (m :: mirrors) start held ↔ ∃ m' ∈ mirrors, Right sha256 (m' 0) none 0 := by
  constructor
  · rintro ⟨before, m', later, heq, hright⟩
    cases before with
    | nil =>
        obtain ⟨rfl, rfl⟩ := List.cons.inj heq
        rw [if_pos nofun] at hright
        exact absurd hright (not_right h)
    | cons b before =>
        obtain ⟨rfl, rfl⟩ := List.cons.inj heq
        rw [if_neg fun hall => by rw [hall m List.mem_cons_self] at h; cases h] at hright
        exact ⟨m', List.mem_append_right _ List.mem_cons_self, hright⟩
  · rintro ⟨m', hm', hright⟩
    obtain ⟨before, later, rfl⟩ := List.append_of_mem hm'
    refine ⟨m :: before, m', later, rfl, ?_⟩
    rw [if_neg fun hall => by rw [hall m List.mem_cons_self] at h; cases h]
    exact hright

/-- After a transfer that is complete. -/
theorem useful_complete {m : Mirror} (h : (m start).completes = true) :
    Useful sha256 (m :: mirrors) start held ↔
      Right sha256 (m start) held start ∨ Useful sha256 mirrors start none := by
  have hall : ∀ before : List Mirror, (∀ m' ∈ m :: before, (m' start).completes = true) ↔
      ∀ m' ∈ before, (m' start).completes = true := by
    intro before
    rw [List.forall_mem_cons]
    exact and_iff_right h
  constructor
  · rintro ⟨before, m', later, heq, hright⟩
    cases before with
    | nil =>
        obtain ⟨rfl, rfl⟩ := List.cons.inj heq
        rw [if_pos nofun] at hright
        exact Or.inl hright
    | cons b before =>
        obtain ⟨rfl, rfl⟩ := List.cons.inj heq
        refine Or.inr ⟨before, m', later, rfl, ?_⟩
        rw [if_neg (List.cons_ne_nil _ _)] at hright
        simp only [hall] at hright
        rw [ite_self]
        exact hright
  · rintro (hright | ⟨before, m', later, rfl, hright⟩)
    · refine ⟨[], m, mirrors, rfl, ?_⟩
      rw [if_pos nofun]
      exact hright
    · refine ⟨m :: before, m', later, rfl, ?_⟩
      rw [if_neg (List.cons_ne_nil _ _)]
      simp only [hall]
      rw [ite_self] at hright
      exact hright

/-- A transfer goes through if the answer does and the directory is there. -/
theorem fetchFile_ok (reply : Reply) (resumeAt : Nat) :
    (fetchFile files path reply resumeAt).2 =
      (reply.completes && files.isDir (GoPath.dir path)) := by
  cases reply with
  | unreachable => rfl
  | answer status body whole =>
      have hopens : ∀ trunc, (files.openFile path trunc).isSome =
          files.isDir (GoPath.dir path) := fun trunc => by
        rw [Bool.eq_iff_iff]
        exact Inodes.openFile_isSome trunc
      have hgoes : ∀ append : Bool, (match files.openFile path (!append) with
          | none => (files, false)
          | some (inode, files) => ((write files ⟨inode, append, 0⟩ body).1, whole)).2 =
            (whole && files.isDir (GoPath.dir path)) := fun append => by
        rw [← hopens (!append)]
        cases files.openFile path (!append) with
        | none => exact (Bool.and_false whole).symm
        | some opened => exact (Bool.and_true whole).symm
      unfold fetchFile
      dsimp only
      by_cases hok : status = 200
      · subst hok
        refine (hgoes _).trans ?_
        cases whole <;> rfl
      · by_cases hpart : status = 206
        · subst hpart
          refine (hgoes _).trans ?_
          cases whole <;> rfl
        · rw [if_pos ⟨hok, hpart⟩]
          unfold Reply.completes
          split
          next heq => exact absurd (Reply.answer.inj heq).1 hok
          next heq => exact absurd (Reply.answer.inj heq).1 hpart
          next => rfl

/-- A transfer makes and removes no directory. -/
theorem fetchFile_isDir (reply : Reply) (resumeAt : Nat) :
    (fetchFile files path reply resumeAt).1.isDir = files.isDir := by
  cases reply with
  | unreachable => rfl
  | answer status body whole =>
      unfold fetchFile
      dsimp only
      split
      · rfl
      · split
        · rfl
        next inode opened hopen =>
          obtain ⟨content, hwrite, -⟩ := @write_setContent opened
            ⟨inode, decide (0 < resumeAt ∧ status = 206), 0⟩ body
          rw [hwrite]
          exact (Inodes.openFile_opened hopen).isDir

/-- A write behind what is there, or to an empty file. -/
theorem write_file (f : Handle) (bytes : List UInt8) (hf : files.inode path = some f.inode)
    (hfresh : f.append = false → files.content f.inode = [] ∧ f.offset = 0) :
    (write files f bytes).1.file path =
      some (if f.append then files.content f.inode ++ bytes else bytes) := by
  unfold write
  dsimp only
  cases happend : f.append with
  | true => exact Inodes.file_setContent hf _
  | false =>
      obtain ⟨hcontent, hoffset⟩ := hfresh happend
      rw [hcontent, hoffset]
      refine (Inodes.file_setContent hf _).trans ?_
      simp [Inodes.splice]

/-- What a transfer that goes through leaves in the file. -/
theorem fetchFile_file {reply : Reply} {resumeAt : Nat} (h : reply.completes = true)
    (hdir : files.isDir (GoPath.dir path) = true) :
    (fetchFile files path reply resumeAt).1.file path =
      received reply (files.file path) resumeAt := by
  have hopened : ∀ (append whole : Bool) (body : List UInt8),
      (match files.openFile path (!append) with
        | none => (files, false)
        | some (inode, files) => ((write files ⟨inode, append, 0⟩ body).1, whole)).1.file path =
          some (if append then (files.file path).getD [] ++ body else body) := by
    intro append whole body
    cases hopen : files.openFile path (!append) with
    | none =>
        have hsome := (Inodes.openFile_isSome (!append)).mpr hdir
        rw [hopen] at hsome
        cases hsome
    | some opened =>
        obtain ⟨inode, files'⟩ := opened
        obtain ⟨-, -, hinode, hcontent⟩ := Inodes.openFile_opened hopen
        dsimp only
        rw [write_file _ body hinode]
        · dsimp only
          rw [hcontent]
          cases append <;> rfl
        · intro happend
          change append = false at happend
          dsimp only
          rw [hcontent, happend]
          exact ⟨rfl, rfl⟩
  unfold Reply.completes at h
  split at h
  next body =>
    refine (hopened _ true body).trans ?_
    simp [received]
  next body =>
    refine (hopened _ true body).trans ?_
    simp [received]
  next => cases h

section
variable {mirror : Mirror}

/-- A transfer that breaks off: the next mirror is asked for everything. -/
theorem tryMirrors_broken (h : (transfer cacheDir sha256 mirror start files).2 = false) :
    tryMirrors cacheDir sha256 (mirror :: mirrors) start files =
      tryMirrors cacheDir sha256 mirrors 0 (transfer cacheDir sha256 mirror start files).1 := by
  rw [tryMirrors, h]
  rfl

/-- A transfer of something else: the `.partial` file is removed, and the next mirror is
asked for the same part again. -/
theorem tryMirrors_mismatch (h : (transfer cacheDir sha256 mirror start files).2 = true)
    (hverify : verifyHash (transfer cacheDir sha256 mirror start files).1
      (partialPath cacheDir sha256) sha256 = false) :
    tryMirrors cacheDir sha256 (mirror :: mirrors) start files =
      tryMirrors cacheDir sha256 mirrors start
        ((transfer cacheDir sha256 mirror start files).1.remove
          (partialPath cacheDir sha256)) := by
  rw [tryMirrors, h, hverify]
  rfl

/-- A transfer that makes the `.partial` file the package: it is renamed, the directory
being there. -/
theorem tryMirrors_verified (mirrors : List Mirror) (h : (transfer cacheDir sha256 mirror start files).2 = true)
    (hverified : Verified (transfer cacheDir sha256 mirror start files).1
      (partialPath cacheDir sha256) sha256) :
    ∃ files', (Files.mkdirAll (transfer cacheDir sha256 mirror start files).1
          (GoPath.dir (cachePath cacheDir sha256))).rename
        (partialPath cacheDir sha256) (cachePath cacheDir sha256) = some files' ∧
      tryMirrors cacheDir sha256 (mirror :: mirrors) start files = (files', true) ∧
      Verified files' (cachePath cacheDir sha256) sha256 := by
  obtain ⟨content, hcontent, hhash⟩ := hverified
  cases hrename : (Files.mkdirAll (transfer cacheDir sha256 mirror start files).1
      (GoPath.dir (cachePath cacheDir sha256))).rename
      (partialPath cacheDir sha256) (cachePath cacheDir sha256) with
  | none =>
      obtain ⟨n, hn, -⟩ := Inodes.file_eq_some.mp hcontent
      have hsome := Inodes.rename_isSome (d := Files.mkdirAll (transfer cacheDir sha256 mirror start
        files).1 (GoPath.dir (cachePath cacheDir sha256))) hn (dir_partialPath cacheDir sha256).symm
      rw [hrename] at hsome
      cases hsome
  | some files' =>
      refine ⟨files', rfl, ?_, content, (Inodes.rename_file hrename).trans hcontent, hhash⟩
      rw [tryMirrors, h, verifyHash_iff.mpr ⟨content, hcontent, hhash⟩]
      simp only [Bool.not_true, Bool.false_eq_true, if_false, hrename]

end

/-- Where the directory is missing, no mirror is of any use. -/
theorem tryMirrors_nowhere (mirrors : List Mirror) (start : Nat) (files : Files)
    (hdir : files.isDir (GoPath.dir (cachePath cacheDir sha256)) = false) :
    (tryMirrors cacheDir sha256 mirrors start files).2 = false := by
  induction mirrors generalizing start files with
  | nil => rfl
  | cons mirror mirrors ih =>
      have hfetch : (transfer cacheDir sha256 mirror start files).2 = false := by
        rw [transfer, fetchFile_ok, dir_partialPath, hdir, Bool.and_false]
      rw [tryMirrors_broken hfetch]
      refine ih 0 _ ?_
      rw [transfer, fetchFile_isDir]
      exact hdir

/-- In a directory that is there the loop succeeds exactly if the answer of some mirror is
useful, and then the package is in its place. -/
theorem tryMirrors_spec (mirrors : List Mirror) (start : Nat) (files : Files)
    (hdir : files.isDir (GoPath.dir (cachePath cacheDir sha256)) = true) :
    ((tryMirrors cacheDir sha256 mirrors start files).2 = true ↔
      Useful sha256 mirrors start (files.file (partialPath cacheDir sha256))) ∧
    ((tryMirrors cacheDir sha256 mirrors start files).2 = true →
      Verified (tryMirrors cacheDir sha256 mirrors start files).1 (cachePath cacheDir sha256)
        sha256) := by
  induction mirrors generalizing start files with
  | nil =>
      refine ⟨iff_of_false nofun ?_, nofun⟩
      rintro ⟨before, m, later, heq, -⟩
      cases before <;> cases heq
  | cons mirror mirrors ih =>
      have hopens : files.isDir (GoPath.dir (partialPath cacheDir sha256)) = true := by
        rw [dir_partialPath, hdir]
      have hfetch : (transfer cacheDir sha256 mirror start files).2 =
          (mirror start).completes := by
        rw [transfer, fetchFile_ok, hopens, Bool.and_true]
      have hdir' : (transfer cacheDir sha256 mirror start files).1.isDir
          (GoPath.dir (cachePath cacheDir sha256)) = true := by
        rw [transfer, fetchFile_isDir, hdir]
      cases hcompletes : (mirror start).completes with
      | false =>
          rw [hcompletes] at hfetch
          rw [tryMirrors_broken hfetch, useful_broken hcompletes, ← useful_zero]
          exact ih 0 _ hdir'
      | true =>
          rw [hcompletes] at hfetch
          have hfile : (transfer cacheDir sha256 mirror start files).1.file
              (partialPath cacheDir sha256) = received (mirror start)
                (files.file (partialPath cacheDir sha256)) start :=
            fetchFile_file hcompletes hopens
          have hright : Right sha256 (mirror start) (files.file (partialPath cacheDir sha256)) start ↔
              Verified (transfer cacheDir sha256 mirror start files).1
                (partialPath cacheDir sha256) sha256 := by
            unfold Right Verified
            rw [hfile]
          rw [useful_complete hcompletes, hright]
          by_cases hverified : Verified (transfer cacheDir sha256 mirror start files).1
              (partialPath cacheDir sha256) sha256
          · obtain ⟨files', -, heq, hdest⟩ := tryMirrors_verified mirrors hfetch hverified
            rw [heq]
            exact ⟨iff_of_true rfl (Or.inl hverified), fun _ => hdest⟩
          · have hverify : verifyHash (transfer cacheDir sha256 mirror start files).1
                (partialPath cacheDir sha256) sha256 = false :=
              Bool.eq_false_iff.mpr fun h => hverified (verifyHash_iff.mp h)
            rw [tryMirrors_mismatch hfetch hverify, or_iff_right hverified]
            have hrest := ih start ((transfer cacheDir sha256 mirror start files).1.remove
              (partialPath cacheDir sha256)) hdir'
            rwa [Inodes.file_remove] at hrest

/-- Some mirror of the list serves the package. -/
def Served (sha256 : String) (mirrors : List Mirror) : Prop :=
  ∃ content, hash content = sha256 ∧ ∃ mirror ∈ mirrors, Serves mirror content

/-- Where some mirror serves the package, the download succeeds and the package is there. -/
def FailsOver (cacheDir : List String) (sha256 : String) (mirrors : List Mirror) (files : Files) :
    Prop :=
  Served sha256 mirrors → ∃ files', downloadOne cacheDir sha256 mirrors files = some (files', true) ∧
    Verified files' (cachePath cacheDir sha256) sha256

/-- **Fail-over** works exactly if the package is there already, or its directory is and
the answer of some mirror is useful. -/
theorem failsOver_iff (cacheDir : List String) (sha256 : String) (mirrors : List Mirror)
    (files : Files) :
    FailsOver cacheDir sha256 mirrors files ↔
      (Served sha256 mirrors → Verified files (cachePath cacheDir sha256) sha256 ∨
        files.isDir (GoPath.dir (cachePath cacheDir sha256)) = true ∧
          Useful sha256 mirrors (startByte cacheDir sha256 files)
            (files.file (partialPath cacheDir sha256))) := by
  refine forall_congr' fun hserved => ?_
  have hlong : ¬sha256.length < 2 := by
    obtain ⟨content, rfl, -⟩ := hserved
    rw [hash, Sha256.encodeToString_length, Sha256.sum_length]
    decide
  unfold downloadOne
  rw [if_neg hlong]
  by_cases hthere : Verified files (cachePath cacheDir sha256) sha256
  · rw [if_pos (verifyHash_iff.mpr hthere)]
    exact iff_of_true ⟨files, rfl, hthere⟩ (Or.inl hthere)
  · rw [if_neg fun h => hthere (verifyHash_iff.mp h), or_iff_right hthere]
    cases hdir : files.isDir (GoPath.dir (cachePath cacheDir sha256)) with
    | false =>
        have hnowhere := tryMirrors_nowhere mirrors (startByte cacheDir sha256 files) files hdir
        refine iff_of_false ?_ fun h => Bool.false_ne_true h.1
        rintro ⟨files', heq, -⟩
        rw [Option.some.inj heq] at hnowhere
        cases hnowhere
    | true =>
        obtain ⟨hiff, hdest⟩ := tryMirrors_spec mirrors (startByte cacheDir sha256 files) files hdir
        rw [and_iff_right rfl, ← hiff]
        constructor
        · rintro ⟨files', heq, -⟩
          rw [Option.some.inj heq]
        · intro hok
          exact ⟨_, congrArg some (Prod.ext rfl hok), hdest hok⟩

/-- A mirror that serves the package is useful if nothing was there, after a transfer that
broke off, if it sends all of it anyway, and if it comes first and finds its beginning. -/
theorem useful_of_serves {before later : List Mirror} {mirror : Mirror} {content : List UInt8}
    (hserves : Serves mirror content) (hhash : hash content = sha256)
    (h : start = 0 ∨ (∃ m ∈ before, (m start).completes = false) ∨
      mirror start = .answer 200 content true ∨
        before = [] ∧ held = some (content.take start)) :
    Useful sha256 (before ++ mirror :: later) start held := by
  have hwhole : ∀ reply held' n, reply = .answer 200 content true → Right sha256 reply held' n := by
    rintro reply held' n rfl
    exact ⟨content, rfl, hhash⟩
  refine ⟨before, mirror, later, rfl, ?_⟩
  split
  next hall =>
    rcases h with rfl | ⟨m, hm, hbroken⟩ | hanyway | ⟨rfl, rfl⟩
    · exact hwhole _ _ _ hserves.whole
    · rw [hall m hm] at hbroken
      cases hbroken
    · exact hwhole _ _ _ hanyway
    · rw [if_pos rfl]
      rcases Nat.eq_zero_or_pos start with rfl | hpos
      · exact hwhole _ _ _ hserves.whole
      · rcases hserves.range start hpos with hrange | hanyway
        · refine ⟨content, ?_, hhash⟩
          rw [hrange]
          simp [received, hpos]
        · exact hwhole _ _ _ hanyway
  next => exact hwhole _ _ _ hserves.whole

/-- What a goroutine does in a row, with nobody else at work. -/
def goExec (cfg : Config) (sha256 : String) : Files → Pc → List Choice → Option (Files × Pc)
  | files, pc, [] => some (files, pc)
  | files, pc, c :: choices =>
      (goStep cfg sha256 true files pc c).bind fun r => goExec cfg sha256 r.1 r.2 choices

/-- The goroutine can get from one point to another. -/
def Gets (cfg : Config) (sha256 : String) (files : Files) (pc : Pc) (files' : Files) (pc' : Pc) :
    Prop :=
  ∃ choices, goExec cfg sha256 files pc choices = some (files', pc')

section
variable {cfg : Config} {files' files'' : Files} {pc pc' pc'' : Pc}

/-- Two rows of choices. -/
private theorem goExec_append (choices choices' : List Choice) :
    goExec cfg sha256 files pc (choices ++ choices') =
      (goExec cfg sha256 files pc choices).bind fun r => goExec cfg sha256 r.1 r.2 choices' := by
  induction choices generalizing files pc with
  | nil => rfl
  | cons c choices ih =>
      rw [List.cons_append, goExec, goExec, Option.bind_assoc]
      exact Option.bind_congr fun r _ => ih

/-- No step. -/
theorem Gets.refl : Gets cfg sha256 files pc files pc := ⟨[], rfl⟩

/-- Some steps, and some more. -/
theorem Gets.trans (h : Gets cfg sha256 files pc files' pc')
    (h' : Gets cfg sha256 files' pc' files'' pc'') : Gets cfg sha256 files pc files'' pc'' := by
  obtain ⟨choices, hrun⟩ := h
  obtain ⟨choices', hrun'⟩ := h'
  exact ⟨choices ++ choices', by rw [goExec_append, hrun]; exact hrun'⟩

/-- One step. -/
theorem Gets.step (c : Choice) (h : goStep cfg sha256 true files pc c = some (files', pc')) :
    Gets cfg sha256 files pc files' pc' :=
  ⟨[c], by rw [goExec, h]; rfl⟩

/-- A hash reads the file to its end. -/
theorem hash_gets {inode : Nat} {reading : List UInt8 → Pc} (next : Bool → Pc)
    (hstep : ∀ read n, n ≠ 0 → goStep cfg sha256 true files (reading read) (.reads n) =
      if readNext files inode n read ≠ [] then
        some (files, reading (read ++ readNext files inode n read))
      else some (files, next (hash read = sha256))) :
    Gets cfg sha256 files (reading []) files (next (hash (files.content inode) = sha256)) := by
  have hend : ∀ n, readNext files inode n (files.content inode) = [] := by
    intro n
    rw [readNext, List.drop_length, List.take_nil]
  have hlast : Gets cfg sha256 files (reading (files.content inode)) files
      (next (hash (files.content inode) = sha256)) := by
    refine Gets.step (.reads 1) ?_
    rw [hstep _ 1 one_ne_zero, hend, if_neg (not_not.mpr rfl)]
  by_cases hempty : files.content inode = []
  · rwa [hempty] at hlast ⊢
  · refine Gets.trans (Gets.step (.reads (files.content inode).length) ?_) hlast
    have hall : readNext files inode (files.content inode).length [] = files.content inode := by
      rw [readNext]
      exact List.take_length
    rw [hstep _ _ (fun h => hempty (List.eq_nil_of_length_eq_zero h)), hall, if_pos hempty]
    rfl

/-- Looking for the package among the files that are there. -/
theorem checkDest_gets (hlong : ¬sha256.length < 2) :
    Gets cfg sha256 files .checkDest files
      (if verifyHash files (cachePath cfg.cacheDir sha256) sha256 then .returned true
        else .statPartial) := by
  unfold verifyHash Inodes.file
  cases hinode : files.inode (cachePath cfg.cacheDir sha256) with
  | none =>
      refine Gets.step .succeeds ?_
      unfold goStep
      dsimp only
      rw [if_neg hlong, hinode]
      rfl
  | some inode =>
      have hopen : Gets cfg sha256 files .checkDest files (.hashDest inode []) := by
        refine Gets.step .succeeds ?_
        unfold goStep
        dsimp only
        rw [if_neg hlong, hinode]
      refine hopen.trans (hash_gets (fun ok => if ok then .returned true else .statPartial) ?_)
      intro read n hn
      unfold goStep
      dsimp only
      rw [if_neg hn]
      split
      · rfl
      · split <;> simp [*]

/-- Checking the `.partial` file. -/
theorem checkPartial_gets {names : List String} :
    Gets cfg sha256 files (.checkPartial names start) files
      (if verifyHash files (partialPath cfg.cacheDir sha256) sha256 then .mkdirAll
        else .remove names start) := by
  unfold verifyHash Inodes.file
  cases hinode : files.inode (partialPath cfg.cacheDir sha256) with
  | none =>
      refine Gets.step .succeeds ?_
      unfold goStep
      dsimp only
      rw [hinode]
      rfl
  | some inode =>
      have hopen : Gets cfg sha256 files (.checkPartial names start) files
          (.hashPartial names start inode []) := by
        refine Gets.step .succeeds ?_
        unfold goStep
        dsimp only
        rw [hinode]
      refine hopen.trans (hash_gets (fun ok => if ok then .mkdirAll else .remove names start) ?_)
      intro read n hn
      unfold goStep
      dsimp only
      rw [if_neg hn]
      split
      · rfl
      · split <;> simp [*]

/-- **One mirror**, step by step. -/
theorem transfer_gets (mirror : Mirror) (name : String) (names : List String) (start : Nat) :
    Gets cfg sha256 files (.loop (name :: names) start)
      (transfer cfg.cacheDir sha256 mirror start files).1
      (if (transfer cfg.cacheDir sha256 mirror start files).2 then .checkPartial names start
        else .loop names 0) := by
  unfold transfer
  cases mirror start with
  | unreachable => exact Gets.step .fails rfl
  | answer status body whole =>
      by_cases herror : status ≠ 200 ∧ status ≠ 206
      · have hfetch : fetchFile files (partialPath cfg.cacheDir sha256) (.answer status body whole)
            start = (files, false) := by
          unfold fetchFile
          dsimp only
          rw [if_pos herror]
        rw [hfetch]
        refine Gets.step (.answers status) ?_
        unfold goStep
        dsimp only
        rw [if_pos herror]
        rfl
      · have hanswer : Gets cfg sha256 files (.loop (name :: names) start) files
            (.response names start status) := by
          refine Gets.step (.answers status) ?_
          unfold goStep
          dsimp only
          rw [if_neg herror]
        cases hopen : files.openFile (partialPath cfg.cacheDir sha256)
            (!decide (0 < start ∧ status = 206)) with
        | none =>
            have hfetch : fetchFile files (partialPath cfg.cacheDir sha256)
                (.answer status body whole) start = (files, false) := by
              unfold fetchFile
              dsimp only
              rw [if_neg herror, hopen]
            rw [hfetch]
            refine hanswer.trans (Gets.step .succeeds ?_)
            unfold goStep
            dsimp only
            rw [hopen]
            rfl
        | some opened =>
            obtain ⟨inode, files'⟩ := opened
            have hfetch : fetchFile files (partialPath cfg.cacheDir sha256)
                (.answer status body whole) start =
                  ((write files' ⟨inode, decide (0 < start ∧ status = 206), 0⟩ body).1, whole) := by
              unfold fetchFile
              dsimp only
              rw [if_neg herror, hopen]
            have hresponse : Gets cfg sha256 files (.response names start status) files'
                (.copy names start ⟨inode, decide (0 < start ∧ status = 206), 0⟩) := by
              refine Gets.step .succeeds ?_
              unfold goStep
              dsimp only
              rw [hopen]
            rw [hfetch]
            refine hanswer.trans (hresponse.trans ?_)
            refine Gets.trans (Gets.step (.receives body) rfl) ?_
            cases whole with
            | true => exact Gets.step .succeeds rfl
            | false => exact Gets.step .fails rfl

/-- **All mirrors.** The loop of `downloadOne` is what a goroutine does. -/
theorem tryMirrors_gets (mirrors : List Mirror) (names : List String)
    (hlen : names.length = mirrors.length) (start : Nat) (files : Files) :
    Gets cfg sha256 files (.loop names start)
      (tryMirrors cfg.cacheDir sha256 mirrors start files).1
      (.returned (tryMirrors cfg.cacheDir sha256 mirrors start files).2) := by
  induction mirrors generalizing names start files with
  | nil =>
      rw [List.eq_nil_of_length_eq_zero hlen]
      exact Gets.step .succeeds rfl
  | cons mirror mirrors ih =>
      obtain ⟨name, names, rfl⟩ := List.exists_cons_of_length_eq_add_one hlen
      have hlen := Nat.succ.inj hlen
      have htransfer := @transfer_gets sha256 files cfg mirror name names start
      cases hfetch : (transfer cfg.cacheDir sha256 mirror start files).2 with
      | false =>
          rw [hfetch] at htransfer
          rw [tryMirrors_broken hfetch]
          exact htransfer.trans (ih names hlen 0 _)
      | true =>
          rw [hfetch] at htransfer
          refine htransfer.trans (checkPartial_gets.trans ?_)
          by_cases hverified : Verified (transfer cfg.cacheDir sha256 mirror start files).1
              (partialPath cfg.cacheDir sha256) sha256
          · obtain ⟨files', hrename, heq, -⟩ := tryMirrors_verified mirrors hfetch hverified
            rw [verifyHash_iff.mpr hverified, if_pos rfl, heq]
            refine Gets.trans (Gets.step .succeeds rfl) (Gets.step .succeeds ?_)
            unfold goStep
            dsimp only
            rw [hrename]
          · have hverify : verifyHash (transfer cfg.cacheDir sha256 mirror start files).1
                (partialPath cfg.cacheDir sha256) sha256 = false :=
              Bool.eq_false_iff.mpr fun h => hverified (verifyHash_iff.mp h)
            rw [hverify, if_neg nofun, tryMirrors_mismatch hfetch hverify]
            exact Gets.trans (Gets.step .succeeds rfl) (ih names hlen start _)

/-- What `downloadOne` does is a run of the goroutine. -/
theorem downloadOne_runs {mirrors : List Mirror} (hlen : cfg.mirrors.length = mirrors.length)
    {ok : Bool} (h : downloadOne cfg.cacheDir sha256 mirrors files = some (files', ok)) :
    Gets cfg sha256 files .checkDest files' (.returned ok) := by
  unfold downloadOne at h
  split at h
  next => cases h
  next hlong =>
    refine Gets.trans (checkDest_gets hlong) ?_
    split at h
    next hthere =>
      cases h
      rw [if_pos hthere]
      exact Gets.refl
    next hthere =>
      obtain ⟨rfl, rfl⟩ := Prod.mk.inj (Option.some.inj h)
      rw [if_neg hthere]
      have hstat : Gets cfg sha256 files .statPartial files
          (.loop cfg.mirrors (startByte cfg.cacheDir sha256 files)) := by
        refine Gets.step .succeeds ?_
        unfold goStep startByte
        dsimp only
        cases files.file (partialPath cfg.cacheDir sha256) <;> rfl
      exact hstat.trans (tryMirrors_gets mirrors cfg.mirrors hlen _ files)

end

end

/-- A mirror that sends one wrong byte, and one that serves two bytes in any range. -/
def wrongMirror : Mirror := fun _ => .answer 200 [0] true

/-- A mirror that serves two bytes, or a part of them. -/
def goodMirror : Mirror := fun start =>
  if start = 0 then .answer 200 [97, 98] true else .answer 206 ([97, 98].drop start) true

/-- The first of the two bytes is already there. -/
def halfDownloaded : Files :=
  ((emptyIn (GoPath.dir (cachePath ["cache"] (hash [97, 98])))).create
    (partialPath ["cache"] (hash [97, 98]))
      ((congrArg _ (dir_partialPath _ _)).trans (emptyIn_isDir _))).setContent 0 [97]

/-- The mirror would do, but is asked for a part to be added to a file that is gone. -/
theorem failover_misses :
    ¬FailsOver ["cache"] (hash [97, 98]) [wrongMirror, goodMirror] halfDownloaded := by
  intro h
  have hserves : Serves goodMirror [97, 98] :=
    ⟨rfl, fun start hpos => Or.inl (if_neg (Nat.ne_of_gt hpos))⟩
  obtain ⟨files', hrun, -⟩ := h ⟨[97, 98], rfl, goodMirror, by simp, hserves⟩
  have hfails : (downloadOne ["cache"] (hash [97, 98]) [wrongMirror, goodMirror]
      halfDownloaded).map Prod.snd = some false := by decide +kernel
  rw [hrun] at hfails
  cases hfails

end Npkg
