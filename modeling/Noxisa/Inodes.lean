import Mathlib

/-!
# Files behind names

Names lead to inodes and inodes have contents, so that a file that is open can
be renamed, replaced or removed.  A name leads to one inode and no two names
lead to the same, and a file is in a directory, which are fields of the structure.
Where the directory is missing, no file can be made.

`Unchanged p` is what the operations on other names than `p` keep: where `p`
leads, and what is there.
-/

/-- Names and inodes; the inodes from `next` on are free. `dir` is the directory that a
name is in. -/
structure Inodes {κ : Type} (dir : κ → κ) where
  inode : κ → Option Nat
  content : Nat → List UInt8
  next : Nat
  isDir : κ → Bool
  placed : ∀ p n, inode p = some n → isDir (dir p) = true
  used : ∀ p n, inode p = some n → n < next
  single : ∀ p q n, inode p = some n → inode q = some n → p = q

namespace Inodes

variable {κ : Type} [DecidableEq κ] {dir : κ → κ}

/-- The content that a name has. -/
def file (d : Inodes dir) (p : κ) : Option (List UInt8) := (d.inode p).map d.content

/-- Replace the content of an inode. -/
def setContent (d : Inodes dir) (n : Nat) (bytes : List UInt8) : Inodes dir :=
  { d with content := Function.update d.content n bytes }

/-- An empty file behind a name in a directory that is there. -/
def create (d : Inodes dir) (p : κ) (hp : d.isDir (dir p) = true) : Inodes dir where
  inode := Function.update d.inode p (some d.next)
  content := Function.update d.content d.next []
  next := d.next + 1
  isDir := d.isDir
  placed q n h := by
    by_cases hq : q = p
    · rw [hq]
      exact hp
    · rw [Function.update_of_ne hq] at h
      exact d.placed q n h
  used q n h := by
    by_cases hq : q = p
    · subst hq
      rw [Function.update_self] at h
      obtain rfl := Option.some.inj h
      exact Nat.lt_succ_self _
    · rw [Function.update_of_ne hq] at h
      exact Nat.lt_succ_of_lt (d.used q n h)
  single q r n hq hr := by
    by_cases hqp : q = p <;> by_cases hrp : r = p
    · rw [hqp, hrp]
    · rw [hqp, Function.update_self] at hq
      rw [Function.update_of_ne hrp] at hr
      obtain rfl := Option.some.inj hq
      exact absurd (d.used r _ hr) (Nat.lt_irrefl _)
    · rw [hrp, Function.update_self] at hr
      rw [Function.update_of_ne hqp] at hq
      obtain rfl := Option.some.inj hr
      exact absurd (d.used q _ hq) (Nat.lt_irrefl _)
    · rw [Function.update_of_ne hqp] at hq
      rw [Function.update_of_ne hrp] at hr
      exact d.single q r n hq hr

/-- `open` with `O_CREAT`, and with `O_TRUNC` if `trunc` is set; an error if the file
would have to be made and its directory is not there. -/
def openFile (d : Inodes dir) (p : κ) (trunc : Bool) : Option (Nat × Inodes dir) :=
  match d.inode p with
  | some n => some (n, if trunc then d.setContent n [] else d)
  | none => if hp : d.isDir (dir p) = true then some (d.next, d.create p hp) else none

/-- `mkdir` for each name in `ps`; those that are there stay. -/
def makeDirs (d : Inodes dir) (ps : κ → Bool) : Inodes dir :=
  { d with
    isDir := fun p => d.isDir p || ps p
    placed := fun p n h => by rw [d.placed p n h, Bool.true_or] }

/-- `content` with `bytes` at `offset`; a gap is filled with zeros. -/
def splice (content : List UInt8) (offset : Nat) (bytes : List UInt8) : List UInt8 :=
  content.take offset ++ List.replicate (offset - content.length) 0 ++ bytes ++
    content.drop (offset + bytes.length)

/-- `os.Remove` -/
def remove (d : Inodes dir) (p : κ) : Inodes dir where
  inode := Function.update d.inode p none
  content := d.content
  next := d.next
  isDir := d.isDir
  placed q n h := by
    by_cases hq : q = p
    · simp [hq] at h
    · rw [Function.update_of_ne hq] at h
      exact d.placed q n h
  used q n h := by
    by_cases hq : q = p
    · simp [hq] at h
    · rw [Function.update_of_ne hq] at h
      exact d.used q n h
  single q r n hq hr := by
    by_cases hqp : q = p
    · simp [hqp] at hq
    · by_cases hrp : r = p
      · simp [hrp] at hr
      · rw [Function.update_of_ne hqp] at hq
        rw [Function.update_of_ne hrp] at hr
        exact d.single q r n hq hr

/-- Let the name `q` lead to the inode of `p`, and `p` nowhere. -/
def move (d : Inodes dir) (p q : κ) (n : Nat) (hp : d.inode p = some n)
    (hdir : d.isDir (dir q) = true) : Inodes dir where
  inode := Function.update (Function.update d.inode p none) q (some n)
  content := d.content
  next := d.next
  isDir := d.isDir
  placed r m h := by
    by_cases hr : r = q
    · rw [hr]
      exact hdir
    · rw [Function.update_of_ne hr] at h
      exact (d.remove p).placed r m h
  used r m h := by
    by_cases hr : r = q
    · subst hr
      rw [Function.update_self] at h
      obtain rfl := Option.some.inj h
      exact d.used p n hp
    · rw [Function.update_of_ne hr] at h
      exact (d.remove p).used r m h
  single r s m hr hs := by
    have hother : ∀ t, t ≠ q → Function.update d.inode p none t ≠ some n := by
      intro t ht htn
      by_cases htp : t = p
      · simp [htp] at htn
      · rw [Function.update_of_ne htp] at htn
        exact htp (d.single t p n htn hp)
    by_cases hrq : r = q <;> by_cases hsq : s = q
    · rw [hrq, hsq]
    · rw [hrq, Function.update_self] at hr
      rw [Function.update_of_ne hsq] at hs
      exact absurd (hs.trans hr.symm) (hother s hsq)
    · rw [hsq, Function.update_self] at hs
      rw [Function.update_of_ne hrq] at hr
      exact absurd (hr.trans hs.symm) (hother r hrq)
    · rw [Function.update_of_ne hrq] at hr
      rw [Function.update_of_ne hsq] at hs
      exact (d.remove p).single r s m hr hs

/-- `rename`, if `p` is there and the directory of `q`. -/
def rename (d : Inodes dir) (p q : κ) : Option (Inodes dir) :=
  match h : d.inode p with
  | none => none
  | some n => if hdir : d.isDir (dir q) = true then some (d.move p q n h hdir) else none

/-- The name leads where it did, and the file is what it was. -/
structure Unchanged (d d' : Inodes dir) (p : κ) : Prop where
  inode : d'.inode p = d.inode p
  content : ∀ n, d.inode p = some n → d'.content n = d.content n

section

variable {d d' : Inodes dir} {p q : κ} {n : Nat}

omit [DecidableEq κ] in
/-- Nothing has happened to a path. -/
theorem Unchanged.refl (d : Inodes dir) (p : κ) : Unchanged d d p := ⟨rfl, fun _ _ => rfl⟩

omit [DecidableEq κ] in
/-- What is in a file. -/
theorem file_eq_some {content : List UInt8} :
    d.file p = some content ↔ ∃ n, d.inode p = some n ∧ d.content n = content :=
  Option.map_eq_some_iff

omit [DecidableEq κ] in
/-- A file that is not touched is the same. -/
theorem Unchanged.file (h : Unchanged d d' p) : d'.file p = d.file p := by
  unfold Inodes.file
  rw [h.inode]
  cases hn : d.inode p with
  | none => rfl
  | some n => exact congrArg some (h.content n hn)

omit [DecidableEq κ] in
/-- An inode that another name leads to. -/
theorem setContent_unchanged (hp : d.inode p = some n) (hq : q ≠ p) (bytes : List UInt8) :
    Unchanged d (d.setContent n bytes) q := by
  refine ⟨rfl, fun m hm => ?_⟩
  have hne : m ≠ n := fun h => hq (d.single q p n (h ▸ hm) hp)
  exact Function.update_of_ne hne _ _

/-- Making a file touches no other one. -/
theorem create_unchanged (hp : d.isDir (dir p) = true) (hq : q ≠ p) :
    Unchanged d (d.create p hp) q := by
  refine ⟨Function.update_of_ne hq _ _, fun m hm => ?_⟩
  have hne : m ≠ d.next := Nat.ne_of_lt (d.used q m hm)
  exact Function.update_of_ne hne _ _

omit [DecidableEq κ] in
/-- Making directories touches no file. -/
theorem makeDirs_unchanged (ps : κ → Bool) : Unchanged d (d.makeDirs ps) q :=
  ⟨rfl, fun _ _ => rfl⟩

/-- A file can be opened exactly if its directory is there. -/
theorem openFile_isSome (trunc : Bool) :
    (d.openFile p trunc).isSome ↔ d.isDir (dir p) = true := by
  unfold openFile
  split
  next n hp => exact iff_of_true rfl (d.placed p n hp)
  next =>
    split
    next hdir => exact iff_of_true rfl hdir
    next hdir => exact iff_of_false nofun hdir

/-- What opening does: other names and all directories stay, the name leads to the file,
and the file holds what it did unless it was truncated. -/
structure Opened (d d' : Inodes dir) (p : κ) (trunc : Bool) (n : Nat) : Prop where
  other : ∀ q, q ≠ p → Unchanged d d' q
  isDir : d'.isDir = d.isDir
  inode : d'.inode p = some n
  content : d'.content n = if trunc then [] else (d.file p).getD []

/-- **A file is opened**: it is there, empty if it was cut off, and no other has been
touched. -/
theorem openFile_opened {trunc : Bool} (h : d.openFile p trunc = some (n, d')) :
    Opened d d' p trunc n := by
  unfold openFile at h
  split at h
  next m hp =>
    obtain ⟨rfl, rfl⟩ := Prod.mk.inj (Option.some.inj h)
    cases trunc with
    | true =>
        exact ⟨fun q hq => setContent_unchanged hp hq [], rfl, hp, Function.update_self _ _ _⟩
    | false =>
        refine ⟨fun q _ => Unchanged.refl d q, rfl, hp, ?_⟩
        rw [Inodes.file, hp]
        rfl
  next hp =>
    split at h
    next hdir =>
      obtain ⟨rfl, rfl⟩ := Prod.mk.inj (Option.some.inj h)
      refine ⟨fun q hq => create_unchanged hdir hq, rfl, Function.update_self _ _ _, ?_⟩
      rw [Inodes.file, hp]
      cases trunc <;> exact Function.update_self _ _ _
    next => cases h

omit [DecidableEq κ] in
/-- A file has the content that was stored. -/
theorem file_setContent (hp : d.inode p = some n) (bytes : List UInt8) :
    (d.setContent n bytes).file p = some bytes :=
  file_eq_some.mpr ⟨n, hp, Function.update_self _ _ _⟩

/-- A file that has been removed is not there. -/
theorem file_remove : (d.remove p).file p = none := by
  have hinode : (d.remove p).inode p = none := Function.update_self _ _ _
  rw [Inodes.file, hinode]
  rfl

/-- Removing a file touches no other one. -/
theorem remove_unchanged (hq : q ≠ p) : Unchanged d (d.remove p) q :=
  ⟨Function.update_of_ne hq _ _, fun _ _ => rfl⟩

/-- A file that has been renamed is where it was put, with its content. -/
theorem rename_some {r : κ} (h : d.rename p r = some d') :
    ∃ n, d.inode p = some n ∧ d'.inode r = some n ∧ d'.content = d.content := by
  unfold rename at h
  split at h
  next => cases h
  next n hp =>
    split at h
    next hdir =>
      obtain rfl := Option.some.inj h
      exact ⟨n, hp, Function.update_self _ _ _, rfl⟩
    next => cases h

/-- The file is there under its new name. -/
theorem rename_file {r : κ} (h : d.rename p r = some d') : d'.file r = d.file p := by
  obtain ⟨n, hp, hr, hsame⟩ := rename_some h
  unfold Inodes.file
  rw [hp, hr, hsame]

/-- A file can be renamed within its directory. -/
theorem rename_isSome {r : κ} (hp : d.inode p = some n) (hdir : dir r = dir p) :
    (d.rename p r).isSome := by
  unfold rename
  split
  next hnone =>
    rw [hp] at hnone
    cases hnone
  next => rw [dif_pos (hdir ▸ d.placed p n hp)]; rfl

/-- Renaming touches no third one. -/
theorem rename_unchanged {r : κ} (h : d.rename p r = some d') (hp : q ≠ p) (hr : q ≠ r) :
    Unchanged d d' q := by
  unfold rename at h
  split at h
  next => cases h
  next n hn =>
    split at h
    next hdir =>
      obtain rfl := Option.some.inj h
      exact ⟨(Function.update_of_ne hr _ _).trans (Function.update_of_ne hp _ _), fun _ _ => rfl⟩
    next => cases h

end

end Inodes
