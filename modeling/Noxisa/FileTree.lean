import Mathlib
import Noxisa.GoPath

/-!
# File trees with symbolic links

A file tree maps real locations, lists of names from the root, to nodes.  Only a
directory has anything below it, which is a field of the tree, so that creating
a node needs a proof that its parent is there.

`find` resolves a path as an operating system does: name by name, going to the
parent at `..`, and through every link on the way.  The two lemmas that the rest
rests on are `find_snoc`, which resolves a path with one more name, and
`find_grows`: a directory that has been found is found again after a step that
only adds nodes and changes the contents of files.
-/

namespace FileTree

/-- Names from the root. -/
abbrev Loc := List String

/-- A symbolic link: whether it starts at the root, and its parts. -/
structure Target where
  rooted : Bool
  parts : List String
deriving DecidableEq

/-- What can be at a location. -/
inductive Node
  | dir
  | file (content : List UInt8)
  | link (target : Target)
deriving DecidableEq

end FileTree

/-- A tree of nodes. -/
@[ext]
structure FileTree where
  node : FileTree.Loc → Option FileTree.Node
  root : node [] = some .dir
  tree : ∀ l x, (node (l ++ [x])).isSome → node l = some .dir

namespace FileTree

open GoPath (Plain)

/-- Nothing but a directory has nodes below it. -/
theorem below_none (fs : FileTree) {l : Loc} (h : fs.node l ≠ some .dir) (x : String) :
    fs.node (l ++ [x]) = none := by
  by_contra hne
  exact h (fs.tree l x (Option.isSome_iff_ne_none.mpr hne))

/-- Put a node into a directory, where there is none or a file. -/
def put (fs : FileTree) (l : Loc) (x : String) (n : Node) (hdir : fs.node l = some .dir)
    (hfree : fs.node (l ++ [x]) ≠ some .dir) : FileTree where
  node := Function.update fs.node (l ++ [x]) (some n)
  root := by
    rw [Function.update_of_ne (by simp), fs.root]
  tree := by
    intro k y hy
    by_cases hk : k = l ++ [x]
    · subst hk
      have hne : l ++ [x] ++ [y] ≠ l ++ [x] := by simp
      rw [Function.update_of_ne hne, below_none fs hfree] at hy
      cases hy
    · rw [Function.update_of_ne hk]
      by_cases hky : k ++ [y] = l ++ [x]
      · obtain ⟨rfl, -⟩ := List.append_inj' hky rfl
        exact hdir
      · rw [Function.update_of_ne hky] at hy
        exact fs.tree k y hy

/-- Move the node at `o`, with all that is below it, into the directory `l`, where
there is no directory of that name. -/
def move (fs : FileTree) (o l : Loc) (y : String) (hroot : o ≠ []) (hdir : fs.node l = some .dir)
    (hinto : ¬ o <+: l) : FileTree where
  node k :=
    if l ++ [y] <+: k then fs.node (o ++ k.drop (l ++ [y]).length)
    else if o <+: k then none else fs.node k
  root := by
    rw [if_neg (by simp), if_neg (by simpa using hroot), fs.root]
  tree := by
    intro k z hz
    by_cases hy : l ++ [y] <+: k
    · have hle := hy.length_le
      rw [if_pos (hy.trans (List.prefix_append k [z])), List.drop_append_of_le_length hle,
        ← List.append_assoc] at hz
      rw [if_pos hy]
      exact fs.tree _ z hz
    · by_cases hy' : l ++ [y] <+: k ++ [z]
      · have hk : k = l := by
          rcases List.prefix_concat_iff.mp hy' with h | h
          · exact (List.append_inj' h rfl).1.symm
          · exact absurd h hy
        subst hk
        rw [if_neg hy, if_neg hinto]
        exact hdir
      · rw [if_neg hy'] at hz
        by_cases ho : o <+: k ++ [z]
        · rw [if_pos ho] at hz
          cases hz
        · have ho' : ¬ o <+: k := fun h => ho (h.trans (List.prefix_append k [z]))
          rw [if_neg ho] at hz
          rw [if_neg hy, if_neg ho']
          exact fs.tree k z hz

/-- What a path leads to; in a directory that is there, a last name may be
missing. -/
inductive Found
  | dir (l : Loc)
  | file (l : Loc) (x : String)
  | link (l : Loc) (x : String)
  | missing (l : Loc) (x : String)
deriving DecidableEq

/-- Where it is. -/
def Found.loc : Found → Loc
  | .dir l => l
  | .file l x => l ++ [x]
  | .link l x => l ++ [x]
  | .missing l x => l ++ [x]

/-- Follow the parts of a path from a directory.  `onLink` goes on behind a link:
with a directory to start in, and all parts that are left. -/
def walk (fs : FileTree) (follow : Bool) (onLink : Loc → List String → Option Found) :
    Loc → List String → Option Found
  | l, [] => some (.dir l)
  | l, p :: ps =>
      if p = "" ∨ p = "." then walk fs follow onLink l ps
      else if p = ".." then walk fs follow onLink l.dropLast ps
      else
        match fs.node (l ++ [p]) with
        | some .dir => walk fs follow onLink (l ++ [p]) ps
        | some (.file _) => if ps = [] then some (.file l p) else none
        | some (.link target) =>
            if ps = [] ∧ follow = false then some (.link l p)
            else onLink (if target.rooted then [] else l) (target.parts ++ ps)
        | none => if ps = [] then some (.missing l p) else none

/-- Resolve a path through at most `links` links; `follow` says whether a link at
the end is followed. -/
def find (fs : FileTree) (follow : Bool) : Nat → Loc → List String → Option Found
  | 0 => walk fs follow (fun _ _ => none)
  | links + 1 => walk fs follow (find fs follow links)

/-- The number of links that a path may run through. -/
def maxLinks : Nat := 40

/-- `os.Stat`, which follows links. -/
def stat (fs : FileTree) (path : Loc) : Option Found := find fs true maxLinks [] path

/-- `os.Lstat`, which does not follow the last one. -/
def lstat (fs : FileTree) (path : Loc) : Option Found := find fs false maxLinks [] path

/-- Every directory stays, every link stays, and a file stays a file. -/
structure Grows (fs fs' : FileTree) : Prop where
  dir : ∀ l, fs.node l = some .dir → fs'.node l = some .dir
  link : ∀ l target, fs.node l = some (.link target) → fs'.node l = some (.link target)

section

variable {fs fs' fs'' : FileTree} {l k : Loc} {x c : String}

/-- A tree has grown to itself. -/
theorem Grows.refl (fs : FileTree) : Grows fs fs := ⟨fun _ h => h, fun _ _ h => h⟩

/-- A tree that has grown, and grown again. -/
theorem Grows.trans (h : Grows fs fs') (h' : Grows fs' fs'') : Grows fs fs'' :=
  ⟨fun l hl => h'.dir l (h.dir l hl), fun l t hl => h'.link l t (h.link l t hl)⟩

/-- A node that replaces no directory and no link. -/
theorem put_grows {n : Node} (hdir : fs.node l = some .dir)
    (hfree : fs.node (l ++ [x]) ≠ some .dir)
    (hnolink : ∀ target, fs.node (l ++ [x]) ≠ some (.link target)) :
    Grows fs (fs.put l x n hdir hfree) := by
  refine ⟨fun k hk => ?_, fun k t hk => ?_⟩
  · have hne : k ≠ l ++ [x] := fun h => hfree (h ▸ hk)
    exact (Function.update_of_ne hne _ _).trans hk
  · have hne : k ≠ l ++ [x] := fun h => hnolink t (h ▸ hk)
    exact (Function.update_of_ne hne _ _).trans hk

/-- A node is found where it has been put. -/
theorem put_node_self {n : Node} (hdir : fs.node l = some .dir)
    (hfree : fs.node (l ++ [x]) ≠ some .dir) :
    (fs.put l x n hdir hfree).node (l ++ [x]) = some n :=
  Function.update_self _ _ _

/-- Everywhere else is what was there. -/
theorem put_node_of_ne {n : Node} (hdir : fs.node l = some .dir)
    (hfree : fs.node (l ++ [x]) ≠ some .dir) (h : k ≠ l ++ [x]) :
    (fs.put l x n hdir hfree).node k = fs.node k :=
  Function.update_of_ne h _ _

/-- A directory is in a directory. -/
private theorem dropLast_dir (h : fs.node l = some .dir) : fs.node l.dropLast = some .dir := by
  rcases List.eq_nil_or_concat l with rfl | ⟨k, x, rfl⟩
  · exact fs.root
  · rw [List.concat_eq_append] at h
    rw [List.concat_eq_append, List.dropLast_concat]
    exact fs.tree k x (by rw [h]; rfl)

/-- What has been found is there, and its directory is. -/
def Right (fs : FileTree) : Found → Prop
  | .dir l => fs.node l = some .dir
  | .file l x => fs.node l = some .dir ∧ ∃ content, fs.node (l ++ [x]) = some (.file content)
  | .link l x => fs.node l = some .dir ∧ ∃ target, fs.node (l ++ [x]) = some (.link target)
  | .missing l x => fs.node l = some .dir ∧ fs.node (l ++ [x]) = none

/-- **A walk ends rightly**, if following a link does. -/
theorem walk_right {follow : Bool} {onLink : Loc → List String → Option Found} {path : List String}
    (hlink : ∀ l ps found, fs.node l = some .dir → onLink l ps = some found → Right fs found)
    {found : Found} (hl : fs.node l = some .dir) (h : walk fs follow onLink l path = some found) :
    Right fs found := by
  induction path generalizing l with
  | nil =>
      obtain rfl := Option.some.inj h
      exact hl
  | cons p ps ih =>
      unfold walk at h
      split at h
      next => exact ih hl h
      next =>
        split at h
        next => exact ih (dropLast_dir hl) h
        next =>
          split at h
          next hnode => exact ih hnode h
          next content hnode =>
            split at h
            next =>
              obtain rfl := Option.some.inj h
              exact ⟨hl, content, hnode⟩
            next => cases h
          next target hnode =>
            split at h
            next =>
              obtain rfl := Option.some.inj h
              exact ⟨hl, target, hnode⟩
            next =>
              refine hlink _ _ _ ?_ h
              split
              · exact fs.root
              · exact hl
          next hnode =>
            split at h
            next =>
              obtain rfl := Option.some.inj h
              exact ⟨hl, hnode⟩
            next => cases h

/-- **What is found is there.** -/
theorem find_right {follow : Bool} {links : Nat} {path : List String} {found : Found}
    (hl : fs.node l = some .dir) (h : find fs follow links l path = some found) :
    Right fs found := by
  induction links generalizing l path found with
  | zero => exact walk_right (fun _ _ _ _ h => by cases h) hl h
  | succ links ih => exact walk_right (fun _ _ _ hk h => ih hk h) hl h

/-- What is found is right. -/
theorem stat_right {path : Loc} {found : Found} (h : stat fs path = some found) : Right fs found :=
  find_right fs.root h

/-- Without following the last link as well. -/
theorem lstat_right {path : Loc} {found : Found} (h : lstat fs path = some found) :
    Right fs found :=
  find_right fs.root h

/-- A directory that a walk has ended at is still reached in the tree that has grown. -/
theorem walk_grows (hg : Grows fs fs') {follow : Bool}
    {onLink onLink' : Loc → List String → Option Found} {path : List String}
    (hlink : ∀ l ps, onLink l ps = some (.dir k) → onLink' l ps = some (.dir k))
    (h : walk fs follow onLink l path = some (.dir k)) :
    walk fs' follow onLink' l path = some (.dir k) := by
  induction path generalizing l with
  | nil => exact h
  | cons p ps ih =>
      unfold walk at h ⊢
      split at h
      next hdot =>
        rw [if_pos hdot]
        exact ih h
      next hdot =>
        rw [if_neg hdot]
        split at h
        next hup =>
          rw [if_pos hup]
          exact ih h
        next hup =>
          rw [if_neg hup]
          split at h
          next hnode =>
            rw [hg.dir _ hnode]
            exact ih h
          next => split at h <;> cases h
          next target hnode =>
            rw [hg.link _ _ hnode]
            dsimp only
            split at h
            next => cases h
            next hlast =>
              rw [if_neg hlast]
              exact hlink _ _ h
          next => split at h <;> cases h

/-- **A directory stays where it was found.** -/
theorem find_grows (hg : Grows fs fs') {follow : Bool} {links : Nat} {path : List String}
    (h : find fs follow links l path = some (.dir k)) :
    find fs' follow links l path = some (.dir k) := by
  induction links generalizing l path with
  | zero => exact walk_grows hg (fun _ _ h => h) h
  | succ links ih => exact walk_grows hg (fun _ _ h => ih h) h

/-- So it is for the whole path. -/
theorem stat_grows (hg : Grows fs fs') {path : Loc} (h : stat fs path = some (.dir k)) :
    stat fs' path = some (.dir k) :=
  find_grows hg h

/-- One more name in the directory `k`; a link there is not looked through. -/
def entry (fs : FileTree) (k : Loc) (c : String) : Option Found :=
  match fs.node (k ++ [c]) with
  | some .dir => some (.dir (k ++ [c]))
  | some (.file _) => some (.file k c)
  | some (.link _) => some (.link k c)
  | none => some (.missing k c)

/-- Nothing is at the location. -/
theorem entry_of_none (h : fs.node (k ++ [c]) = none) : entry fs k c = some (.missing k c) := by
  unfold entry
  rw [h]

/-- A name that is missing, from where it was looked for. -/
theorem entry_eq_missing (h : entry fs k c = some (.missing l x)) :
    k = l ∧ c = x ∧ fs.node (k ++ [c]) = none := by
  unfold entry at h
  split at h
  next => cases h
  next => cases h
  next => cases h
  next hnode =>
    obtain ⟨rfl, rfl⟩ := Found.missing.inj (Option.some.inj h)
    exact ⟨rfl, rfl, hnode⟩

/-- A name of a directory. -/
theorem entry_eq_dir (h : entry fs k c = some (.dir l)) :
    k ++ [c] = l ∧ fs.node (k ++ [c]) = some .dir := by
  unfold entry at h
  split at h
  next hnode => exact ⟨Found.dir.inj (Option.some.inj h), hnode⟩
  next => cases h
  next => cases h
  next => cases h

/-- A walk of one name, which is no link to be followed. -/
theorem walk_entry {follow : Bool} {onLink : Loc → List String → Option Found} (hc : Plain c)
    (h : ∀ target, fs.node (k ++ [c]) = some (.link target) → follow = false) :
    walk fs follow onLink k [c] = entry fs k c := by
  have hdot : ¬(c = "" ∨ c = ".") := fun h => h.elim hc.1 hc.2.1
  unfold walk entry
  rw [if_neg hdot, if_neg hc.2.2]
  cases hnode : fs.node (k ++ [c]) with
  | none => simp
  | some n =>
      cases n with
      | dir => simp [walk]
      | file content => simp
      | link target => simp [h target hnode]

/-- A walk to a directory and then one name. -/
theorem walk_snoc {follow : Bool} {onLink onLink' : Loc → List String → Option Found}
    {path : List String} (hc : Plain c)
    (hnolink : ∀ target, fs.node (k ++ [c]) = some (.link target) → follow = false)
    (hlink : ∀ l ps, onLink l ps = some (.dir k) → onLink' l (ps ++ [c]) = entry fs k c)
    (h : walk fs true onLink l path = some (.dir k)) :
    walk fs follow onLink' l (path ++ [c]) = entry fs k c := by
  induction path generalizing l with
  | nil =>
      obtain rfl := Found.dir.inj (Option.some.inj h)
      exact walk_entry hc hnolink
  | cons p ps ih =>
      rw [List.cons_append]
      unfold walk at h ⊢
      split at h
      next hdot =>
        rw [if_pos hdot]
        exact ih h
      next hdot =>
        rw [if_neg hdot]
        split at h
        next hup =>
          rw [if_pos hup]
          exact ih h
        next hup =>
          rw [if_neg hup]
          split at h
          next hnode => exact ih h
          next => split at h <;> cases h
          next target hnode =>
            rw [if_neg (by simp)] at h ⊢
            rw [← List.append_assoc]
            exact hlink _ _ h
          next => split at h <;> cases h

/-- **One more name.**  Behind a path to a directory a name leads to the entry of
that directory. -/
theorem find_snoc {follow : Bool} {links : Nat} {path : List String} (hc : Plain c)
    (hnolink : ∀ target, fs.node (k ++ [c]) = some (.link target) → follow = false)
    (h : find fs true links l path = some (.dir k)) :
    find fs follow links l (path ++ [c]) = entry fs k c := by
  induction links generalizing l path with
  | zero => exact walk_snoc hc hnolink (fun _ _ h => by cases h) h
  | succ links ih => exact walk_snoc hc hnolink (fun _ _ h => ih h) h

/-- A name in a directory that was reached, links not followed. -/
theorem lstat_snoc {path : Loc} (hc : Plain c) (h : stat fs path = some (.dir k)) :
    lstat fs (path ++ [c]) = entry fs k c :=
  find_snoc hc (fun _ _ => rfl) h

/-- The same with links followed, where the name is none. -/
theorem stat_snoc {path : Loc} (hc : Plain c)
    (hnolink : ∀ target, fs.node (k ++ [c]) ≠ some (.link target))
    (h : stat fs path = some (.dir k)) : stat fs (path ++ [c]) = entry fs k c :=
  find_snoc hc (fun t ht => absurd ht (hnolink t)) h

/-- The same for a directory. -/
theorem stat_snoc_dir {path : Loc} (hc : Plain c) (hnode : fs.node (k ++ [c]) = some .dir)
    (h : stat fs path = some (.dir k)) : stat fs (path ++ [c]) = some (.dir (k ++ [c])) := by
  rw [stat_snoc hc (fun _ => by rw [hnode]; nofun) h]
  unfold entry
  rw [hnode]

end

end FileTree
