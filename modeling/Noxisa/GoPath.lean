import Mathlib

/-!
# Lexical paths

The functions of Go's `path/filepath` that work on the text of a path alone: its
parts are what is between the slashes, and `Clean` works on them with a stack.
A path from the root is the list of its parts.

`isUnder_iff` says that a clean path from the root is under another one exactly
when that one is a prefix of it.
-/

namespace GoPath

/-- The pieces between slashes, empty ones among them. -/
def splitSlash : List Char → List (List Char)
  | [] => [[]]
  | c :: cs =>
      if c = '/' then [] :: splitSlash cs
      else
        match splitSlash cs with
        | [] => [[c]]
        | p :: ps => (c :: p) :: ps

/-- A path cut at its slashes. -/
def parts (path : String) : List String := (splitSlash path.toList).map String.ofList

/-- The path starts at the root. -/
def isRooted (path : String) : Bool := path.toList.head? = some '/'

/-- What `Clean` does with the next part; the stack has its top in front. -/
def cleanStep (rooted : Bool) (stack : List String) (p : String) : List String :=
  if p = "" ∨ p = "." then stack
  else if p = ".." then
    match stack with
    | [] => if rooted then [] else [".."]
    | top :: rest => if top = ".." then ".." :: stack else rest
  else p :: stack

/-- The parts of a path after `Clean`, one step a part. -/
def cleanParts (rooted : Bool) (ps : List String) : List String :=
  (ps.foldl (cleanStep rooted) []).reverse

/-- `Clean` of a name, as its parts. -/
def clean (path : String) : List String := cleanParts (isRooted path) (parts path)

/-- `Join` of a path from the root and the parts of another one. -/
def join (base ps : List String) : List String := cleanParts true (base ++ ps)

/-- `Dir` of a clean path from the root. -/
def dir (path : List String) : List String := path.dropLast

/-- `path + suffix` for the text of a path from the root. -/
def addSuffix (path : List String) (suffix : String) : List String :=
  path.dropLast ++ [path.getLastD "" ++ suffix]

/-- `Rel` of two clean paths from the root; the empty list is the path `.`. -/
def rel : List String → List String → List String
  | b :: bs, p :: ps => if b = p then rel bs ps else List.replicate (bs.length + 1) ".." ++ p :: ps
  | bs, ps => List.replicate bs.length ".." ++ ps

/-- `rel != ".." && !strings.HasPrefix(rel, "../")` -/
def isUnder (path base : List String) : Prop := (rel base path).head? ≠ some ".."

instance (path base : List String) : Decidable (isUnder path base) :=
  inferInstanceAs (Decidable (_ ≠ _))

/-- A part that names an entry of a directory. -/
def Plain (x : String) : Prop := x ≠ "" ∧ x ≠ "." ∧ x ≠ ".."

/-- One step of `Clean` on a rooted path keeps a stack of plain parts. -/
theorem cleanStep_plain {stack : List String} (h : ∀ x ∈ stack, Plain x) (p : String) :
    ∀ x ∈ cleanStep true stack p, Plain x := by
  unfold cleanStep
  split
  next => exact h
  next hdot =>
    split
    next =>
      cases stack with
      | nil => simp
      | cons top rest =>
          have htop := (h top List.mem_cons_self).2.2
          simp only [htop, if_false]
          exact fun x hx => h x (List.mem_cons_of_mem top hx)
    next hup =>
      intro x hx
      rcases List.mem_cons.mp hx with rfl | hx
      · exact ⟨fun h => hdot (Or.inl h), fun h => hdot (Or.inr h), hup⟩
      · exact h x hx

/-- A clean path from the root has plain parts only. -/
theorem join_plain (base ps : List String) : ∀ x ∈ join base ps, Plain x := by
  have hfold : ∀ (qs stack : List String), (∀ x ∈ stack, Plain x) →
      ∀ x ∈ qs.foldl (cleanStep true) stack, Plain x := by
    intro qs
    induction qs with
    | nil => exact fun stack h => h
    | cons q qs ih => exact fun stack h => ih _ (cleanStep_plain h q)
  intro x hx
  exact hfold (base ++ ps) [] (by simp) x (List.mem_reverse.mp hx)

/-- A plain part is pushed. -/
private theorem cleanStep_of_plain {x : String} (h : Plain x) (rooted : Bool)
    (stack : List String) :
    cleanStep rooted stack x = x :: stack := by
  unfold cleanStep
  rw [if_neg (not_or.mpr ⟨h.1, h.2.1⟩), if_neg h.2.2]

/-- Plain parts at the end stay as they are. -/
theorem join_append (base ps : List String) {qs : List String} (h : ∀ x ∈ qs, Plain x) :
    join base (ps ++ qs) = join base ps ++ qs := by
  have hfold : ∀ stack : List String, qs.foldl (cleanStep true) stack = qs.reverse ++ stack := by
    induction qs with
    | nil => exact fun stack => rfl
    | cons q qs ih =>
        intro stack
        rw [List.foldl_cons, cleanStep_of_plain (h q List.mem_cons_self),
          ih (fun x hx => h x (List.mem_cons_of_mem q hx))]
        simp
  unfold join cleanParts
  rw [← List.append_assoc, List.foldl_append, hfold]
  simp

/-- A text without a slash is its only part. -/
theorem splitSlash_of_notMem {cs : List Char} (h : '/' ∉ cs) : splitSlash cs = [cs] := by
  induction cs with
  | nil => rfl
  | cons c cs ih =>
      rw [List.mem_cons, not_or] at h
      rw [splitSlash, if_neg (Ne.symm h.1), ih h.2]

/-- The same of a path's parts. -/
theorem parts_of_notMem {s : String} (h : '/' ∉ s.toList) : parts s = [s] := by
  unfold parts
  rw [splitSlash_of_notMem h]
  simp

/-- A suffix without a slash goes to the last part. -/
theorem splitSlash_append {suffix : List Char} (h : '/' ∉ suffix) (cs : List Char) :
    ∃ before last, splitSlash (cs ++ suffix) = before ++ [last ++ suffix] := by
  induction cs with
  | nil => exact ⟨[], [], splitSlash_of_notMem h⟩
  | cons c cs ih =>
      obtain ⟨before, last, ih⟩ := ih
      rw [List.cons_append, splitSlash, ih]
      by_cases hc : c = '/'
      · rw [if_pos hc]
        exact ⟨[] :: before, last, rfl⟩
      · rw [if_neg hc]
        cases before with
        | nil => exact ⟨[], c :: last, rfl⟩
        | cons p before => exact ⟨(c :: p) :: before, last, rfl⟩

/-- A suffix without slash ends the last part. -/
theorem parts_append {suffix : String} (h : '/' ∉ suffix.toList) (s : String) :
    ∃ before last, parts (s ++ suffix) = before ++ [last ++ suffix] := by
  obtain ⟨before, last, hsplit⟩ := splitSlash_append h s.toList
  refine ⟨before.map String.ofList, String.ofList last, ?_⟩
  unfold parts
  rw [String.toList_append, hsplit]
  simp

/-- A text of more than two letters is neither a dot nor two of them. -/
theorem plain_of_length {x : String} (h : 2 < x.length) : Plain x := by
  refine ⟨?_, ?_, ?_⟩
  · rintro rfl
    exact absurd h (by decide)
  · rintro rfl
    exact absurd h (by decide)
  · rintro rfl
    exact absurd h (by decide)

/-- Adding a suffix to a path adds it to its last part. -/
theorem addSuffix_concat (before : List String) (last suffix : String) :
    addSuffix (before ++ [last]) suffix = before ++ [last ++ suffix] := by
  simp [addSuffix]

/-- **Under means prefix.** -/
theorem isUnder_iff {path base : List String} (h : ∀ x ∈ path, Plain x) :
    isUnder path base ↔ base <+: path := by
  unfold isUnder
  induction base generalizing path with
  | nil =>
      cases path with
      | nil => simp [rel]
      | cons p ps => simpa [rel] using (h p List.mem_cons_self).2.2
  | cons b bs ih =>
      cases path with
      | nil => simp [rel, List.replicate_succ]
      | cons p ps =>
          rw [rel]
          by_cases hb : b = p
          · rw [if_pos hb, ih (fun x hx => h x (List.mem_cons_of_mem p hx)), hb]
            simp
          · rw [if_neg hb]
            simp [List.replicate_succ, hb]

end GoPath
