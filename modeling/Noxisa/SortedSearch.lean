import Mathlib

/-!
# Searching a sorted list

The partition point of a list, by halving, and the words of a sorted list that begin
with a given word.  These are next to each other: they start at the partition point of
the words below the given one, and a scan from there finds all of them.
-/

namespace SortedSearch

section
variable {α : Type*} (p : α → Bool)

/-- Halves the range of length `size` at `base` until one entry is left. -/
def narrow (l : List α) (base size : Nat) : Nat :=
  if 1 < size then
    let half := size / 2
    let mid := base + half
    narrow l (if l[mid]?.any p then mid else base) (size - half)
  else base
termination_by size

/-- The index of the first entry that does not satisfy `p`, if those that do come first. -/
def partitionPoint (l : List α) : Nat :=
  if l = [] then 0
  else
    let base := narrow p l 0 l.length
    base + (l[base]?.any p).toNat

variable {p} {a b : List α}

/-- Which entries of a partitioned list satisfy `p`. -/
theorem any_getElem?_append (ha : ∀ x ∈ a, p x = true) (hb : ∀ x ∈ b, p x = false) (i : Nat) :
    (a ++ b)[i]?.any p = decide (i < a.length) := by
  by_cases h : i < a.length
  · rw [List.getElem?_append_left h, List.getElem?_eq_getElem h, decide_eq_true h]
    exact ha _ (List.getElem_mem h)
  · rw [List.getElem?_append_right (by omega), decide_eq_false h]
    cases hx : b[i - a.length]? with
    | none => rfl
    | some x => exact hb x (List.mem_of_getElem? hx)

/-- The last entry that satisfies `p` stays in the range. -/
theorem narrow_spec (ha : ∀ x ∈ a, p x = true) (hb : ∀ x ∈ b, p x = false) (base : Nat) {size : Nat}
    (hsize : 0 < size) (hbase : base = 0 ∨ base < a.length) (hend : a.length ≤ base + size) :
    let i := narrow p (a ++ b) base size
    (i = 0 ∨ i < a.length) ∧ a.length ≤ i + 1 := by
  induction size using Nat.strongRecOn generalizing base with
  | ind size ih =>
      intro i
      by_cases h : 1 < size
      · have hi : i = narrow p (a ++ b)
            (if base + size / 2 < a.length then base + size / 2 else base) (size - size / 2) := by
          change narrow p (a ++ b) base size = _
          rw [narrow, if_pos h]
          dsimp only
          rw [any_getElem?_append ha hb]
          simp only [decide_eq_true_eq]
        rw [hi]
        apply ih (size - size / 2) (by omega) _ (by omega)
        · split
          · exact Or.inr ‹_›
          · exact hbase
        · split <;> omega
      · have hi : i = base := by
          change narrow p (a ++ b) base size = _
          rw [narrow, if_neg h]
        rw [hi]
        exact ⟨hbase, by omega⟩

/-- On a list that `p` cuts in two, the partition point is the cut. -/
theorem partitionPoint_append (ha : ∀ x ∈ a, p x = true) (hb : ∀ x ∈ b, p x = false) :
    partitionPoint p (a ++ b) = a.length := by
  rw [partitionPoint]
  split
  · next h => rw [(List.append_eq_nil_iff.mp h).1, List.length_nil]
  · next h =>
      have hlen : 0 < (a ++ b).length := List.length_pos_iff.mpr h
      obtain ⟨hlow, hhigh⟩ := narrow_spec ha hb 0 hlen (Or.inl rfl) (by simp)
      dsimp only
      rw [any_getElem?_append ha hb]
      by_cases hin : narrow p (a ++ b) 0 (a ++ b).length < a.length
      · rw [decide_eq_true hin, Bool.toNat_true]
        omega
      · rw [decide_eq_false hin, Bool.toNat_false]
        omega

variable {l : List α}

/-- If `p` is never regained, nothing after the first failure satisfies it. -/
theorem dropWhile_none (h : l.Pairwise fun x y => p y = true → p x = true) :
    ∀ x ∈ l.dropWhile p, p x = false := by
  induction l with
  | nil => exact List.forall_mem_nil _
  | cons y l ih =>
      obtain ⟨hy, hl⟩ := List.pairwise_cons.mp h
      by_cases hp : p y = true
      · rw [List.dropWhile_cons_of_pos hp]
        exact ih hl
      · rw [List.dropWhile_cons_of_neg hp]
        intro x hx
        rw [Bool.eq_false_iff]
        intro hpx
        rcases List.mem_cons.mp hx with rfl | hmem
        · exact hp hpx
        · exact hp (hy x hmem hpx)

/-- If `p` is never regained, its entries are the ones before the first failure. -/
private theorem filter_eq_takeWhile (h : l.Pairwise fun x y => p y = true → p x = true) :
    l.filter p = l.takeWhile p := by
  have htake : (l.takeWhile p).filter p = l.takeWhile p :=
    List.filter_eq_self.mpr fun x hx => List.mem_takeWhile_imp hx
  have hdrop : (l.dropWhile p).filter p = [] :=
    List.filter_eq_nil_iff.mpr fun x hx => by rw [dropWhile_none h x hx]; exact Bool.false_ne_true
  calc l.filter p
      = (l.takeWhile p ++ l.dropWhile p).filter p := by rw [List.takeWhile_append_dropWhile]
    _ = l.takeWhile p := by rw [List.filter_append, htake, hdrop, List.append_nil]

/-- What comes from the partition point on. -/
theorem drop_partitionPoint (h : l.Pairwise fun x y => p y = true → p x = true) :
    l.drop (partitionPoint p l) = l.dropWhile p := by
  have hcut : partitionPoint p (l.takeWhile p ++ l.dropWhile p) = (l.takeWhile p).length :=
    partitionPoint_append (fun x hx => List.mem_takeWhile_imp hx) (dropWhile_none h)
  rw [List.takeWhile_append_dropWhile] at hcut
  calc l.drop (partitionPoint p l)
      = (l.takeWhile p ++ l.dropWhile p).drop (l.takeWhile p).length := by
        rw [hcut, List.takeWhile_append_dropWhile]
    _ = l.dropWhile p := List.drop_left

end

section
variable {α : Type*} [LinearOrder α]

/-- A word is not below its beginnings. -/
private theorem not_lt_of_prefix {p s : List α} (h : p <+: s) : ¬s < p := by
  induction p generalizing s with
  | nil => exact List.not_lt_nil s
  | cons a p ih =>
      obtain ⟨rest, rfl⟩ := h
      rw [List.cons_append, List.cons_lt_cons_iff]
      rintro (hlt | ⟨-, hlt⟩)
      · exact lt_irrefl a hlt
      · exact ih (List.prefix_append p rest) hlt

/-- Words between a beginning and a word that has it have it too. -/
theorem prefix_of_between {p s t : List α} (hps : ¬s < p) (hst : s < t) (hpt : p <+: t) :
    p <+: s := by
  induction p generalizing s t with
  | nil => exact List.nil_prefix
  | cons a p ih =>
      obtain ⟨rest, rfl⟩ := hpt
      cases s with
      | nil => exact absurd (List.nil_lt_cons a p) hps
      | cons b s =>
          rw [List.cons_lt_cons_iff] at hps
          rw [List.cons_append, List.cons_lt_cons_iff] at hst
          rcases hst with hba | ⟨rfl, hlt⟩
          · exact absurd (Or.inl hba) hps
          · have hp : p <+: s :=
              ih (fun hlt => hps (Or.inr ⟨rfl, hlt⟩)) hlt (List.prefix_append p rest)
            exact List.prefix_cons_inj b |>.mpr hp

variable {p : List α} {l : List (List α)}

/-- In a sorted list the words below `p` come first. -/
theorem pairwise_lt (h : l.Pairwise (· < ·)) :
    l.Pairwise fun s t => decide (t < p) = true → decide (s < p) = true :=
  h.imp fun hst ht => decide_eq_true (lt_trans hst (of_decide_eq_true ht))

/-- From the first word that is not below `p`, the words that begin with `p` come first. -/
private theorem prefixes_pairwise (h : l.Pairwise (· < ·)) :
    (l.dropWhile (· < p)).Pairwise fun s t =>
      p.isPrefixOf t = true → p.isPrefixOf s = true := by
  have hsorted := h.sublist (List.dropWhile_sublist (· < p))
  refine hsorted.imp_of_mem fun hs _ hst hpt => ?_
  rw [List.isPrefixOf_iff_prefix] at hpt ⊢
  exact prefix_of_between (of_decide_eq_false (dropWhile_none (pairwise_lt h) _ hs)) hst hpt

/-- The words of a sorted list that begin with `p` follow the ones below `p`. -/
theorem filter_prefix (h : l.Pairwise (· < ·)) :
    l.filter (p.isPrefixOf ·) =
      (l.drop (partitionPoint (· < p) l)).takeWhile (p.isPrefixOf ·) := by
  have hbelow : (l.takeWhile (· < p)).filter (p.isPrefixOf ·) = [] := by
    refine List.filter_eq_nil_iff.mpr fun s hs hps => ?_
    rw [List.isPrefixOf_iff_prefix] at hps
    exact not_lt_of_prefix hps (of_decide_eq_true (List.mem_takeWhile_imp (p := (· < p)) hs))
  calc l.filter (p.isPrefixOf ·)
      = (l.takeWhile (· < p) ++ l.dropWhile (· < p)).filter (p.isPrefixOf ·) := by
        rw [List.takeWhile_append_dropWhile]
    _ = (l.dropWhile (· < p)).takeWhile (p.isPrefixOf ·) := by
        rw [List.filter_append, hbelow, List.nil_append, filter_eq_takeWhile (prefixes_pairwise h)]
    _ = (l.drop (partitionPoint (· < p) l)).takeWhile (p.isPrefixOf ·) := by
        rw [drop_partitionPoint (pairwise_lt h)]

end

end SortedSearch
