import Mathlib

/-!
# Slices of UTF-8 text

A text is the list of its characters, and positions in it count the bytes of its
encoding.  A slice exists only between two characters.
-/

namespace Utf8

open String (utf8Len)

/-- The character tables. -/
structure Unicode where
  isAlphanumeric : Char → Bool
  isWhitespace : Char → Bool
  toLowercase : List Char → List Char

/-- The letters, blanks and small letters of ASCII. -/
def Unicode.ascii : Unicode where
  isAlphanumeric := Char.isAlphanum
  isWhitespace := Char.isWhitespace
  toLowercase := List.map Char.toLower

/-- The text before and after the byte `i`; `none` if `i` is inside a character or
after the end. -/
def splitAt : List Char → Nat → Option (List Char × List Char)
  | s, 0 => some ([], s)
  | [], _ + 1 => none
  | c :: s, i + 1 =>
      if c.utf8Size ≤ i + 1 then (splitAt s (i + 1 - c.utf8Size)).map (Prod.map (c :: ·) id)
      else none

/-- `&s[..i]`: none where that panics. -/
def sliceTo (s : List Char) (i : Nat) : Option (List Char) := (splitAt s i).map Prod.fst

/-- `&s[i..]`: none where that panics. -/
def sliceFrom (s : List Char) (i : Nat) : Option (List Char) := (splitAt s i).map Prod.snd

/-- Where the first character that satisfies `p` begins. -/
def find (p : Char → Bool) : List Char → Option Nat
  | [] => none
  | c :: s => if p c then some 0 else (find p s).map (c.utf8Size + ·)

/-- Where the last character that satisfies `p` begins. -/
def rfind (p : Char → Bool) : List Char → Option Nat
  | [] => none
  | c :: s =>
      match rfind p s with
      | some i => some (c.utf8Size + i)
      | none => if p c then some 0 else none

/-- A text is split between its parts. -/
theorem splitAt_append (a b : List Char) : splitAt (a ++ b) (utf8Len a) = some (a, b) := by
  induction a with
  | nil => cases b <;> rfl
  | cons c a ih =>
      obtain ⟨n, hn⟩ : ∃ n, utf8Len (c :: a) = n + 1 := by
        have hpos := c.utf8Size_pos
        rw [String.utf8Len_cons]
        exact ⟨utf8Len a + c.utf8Size - 1, by omega⟩
      have hrest : n + 1 - c.utf8Size = utf8Len a := by
        rw [← hn, String.utf8Len_cons, Nat.add_sub_cancel]
      have hfits : c.utf8Size ≤ n + 1 := by
        rw [← hn, String.utf8Len_cons]
        exact Nat.le_add_left _ _
      rw [hn, List.cons_append, splitAt, if_pos hfits, hrest, ih]
      rfl

/-- A split is one between two parts of that length. -/
theorem splitAt_eq_some {s a b : List Char} {i : Nat} :
    splitAt s i = some (a, b) ↔ s = a ++ b ∧ utf8Len a = i := by
  constructor
  · intro h
    fun_induction splitAt s i generalizing a with
    | case1 s =>
        cases h
        exact ⟨rfl, rfl⟩
    | case2 => cases h
    | case3 c s i hfits ih =>
        obtain ⟨⟨a', b'⟩, hsplit, heq⟩ := Option.map_eq_some_iff.mp h
        cases heq
        obtain ⟨hs, hlen⟩ := ih hsplit
        rw [String.utf8Len_cons, hlen, hs]
        exact ⟨rfl, by omega⟩
    | case4 => cases h
  · rintro ⟨rfl, rfl⟩
    exact splitAt_append a b

/-- The part before. -/
@[simp] theorem sliceTo_append (a b : List Char) : sliceTo (a ++ b) (utf8Len a) = some a := by
  rw [sliceTo, splitAt_append]
  rfl

/-- The part behind. -/
@[simp] theorem sliceFrom_append (a b : List Char) : sliceFrom (a ++ b) (utf8Len a) = some b := by
  rw [sliceFrom, splitAt_append]
  rfl

/-- What is behind a position. -/
theorem sliceFrom_eq_some {s b : List Char} {i : Nat} :
    sliceFrom s i = some b ↔ ∃ a, s = a ++ b ∧ utf8Len a = i := by
  constructor
  · intro h
    obtain ⟨⟨a, b'⟩, hsplit, rfl⟩ := Option.map_eq_some_iff.mp h
    exact ⟨a, splitAt_eq_some.mp hsplit⟩
  · rintro ⟨a, rfl, rfl⟩
    exact sliceFrom_append a b

/-- There is no slice from inside a character. -/
theorem sliceFrom_inside {a b : List Char} {c : Char} {k : Nat} (hpos : 0 < k)
    (hlt : k < c.utf8Size) : sliceFrom (a ++ c :: b) (utf8Len a + k) = none := by
  rw [Option.eq_none_iff_forall_ne_some]
  intro t ht
  obtain ⟨a', heq, hlen⟩ := sliceFrom_eq_some.mp ht
  rcases List.append_eq_append_iff.mp heq with ⟨x, rfl, hx⟩ | ⟨x, rfl, -⟩
  · rw [String.utf8Len_append] at hlen
    cases x with
    | nil =>
        rw [String.utf8Len_nil] at hlen
        omega
    | cons d x =>
        obtain ⟨rfl, -⟩ := List.cons.inj hx
        rw [String.utf8Len_cons] at hlen
        omega
  · rw [String.utf8Len_append] at hlen
    omega

/-- The first character that is looked for. -/
theorem find_eq_some {p : Char → Bool} {s : List Char} {i : Nat} (h : find p s = some i) :
    ∃ a c b, s = a ++ c :: b ∧ p c = true ∧ i = utf8Len a := by
  induction s generalizing i with
  | nil => cases h
  | cons c s ih =>
      rw [find] at h
      by_cases hc : p c = true
      · rw [if_pos hc] at h
        cases h
        exact ⟨[], c, s, rfl, hc, rfl⟩
      · rw [if_neg hc] at h
        obtain ⟨j, hj, rfl⟩ := Option.map_eq_some_iff.mp h
        obtain ⟨a, d, b, rfl, hd, rfl⟩ := ih hj
        exact ⟨c :: a, d, b, rfl, hd, by rw [String.utf8Len_cons, Nat.add_comm]⟩

/-- A text without such a character. -/
theorem rfind_of_forall {p : Char → Bool} {s : List Char} (h : ∀ c ∈ s, p c = false) :
    rfind p s = none := by
  induction s with
  | nil => rfl
  | cons c s ih =>
      rw [rfind, ih fun d hd => h d (List.mem_cons_of_mem c hd), h c List.mem_cons_self]
      rfl

/-- The last one. -/
theorem rfind_append {p : Char → Bool} (a : List Char) {c : Char} {b : List Char} (hc : p c = true)
    (hb : ∀ d ∈ b, p d = false) : rfind p (a ++ c :: b) = some (utf8Len a) := by
  induction a with
  | nil =>
      rw [List.nil_append, rfind, rfind_of_forall hb, if_pos hc]
      rfl
  | cons d a ih =>
      rw [List.cons_append, rfind, ih, String.utf8Len_cons, Nat.add_comm]

/-- Either no character satisfies `p`, or the text is cut at the last one that does. -/
theorem rfind_cases (p : Char → Bool) (s : List Char) :
    (∀ c ∈ s, p c = false) ∨
      ∃ a c b, s = a ++ c :: b ∧ p c = true ∧ ∀ d ∈ b, p d = false := by
  induction s with
  | nil => exact Or.inl nofun
  | cons c s ih =>
      rcases ih with hnone | ⟨a, d, b, rfl, hd, hb⟩
      · by_cases hc : p c = true
        · exact Or.inr ⟨[], c, s, rfl, hc, hnone⟩
        · refine Or.inl fun d hd => ?_
          rcases List.mem_cons.mp hd with rfl | hd
          · exact Bool.eq_false_iff.mpr hc
          · exact hnone d hd
      · exact Or.inr ⟨c :: a, d, b, rfl, hd, hb⟩

end Utf8
