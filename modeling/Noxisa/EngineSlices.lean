import Noxisa.CompletionTrie

/-!
# Slices of a completion request

The stages of the engine look at the end of the text before the cursor: the trie
at what follows the last delimiter of the line, the offline model at the last
512 bytes, the online one at the last 2000.  Each computes the start of its slice
in bytes.
-/

namespace CompletionEngine

open Utf8 CompletionTrie

/-- A text of the engine. -/
abbrev Str := List Char

/-- `&s[s.len().saturating_sub(n)..]` -/
def lastBytes (n : Nat) (s : Str) : Option Str := sliceFrom s (String.utf8Len s - n)

/-- What `hash_str` hashes. -/
def hashSlice (s : Str) : Option Str := lastBytes 512 s

/-- The context that `call_complete` sends. -/
def callContext (s : Str) : Option Str := lastBytes 2000 s

/-- A character that ends a token. -/
def delimiter (u : Unicode) (c : Char) : Bool :=
  !u.isAlphanumeric c && c != '_' && c != ':' && c != '.' && c != '/' && c != '!' && c != '('

/-- The last delimiter of the line, if there is one, takes one byte. -/
def TokenSliceable (u : Unicode) (line : Str) : Prop :=
  ∀ a c b, line = a ++ c :: b → delimiter u c = true → (∀ d ∈ b, delimiter u d = false) →
    c.utf8Size = 1

/-- The last characters of the text take exactly `n` bytes, or all of it is not longer. -/
def EndsWithin (n : Nat) (s : Str) : Prop := ∃ b, b <:+ s ∧ String.utf8Len b = min n (String.utf8Len s)

/-- Slicing off the last bytes panics unless characters fill them. -/
theorem lastBytes_isSome (n : Nat) (s : Str) : lastBytes n s ≠ none ↔ EndsWithin n s := by
  rw [Option.ne_none_iff_exists']
  constructor
  · rintro ⟨b, hb⟩
    obtain ⟨a, rfl, ha⟩ := sliceFrom_eq_some.mp hb
    rw [String.utf8Len_append] at ha
    refine ⟨b, List.suffix_append a b, ?_⟩
    rw [String.utf8Len_append]
    omega
  · rintro ⟨b, ⟨a, rfl⟩, hb⟩
    refine ⟨b, sliceFrom_eq_some.mpr ⟨a, rfl, ?_⟩⟩
    rw [String.utf8Len_append] at hb ⊢
    omega

/-- Before the first delimiter the whole line is the token. -/
theorem currentToken_whole {u : Unicode} {line : Str} (h : ∀ c ∈ line, delimiter u c = false) :
    currentToken u line = some line := by
  have hrfind : rfind (delimiter u) line = none := rfind_of_forall h
  unfold currentToken
  change sliceFrom line (((rfind (delimiter u) line).map (· + 1)).getD 0) = some line
  rw [hrfind]
  exact sliceFrom_append [] line

/-- The token is what follows the last delimiter, if that takes one byte. -/
theorem currentToken_cut {u : Unicode} {a b : Str} {c : Char} (hc : delimiter u c = true)
    (hb : ∀ d ∈ b, delimiter u d = false) :
    currentToken u (a ++ c :: b) = if c.utf8Size = 1 then some b else none := by
  have hrfind : rfind (delimiter u) (a ++ c :: b) = some (String.utf8Len a) := rfind_append a hc hb
  unfold currentToken
  change sliceFrom (a ++ c :: b) (((rfind (delimiter u) (a ++ c :: b)).map (· + 1)).getD 0) = _
  rw [hrfind]
  change sliceFrom (a ++ c :: b) (String.utf8Len a + 1) = _
  have hpos := c.utf8Size_pos
  by_cases hone : c.utf8Size = 1
  · rw [if_pos hone]
    refine sliceFrom_eq_some.mpr ⟨a ++ [c], by simp, ?_⟩
    rw [String.utf8Len_append, String.utf8Len_cons, hone]
    rfl
  · rw [if_neg hone]
    exact sliceFrom_inside one_pos (lt_of_le_of_ne hpos (Ne.symm hone))

/-- The current token can be sliced off exactly under its condition. -/
theorem currentToken_isSome (u : Unicode) (line : Str) :
    currentToken u line ≠ none ↔ TokenSliceable u line := by
  constructor
  · rintro h a c b rfl hc hb
    rw [currentToken_cut hc hb] at h
    by_contra hone
    exact h (if_neg hone)
  · intro h
    rcases rfind_cases (delimiter u) line with hnone | ⟨a, c, b, rfl, hc, hb⟩
    · rw [currentToken_whole hnone]
      nofun
    · rw [currentToken_cut hc hb, if_pos (h a c b rfl hc hb)]
      nofun

/-- A request can be sliced exactly when the last delimiter of its line takes one byte
and neither the last 512 nor the last 2000 bytes of its text begin inside a character. -/
theorem request_sliceable (u : Unicode) (line context : Str) :
    (currentToken u line ≠ none ∧ hashSlice context ≠ none ∧ callContext context ≠ none) ↔
      TokenSliceable u line ∧ EndsWithin 512 context ∧ EndsWithin 2000 context := by
  rw [currentToken_isSome, hashSlice, callContext, lastBytes_isSome, lastBytes_isSome]

/-- A line that ends in an arrow. -/
theorem arrow_not_sliceable : currentToken .ascii ['l', 's', ' ', '→'] = none := by
  decide +kernel

/-- A context of 513 bytes whose first character takes two. -/
example : hashSlice ('é' :: List.replicate 511 'a') = none := by decide +kernel

end CompletionEngine
