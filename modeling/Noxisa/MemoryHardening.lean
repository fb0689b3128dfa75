import Noxisa.WordMixing

/-!
# Stack canaries and ASLR

The seed that the hardware generator fills, the mixing function, and what is derived
from both: the canary of a process and the base address of a mapping.  The mixing is
undone by `unmix64`, so it is a bijection of the words: that keeps canaries apart, and
it also means that every base address that can be written down comes up.
-/

namespace MemoryHardening

open WordMixing

/-- The two statics. -/
structure State where
  aslrSeed : BitVec 64
  kernelCanary : BitVec 64
deriving DecidableEq

/-- A fast 64-bit mixing of a word with a key. -/
def mix64 (x key : BitVec 64) : BitVec 64 :=
  let x := x + key
  let x := x ^^^ (x >>> 30)
  let x := x * 0xBF58476D1CE4E5B9#64
  let x := x ^^^ (x >>> 27)
  let x := x * 0x94D049BB133111EB#64
  x ^^^ (x >>> 31)

/-- What `rdrand` gives, or a constant where the instruction fails. -/
def init (rdrand : Option (BitVec 64)) : State :=
  let entropy := rdrand.getD 0xDEADBEEFCAFE1234#64
  { aslrSeed := entropy
    kernelCanary := mix64 entropy 0x517CC1B727220A95#64 }

/-- A base address for a new mapping; the seed moves on. -/
def aslrBase (s : State) (hint : BitVec 64) : BitVec 64 × State :=
  let seed := s.aslrSeed
  let s := { s with aslrSeed := s.aslrSeed + 0x9E3779B97F4A7C15#64 }
  let rand := mix64 seed hint
  let offset := rand &&& 0x0000FFFFFFFFF000#64
  ((0x0000100000000000#64 + offset) &&& ~~~0xFFF#64, s)

/-- The canary of a new user process. -/
def newStackCanary (s : State) (pid : BitVec 32) : BitVec 64 :=
  mix64 s.aslrSeed (pid.setWidth 64)

/-- The sum of the word and the key that `mix64` made this word of. -/
def unmix64 (y : BitVec 64) : BitVec 64 :=
  let x := undoXorShift 31 y 2
  let x := x * 0x319642B2D24D8EC3#64
  let x := undoXorShift 27 x 2
  let x := x * 0x96DE1B173F119089#64
  undoXorShift 30 x 2

/-- The mixing as a chain of invertible steps. -/
theorem mix64_eq (x key : BitVec 64) :
    mix64 x key = xorShift 31 (xorShift 27 (xorShift 30 (x + key) * 0xBF58476D1CE4E5B9#64)
      * 0x94D049BB133111EB#64) := rfl

/-- Undoing the mixing gives back the sum of what was mixed and its key. -/
theorem unmix64_mix64 (x key : BitVec 64) : unmix64 (mix64 x key) = x + key := by
  have hfirst : 0xBF58476D1CE4E5B9#64 * 0x96DE1B173F119089#64 = 1#64 := by decide
  have hsecond : 0x94D049BB133111EB#64 * 0x319642B2D24D8EC3#64 = 1#64 := by decide
  rw [mix64_eq, unmix64, undoXorShift_xorShift (by decide), mul_mul_of_unit hsecond,
    undoXorShift_xorShift (by decide), mul_mul_of_unit hfirst, undoXorShift_xorShift (by decide)]

/-- Every word is the mixing of something. -/
theorem mix64_unmix64 (y : BitVec 64) : mix64 (unmix64 y) 0#64 = y := by
  have hleft : Function.LeftInverse unmix64 fun x => mix64 x 0#64 := fun x => by
    rw [unmix64_mix64, BitVec.add_zero]
  exact undone hleft y

/-- Only the sum of the two arguments counts. -/
theorem mix64_congr {x x' key key' : BitVec 64} :
    mix64 x key = mix64 x' key' ↔ x + key = x' + key' := by
  constructor
  · intro h
    rw [← unmix64_mix64 x key, h, unmix64_mix64]
  · intro h
    rw [mix64_eq, h, ← mix64_eq]

/-- The words that mix to `y`. -/
theorem mix64_eq_iff {x key y : BitVec 64} : mix64 x key = y ↔ x + key = unmix64 y := by
  have hsum : mix64 x key = mix64 (unmix64 y) 0#64 ↔ x + key = unmix64 y := by
    rw [mix64_congr, BitVec.add_zero]
  rwa [mix64_unmix64] at hsum

/-- For each key the mixing is one to one and onto. -/
theorem mix64_bijective (key : BitVec 64) : Function.Bijective fun x => mix64 x key := by
  constructor
  · intro x y h
    have hmix : mix64 x key = mix64 y key := h
    rw [mix64_congr] at hmix
    exact BitVec.add_left_inj key |>.mp hmix
  · intro y
    refine ⟨unmix64 y - key, ?_⟩
    change mix64 (unmix64 y - key) key = y
    rw [mix64_eq_iff, BitVec.sub_add_cancel]

/-- Processes with different pids have different canaries, whatever the seed is: the
mixing is a bijection, and only the sum of seed and pid goes into it. -/
theorem canaries_differ :
    (∀ (s : State) (p q : BitVec 32), p ≠ q → newStackCanary s p ≠ newStackCanary s q) ∧
    (∀ key, Function.Bijective fun x => mix64 x key) ∧
    (∀ (s t : State) (p q : BitVec 32),
      s.aslrSeed + p.setWidth 64 = t.aslrSeed + q.setWidth 64 →
        newStackCanary s p = newStackCanary t q) := by
  refine ⟨?_, mix64_bijective, ?_⟩
  · intro s p q hpq h
    rw [newStackCanary, newStackCanary, mix64_congr] at h
    have hwide : p.setWidth 64 = q.setWidth 64 := BitVec.add_right_inj s.aslrSeed |>.mp h
    have hnat : p.toNat = q.toNat := by
      have := congrArg BitVec.toNat hwide
      rwa [BitVec.toNat_setWidth_of_le (by decide), BitVec.toNat_setWidth_of_le (by decide)]
        at this
    exact hpq (BitVec.eq_of_toNat_eq hnat)
  · intro s t p q h
    rw [newStackCanary, newStackCanary, mix64_congr]
    exact h

/-- The canaries of the first two tasks differ. -/
theorem canaries_of_one_and_two :
    newStackCanary (init none) 1#32 ≠ newStackCanary (init none) 2#32 :=
  canaries_differ.1 (init none) 1#32 2#32 (by decide)

/-- The address is at the start of a page. -/
def PageAligned (a : BitVec 64) : Prop := 4096 ∣ a.toNat

/-- The user half of the address space, above the first 64 KiB. -/
def UserAddress (a : BitVec 64) : Prop := 0x00010000 ≤ a.toNat ∧ a.toNat ≤ 0x7FFFFFFFFFFF

instance (a : BitVec 64) : Decidable (PageAligned a) := inferInstanceAs (Decidable (_ ∣ _))
instance (a : BitVec 64) : Decidable (UserAddress a) := inferInstanceAs (Decidable (_ ∧ _))

/-- The base address as a number: 36 bits of the mixed word, and 2^44 more. -/
theorem aslrBase_toNat (s : State) (hint : BitVec 64) :
    (aslrBase s hint).1.toNat =
      2 ^ 44 + (mix64 s.aslrSeed hint).toNat / 2 ^ 12 % 2 ^ 36 * 2 ^ 12 := by
  have hoffset : (mix64 s.aslrSeed hint &&& 0x0000FFFFFFFFF000#64).toNat =
      (mix64 s.aslrSeed hint).toNat / 2 ^ 12 % 2 ^ 36 * 2 ^ 12 := by
    rw [BitVec.toNat_and]
    exact and_field _ 12 36
  have hround : ∀ x : BitVec 64,
      (x &&& ~~~0xFFF#64).toNat = x.toNat / 2 ^ 12 % 2 ^ 52 * 2 ^ 12 := by
    intro x
    rw [BitVec.toNat_and]
    exact and_field _ 12 52
  rw [aslrBase, hround, BitVec.toNat_add, hoffset]
  simp only [BitVec.toNat_ofNat]
  omega

/-- A base address is always at the start of a page. -/
theorem aslrBase_aligned (s : State) (hint : BitVec 64) : PageAligned (aslrBase s hint).1 := by
  rw [PageAligned, aslrBase_toNat]
  omega

/-- It leaves the user half when the nibble at bit 44 of the mixed word is 7 or more. -/
theorem aslrBase_user (s : State) (hint : BitVec 64) :
    UserAddress (aslrBase s hint).1 ↔ (mix64 s.aslrSeed hint).extractLsb' 44 4 < 7#4 := by
  rw [UserAddress, aslrBase_toNat, BitVec.lt_def, BitVec.extractLsb'_toNat,
    Nat.shiftRight_eq_div_pow]
  simp only [BitVec.toNat_ofNat]
  omega

/-- A base address is a page of the user half just when seed and hint sum up to what a word
with a nibble below 7 at bit 44 is the mixing of. -/
theorem aslr_base_in_user_space (s : State) (hint : BitVec 64) :
    PageAligned (aslrBase s hint).1 ∧ UserAddress (aslrBase s hint).1 ↔
      ∃ r : BitVec 64, r.extractLsb' 44 4 < 7#4 ∧ s.aslrSeed + hint = unmix64 r := by
  rw [and_iff_right (aslrBase_aligned s hint), aslrBase_user]
  constructor
  · intro h
    exact ⟨mix64 s.aslrSeed hint, h, (unmix64_mix64 _ _).symm⟩
  · rintro ⟨r, hr, hsum⟩
    rwa [mix64_eq_iff.mpr hsum]

/-- With the fallback seed, a hint of zero is given an address past the user half. -/
theorem aslr_base_leaves_user_space :
    ¬(PageAligned (aslrBase (init none) 0#64).1 ∧ UserAddress (aslrBase (init none) 0#64).1) := by
  decide

end MemoryHardening
