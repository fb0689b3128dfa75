import Mathlib.Data.BitVec
import Mathlib.Data.Finite.Defs
import Mathlib.Data.Fintype.EquivFin

/-!
# Mixing words

The steps word mixers are made of, for any word length, and how each is undone: a word
xored with its own right shift, and a product with a unit.  A mixer composed of them
is a bijection whose inverse can be computed.
-/

namespace WordMixing

variable {w : Nat}

/-- The word xored with its own right shift. -/
def xorShift (k : Nat) (x : BitVec w) : BitVec w := x ^^^ (x >>> k)

/-- Undoes an xor-shift; every round gets `k` more of the high bits right. -/
def undoXorShift (k : Nat) (y : BitVec w) : Nat → BitVec w
  | 0 => y
  | rounds + 1 => y ^^^ (undoXorShift k y rounds >>> k)

/-- What is still wrong after some rounds is a shift of the word. -/
theorem undoXorShift_xor (k : Nat) (x : BitVec w) (rounds : Nat) :
    undoXorShift k (xorShift k x) rounds = x ^^^ (x >>> (k * (rounds + 1))) := by
  induction rounds with
  | zero => simp [undoXorShift, xorShift]
  | succ rounds ih =>
      have hshift : x >>> (k * (rounds + 1)) >>> k = x >>> (k * (rounds + 1 + 1)) := by
        rw [← BitVec.shiftRight_add]
        rfl
      calc undoXorShift k (xorShift k x) (rounds + 1)
          = (x ^^^ (x >>> k)) ^^^ ((x ^^^ (x >>> (k * (rounds + 1)))) >>> k) := by
            rw [undoXorShift, ih, xorShift]
        _ = x ^^^ ((x >>> k) ^^^ ((x >>> k) ^^^ (x >>> (k * (rounds + 1 + 1))))) := by
            rw [BitVec.ushiftRight_xor_distrib, hshift, BitVec.xor_assoc]
        _ = x ^^^ (x >>> (k * (rounds + 1 + 1))) := by
            rw [← BitVec.xor_assoc (x >>> k), BitVec.xor_self, BitVec.zero_xor]

/-- Enough rounds undo it. -/
theorem undoXorShift_xorShift {k rounds : Nat} (h : w ≤ k * (rounds + 1)) (x : BitVec w) :
    undoXorShift k (xorShift k x) rounds = x := by
  have hzero : x >>> (k * (rounds + 1)) = 0#w := by
    apply BitVec.eq_of_getLsbD_eq
    intro i _
    rw [BitVec.getLsbD_ushiftRight, BitVec.getLsbD_zero]
    exact BitVec.getLsbD_of_ge _ _ (by omega)
  rw [undoXorShift_xor, hzero, BitVec.xor_zero]

/-- A product with a unit is undone by its inverse. -/
theorem mul_mul_of_unit {c d : BitVec w} (h : c * d = 1#w) (x : BitVec w) : x * c * d = x := by
  rw [BitVec.mul_assoc, h, BitVec.mul_one]

/-- A field of `m` bits at bit `n`, cut out in place. -/
theorem and_field (a n m : Nat) : a &&& (2 ^ m - 1) <<< n = a / 2 ^ n % 2 ^ m * 2 ^ n := by
  rw [← Nat.shiftRight_eq_div_pow, ← Nat.shiftLeft_eq]
  apply Nat.eq_of_testBit_eq
  intro i
  simp only [Nat.testBit_and, Nat.testBit_shiftLeft, Nat.testBit_mod_two_pow,
    Nat.testBit_shiftRight, Nat.testBit_two_pow_sub_one]
  by_cases hlow : n ≤ i
  · simp [hlow, Nat.add_sub_cancel' hlow, Bool.and_comm]
  · simp [hlow]

/-- On words, what undoes a function is also undone by it. -/
theorem undone {f g : BitVec w → BitVec w} (h : Function.LeftInverse g f) :
    Function.RightInverse g f := by
  have : Finite (BitVec w) := Finite.of_injective BitVec.toFin BitVec.toFin_injective
  have hsurjective : Function.Surjective f := Finite.surjective_of_injective h.injective
  exact h.rightInverse_of_surjective hsurjective

end WordMixing
