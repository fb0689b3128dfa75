import Mathlib

/-!
# Unsigned 64-bit machine words

A machine word is a natural number below `2 ^ 64`.  Sums, differences and
products wrap, as the arithmetic of a release build does; the comparison of
two words is the comparison of the numbers.  Nothing here depends on the
program that is modelled on top of it.

The lemmas say when a wrapped result is the unbounded one, and what masking
off the low twelve bits does.
-/

namespace MachineWord

/-- One more than the largest word. -/
def modulus : Nat := 2 ^ 64

/-- Wrapping addition. -/
@[irreducible] def add (a b : Nat) : Nat := (a + b) % modulus

/-- Wrapping subtraction. -/
@[irreducible] def sub (a b : Nat) : Nat := (a + (modulus - b)) % modulus

/-- Wrapping multiplication. -/
@[irreducible] def mul (a b : Nat) : Nat := a * b % modulus

/-- `a & !0xFFF`: clear the twelve low bits of a word. -/
@[irreducible] def pageMask (a : Nat) : Nat := a &&& 0xFFFFFFFFFFFFF000

/-- Sums are words. -/
theorem add_lt (a b : Nat) : add a b < modulus := by
  unfold add
  exact Nat.mod_lt _ (by decide)

/-- Differences are words. -/
theorem sub_lt (a b : Nat) : sub a b < modulus := by
  unfold sub
  exact Nat.mod_lt _ (by decide)

/-- A sum that fits does not wrap. -/
theorem add_eq {a b : Nat} (h : a + b < modulus) : add a b = a + b := by
  unfold add
  exact Nat.mod_eq_of_lt h

/-- Past a wrapped sum, as long as there is no further wrap. -/
theorem add_add {a b k : Nat} (h : add a b + k < modulus) : add a (b + k) = add a b + k := by
  unfold add at h ⊢
  rw [← Nat.add_assoc, Nat.add_mod, Nat.mod_eq_of_lt (a := k) (by omega), Nat.mod_eq_of_lt h]

/-- A product that fits does not wrap. -/
theorem mul_eq {a b : Nat} (h : a * b < modulus) : mul a b = a * b := by
  unfold mul
  exact Nat.mod_eq_of_lt h

/-- A difference that does not go below zero does not wrap. -/
theorem sub_eq {a b : Nat} (ha : a < modulus) (hb : b ≤ a) : sub a b = a - b := by
  unfold sub
  have hsplit : a + (modulus - b) = (a - b) + modulus := by omega
  rw [hsplit, Nat.add_mod_right, Nat.mod_eq_of_lt (by omega)]

/-- Masking off the low bits rounds down to a multiple of 4096. -/
theorem pageMask_eq {a : Nat} (h : a < modulus) : pageMask a = a / 4096 * 4096 := by
  have hmask : (0xFFFFFFFFFFFFF000 : Nat) = (2 ^ 52 - 1) <<< 12 := by decide
  have hround : a / 4096 * 4096 = (a >>> 12) <<< 12 := by
    rw [Nat.shiftRight_eq_div_pow, Nat.shiftLeft_eq]
  unfold pageMask
  rw [hmask, hround]
  apply Nat.eq_of_testBit_eq
  intro i
  simp only [Nat.testBit_and, Nat.testBit_shiftLeft, Nat.testBit_shiftRight,
    Nat.testBit_two_pow_sub_one]
  by_cases hlow : 12 ≤ i
  · by_cases hhigh : i < 64
    · have hbit : i - 12 < 52 := by omega
      simp [hlow, hbit, Nat.add_sub_cancel' hlow]
    · have hzero : a.testBit i = false :=
        Nat.testBit_lt_two_pow (lt_of_lt_of_le h (Nat.pow_le_pow_right (by decide) (by omega)))
      simp [hlow, hzero, Nat.add_sub_cancel' hlow]
  · simp [hlow]

/-- Rounding to a page goes down. -/
theorem pageMask_le {a : Nat} (h : a < modulus) : pageMask a ≤ a := by
  rw [pageMask_eq h]
  omega

/-- And ends at the start of one. -/
theorem dvd_pageMask {a : Nat} (h : a < modulus) : 4096 ∣ pageMask a := by
  rw [pageMask_eq h]
  exact Dvd.intro_left _ rfl

/-- All addresses of a page have the same page. -/
theorem pageMask_add {a k : Nat} (h : a < modulus) (hk : a + k < pageMask a + 4096) :
    pageMask (a + k) = pageMask a ∧ a + k < modulus := by
  rw [pageMask_eq h] at hk ⊢
  have hroom : a + k < modulus := by
    unfold modulus at h ⊢
    omega
  rw [pageMask_eq hroom]
  omega

end MachineWord
