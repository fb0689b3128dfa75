import Mathlib

/-!
# What is known of a store

A store of cells that is written in ranges, and of which not every cell is known
at every time: a write that has failed may have changed any cell of its range.
A view says what a cell must hold, or nothing.  `Shows` relates a view to the
store, and is kept by what writes do to both.
-/

namespace StoreView

/-- What each cell holds; `none` if that is not known. -/
abbrev View (β : Type) := Nat → Option β

variable {β : Type} {v : View β} {cells cells' : Nat → β} {start n a : Nat} {data : List β}

/-- The view is right about the cells. -/
def Shows (v : View β) (cells : Nat → β) : Prop := ∀ a b, v a = some b → cells a = b

/-- All is known. -/
def full (cells : Nat → β) : View β := fun a => some (cells a)

/-- The cells from `start` on hold `data`. -/
def overwrite (v : View β) (start : Nat) (data : List β) : View β := fun a =>
  if start ≤ a ∧ a < start + data.length then data[a - start]? else v a

/-- The `n` cells from `start` on can hold anything. -/
def forget (v : View β) (start n : Nat) : View β := fun a =>
  if start ≤ a ∧ a < start + n then none else v a

/-- A full view is right. -/
theorem shows_full (cells : Nat → β) : Shows (full cells) cells :=
  fun _ _ h => Option.some.inj h

/-- A write is known at each place it covers. -/
theorem overwrite_inside {i : Nat} (h : i < data.length) :
    overwrite v start data (start + i) = data[i]? := by
  have hrange : start ≤ start + i ∧ start + i < start + data.length := by omega
  rw [overwrite, if_pos hrange, Nat.add_sub_cancel_left]

/-- A write leaves what was known elsewhere. -/
theorem overwrite_outside (h : a < start ∨ start + data.length ≤ a) :
    overwrite v start data a = v a :=
  if_neg (by omega)

/-- Forgetting leaves what was known elsewhere. -/
theorem forget_outside (h : a < start ∨ start + n ≤ a) : forget v start n a = v a :=
  if_neg (by omega)

/-- The cells other than the `n` from `start` on are the same. -/
def SameOutside (start n : Nat) (cells cells' : Nat → β) : Prop :=
  ∀ a, a < start ∨ start + n ≤ a → cells' a = cells a

/-- The cells themselves are the same. -/
theorem SameOutside.refl (start n : Nat) (cells : Nat → β) : SameOutside start n cells cells :=
  fun _ _ => rfl

/-- A write that is known to be done. -/
theorem Shows.overwrite (h : Shows v cells) (hout : SameOutside start data.length cells cells')
    (hin : ∀ i, i < data.length → data[i]? = some (cells' (start + i))) :
    Shows (overwrite v start data) cells' := by
  intro a b hb
  by_cases hrange : start ≤ a ∧ a < start + data.length
  · obtain ⟨i, rfl⟩ := Nat.exists_eq_add_of_le hrange.1
    have hi : i < data.length := by omega
    rw [overwrite_inside hi, hin i hi] at hb
    exact Option.some.inj hb
  · rw [overwrite_outside (by omega)] at hb
    rw [hout a (by omega)]
    exact h a b hb

/-- A write that may be done in part. -/
theorem Shows.forget (h : Shows v cells) (hout : SameOutside start n cells cells') :
    Shows (forget v start n) cells' := by
  intro a b hb
  by_cases hrange : start ≤ a ∧ a < start + n
  · rw [StoreView.forget, if_pos hrange] at hb
    cases hb
  · rw [forget_outside (by omega)] at hb
    rw [hout a (by omega)]
    exact h a b hb

end StoreView
