import Mathlib

/-!
# Binary space partitioning of the screen

`bspRects` cuts an area in two along its longer side, half of the windows going to
each part, and the left part gives up half of the gap.  Coordinates are 32-bit and
wrap; `Exact` says that nowhere in the recursion they do.

`Packed` is what the partition is for: rectangles within an area whose interiors,
as sets of pixels, do not meet.  Without a gap they cover the area
(`bspRects_covers`), and none is empty if the area is large enough for the number of
cuts (`bspRects_nonempty`).
-/

namespace WindowManager

/-- `Rect` -/
structure Rect where
  x : Int32
  y : Int32
  w : UInt32
  h : UInt32
deriving DecidableEq

/-- `a.saturating_sub(b)` -/
def saturatingSub (a b : UInt32) : UInt32 := if b ≤ a then a - b else 0

/-- The two parts of an area. -/
def split (area : Rect) (gap : Int32) : Rect × Rect :=
  if area.w ≥ area.h then
    let mid := area.w / 2
    (⟨area.x, area.y, saturatingSub mid (gap.toUInt32 / 2), area.h⟩,
      ⟨area.x + mid.toInt32, area.y, area.w - mid, area.h⟩)
  else
    let mid := area.h / 2
    (⟨area.x, area.y, area.w, saturatingSub mid (gap.toUInt32 / 2)⟩,
      ⟨area.x, area.y + mid.toInt32, area.w, area.h - mid⟩)

/-- Recursively partition `area` into `n` slices. -/
def bspRects (area : Rect) (n : Nat) (gap : Int32) : List Rect :=
  if n = 0 then []
  else if n = 1 then [area]
  else
    let left := n / 2
    let right := n - left
    bspRects (split area gap).1 left gap ++ bspRects (split area gap).2 right gap
termination_by n
decreasing_by all_goals omega

namespace Rect

/-- The first column to the right of it. -/
def right (r : Rect) : Int := r.x.toInt + r.w.toNat

/-- The first row below it. -/
def bottom (r : Rect) : Int := r.y.toInt + r.h.toNat

/-- The pixels of a rectangle. -/
def interior (r : Rect) : Set (Int × Int) :=
  {p | (r.x.toInt ≤ p.1 ∧ p.1 < r.right) ∧ r.y.toInt ≤ p.2 ∧ p.2 < r.bottom}

/-- `r` does not go beyond the area on any side. -/
structure Within (r area : Rect) : Prop where
  left : area.x.toInt ≤ r.x.toInt
  right : r.right ≤ area.right
  top : area.y.toInt ≤ r.y.toInt
  bottom : r.bottom ≤ area.bottom

/-- They have no pixel in common. -/
def Apart (r s : Rect) : Prop := Disjoint r.interior s.interior

/-- Both sides have at least `m` pixels. -/
def AtLeast (m : Nat) (r : Rect) : Prop := m ≤ r.w.toNat ∧ m ≤ r.h.toNat

/-- The right and the bottom edge are `i32` values. -/
structure Fits (r : Rect) : Prop where
  right : r.right < 2 ^ 31
  bottom : r.bottom < 2 ^ 31

/-- A rectangle is within itself. -/
theorem Within.refl (r : Rect) : r.Within r :=
  ⟨Int.le_refl _, Int.le_refl _, Int.le_refl _, Int.le_refl _⟩

/-- What is within something within an area is within the area. -/
theorem Within.trans {r s t : Rect} (h : r.Within s) (h' : s.Within t) : r.Within t :=
  ⟨h'.left.trans h.left, h.right.trans h'.right, h'.top.trans h.top, h.bottom.trans h'.bottom⟩

/-- Its pixels are pixels of the area. -/
theorem Within.interior_subset {r s : Rect} (h : r.Within s) : r.interior ⊆ s.interior := by
  rintro p ⟨⟨hleft, hright⟩, htop, hbottom⟩
  exact ⟨⟨h.left.trans hleft, hright.trans_le h.right⟩, h.top.trans htop,
    hbottom.trans_le h.bottom⟩

/-- Parts of rectangles without common pixels have none either. -/
theorem Apart.mono {r r' s s' : Rect} (h : r.Apart s) (hr : r'.Within r) (hs : s'.Within s) :
    r'.Apart s' :=
  Disjoint.mono hr.interior_subset hs.interior_subset h

/-- One is to the left of the other, or above it. -/
theorem apart_of_le {r s : Rect} (h : r.right ≤ s.x.toInt ∨ r.bottom ≤ s.y.toInt) : r.Apart s := by
  refine Set.disjoint_left.mpr ?_
  rintro p ⟨⟨-, hright⟩, -, hbottom⟩ ⟨⟨hleft, -⟩, htop, -⟩
  rcases h with h | h
  · exact absurd (hright.trans_le (h.trans hleft)) (lt_irrefl _)
  · exact absurd (hbottom.trans_le (h.trans htop)) (lt_irrefl _)

end Rect

/-- The rectangles are within the area and their interiors do not meet. -/
structure Packed (area : Rect) (rects : List Rect) : Prop where
  within : ∀ r ∈ rects, r.Within area
  apart : rects.Pairwise Rect.Apart

namespace Packed

variable {area a b : Rect} {rects others : List Rect}

/-- No rectangles. -/
theorem nil (area : Rect) : Packed area [] := ⟨List.forall_mem_nil _, List.Pairwise.nil⟩

/-- The area itself. -/
theorem singleton (area : Rect) : Packed area [area] :=
  ⟨fun _ hr => List.mem_singleton.mp hr ▸ Rect.Within.refl area, List.pairwise_singleton _ _⟩

/-- Two parts of an area, each packed. -/
theorem append (hrects : Packed a rects) (hothers : Packed b others) (ha : a.Within area)
    (hb : b.Within area) (hab : a.Apart b) : Packed area (rects ++ others) := by
  refine ⟨fun r hr => ?_, List.pairwise_append.mpr ⟨hrects.apart, hothers.apart, ?_⟩⟩
  · rcases List.mem_append.mp hr with hr | hr
    · exact (hrects.within r hr).trans ha
    · exact (hothers.within r hr).trans hb
  · intro r hr s hs
    exact hab.mono (hrects.within r hr) (hothers.within s hs)

/-- Some of them. -/
theorem sublist (h : Packed area rects) (hsub : List.Sublist others rects) : Packed area others :=
  ⟨fun r hr => h.within r (hsub.subset hr), h.apart.sublist hsub⟩

end Packed

/-- The coordinate of the cut is the sum it is meant to be, and what is left is not negative. -/
def ExactSplit (area : Rect) : Prop :=
  if area.w ≥ area.h then
    (area.x + (area.w / 2).toInt32).toInt = area.x.toInt + (area.w / 2).toNat ∧ area.w / 2 ≤ area.w
  else
    (area.y + (area.h / 2).toInt32).toInt = area.y.toInt + (area.h / 2).toNat ∧ area.h / 2 ≤ area.h

/-- No coordinate wraps, in any of the cuts that `bspRects` makes. -/
def Exact (area : Rect) (n : Nat) (gap : Int32) : Prop :=
  if n ≤ 1 then True
  else ExactSplit area ∧ Exact (split area gap).1 (n / 2) gap ∧
    Exact (split area gap).2 (n - n / 2) gap
termination_by n
decreasing_by all_goals omega

section
variable {area : Rect}

/-- A width below `2 ^ 31` is what it is as a coordinate. -/
private theorem toInt_toInt32 {a : UInt32} (h : a.toNat < 2 ^ 31) : a.toInt32.toInt = a.toNat := by
  have htoInt : a.toInt32.toInt = a.toBitVec.toInt := rfl
  rw [htoInt, BitVec.toInt_eq_toNat_of_lt]
  · rfl
  · change 2 * a.toNat < 2 ^ 32
    omega

/-- The cut of a side whose end is a coordinate does not wrap. -/
theorem toInt_add_half {x : Int32} {a : UInt32}
    (hedge : x.toInt + a.toNat < 2 ^ 31) :
    (x + (a / 2).toInt32).toInt = x.toInt + (a / 2).toNat := by
  have hhalf : (a / 2).toNat = a.toNat / 2 := UInt32.toNat_div a 2
  have hlow : -2 ^ 31 ≤ x.toInt := x.le_toInt
  rw [Int32.toInt_add, toInt_toInt32 (by omega)]
  exact Int.bmod_eq_of_le (by omega) (by omega)

/-- What is subtracted cannot make a width grow. -/
theorem toNat_saturatingSub_le (a b : UInt32) : (saturatingSub a b).toNat ≤ a.toNat := by
  unfold saturatingSub
  split
  next h =>
    rw [UInt32.toNat_sub_of_le a b h]
    exact Nat.sub_le _ _
  next => exact Nat.zero_le _

/-- Half of a width is not more than it. -/
theorem half_le (a : UInt32) : a / 2 ≤ a := by
  rw [UInt32.le_iff_toNat_le, UInt32.toNat_div]
  exact Nat.div_le_self _ _

/-- The other half has the odd pixel. -/
theorem toNat_sub_half (a : UInt32) : (a - a / 2).toNat = a.toNat - a.toNat / 2 := by
  rw [UInt32.toNat_sub_of_le a _ (half_le a), UInt32.toNat_div]
  rfl

/-- The cut of an area that fits is exact. -/
private theorem exactSplit (h : area.Fits) : ExactSplit area := by
  unfold ExactSplit
  split
  · exact ⟨toInt_add_half h.right, half_le _⟩
  · exact ⟨toInt_add_half h.bottom, half_le _⟩

/-- The two parts are within the area and do not meet. -/
theorem split_spec (h : area.Fits) (gap : Int32) :
    (split area gap).1.Within area ∧ (split area gap).2.Within area ∧
      (split area gap).1.Apart (split area gap).2 := by
  unfold split
  split
  · have hmid := toInt_add_half h.right
    have hhalf : (area.w / 2).toNat = area.w.toNat / 2 := UInt32.toNat_div area.w 2
    have hleft := toNat_saturatingSub_le (area.w / 2) (gap.toUInt32 / 2)
    have hright := toNat_sub_half area.w
    refine ⟨⟨le_refl _, ?_, le_refl _, le_refl _⟩, ⟨?_, ?_, le_refl _, le_refl _⟩,
      Rect.apart_of_le (Or.inl ?_)⟩
    · simp only [Rect.right]
      omega
    · dsimp only
      omega
    · simp only [Rect.right]
      omega
    · simp only [Rect.right]
      omega
  · have hmid := toInt_add_half h.bottom
    have hhalf : (area.h / 2).toNat = area.h.toNat / 2 := UInt32.toNat_div area.h 2
    have hleft := toNat_saturatingSub_le (area.h / 2) (gap.toUInt32 / 2)
    have hright := toNat_sub_half area.h
    refine ⟨⟨le_refl _, le_refl _, le_refl _, ?_⟩, ⟨le_refl _, le_refl _, ?_, ?_⟩,
      Rect.apart_of_le (Or.inr ?_)⟩
    · simp only [Rect.bottom]
      omega
    · dsimp only
      omega
    · simp only [Rect.bottom]
      omega
    · simp only [Rect.bottom]
      omega

/-- Without a gap the two parts make up the area. -/
theorem split_covers (h : area.Fits) :
    area.interior ⊆ (split area 0).1.interior ∪ (split area 0).2.interior := by
  have hzero : ∀ a : UInt32, saturatingSub a ((0 : Int32).toUInt32 / 2) = a := by
    intro a
    have hnone : (0 : Int32).toUInt32 / 2 = 0 := by decide
    rw [hnone, saturatingSub, if_pos (UInt32.zero_le), UInt32.sub_zero]
  rintro p ⟨⟨hleft, hright⟩, htop, hbottom⟩
  simp only [Rect.right, Rect.bottom] at hright hbottom
  unfold split
  split
  · have hmid := toInt_add_half h.right
    have hhalf : (area.w / 2).toNat = area.w.toNat / 2 := UInt32.toNat_div area.w 2
    have hrest := toNat_sub_half area.w
    rcases lt_or_ge p.1 (area.x + (area.w / 2).toInt32).toInt with hlt | hge
    · left
      refine ⟨⟨hleft, ?_⟩, htop, hbottom⟩
      simp only [Rect.right, hzero]
      omega
    · right
      refine ⟨⟨hge, ?_⟩, htop, hbottom⟩
      simp only [Rect.right]
      omega
  · have hmid := toInt_add_half h.bottom
    have hhalf : (area.h / 2).toNat = area.h.toNat / 2 := UInt32.toNat_div area.h 2
    have hrest := toNat_sub_half area.h
    rcases lt_or_ge p.2 (area.y + (area.h / 2).toInt32).toInt with hlt | hge
    · left
      refine ⟨⟨hleft, hright⟩, htop, ?_⟩
      simp only [Rect.bottom, hzero]
      omega
    · right
      refine ⟨⟨hleft, hright⟩, hge, ?_⟩
      simp only [Rect.bottom]
      omega

/-- A part of the area has half of its longer side, less half of the gap. -/
theorem split_atLeast {m : Nat} (gap : Int32)
    (h : area.AtLeast (2 * m + gap.toUInt32.toNat)) :
    (split area gap).1.AtLeast m ∧ (split area gap).2.AtLeast m := by
  obtain ⟨hw, hh⟩ := h
  have hgap : (gap.toUInt32 / 2).toNat = gap.toUInt32.toNat / 2 := UInt32.toNat_div _ 2
  have hcut : ∀ a : UInt32, 2 * m + gap.toUInt32.toNat ≤ a.toNat →
      m ≤ (saturatingSub (a / 2) (gap.toUInt32 / 2)).toNat := by
    intro a ha
    have hhalf : (a / 2).toNat = a.toNat / 2 := UInt32.toNat_div a 2
    have hle : gap.toUInt32 / 2 ≤ a / 2 := by
      rw [UInt32.le_iff_toNat_le]
      omega
    rw [saturatingSub, if_pos hle, UInt32.toNat_sub_of_le _ _ hle]
    omega
  unfold split
  split
  · refine ⟨⟨hcut _ hw, ?_⟩, ?_, ?_⟩
    · dsimp only
      omega
    · have hrest := toNat_sub_half area.w
      dsimp only
      omega
    · dsimp only
      omega
  · refine ⟨⟨?_, hcut _ hh⟩, ?_, ?_⟩
    · dsimp only
      omega
    · dsimp only
      omega
    · have hrest := toNat_sub_half area.h
      dsimp only
      omega

/-- What is within an area that fits does too. -/
theorem Rect.Within.fits {r : Rect} (h : r.Within area) (hfits : area.Fits) : r.Fits :=
  ⟨h.right.trans_lt hfits.right, h.bottom.trans_lt hfits.bottom⟩

end

/-- There are as many rectangles as windows. -/
theorem bspRects_length (area : Rect) (n : Nat) (gap : Int32) :
    (bspRects area n gap).length = n := by
  induction n using Nat.strong_induction_on generalizing area with
  | h n ih =>
      rw [bspRects]
      split
      next hzero => exact hzero.symm
      next hzero =>
        split
        next hone => exact hone.symm
        next hone =>
          dsimp only
          rw [List.length_append, ih (n / 2) (by omega), ih (n - n / 2) (by omega)]
          omega

/-- **They are packed**, whatever the gap: the two parts are, by the split, and what is
in them. -/
theorem bspRects_packed {area : Rect} (h : area.Fits) (n : Nat) (gap : Int32) :
    Packed area (bspRects area n gap) := by
  induction n using Nat.strong_induction_on generalizing area with
  | h n ih =>
      rw [bspRects]
      split
      next => exact Packed.nil area
      next hzero =>
        split
        next => exact Packed.singleton area
        next hone =>
          obtain ⟨hfirst, hsecond, hapart⟩ := split_spec h gap
          exact (ih (n / 2) (by omega) (hfirst.fits h)).append
            (ih (n - n / 2) (by omega) (hsecond.fits h)) hfirst hsecond hapart

/-- **Without a gap the rectangles cover the area**: each of its pixels is in one of
them, and by `bspRects_packed` in no other. -/
theorem bspRects_covers {area : Rect} (h : area.Fits) {n : Nat} (hn : 0 < n)
    {p : Int × Int} (hp : p ∈ area.interior) : ∃ r ∈ bspRects area n 0, p ∈ r.interior := by
  induction n using Nat.strong_induction_on generalizing area with
  | h n ih =>
      rw [bspRects, if_neg (by omega)]
      split
      next => exact ⟨area, List.mem_singleton_self _, hp⟩
      next hone =>
        obtain ⟨hfirst, hsecond, -⟩ := split_spec h 0
        rcases split_covers h hp with hp | hp
        · obtain ⟨r, hr, hin⟩ := ih (n / 2) (by omega) (hfirst.fits h) (by omega) hp
          exact ⟨r, List.mem_append_left _ hr, hin⟩
        · obtain ⟨r, hr, hin⟩ := ih (n - n / 2) (by omega) (hsecond.fits h) (by omega) hp
          exact ⟨r, List.mem_append_right _ hr, hin⟩

/-- **On a large enough area no rectangle is empty**: after `k` cuts each side still
has a pixel. -/
theorem bspRects_nonempty {area : Rect} {gap : Int32} {n k : Nat} (hn : n ≤ 2 ^ k)
    (h : area.AtLeast (2 ^ k * (gap.toUInt32.toNat + 1) - gap.toUInt32.toNat)) :
    ∀ r ∈ bspRects area n gap, r.AtLeast 1 := by
  have hside : ∀ j, gap.toUInt32.toNat + 1 ≤ 2 ^ j * (gap.toUInt32.toNat + 1) :=
    fun j => Nat.le_mul_of_pos_left _ (Nat.two_pow_pos j)
  induction k generalizing n area with
  | zero =>
      intro r hr
      have hfew : n ≤ 1 := hn
      rw [bspRects] at hr
      split at hr
      next => cases hr
      next =>
        rw [if_pos (by omega)] at hr
        obtain rfl := List.mem_singleton.mp hr
        exact ⟨by have := h.1; omega, by have := h.2; omega⟩
  | succ k ih =>
      intro r hr
      have hk := hside k
      rw [Nat.pow_succ, Nat.mul_right_comm] at h
      rw [bspRects] at hr
      split at hr
      next => cases hr
      next =>
        split at hr
        next =>
          obtain rfl := List.mem_singleton.mp hr
          exact ⟨by have := h.1; omega, by have := h.2; omega⟩
        next =>
          have hcut : area.AtLeast (2 * (2 ^ k * (gap.toUInt32.toNat + 1) - gap.toUInt32.toNat) +
              gap.toUInt32.toNat) := ⟨by have := h.1; omega, by have := h.2; omega⟩
          obtain ⟨hfirst, hsecond⟩ := split_atLeast gap hcut
          rw [Nat.pow_succ] at hn
          rcases List.mem_append.mp hr with hr | hr
          · exact ih (by omega) hfirst r hr
          · exact ih (by omega) hsecond r hr

/-- **No coordinate wraps**, as the two parts fit again. -/
theorem bspRects_exact {area : Rect} (h : area.Fits) (n : Nat) (gap : Int32) :
    Exact area n gap := by
  induction n using Nat.strong_induction_on generalizing area with
  | h n ih =>
      rw [Exact]
      split
      next => trivial
      next hmany =>
        obtain ⟨hfirst, hsecond, -⟩ := split_spec h gap
        exact ⟨exactSplit h, ih (n / 2) (by omega) (hfirst.fits h),
          ih (n - n / 2) (by omega) (hsecond.fits h)⟩

end WindowManager
