import Noxisa.MachineWord

/-!
# Filling rectangles

The framebuffer driver keeps an address, a width and a height, and computes the
length of a scan line from the width.  `fill_rect` cuts the rectangle off at the
edges of the screen, with sums of 32 bits, and stores the colour pixel by pixel.

It paints the pixels it should if the sums do not wrap and the scan lines are as
long as the driver takes them to be (`fillRect_clips`); a boot protocol may
report longer ones.
-/

namespace Framebuffer

open MachineWord

/-- Where the pixels are. -/
structure Fb where
  addr : Nat
  width : UInt32
  height : UInt32
  /-- bytes per row -/
  pitch : UInt32

/-- What `init` stores.  `offset` is `hhdm_offset()`. -/
def init (offset physAddr : Nat) (width height : UInt32) : Fb :=
  { addr := add physAddr offset, width := width, height := height, pitch := width * 4 }

/-- A store of a pixel: address and colour. -/
abbrev Store := Nat × UInt32

/-- `n` pixels from `ptr` on. -/
def fillRow (colour : UInt32) : Nat → Nat → List Store
  | _, 0 => []
  | ptr, n + 1 => (ptr, colour) :: fillRow colour (add ptr 4) n

/-- The stores of `fill_rect`. -/
def fillRect (fb : Fb) (x y w h colour : UInt32) : List Store :=
  let xEnd := min (x + w) fb.width
  let yEnd := min (y + h) fb.height
  (List.range' y.toNat (yEnd.toNat - y.toNat)).flatMap (fun row =>
    let rowBase := add fb.addr (mul row fb.pitch.toNat)
    fillRow colour (add rowBase (mul x.toNat 4)) (xEnd.toNat - x.toNat))

/-- A framebuffer as the boot protocol reports it, with its real scan lines. -/
structure Screen where
  offset : Nat
  physAddr : Nat
  width : UInt32
  height : UInt32
  pitch : Nat
  wide : 4 * width.toNat ≤ pitch
  /-- it lies in the address space -/
  fits : add physAddr offset + height.toNat * pitch ≤ modulus

namespace Screen

/-- What the driver registers. -/
def fb (s : Screen) : Fb := init s.offset s.physAddr s.width s.height

/-- Where the pixel in column `i` of row `j` is. -/
def pixel (s : Screen) (i j : Nat) : Nat := s.fb.addr + j * s.pitch + 4 * i

/-- Column `i` of row `j` is on the screen and in the rectangle. -/
def Inside (s : Screen) (x y w h : UInt32) (i j : Nat) : Prop :=
  x.toNat ≤ i ∧ i < x.toNat + w.toNat ∧ y.toNat ≤ j ∧ j < y.toNat + h.toNat ∧
    i < s.width.toNat ∧ j < s.height.toNat

/-- The stores paint the rectangle and nothing else. -/
structure Paints (s : Screen) (x y w h colour : UInt32) (stores : List Store) : Prop where
  colour_eq : ∀ st ∈ stores, st.2 = colour
  exact : {a | ∃ c, (a, c) ∈ stores} = {a | ∃ i j, s.Inside x y w h i j ∧ a = s.pixel i j}

/-- The rectangle is empty or off the screen; or no sum wraps, and the scan lines
are those of the driver, unless nothing but the first one is painted. -/
def Clips (s : Screen) (x y w h : UInt32) : Prop :=
  (w = 0 ∨ h = 0 ∨ s.width ≤ x ∨ s.height ≤ y) ∨
    (x.toNat + w.toNat < 2 ^ 32 ∧ y.toNat + h.toNat < 2 ^ 32 ∧
      (s.pitch = 4 * s.width.toNat % 2 ^ 32 ∨ min (y.toNat + h.toNat) s.height.toNat ≤ 1))

end Screen

/-- A row of pixels is one word each. -/
theorem mem_fillRow {colour c : UInt32} {ptr n a : Nat} (hroom : ptr + 4 * n ≤ modulus) :
    (a, c) ∈ fillRow colour ptr n ↔ c = colour ∧ ∃ k < n, a = ptr + 4 * k := by
  induction n generalizing ptr with
  | zero => simp [fillRow]
  | succ n ih =>
      rw [fillRow, List.mem_cons]
      have hrest : (a, c) ∈ fillRow colour (add ptr 4) n ↔
          c = colour ∧ ∃ k < n, a = ptr + 4 + 4 * k := by
        cases n with
        | zero => simp [fillRow]
        | succ n =>
            rw [add_eq (by omega)]
            exact ih (by omega)
      rw [hrest]
      constructor
      · rintro (heq | ⟨hc, k, hk, ha⟩)
        · obtain ⟨rfl, rfl⟩ := Prod.mk.inj heq
          exact ⟨rfl, 0, by omega, by omega⟩
        · exact ⟨hc, k + 1, by omega, by omega⟩
      · rintro ⟨rfl, k, hk, rfl⟩
        cases k with
        | zero => exact Or.inl rfl
        | succ k => exact Or.inr ⟨rfl, k, by omega, by omega⟩

/-- The pitch of the driver is not larger than that of the screen. -/
theorem pitch_le (s : Screen) : s.fb.pitch.toNat = 4 * s.width.toNat % 2 ^ 32 ∧
    s.fb.pitch.toNat ≤ s.pitch := by
  have heq : s.fb.pitch.toNat = 4 * s.width.toNat % 2 ^ 32 := by
    simp [Screen.fb, init, UInt32.toNat_mul, Nat.mul_comm]
  have hwide := s.wide
  exact ⟨heq, by omega⟩

/-- The last row of the screen fits. -/
private theorem row_fits {s : Screen} {i j : Nat} (hi : i < s.width.toNat)
    (hj : j < s.height.toNat) :
    s.fb.addr + j * s.pitch + 4 * i + 4 ≤ modulus := by
  have hfits := s.fits
  have hwide := s.wide
  have hrows : (j + 1) * s.pitch ≤ s.height.toNat * s.pitch := Nat.mul_le_mul_right _ hj
  have haddr : s.fb.addr = add s.physAddr s.offset := rfl
  rw [Nat.add_mul, Nat.one_mul] at hrows
  omega

/-- One row of `fill_rect`. -/
theorem mem_row {s : Screen} {colour c : UInt32} {x xEnd j a : Nat} (hj : j < s.height.toNat)
    (hx : xEnd ≤ s.width.toNat) :
    (a, c) ∈ fillRow colour (add (add s.fb.addr (mul j s.fb.pitch.toNat)) (mul x 4)) (xEnd - x) ↔
      c = colour ∧ ∃ i, x ≤ i ∧ i < xEnd ∧ a = s.fb.addr + j * s.fb.pitch.toNat + 4 * i := by
  by_cases hlt : x < xEnd
  · obtain ⟨-, hpitch⟩ := pitch_le s
    have hrow := row_fits (i := xEnd - 1) (by omega) hj
    have hmul : j * s.fb.pitch.toNat ≤ j * s.pitch := Nat.mul_le_mul_left _ hpitch
    rw [mul_eq (by omega), mul_eq (by omega), add_eq (a := s.fb.addr) (by omega),
      add_eq (by omega), mem_fillRow (by omega)]
    refine and_congr_right (fun _ => ⟨?_, ?_⟩)
    · rintro ⟨k, hk, rfl⟩
      exact ⟨x + k, by omega, by omega, by omega⟩
    · rintro ⟨i, hlo, hhi, rfl⟩
      exact ⟨i - x, by omega, by omega⟩
  · have hnone : xEnd - x = 0 := by omega
    rw [hnone, fillRow]
    refine iff_of_false (List.not_mem_nil) ?_
    rintro ⟨-, i, hlo, hhi, -⟩
    omega

/-- **The stores of `fill_rect`**, with the sums and the pitch of the driver. -/
theorem mem_fillRect {s : Screen} {x y w h colour c : UInt32} {a : Nat} :
    (a, c) ∈ fillRect s.fb x y w h colour ↔ c = colour ∧ ∃ i j,
      (x.toNat ≤ i ∧ i < min ((x.toNat + w.toNat) % 2 ^ 32) s.width.toNat) ∧
      (y.toNat ≤ j ∧ j < min ((y.toNat + h.toNat) % 2 ^ 32) s.height.toNat) ∧
      a = s.fb.addr + j * s.fb.pitch.toNat + 4 * i := by
  have hmin : ∀ p q r : UInt32, (min (p + q) r).toNat = min ((p.toNat + q.toNat) % 2 ^ 32) r.toNat := by
    intro p q r
    rw [← UInt32.toNat_add]
    change (if p + q ≤ r then p + q else r).toNat = _
    split
    next hle => exact (min_eq_left (UInt32.le_iff_toNat_le.mp hle)).symm
    next hlt =>
      have hle := UInt32.lt_iff_toNat_lt.mp (UInt32.not_le.mp hlt)
      exact (min_eq_right hle.le).symm
  have hwidth : s.fb.width = s.width := rfl
  have hheight : s.fb.height = s.height := rfl
  simp only [fillRect, hwidth, hheight, List.mem_flatMap, List.mem_range'_1, hmin]
  generalize (x.toNat + w.toNat) % 2 ^ 32 = xSum
  generalize (y.toNat + h.toNat) % 2 ^ 32 = ySum
  constructor
  · rintro ⟨j, ⟨hlo, hhi⟩, hmem⟩
    obtain ⟨hc, i, hx, hx', ha⟩ := (mem_row (by omega) (by omega)).mp hmem
    exact ⟨hc, i, j, ⟨hx, hx'⟩, ⟨hlo, by omega⟩, ha⟩
  · rintro ⟨hc, i, j, ⟨hx, hx'⟩, ⟨hlo, hhi⟩, ha⟩
    exact ⟨j, ⟨hlo, by omega⟩, (mem_row (by omega) (by omega)).mpr ⟨hc, i, hx, hx', ha⟩⟩

/-- A rectangle without size, or off the screen, shows nothing. -/
theorem not_visible {s : Screen} {x y w h : UInt32}
    (hno : w = 0 ∨ h = 0 ∨ s.width ≤ x ∨ s.height ≤ y) (i j : Nat) :
    ¬s.Inside x y w h i j := by
  rintro ⟨hx, hx', hy, hy', hi, hj⟩
  rcases hno with rfl | rfl | hout | hout
  · simp at hx'
    omega
  · simp at hy'
    omega
  · have hle := UInt32.le_iff_toNat_le.mp hout
    omega
  · have hle := UInt32.le_iff_toNat_le.mp hout
    omega

/-- The corner of a rectangle that can be seen. -/
theorem corner_inside {s : Screen} {x y w h : UInt32}
    (hvis : ¬(w = 0 ∨ h = 0 ∨ s.width ≤ x ∨ s.height ≤ y)) :
    s.Inside x y w h x.toNat y.toNat ∧ 0 < w.toNat ∧ 0 < h.toNat := by
  simp only [not_or, UInt32.not_le, UInt32.lt_iff_toNat_lt] at hvis
  obtain ⟨hw, hh, hx, hy⟩ := hvis
  have hw' : 0 < w.toNat := Nat.pos_of_ne_zero (fun hz => hw (UInt32.toNat_inj.mp hz))
  have hh' : 0 < h.toNat := Nat.pos_of_ne_zero (fun hz => hh (UInt32.toNat_inj.mp hz))
  exact ⟨⟨le_refl _, by omega, le_refl _, by omega, hx, hy⟩, hw', hh'⟩

/-- **`fill_rect` clips exactly** when `Clips` holds, for every screen and every
rectangle. -/
theorem fillRect_clips (s : Screen) (x y w h colour : UInt32) :
    s.Paints x y w h colour (fillRect s.fb x y w h colour) ↔ s.Clips x y w h := by
  obtain ⟨hpitch, hpitch_le⟩ := pitch_le s
  have hxlt := x.toNat_lt
  have hylt := y.toNat_lt
  have hwlt := w.toNat_lt
  have hhlt := h.toNat_lt
  constructor
  · rintro ⟨-, hexact⟩
    by_cases hvis : w = 0 ∨ h = 0 ∨ s.width ≤ x ∨ s.height ≤ y
    · exact Or.inl hvis
    · obtain ⟨⟨-, -, -, -, hxw, hyh⟩, hwpos, hhpos⟩ := corner_inside hvis
      -- every pixel of the rectangle is stored
      have hstored : ∀ i j, s.Inside x y w h i j → ∃ i' j',
          (x.toNat ≤ i' ∧ i' < min ((x.toNat + w.toNat) % 2 ^ 32) s.width.toNat) ∧
          (y.toNat ≤ j' ∧ j' < min ((y.toNat + h.toNat) % 2 ^ 32) s.height.toNat) ∧
          s.pixel i j = s.fb.addr + j' * s.fb.pitch.toNat + 4 * i' := by
        intro i j hin
        have hmem : s.pixel i j ∈ {a | ∃ c, (a, c) ∈ fillRect s.fb x y w h colour} :=
          hexact ▸ ⟨i, j, hin, rfl⟩
        obtain ⟨c, hc⟩ := hmem
        exact (mem_fillRect.mp hc).2
      obtain ⟨i₀, j₀, ⟨hi, hi'⟩, ⟨hj, hj'⟩, -⟩ := hstored _ _ (corner_inside hvis).1
      have hxsum : x.toNat + w.toNat < 2 ^ 32 := by omega
      have hysum : y.toNat + h.toNat < 2 ^ 32 := by omega
      refine Or.inr ⟨hxsum, hysum, ?_⟩
      rw [← hpitch]
      by_contra hbad
      rw [not_or, not_le] at hbad
      obtain ⟨hne, hrows⟩ := hbad
      -- the last pixel of the last row is beyond everything that is stored
      obtain ⟨i, j, ⟨-, hi⟩, ⟨-, hj⟩, heq⟩ := hstored
        (min (x.toNat + w.toNat) s.width.toNat - 1) (min (y.toNat + h.toNat) s.height.toNat - 1)
        ⟨by omega, by omega, by omega, by omega, by omega, by omega⟩
      rw [Nat.mod_eq_of_lt hxsum] at hi
      rw [Nat.mod_eq_of_lt hysum] at hj
      have hlast : j * s.fb.pitch.toNat <
          (min (y.toNat + h.toNat) s.height.toNat - 1) * s.pitch := by
        calc j * s.fb.pitch.toNat
            ≤ (min (y.toNat + h.toNat) s.height.toNat - 1) * s.fb.pitch.toNat :=
              Nat.mul_le_mul_right _ (by omega)
          _ < (min (y.toNat + h.toNat) s.height.toNat - 1) * s.pitch :=
              Nat.mul_lt_mul_of_pos_left (by omega) (by omega)
      unfold Screen.pixel at heq
      omega
  · intro hclips
    refine ⟨fun st hst => (mem_fillRect.mp hst).1, Set.ext fun a => ?_⟩
    simp only [Set.mem_ofPred_eq, mem_fillRect]
    rcases hclips with hno | ⟨hxsum, hysum, hp⟩
    · refine iff_of_false ?_ ?_
      · rintro ⟨c, -, i, j, ⟨hx, hx'⟩, ⟨hy, hy'⟩, -⟩
        refine not_visible hno i j ⟨hx, ?_, hy, ?_, by omega, by omega⟩
        · exact lt_of_lt_of_le hx' ((min_le_left _ _).trans (Nat.mod_le _ _))
        · exact lt_of_lt_of_le hy' ((min_le_left _ _).trans (Nat.mod_le _ _))
      · rintro ⟨i, j, hin, -⟩
        exact not_visible hno i j hin
    · rw [Nat.mod_eq_of_lt hxsum, Nat.mod_eq_of_lt hysum]
      -- in the rows that are painted the two pitches lead to the same place
      have hsame : ∀ i j, j < min (y.toNat + h.toNat) s.height.toNat →
          s.pixel i j = s.fb.addr + j * s.fb.pitch.toNat + 4 * i := by
        intro i j hj
        unfold Screen.pixel
        rcases hp with hp | hp
        · rw [hpitch, hp]
        · have hzero : j = 0 := by omega
          rw [hzero, Nat.zero_mul, Nat.zero_mul]
      constructor
      · rintro ⟨c, -, i, j, ⟨hx, hx'⟩, ⟨hy, hy'⟩, ha⟩
        exact ⟨i, j, ⟨hx, by omega, hy, by omega, by omega, by omega⟩, ha.trans (hsame i j hy').symm⟩
      · rintro ⟨i, j, ⟨hx, hx', hy, hy', hi, hj⟩, ha⟩
        exact ⟨colour, rfl, i, j, ⟨hx, by omega⟩, ⟨hy, by omega⟩,
          ha.trans (hsame i j (by omega))⟩

/-- 800 by 600 pixels, with scan lines of 4096 bytes. -/
def paddedScreen : Screen := ⟨0, 0xFD000000, 800, 600, 4096, by decide, by
  unfold add
  decide⟩

/-- **A padded scan line.**  The square of ten pixels at the origin goes astray. -/
theorem padded_astray :
    ¬paddedScreen.Paints 0 0 10 10 0xFF00 (fillRect paddedScreen.fb 0 0 10 10 0xFF00) := by
  rintro ⟨-, hexact⟩
  have hten : (10 : UInt32).toNat = 10 := rfl
  have hzero : (0 : UInt32).toNat = 0 := rfl
  have hpitch : paddedScreen.fb.pitch.toNat = 3200 := rfl
  -- the first pixel of the second row
  have hin : paddedScreen.Inside 0 0 10 10 0 1 := by
    unfold Screen.Inside
    decide
  have hmem : paddedScreen.pixel 0 1 ∈
      {a | ∃ c, (a, c) ∈ fillRect paddedScreen.fb 0 0 10 10 0xFF00} := hexact ▸ ⟨0, 1, hin, rfl⟩
  obtain ⟨c, hc⟩ := hmem
  obtain ⟨-, i, j, ⟨-, hi⟩, ⟨-, hj⟩, ha⟩ := mem_fillRect.mp hc
  have hpixel : paddedScreen.pixel 0 1 = paddedScreen.fb.addr + 4096 := rfl
  rw [hten, hzero] at hi hj
  rw [hpixel, hpitch] at ha
  omega

end Framebuffer
