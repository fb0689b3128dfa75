import Mathlib

/-!
# Byte-addressed memory

Memory is a function from addresses to bytes.  Little-endian words of `n`
bytes are read and written at any address; a range can be filled with one
byte or copied from somewhere else.  The interface is the usual one: a read
sees the last write to the same place, and a write leaves every other place
alone.
-/

namespace ByteMemory

/-- A byte at each address. -/
abbrev Mem := Nat → UInt8

/-- The little-endian word of `n` bytes at `a`. -/
def readLE (m : Mem) (a : Nat) : Nat → Nat
  | 0 => 0
  | n + 1 => (m a).toNat + 256 * readLE m (a + 1) n

/-- Store the low `n` bytes of `v` at `a`. -/
def writeLE (m : Mem) (a n v : Nat) : Mem := fun x =>
  if a ≤ x ∧ x < a + n then UInt8.ofNat (v / 256 ^ (x - a)) else m x

/-- Set the `n` bytes at `a` to `b`. -/
def fill (m : Mem) (a n : Nat) (b : UInt8) : Mem := fun x =>
  if a ≤ x ∧ x < a + n then b else m x

/-- Set the `n` bytes at `a` to `src 0, src 1, ...`. -/
def copy (m : Mem) (a n : Nat) (src : Nat → UInt8) : Mem := fun x =>
  if a ≤ x ∧ x < a + n then src (x - a) else m x

/-- A word of `n` bytes is below `256 ^ n`. -/
theorem readLE_lt (m : Mem) (a n : Nat) : readLE m a n < 256 ^ n := by
  induction n generalizing a with
  | zero => simp [readLE]
  | succ n ih =>
      have hbyte := (m a).toNat_lt
      have hrest := ih (a + 1)
      simp only [readLE, pow_succ]
      omega

/-- A read depends on the bytes it reads only. -/
theorem readLE_congr {m m' : Mem} {a n : Nat} (h : ∀ x, a ≤ x → x < a + n → m x = m' x) :
    readLE m a n = readLE m' a n := by
  induction n generalizing a with
  | zero => rfl
  | succ n ih =>
      have hhead := h a (Nat.le_refl a) (by omega)
      have htail := ih (a := a + 1) (fun x hlo hhi => h x (by omega) (by omega))
      simp only [readLE, hhead, htail]

/-- A read returns what was written at the same place. -/
theorem readLE_writeLE_same (m : Mem) (a n v : Nat) (h : v < 256 ^ n) :
    readLE (writeLE m a n v) a n = v := by
  induction n generalizing a m v with
  | zero => simp only [Nat.pow_zero] at h; simp only [readLE]; omega
  | succ n ih =>
      have hhead : writeLE m a (n + 1) v a = UInt8.ofNat v := by
        simp [writeLE]
      have htail : readLE (writeLE m a (n + 1) v) (a + 1) n = v / 256 := by
        rw [← ih m (a + 1) (v / 256) (by rw [pow_succ] at h; omega)]
        refine readLE_congr (fun x hlo hhi => ?_)
        have hexp : x - a = (x - (a + 1)) + 1 := by omega
        simp only [writeLE, hexp, pow_succ', ← Nat.div_div_eq_div_mul]
        rw [if_pos (by omega), if_pos (by omega)]
      simp only [readLE, hhead, htail, UInt8.toNat_ofNat']
      omega

/-- Writing a word leaves the rest of memory as it is. -/
theorem writeLE_outside (m : Mem) {a n x : Nat} (v : Nat) (h : x < a ∨ a + n ≤ x) :
    writeLE m a n v x = m x :=
  if_neg (by omega)

/-- Filling leaves the rest as it is. -/
theorem fill_outside (m : Mem) {a n x : Nat} (b : UInt8) (h : x < a ∨ a + n ≤ x) :
    fill m a n b x = m x :=
  if_neg (by omega)

/-- Filling a range sets each of its bytes. -/
theorem fill_inside (m : Mem) {a n x : Nat} (b : UInt8) (hlo : a ≤ x) (hhi : x < a + n) :
    fill m a n b x = b :=
  if_pos ⟨hlo, hhi⟩

/-- Copying leaves the rest as it is. -/
theorem copy_outside (m : Mem) {a n x : Nat} (src : Nat → UInt8) (h : x < a ∨ a + n ≤ x) :
    copy m a n src x = m x :=
  if_neg (by omega)

/-- Copying sets each byte to the one it is copied from. -/
theorem copy_inside (m : Mem) (a : Nat) {n i : Nat} (src : Nat → UInt8) (h : i < n) :
    copy m a n src (a + i) = src i := by
  have hin : a ≤ a + i ∧ a + i < a + n := by omega
  rw [copy, if_pos hin, Nat.add_sub_cancel_left]

/-- A read does not see a write somewhere else. -/
theorem readLE_writeLE_other (m : Mem) {a n b k : Nat} (v : Nat) (h : b + k ≤ a ∨ a + n ≤ b) :
    readLE (writeLE m a n v) b k = readLE m b k :=
  readLE_congr (fun _ hlo hhi => writeLE_outside m v (by omega))

/-- A read does not see a fill somewhere else. -/
theorem readLE_fill_other (m : Mem) {a n b k : Nat} (c : UInt8) (h : b + k ≤ a ∨ a + n ≤ b) :
    readLE (fill m a n c) b k = readLE m b k :=
  readLE_congr (fun _ hlo hhi => fill_outside m c (by omega))

/-- A word inside a zeroed range is zero. -/
theorem readLE_fill_zero (m : Mem) {a n b k : Nat} (hlo : a ≤ b) (hhi : b + k ≤ a + n) :
    readLE (fill m a n 0) b k = 0 := by
  induction k generalizing b with
  | zero => rfl
  | succ k ih =>
      have hhead := fill_inside m 0 hlo (x := b) (n := n) (by omega)
      simp [readLE, hhead, ih (b := b + 1) (by omega) (by omega)]

/-- Words that are the same have the same bytes. -/
theorem bytes_eq_of_readLE {m m' : Mem} {a n : Nat} (h : readLE m a n = readLE m' a n) :
    ∀ x, a ≤ x → x < a + n → m x = m' x := by
  induction n generalizing a with
  | zero => exact fun x hlo hhi => by omega
  | succ n ih =>
      intro x hlo hhi
      have hbyte := (m a).toNat_lt
      have hbyte' := (m' a).toNat_lt
      simp only [readLE] at h
      by_cases hx : x = a
      · subst hx
        exact UInt8.toNat_inj.mp (by omega)
      · exact ih (a := a + 1) (by omega) x (by omega) (by omega)

/-- A long read is two reads. -/
theorem readLE_add (m : Mem) (a k j : Nat) :
    readLE m a (k + j) = readLE m a k + 256 ^ k * readLE m (a + k) j := by
  induction k generalizing a with
  | zero => simp [readLE]
  | succ k ih =>
      have hnext : a + 1 + k = a + (k + 1) := by omega
      rw [Nat.add_right_comm k 1 j, readLE, ih (a + 1), readLE, hnext]
      ring

/-- A part of a word is a word. -/
theorem readLE_part (m : Mem) (a : Nat) {n k j : Nat} (h : k + j ≤ n) :
    readLE m a n / 256 ^ k % 256 ^ j = readLE m (a + k) j := by
  obtain ⟨r, rfl⟩ := Nat.exists_eq_add_of_le h
  have hlow := readLE_lt m a k
  have hpart := readLE_lt m (a + k) j
  rw [Nat.add_assoc, readLE_add, readLE_add, Nat.add_mul_div_left _ _ (by positivity),
    Nat.div_eq_of_lt hlow, Nat.zero_add, Nat.add_mul_mod_self_left, Nat.mod_eq_of_lt hpart]

-- a word is never unfolded into its bytes from here on
attribute [irreducible] readLE

end ByteMemory
