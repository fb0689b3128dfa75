import Noxisa.ByteMemory
import Noxisa.MachineWord

/-!
# The heap's canaries

`HardenedAllocator` asks the inner allocator for a block with room in front of
and behind what its caller wants, and puts a canary at the start of the block
and one right behind the caller's last byte.  `dealloc` recomputes where the two
are and panics if one has changed.

The parts of a block do not overlap, and `dealloc` finds the block again, for
every layout (`alloc_geometry`).  The room in front is as long as the alignment:
only if that is at most 8 does the front canary touch the caller's bytes
(`canaries_adjacent`).
-/

namespace HeapCanaries

open ByteMemory MachineWord

/-- `core::alloc::Layout`: a size, and an alignment that is a power of two. -/
structure Layout where
  size : Nat
  align : Nat
  pow_two : align = 2 ^ align.log2
  fits : size + align ≤ 2 ^ 63
deriving DecidableEq

/-- `Layout::from_size_align` -/
def Layout.fromSizeAlign (size align : Nat) : Option Layout :=
  if h : align = 2 ^ align.log2 ∧ size + align ≤ 2 ^ 63 then some ⟨size, align, h.1, h.2⟩ else none

/-- `HEAP_CANARY` -/
def heapCanary : Nat := 0xDEADC0DEDEADC0DE

/-- `(val + align - 1) & !(align - 1)` -/
@[irreducible] def alignUp (val align : Nat) : Nat :=
  sub (add val align) 1 &&& (modulus - 1 - sub align 1)

/-- `usize::checked_add` -/
@[irreducible] def checkedAdd (a b : Nat) : Option Nat := if a + b < modulus then some (a + b) else none

/-- `write_volatile(HEAP_CANARY)` -/
def putCanary (m : Mem) (a : Nat) : Mem := writeLE m a 8 heapCanary

/-- `alloc` after it has computed where the user's bytes start.  `inner` is what
the inner allocator answers to this call, and no answer is a null pointer. -/
def allocAt (inner : Layout → Option Nat) (m : Mem) (size align extraFront : Nat) :
    Option (Nat × Mem) :=
  match (checkedAdd extraFront size).bind (checkedAdd · 8) with
  | none => none
  | some realSize =>
      match Layout.fromSizeAlign realSize align with
      | none => none
      | some realLayout =>
          match inner realLayout with
          | none => none
          | some realPtr =>
              let userPtr := add realPtr extraFront
              some (userPtr, putCanary (putCanary m realPtr) (add userPtr size))

/-- `alloc`: the front has room for the header and keeps the alignment. -/
def alloc (inner : Layout → Option Nat) (m : Mem) (layout : Layout) : Option (Nat × Mem) :=
  let align := max layout.align 8
  allocAt inner m layout.size align (alignUp 8 align)

/-- How `dealloc` ends: with its panic, or with a call of the inner allocator. -/
inductive Freed
  | panic (ptr size align : Nat) (headerOk trailerOk : Bool)
  | inner (m : Mem) (realPtr realSize align : Nat)

/-- `free` has found a canary changed. -/
def Freed.Panics : Freed → Prop
  | .panic _ _ _ _ _ => True
  | .inner _ _ _ _ => False

/-- `dealloc`, with the front that the layout has. -/
def deallocAt (m : Mem) (ptr : Nat) (layout : Layout) (align extraFront : Nat) : Freed :=
  let realPtr := sub ptr extraFront
  let headerOk : Bool := readLE m realPtr 8 = heapCanary
  let trailerOk : Bool := readLE m (add ptr layout.size) 8 = heapCanary
  if !headerOk || !trailerOk then .panic ptr layout.size layout.align headerOk trailerOk
  else
    let realSize := add (add extraFront layout.size) 8
    let stop := add realPtr realSize
    .inner (fill m realPtr (stop - realPtr) 0) realPtr realSize align

/-- `dealloc` -/
def dealloc (m : Mem) (ptr : Nat) (layout : Layout) : Freed :=
  let align := max layout.align 8
  deallocAt m ptr layout align (alignUp 8 align)

/-- The alignment that is asked of the inner allocator is a power of two. -/
theorem max_align_pow (layout : Layout) :
    ∃ k, 3 ≤ k ∧ k ≤ 63 ∧ max layout.align 8 = 2 ^ k := by
  have hfits := layout.fits
  have hpow := layout.pow_two
  generalize layout.align.log2 = k at hpow
  have hk : k ≤ 63 := by
    by_contra hlt
    have hbig : 2 ^ 64 ≤ 2 ^ k := Nat.pow_le_pow_right (by decide) (by omega)
    omega
  by_cases hsmall : k < 3
  · refine ⟨3, le_refl _, by decide, ?_⟩
    have hle : 2 ^ k ≤ 2 ^ 3 := Nat.pow_le_pow_right (by decide) (by omega)
    omega
  · refine ⟨k, by omega, hk, ?_⟩
    have hle : 2 ^ 3 ≤ 2 ^ k := Nat.pow_le_pow_right (by decide) (by omega)
    omega

/-- **The room in front** is as long as the alignment, and at least 8. -/
theorem alignUp_front (layout : Layout) : alignUp 8 (max layout.align 8) = max layout.align 8 := by
  obtain ⟨k, hlo, hhi, hk⟩ := max_align_pow layout
  rw [hk]
  have hall : ∀ k < 64, 3 ≤ k → (8 + 2 ^ k - 1) &&& (2 ^ 64 - 1 - (2 ^ k - 1)) = 2 ^ k := by
    decide +kernel
  have hlt : 2 ^ k ≤ 2 ^ 63 := Nat.pow_le_pow_right (by decide) hhi
  have hpos : 0 < 2 ^ k := Nat.two_pow_pos k
  have hmod : modulus = 2 ^ 64 := rfl
  unfold alignUp
  rw [add_eq (by omega), sub_eq (by omega) (by omega), sub_eq (by omega) (by omega)]
  exact hall k (by omega) hlo

/-- The `n` bytes at `a`. -/
def bytes (a n : Nat) : Set Nat := Set.Ico a (a + n)

/-- What an inner allocator promises: a block of the size and alignment that were
asked for, which does not reach the end of the address space. -/
def Serves (inner : Layout → Option Nat) : Prop :=
  ∀ real p, inner real = some p → real.align ∣ p ∧ p + real.size < modulus

/-- **The parts of a block**, and what `dealloc` makes of them. -/
structure Geometry (layout real : Layout) (p user : Nat) (m : Mem) : Prop where
  header_user : Disjoint (bytes p 8) (bytes user layout.size)
  header_trailer : Disjoint (bytes p 8) (bytes (user + layout.size) 8)
  user_trailer : Disjoint (bytes user layout.size) (bytes (user + layout.size) 8)
  inside : bytes p 8 ∪ bytes user layout.size ∪ bytes (user + layout.size) 8 ⊆ bytes p real.size
  aligned : layout.align ∣ user
  /-- no sum or difference of `dealloc` wraps -/
  no_overflow : 8 + max layout.align 8 < modulus ∧ alignUp 8 (max layout.align 8) ≤ user ∧
    alignUp 8 (max layout.align 8) + layout.size + 8 < modulus ∧ user + layout.size < modulus ∧
    p + real.size < modulus
  freed : ∀ m', (∀ x, x ∉ bytes user layout.size → m' x = m x) →
    ∃ m'', dealloc m' user layout = .inner m'' p real.size real.align

section

variable {inner : Layout → Option Nat} {m m' : Mem} {layout real : Layout} {p user : Nat}

/-- What `alloc` asks for, and what it returns. -/
structure Allocated (inner : Layout → Option Nat) (m m' : Mem) (layout real : Layout)
    (p user : Nat) : Prop where
  answer : inner real = some p
  real_size : real.size = max layout.align 8 + layout.size + 8
  real_align : real.align = max layout.align 8
  aligned : real.align ∣ p
  room : p + real.size < modulus
  user_eq : user = p + max layout.align 8
  mem_eq : m' = putCanary (putCanary m p) (user + layout.size)

/-- **`alloc`** takes a block from the inner allocator, of the real layout. -/
theorem alloc_spec (hinner : Serves inner) (h : alloc inner m layout = some (user, m')) :
    ∃ real p, Allocated inner m m' layout real p user := by
  rw [alloc, alignUp_front, allocAt] at h
  split at h
  next => cases h
  next realSize hsize =>
    split at h
    next => cases h
    next real hreal =>
      split at h
      next => cases h
      next p hp =>
        obtain ⟨hdvd, hroom⟩ := hinner real p hp
        obtain ⟨front, hfront, hsum⟩ := Option.bind_eq_some_iff.mp hsize
        have hreal_eq : real.size = realSize ∧ real.align = max layout.align 8 := by
          unfold Layout.fromSizeAlign at hreal
          split at hreal
          · obtain rfl := Option.some.inj hreal
            exact ⟨rfl, rfl⟩
          · cases hreal
        have hsize_eq : realSize = max layout.align 8 + layout.size + 8 := by
          unfold checkedAdd at hfront hsum
          split at hfront
          · obtain rfl := Option.some.inj hfront
            split at hsum
            · exact (Option.some.inj hsum).symm
            · cases hsum
          · cases hfront
        obtain ⟨hs, ha⟩ := hreal_eq
        dsimp only at h
        rw [add_eq (a := p) (by omega), add_eq (by omega)] at h
        obtain ⟨rfl, rfl⟩ := Prod.mk.inj (Option.some.inj h)
        exact ⟨real, p, hp, hs.trans hsize_eq, ha, hdvd, hroom, rfl, rfl⟩

/-- Both canaries are in place. -/
theorem Allocated.canaries (h : Allocated inner m m' layout real p user) :
    readLE m' p 8 = heapCanary ∧ readLE m' (user + layout.size) 8 = heapCanary := by
  have hcanary : heapCanary < 256 ^ 8 := by norm_num [heapCanary]
  have huser := h.user_eq
  constructor
  · rw [h.mem_eq, putCanary, readLE_writeLE_other _ _ (by omega), putCanary,
      readLE_writeLE_same _ _ _ _ hcanary]
  · rw [h.mem_eq, putCanary, readLE_writeLE_same _ _ _ _ hcanary]

/-- **`dealloc` finds the block again**, and looks at both canaries. -/
theorem Allocated.dealloc_eq (h : Allocated inner m m' layout real p user) (n : Mem) :
    dealloc n user layout =
      if readLE n p 8 = heapCanary ∧ readLE n (user + layout.size) 8 = heapCanary then
        .inner (fill n p real.size 0) p real.size real.align
      else .panic user layout.size layout.align (decide (readLE n p 8 = heapCanary))
        (decide (readLE n (user + layout.size) 8 = heapCanary)) := by
  have huser := h.user_eq
  have hsize := h.real_size
  have hroom := h.room
  have hreal : sub user (max layout.align 8) = p := by
    rw [sub_eq (by omega) (by omega)]
    omega
  have htrailer : add user layout.size = user + layout.size := add_eq (by omega)
  have hsum : add (add (max layout.align 8) layout.size) 8 = real.size := by
    have hlt : max layout.align 8 + layout.size + 8 < modulus := by omega
    have hpart : add (max layout.align 8) layout.size = max layout.align 8 + layout.size :=
      add_eq (by omega)
    rw [hpart, add_eq hlt, hsize]
  have hstop : add p real.size - p = real.size := by
    rw [add_eq hroom]
    omega
  rw [dealloc, alignUp_front]
  simp only [deallocAt, hreal, htrailer, hsum, hstop, h.real_align]
  by_cases hhead : readLE n p 8 = heapCanary <;>
    by_cases htail : readLE n (user + layout.size) 8 = heapCanary <;> simp [hhead, htail]

end

/-- **Heap block geometry**, for every layout. -/
theorem alloc_geometry {inner : Layout → Option Nat} {m m' : Mem} {layout : Layout} {user : Nat}
    (hinner : Serves inner) (h : alloc inner m layout = some (user, m')) :
    ∃ real p, inner real = some p ∧ Geometry layout real p user m' := by
  obtain ⟨real, p, hall⟩ := alloc_spec hinner h
  have huser := hall.user_eq
  have hsize := hall.real_size
  have hroom := hall.room
  refine ⟨real, p, hall.answer, ?_, ?_, ?_, ?_, ?_, ?_, ?_⟩
  · exact Set.Ico_disjoint_Ico.mpr (by omega)
  · exact Set.Ico_disjoint_Ico.mpr (by omega)
  · exact Set.Ico_disjoint_Ico.mpr (by omega)
  · rintro x ((hx | hx) | hx) <;>
    · simp only [bytes, Set.mem_Ico] at hx ⊢
      omega
  · have hdvd : layout.align ∣ max layout.align 8 := by
      rcases le_total 8 layout.align with hle | hle
      · rw [max_eq_left hle]
      · have hpow : (2 : Nat) ^ layout.align.log2 ≤ 2 ^ 3 := layout.pow_two ▸ hle
        rw [max_eq_right hle, layout.pow_two]
        exact Nat.pow_dvd_pow 2 ((Nat.pow_le_pow_iff_right (by decide)).mp hpow)
    exact huser ▸ (hdvd.trans (hall.real_align ▸ hall.aligned)).add hdvd
  · rw [alignUp_front]
    have hfits := layout.fits
    have hmod : modulus = 2 ^ 64 := rfl
    refine ⟨by omega, by omega, by omega, by omega, hroom⟩
  · intro n hn
    obtain ⟨hhead, htail⟩ := hall.canaries
    have hhead' : readLE n p 8 = heapCanary := by
      rw [← hhead]
      refine readLE_congr (fun x hlo hhi => hn x (fun hx => ?_))
      have hx' : user ≤ x := hx.1
      omega
    have htail' : readLE n (user + layout.size) 8 = heapCanary := by
      rw [← htail]
      refine readLE_congr (fun x hlo hhi => hn x (fun hx => ?_))
      have hx' : x < user + layout.size := hx.2
      omega
    exact ⟨_, (hall.dealloc_eq n).trans (if_pos ⟨hhead', htail'⟩)⟩

/-- An inner allocator with one block of 64 KiB. -/
def oneBlock (real : Layout) : Option Nat :=
  if real.align ∣ 0x10000 ∧ real.size ≤ 0x10000 then some 0x10000 else none

/-- The sample allocator has one block and serves it. -/
theorem oneBlock_serves : Serves oneBlock := by
  intro real p hp
  unfold oneBlock at hp
  split at hp
  next hfits =>
    obtain rfl := Option.some.inj hp
    refine ⟨hfits.1, ?_⟩
    have hmod : modulus = 2 ^ 64 := rfl
    omega
  next => cases hp

/-- 16 bytes at a multiple of 16. -/
def layout16 : Layout := ⟨16, 16, by decide, by decide⟩

/-- A block of the sample. -/
theorem alloc_layout16 : ∃ m', alloc oneBlock (fun _ => 0) layout16 = some (0x10010, m') := by
  have hptr : (alloc oneBlock (fun _ => 0) layout16).map Prod.fst = some 0x10010 := by
    decide +kernel
  obtain ⟨⟨user, m'⟩, hm, rfl⟩ := Option.map_eq_some_iff.mp hptr
  exact ⟨m', hm⟩

/-- Its geometry. -/
theorem sample_alloc_geometry : ∃ m' real, alloc oneBlock (fun _ => 0) layout16 = some (0x10010, m') ∧
    Geometry layout16 real 0x10000 0x10010 m' := by
  obtain ⟨m', hm⟩ := alloc_layout16
  obtain ⟨real, p, hp, hgeo⟩ := alloc_geometry oneBlock_serves hm
  have hblock : p = 0x10000 := by
    unfold oneBlock at hp
    split at hp
    · exact (Option.some.inj hp).symm
    · cases hp
  exact ⟨m', real, hm, hblock ▸ hgeo⟩

/-- One of the 8 bytes in front of the user's bytes or of the 8 behind them has
changed. -/
def Touched (m n : Mem) (user size : Nat) : Prop :=
  ∃ x ∈ bytes (user - 8) 8 ∪ bytes (user + size) 8, n x ≠ m x

section

variable {inner : Layout → Option Nat} {m m' : Mem} {layout real : Layout} {p user : Nat}

/-- Freeing panics exactly if one of the two words is not the canary. -/
theorem Allocated.panics_iff (h : Allocated inner m m' layout real p user) (n : Mem) :
    (dealloc n user layout).Panics ↔
      ¬(readLE n p 8 = heapCanary ∧ readLE n (user + layout.size) 8 = heapCanary) := by
  rw [h.dealloc_eq]
  split
  next hok => exact iff_of_false id (fun hno => hno hok)
  next hno => exact iff_of_true trivial hno

/-- If the alignment is at most 8, the canaries are next to the user's bytes. -/
theorem Allocated.touched (h : Allocated inner m m' layout real p user) (hsmall : layout.align ≤ 8)
    {n : Mem} (hn : Touched m' n user layout.size) : (dealloc n user layout).Panics := by
  have huser := h.user_eq
  rw [max_eq_right hsmall] at huser
  obtain ⟨hhead, htail⟩ := h.canaries
  rw [h.panics_iff]
  rintro ⟨hhead', htail'⟩
  obtain ⟨x, hx, hne⟩ := hn
  rcases hx with ⟨hlo, hhi⟩ | ⟨hlo, hhi⟩
  · exact hne (bytes_eq_of_readLE (hhead'.trans hhead.symm) x (by omega) (by omega))
  · exact hne (bytes_eq_of_readLE (htail'.trans htail.symm) x hlo hhi)

/-- **The gap.**  With a larger alignment the byte in front of the user's bytes
belongs to nobody. -/
theorem Allocated.gap (h : Allocated inner m m' layout real p user) (hlarge : 8 < layout.align) :
    ∃ n, Touched m' n user layout.size ∧ ¬(dealloc n user layout).Panics := by
  have huser := h.user_eq
  have hwide : 16 ≤ max layout.align 8 := by
    obtain ⟨k, hlo, -, hk⟩ := max_align_pow layout
    have hexp : 3 < k := by
      refine (Nat.pow_lt_pow_iff_right (a := 2) (by decide)).mp ?_
      omega
    have hpow : 2 ^ 4 ≤ 2 ^ k := Nat.pow_le_pow_right (by decide) hexp
    omega
  obtain ⟨hhead, htail⟩ := h.canaries
  refine ⟨Function.update m' (user - 1) (m' (user - 1) + 1), ⟨user - 1, Or.inl ?_, ?_⟩, ?_⟩
  · exact ⟨by omega, by omega⟩
  · rw [Function.update_self]
    intro hsame
    simp at hsame
  · rw [h.panics_iff, not_not]
    constructor
    · rw [← hhead]
      exact readLE_congr (fun x _ hhi => Function.update_of_ne (by omega) _ _)
    · rw [← htail]
      exact readLE_congr (fun x hlo _ => Function.update_of_ne (by omega) _ _)

end

/-- **The canaries catch every change next to the user's bytes** if and only if
the alignment is at most 8. -/
theorem canaries_adjacent {inner : Layout → Option Nat} {m m' : Mem} {layout : Layout} {user : Nat}
    (hinner : Serves inner) (h : alloc inner m layout = some (user, m')) :
    (∀ n, Touched m' n user layout.size → (dealloc n user layout).Panics) ↔ layout.align ≤ 8 := by
  obtain ⟨real, p, hall⟩ := alloc_spec hinner h
  constructor
  · intro hcatch
    by_contra hlarge
    obtain ⟨n, htouched, hquiet⟩ := hall.gap (not_le.mp hlarge)
    exact hquiet (hcatch n htouched)
  · exact fun hsmall n hn => hall.touched hsmall hn

/-- 16 bytes at a multiple of 16: some change is not caught. -/
theorem sample_canaries_adjacent : ∃ m', alloc oneBlock (fun _ => 0) layout16 = some (0x10010, m') ∧
    ¬∀ n, Touched m' n 0x10010 16 → (dealloc n 0x10010 layout16).Panics := by
  obtain ⟨m', hm⟩ := alloc_layout16
  refine ⟨m', hm, fun hcatch => ?_⟩
  have hle := (canaries_adjacent oneBlock_serves hm).mp hcatch
  exact absurd hle (by decide)

/-- **An underflow that is not caught.** -/
theorem underflow_missed : ∃ m' n, alloc oneBlock (fun _ => 0) layout16 = some (0x10010, m') ∧
    Touched m' n 0x10010 16 ∧ ¬(dealloc n 0x10010 layout16).Panics := by
  obtain ⟨m', hm⟩ := alloc_layout16
  obtain ⟨real, p, hall⟩ := alloc_spec oneBlock_serves hm
  obtain ⟨n, htouched, hquiet⟩ := hall.gap (by decide)
  exact ⟨m', n, hm, htouched, hquiet⟩

end HeapCanaries
