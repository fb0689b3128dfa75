import Noxisa.Mmu

/-!
# The page tables of the bootloader

`build_page_tables` fills ten of the sixteen pages it is given: a PML4, the tables of the
identity map, whose page directories the direct map shares, and those of the kernel.  The
identity map and the direct map are right for every address.  The leaves of the kernel are
not: the kernel is loaded at 1 MiB, which is not where a page of 2 MiB can begin.
-/

namespace BootTables

open ByteMemory FrameAllocator MachineWord PhysicalMemory UserPageTable

/-- `HHDM_BASE` -/
def hhdmBase : Nat := 0xFFFF800000000000

/-- Where the kernel is linked. -/
def kernelBase : Nat := 0xFFFFFFFF80000000

/-- The size of a large page. -/
def page2M : Nat := 2 * 1024 * 1024

/-- One call of `write_entry`. -/
structure Write where
  table : Nat
  index : Nat
  value : Nat

/-- Where a store goes. -/
def Write.addr (w : Write) : Nat := w.table + w.index * 8

/-- Tables are laid out one after the other. -/
def allocTable (base offset : Nat) : Nat := base + offset * pageSize

/-- The entry for a table. -/
def link (table : Nat) : Nat := table ||| pagePresent ||| pageWritable

/-- The entry for a page of 2 MiB. -/
def leaf2M (phys : Nat) : Nat := phys ||| pagePresent ||| pageWritable ||| pageSizeBit

section
variable (ptPhys hhdm : Nat)

/-- The stores to the PML4: the identity map, the map of all memory and the kernel. -/
def pml4Writes : List Write :=
  let pml4 := allocTable ptPhys 0
  let hhdmPml4Idx := (hhdm >>> 39) &&& 0x1FF
  [{ table := pml4, index := 0, value := link (allocTable ptPhys 1) },
    { table := pml4, index := hhdmPml4Idx, value := link (allocTable ptPhys 6) },
    { table := pml4, index := 511, value := link (allocTable ptPhys 8) }]

/-- The writes for one GiB: into the PDPT of the identity map, the page directory, and the PDPT
of the direct map, which points to the same directory. -/
def gibWrites (gib : Nat) : List Write :=
  let pdPhys := allocTable ptPhys (2 + gib)
  let hhdmPdptIdx := ((hhdm >>> 30) &&& 0x1FF) + gib
  { table := allocTable ptPhys 1, index := gib, value := link pdPhys } ::
    ((List.range 512).map fun mb2 =>
      { table := pdPhys, index := mb2
        value := leaf2M (gib * 1024 * 1024 * 1024 + mb2 * page2M) }) ++
    [{ table := allocTable ptPhys 6, index := hhdmPdptIdx &&& 0x1FF, value := link pdPhys }]

/-- The stores of the kernel's mapping: 64 large pages from one MiB on. -/
def kernelWrites : List Write :=
  { table := allocTable ptPhys 8, index := 510, value := link (allocTable ptPhys 9) } ::
    (List.range 64).map fun mb2 =>
      { table := allocTable ptPhys 9, index := mb2, value := leaf2M (0x00100000 + mb2 * page2M) }

/-- All calls of `write_entry`, in order. -/
def tableWrites : List Write :=
  pml4Writes ptPhys hhdm ++ (List.range 4).flatMap (gibWrites ptPhys hhdm) ++ kernelWrites ptPhys

end

/-- One store. -/
def writeEntry (m : Memory) (w : Write) : Memory := m.writeWord w.addr w.value

/-- `build_page_tables` -/
def buildPageTables (ptPhys hhdm : Nat) (m : Memory) : Memory :=
  (tableWrites ptPhys hhdm).foldl writeEntry m

/-- Where the processor finds the byte of an address. -/
def translate (m : Memory) (ptPhys v : Nat) : Option Nat :=
  (walk m 3 ptPhys v).map fun t => t.frame + v % t.size

/-- No reserved bit of an entry of a table of this level is set: the address is one of 52
bits, a PML4 has no leaves, and a large page begins at a multiple of its size. -/
structure WellFormed (level e : Nat) : Prop where
  address : e < 2 ^ 52
  root : level = 3 → e &&& pageSizeBit = 0
  large : 0 < level → e &&& pageSizeBit ≠ 0 → e / 2 ^ 13 % 2 ^ (9 * level - 1) = 0

/-- The level of each of the tables. -/
def levelOf (page : Nat) : Nat :=
  if page = 0 then 3 else if page = 1 ∨ page = 6 ∨ page = 8 then 2 else 1

/-- The level of the table that an entry is written to. -/
def Write.level (ptPhys : Nat) (w : Write) : Nat := levelOf ((w.table - ptPhys) / pageSize)

/-- What the layout promises of the tables. -/
structure AsDocumented (ptPhys : Nat) (m : Memory) : Prop where
  within : ∀ w ∈ tableWrites ptPhys hhdmBase,
    ptPhys ≤ w.addr ∧ w.addr + 8 ≤ ptPhys + 16 * pageSize
  wellFormed : ∀ w ∈ tableWrites ptPhys hhdmBase, WellFormed (w.level ptPhys) w.value
  identity : ∀ v < 4 * 2 ^ 30, translate (buildPageTables ptPhys hhdmBase m) ptPhys v = some v
  direct : ∀ p < 4 * 2 ^ 30,
    translate (buildPageTables ptPhys hhdmBase m) ptPhys (hhdmBase + p) = some p
  kernel : ∀ k < 128 * 2 ^ 20,
    translate (buildPageTables ptPhys hhdmBase m) ptPhys (kernelBase + k) = some (0x00100000 + k)

section
variable {a : Nat} (ha : pageSize ∣ a) (hlt : a < 2 ^ 52)
include ha

/-- An entry of a table is the table's address and three low bits. -/
theorem link_eq : link a = a + 3 := by
  rw [link, Nat.or_assoc]
  exact or_eq_add ha (by decide)

/-- An entry for a large page has bit 7 besides. -/
theorem leaf2M_eq : leaf2M a = a + 131 := by
  rw [leaf2M, Nat.or_assoc, Nat.or_assoc]
  exact or_eq_add ha (by decide)

/-- The low bits of an entry for a table. -/
theorem link_low {b : Nat} (hb : b < 4096) : link a &&& b = 3 &&& b := by
  rw [link, Nat.or_assoc]
  exact or_and_low ha 3 hb

/-- The low bits of an entry for a large page. -/
theorem leaf2M_low {b : Nat} (hb : b < 4096) : leaf2M a &&& b = 131 &&& b := by
  rw [leaf2M, Nat.or_assoc, Nat.or_assoc]
  exact or_and_low ha 131 hb

include hlt

/-- The address is what is left of it. -/
theorem link_addr : link a &&& addrMask = a := by
  rw [link_eq ha, and_addrMask]
  simp only [pageSize] at ha
  omega

/-- So it is for a large page. -/
private theorem leaf2M_addr : leaf2M a &&& addrMask = a := by
  rw [leaf2M_eq ha, and_addrMask]
  simp only [pageSize] at ha
  omega

/-- An entry is below the reserved bits. -/
theorem link_lt : link a < 2 ^ 52 := by
  rw [link_eq ha]
  simp only [pageSize] at ha
  omega

/-- So is one for a large page. -/
theorem leaf2M_lt : leaf2M a < 2 ^ 52 := by
  rw [leaf2M_eq ha]
  simp only [pageSize] at ha
  omega

/-- An entry for a table is well formed at any level. -/
private theorem link_wellFormed (level : Nat) : WellFormed level (link a) := by
  have hsize : link a &&& pageSizeBit = 0 := link_low ha (by decide)
  exact ⟨link_lt ha hlt, fun _ => hsize, fun _ h => absurd hsize h⟩

/-- The entry of a page of 2 MiB is well formed just when the page begins at a multiple of
that; bit 12 is not of the address. -/
theorem leaf2M_wellFormed (hattr : 2 * pageSize ∣ a) : WellFormed 1 (leaf2M a) ↔ page2M ∣ a := by
  have hsize : leaf2M a &&& pageSizeBit ≠ 0 := by
    rw [leaf2M_low ha (by decide)]
    decide
  have hbits : leaf2M a / 2 ^ 13 % 2 ^ (9 * 1 - 1) = 0 ↔ page2M ∣ a := by
    rw [leaf2M_eq ha]
    simp only [pageSize] at hattr
    change (a + 131) / 8192 % 256 = 0 ↔ 2097152 ∣ a
    omega
  constructor
  · exact fun h => hbits.mp (h.large Nat.one_pos hsize)
  · exact fun h => ⟨leaf2M_lt ha hlt, fun h3 => absurd h3 (by decide), fun _ _ => hbits.mpr h⟩

end

/-- Three entries that lead to a page of 2 MiB. -/
theorem translate_eq {m : Memory} {pml4 pdpt pd phys v : Nat} (hpdpt : pageSize ∣ pdpt)
    (hpd : pageSize ∣ pd) (hphys : pageSize ∣ phys) (hpdptLt : pdpt < 2 ^ 52) (hpdLt : pd < 2 ^ 52)
    (hphysLt : phys < 2 ^ 52) (h3 : m.readWord (pml4 + 8 * tableIndex 3 v) = link pdpt)
    (h2 : m.readWord (pdpt + 8 * tableIndex 2 v) = link pd)
    (h1 : m.readWord (pd + 8 * tableIndex 1 v) = leaf2M phys) :
    translate m pml4 v = some (phys / page2M * page2M + v % page2M) := by
  have hpresent : ∀ {a}, pageSize ∣ a → ¬link a &&& pagePresent = 0 := fun ha => by
    rw [link_low ha (by decide)]
    decide
  have hsmall : ∀ {a}, pageSize ∣ a → ¬link a &&& pageSizeBit ≠ 0 := fun ha => by
    rw [link_low ha (by decide)]
    decide
  have hleaf : ¬leaf2M phys &&& pagePresent = 0 := by
    rw [leaf2M_low hphys (by decide)]
    decide
  have hlarge : leaf2M phys &&& pageSizeBit ≠ 0 := by
    rw [leaf2M_low hphys (by decide)]
    decide
  have hwalk1 : walk m 1 pd v = some (leafTranslation 1 (leaf2M phys)) := by
    simp only [walk, h1]
    rw [if_neg hleaf, if_pos hlarge, if_pos (by decide)]
  have hwalk2 : walk m 2 pdpt v = some ((leafTranslation 1 (leaf2M phys)).restrict (link pd)) := by
    rw [walk]
    simp only [h2]
    rw [if_neg (hpresent hpd), if_neg (hsmall hpd), link_addr hpd hpdLt, hwalk1]
    rfl
  have hwalk3 : walk m 3 pml4 v = some
      (((leafTranslation 1 (leaf2M phys)).restrict (link pd)).restrict (link pdpt)) := by
    rw [walk]
    simp only [h3]
    rw [if_neg (hpresent hpdpt), if_neg (hsmall hpdpt), link_addr hpdpt hpdptLt, hwalk2]
    rfl
  rw [translate, hwalk3]
  simp only [Option.map_some, Translation.restrict, leafTranslation, leaf2M_addr hphys hphysLt]
  rfl

/-- A slot that all writes to it agree on holds what they wrote. -/
theorem readWord_writes {ws : List Write} {w : Write} (m : Memory) (hw : w ∈ ws)
    (hvalue : w.value < modulus) (haligned : ∀ u ∈ ws, 8 ∣ u.addr)
    (hagree : ∀ u ∈ ws, u.addr = w.addr → u.value = w.value) :
    (ws.foldl writeEntry m).readWord w.addr = w.value := by
  induction ws using List.reverseRecOn with
  | nil => cases hw
  | append_singleton ws u ih =>
      have hlast : (ws ++ [u]).foldl writeEntry m = writeEntry (ws.foldl writeEntry m) u := by
        rw [List.foldl_append]
        rfl
      have hu : u ∈ ws ++ [u] := List.mem_append_right ws (List.mem_singleton_self u)
      rw [hlast, writeEntry]
      by_cases haddr : u.addr = w.addr
      · rw [haddr, hagree u hu haddr, readWord_writeWord_same _ _ hvalue]
      · have hmem : w ∈ ws := by
          rcases List.mem_append.mp hw with h | h
          · exact h
          · exact absurd (congrArg Write.addr (List.mem_singleton.mp h)).symm haddr
        have hapart : w.addr + 8 ≤ u.addr ∨ u.addr + 8 ≤ w.addr := by
          have hw8 := haligned w hw
          have hu8 := haligned u hu
          omega
        rw [readWord_writeWord_other _ _ hapart]
        exact ih hmem (fun x hx => haligned x (List.mem_append_left [u] hx))
          (fun x hx => hagree x (List.mem_append_left [u] hx))

/-- The entry that a slot of the layout holds. -/
def entry (ptPhys page index : Nat) : Nat :=
  if page = 0 then
    link (allocTable ptPhys (if index = 0 then 1 else if index = 511 then 8 else 6))
  else if page = 1 ∨ page = 6 then link (allocTable ptPhys (2 + index))
  else if page = 8 then link (allocTable ptPhys 9)
  else if page = 9 then leaf2M (0x00100000 + index * page2M)
  else leaf2M ((page - 2) * 1024 * 1024 * 1024 + index * page2M)

/-- The three entries of the PML4. -/
theorem entry_root (ptPhys index : Nat) : entry ptPhys 0 index =
    link (allocTable ptPhys (if index = 0 then 1 else if index = 511 then 8 else 6)) := by
  rw [entry, if_pos rfl]

/-- The entries of the two tables for the four GiB: the same directories in both. -/
theorem entry_pdpt (ptPhys index : Nat) {page : Nat} (h : page = 1 ∨ page = 6) :
    entry ptPhys page index = link (allocTable ptPhys (2 + index)) := by
  rw [entry, if_neg (by omega), if_pos h]

/-- The entries of a directory: one large page after the other. -/
theorem entry_pd (ptPhys gib index : Nat) (h : gib < 4) : entry ptPhys (2 + gib) index =
    leaf2M (gib * 1024 * 1024 * 1024 + index * page2M) := by
  rw [entry, if_neg (by omega), if_neg (by omega), if_neg (by omega), if_neg (by omega),
    Nat.add_sub_cancel_left]

/-- The entry that leads to the kernel's directory. -/
theorem entry_pdptKern (ptPhys index : Nat) :
    entry ptPhys 8 index = link (allocTable ptPhys 9) := by
  rw [entry, if_neg (by omega), if_neg (by omega), if_pos rfl]

/-- The entries of the kernel's directory. -/
theorem entry_pdKern (ptPhys index : Nat) :
    entry ptPhys 9 index = leaf2M (0x00100000 + index * page2M) := by
  rw [entry, if_neg (by omega), if_neg (by omega), if_neg (by omega), if_pos rfl]

/-- A slot of the layout. -/
def slot (ptPhys page index : Nat) : Write :=
  { table := allocTable ptPhys page, index, value := entry ptPhys page index }

/-- The slots that are written. -/
def Filled (page index : Nat) : Prop :=
  (page = 0 ∧ (index = 0 ∨ index = 256 ∨ index = 511)) ∨ ((page = 1 ∨ page = 6) ∧ index < 4) ∨
    (2 ≤ page ∧ page < 6 ∧ index < 512) ∨ (page = 8 ∧ index = 510) ∨ (page = 9 ∧ index < 64)

/-- The stores to the PML4 fill three slots. -/
private theorem pml4_slots (ptPhys : Nat) :
    pml4Writes ptPhys hhdmBase = [slot ptPhys 0 0, slot ptPhys 0 256, slot ptPhys 0 511] := by
  have hidx : (hhdmBase >>> 39) &&& 0x1FF = 256 := by decide
  simp only [pml4Writes, hidx, slot, entry_root]
  rfl

/-- The stores for one GiB fill its slots. -/
theorem gib_slots (ptPhys : Nat) {gib : Nat} (h : gib < 4) :
    gibWrites ptPhys hhdmBase gib =
      slot ptPhys 1 gib :: ((List.range 512).map fun mb2 => slot ptPhys (2 + gib) mb2) ++
        [slot ptPhys 6 gib] := by
  have hidx : (((hhdmBase >>> 30) &&& 0x1FF) + gib) &&& 0x1FF = gib := by
    have hbase : (hhdmBase >>> 30) &&& 0x1FF = 0 := by decide
    rw [hbase, Nat.zero_add]
    exact (Nat.and_two_pow_sub_one_eq_mod gib 9).trans (Nat.mod_eq_of_lt (by omega))
  simp only [gibWrites, hidx, slot, entry_pd ptPhys gib _ h,
    entry_pdpt ptPhys gib (Or.inl rfl), entry_pdpt ptPhys gib (Or.inr rfl)]

/-- The stores for the kernel fill its slots. -/
private theorem kernel_slots (ptPhys : Nat) :
    kernelWrites ptPhys =
      slot ptPhys 8 510 :: (List.range 64).map fun mb2 => slot ptPhys 9 mb2 := by
  simp only [kernelWrites, slot, entry_pdptKern, entry_pdKern]

/-- What is written are the slots. -/
theorem mem_tableWrites {ptPhys : Nat} {w : Write} :
    w ∈ tableWrites ptPhys hhdmBase ↔
      ∃ page index, Filled page index ∧ w = slot ptPhys page index := by
  have hgib : w ∈ (List.range 4).flatMap (gibWrites ptPhys hhdmBase) ↔
      ∃ gib < 4, w = slot ptPhys 1 gib ∨ (∃ mb2 < 512, w = slot ptPhys (2 + gib) mb2) ∨
        w = slot ptPhys 6 gib := by
    rw [List.mem_flatMap]
    constructor
    · rintro ⟨gib, hrange, hw⟩
      have hlt := List.mem_range.mp hrange
      rw [gib_slots ptPhys hlt] at hw
      refine ⟨gib, hlt, ?_⟩
      simpa [or_assoc, eq_comm] using hw
    · rintro ⟨gib, hlt, hw⟩
      refine ⟨gib, List.mem_range.mpr hlt, ?_⟩
      rw [gib_slots ptPhys hlt]
      simpa [or_assoc, eq_comm] using hw
  have hpml4 : w ∈ pml4Writes ptPhys hhdmBase ↔
      w = slot ptPhys 0 0 ∨ w = slot ptPhys 0 256 ∨ w = slot ptPhys 0 511 := by
    rw [pml4_slots]
    simp
  have hkernel : w ∈ kernelWrites ptPhys ↔
      w = slot ptPhys 8 510 ∨ ∃ mb2 < 64, w = slot ptPhys 9 mb2 := by
    rw [kernel_slots]
    simp [eq_comm]
  rw [tableWrites, List.mem_append, List.mem_append, hpml4, hgib, hkernel]
  constructor
  · rintro (((hw | hw | hw) | ⟨gib, hlt, hw | ⟨mb2, hmb2, hw⟩ | hw⟩) | hw | ⟨mb2, hlt, hw⟩)
    · exact ⟨0, 0, by unfold Filled; omega, hw⟩
    · exact ⟨0, 256, by unfold Filled; omega, hw⟩
    · exact ⟨0, 511, by unfold Filled; omega, hw⟩
    · exact ⟨1, gib, by unfold Filled; omega, hw⟩
    · exact ⟨2 + gib, mb2, by unfold Filled; omega, hw⟩
    · exact ⟨6, gib, by unfold Filled; omega, hw⟩
    · exact ⟨8, 510, by unfold Filled; omega, hw⟩
    · exact ⟨9, mb2, by unfold Filled; omega, hw⟩
  · rintro ⟨page, index, ⟨rfl, rfl | rfl | rfl⟩ | ⟨rfl | rfl, hlt⟩ | ⟨hlow, hhigh, hlt⟩ |
      ⟨rfl, rfl⟩ | ⟨rfl, hlt⟩, hw⟩
    · exact Or.inl (Or.inl (Or.inl hw))
    · exact Or.inl (Or.inl (Or.inr (Or.inl hw)))
    · exact Or.inl (Or.inl (Or.inr (Or.inr hw)))
    · exact Or.inl (Or.inr ⟨index, hlt, Or.inl hw⟩)
    · exact Or.inl (Or.inr ⟨index, hlt, Or.inr (Or.inr hw)⟩)
    · refine Or.inl (Or.inr ⟨page - 2, by omega, Or.inr (Or.inl ⟨index, hlt, ?_⟩)⟩)
      rw [hw, Nat.add_sub_cancel' hlow]
    · exact Or.inr (Or.inl hw)
    · exact Or.inr (Or.inr ⟨index, hlt, hw⟩)

/-- There are ten tables of 512 entries. -/
theorem Filled.bounds {page index : Nat} (h : Filled page index) : page < 10 ∧ index < 512 := by
  unfold Filled at h
  omega

/-- The address of a slot. -/
theorem slot_addr (ptPhys page index : Nat) :
    (slot ptPhys page index).addr = ptPhys + (512 * page + index) * 8 := by
  change ptPhys + page * 4096 + index * 8 = _
  omega

section
variable {ptPhys : Nat} (ha : pageSize ∣ ptPhys) (hlim : ptPhys < 2 ^ 46)

/-- All writes are in the first ten pages. -/
private theorem writes_within {w : Write} (hw : w ∈ tableWrites ptPhys hhdmBase) :
    ptPhys ≤ w.addr ∧ w.addr + 8 ≤ ptPhys + 10 * pageSize := by
  obtain ⟨page, index, hfilled, rfl⟩ := mem_tableWrites.mp hw
  have hbounds := hfilled.bounds
  rw [slot_addr, pageSize]
  omega

include ha in
/-- The tables are whole pages. -/
theorem allocTable_dvd (page : Nat) : pageSize ∣ allocTable ptPhys page :=
  Nat.dvd_add ha (Nat.dvd_mul_left pageSize page)

include hlim in
/-- They are below the reserved bits. -/
theorem allocTable_lt {page : Nat} (h : page < 10) : allocTable ptPhys page < 2 ^ 52 := by
  rw [allocTable, pageSize]
  omega

/-- A slot of an upper table points to one of the ten. -/
theorem entry_link {page index : Nat} (h : Filled page index) (hpage : levelOf page ≠ 1) :
    ∃ next < 10, entry ptPhys page index = link (allocTable ptPhys next) := by
  obtain ⟨rfl, hidx⟩ | ⟨rfl | rfl, hlt⟩ | ⟨hlow, hhigh, -⟩ | ⟨rfl, -⟩ | ⟨rfl, -⟩ := h
  · refine ⟨if index = 0 then 1 else if index = 511 then 8 else 6, ?_, entry_root ptPhys index⟩
    split_ifs <;> decide
  · exact ⟨2 + index, by omega, entry_pdpt ptPhys index (Or.inl rfl)⟩
  · exact ⟨2 + index, by omega, entry_pdpt ptPhys index (Or.inr rfl)⟩
  · exact absurd (by rw [levelOf, if_neg (by omega), if_neg (by omega)]) hpage
  · exact ⟨9, by decide, entry_pdptKern ptPhys index⟩
  · exact absurd rfl hpage

/-- A slot of a page directory holds a page of 2 MiB. -/
theorem entry_leaf {page index : Nat} (h : Filled page index) (hpage : levelOf page = 1) :
    ∃ phys < 2 ^ 33, entry ptPhys page index = leaf2M phys ∧ 2 * pageSize ∣ phys ∧
      (page2M ∣ phys ↔ page ≠ 9) := by
  simp only [pageSize, page2M]
  obtain ⟨rfl, -⟩ | ⟨rfl | rfl, -⟩ | ⟨hlow, hhigh, hlt⟩ | ⟨rfl, -⟩ | ⟨rfl, hlt⟩ := h
  · exact absurd hpage (by decide)
  · exact absurd hpage (by decide)
  · exact absurd hpage (by decide)
  · obtain ⟨gib, rfl⟩ : ∃ gib, page = 2 + gib := ⟨page - 2, by omega⟩
    refine ⟨gib * 1024 * 1024 * 1024 + index * page2M, ?_, entry_pd ptPhys gib index (by omega), ?_⟩
    · rw [page2M]
      omega
    · rw [page2M]
      omega
  · exact absurd hpage (by decide)
  · refine ⟨0x00100000 + index * page2M, ?_, entry_pdKern ptPhys index, ?_⟩
    · rw [page2M]
      omega
    · rw [page2M]
      omega

/-- The level of a slot is that of its table. -/
theorem slot_level (page index : Nat) : (slot ptPhys page index).level ptPhys = levelOf page := by
  have hpage : (allocTable ptPhys page - ptPhys) / pageSize = page := by
    rw [allocTable, Nat.add_sub_cancel_left]
    exact Nat.mul_div_cancel page (by decide)
  rw [Write.level, slot, hpage]

include ha hlim

/-- A slot is well formed, unless it is of the page directory of the kernel. -/
theorem slot_wellFormed {page index : Nat} (h : Filled page index) :
    WellFormed ((slot ptPhys page index).level ptPhys) (slot ptPhys page index).value ↔
      page ≠ 9 := by
  rw [slot_level]
  change WellFormed (levelOf page) (entry ptPhys page index) ↔ page ≠ 9
  by_cases hpage : levelOf page = 1
  · obtain ⟨phys, hlt, hentry, hattr, hkernel⟩ := @entry_leaf ptPhys page index h hpage
    have hphys : pageSize ∣ phys := Nat.dvd_trans (Nat.dvd_mul_left pageSize 2) hattr
    rw [hpage, hentry, leaf2M_wellFormed hphys (by omega) hattr, hkernel]
  · obtain ⟨next, hnext, hentry⟩ := @entry_link ptPhys page index h hpage
    rw [hentry]
    constructor
    · rintro - rfl
      exact hpage rfl
    · intro _
      exact link_wellFormed (allocTable_dvd ha next) (allocTable_lt hlim hnext) (levelOf page)

/-- What a slot is filled with is a word. -/
theorem entry_lt {page index : Nat} (h : Filled page index) :
    entry ptPhys page index < modulus := by
  have hbound : entry ptPhys page index < 2 ^ 52 := by
    by_cases hpage : levelOf page = 1
    · obtain ⟨phys, hlt, hentry, hattr, -⟩ := @entry_leaf ptPhys page index h hpage
      rw [hentry]
      exact leaf2M_lt (Nat.dvd_trans (Nat.dvd_mul_left pageSize 2) hattr) (by omega)
    · obtain ⟨next, hnext, hentry⟩ := @entry_link ptPhys page index h hpage
      rw [hentry]
      exact link_lt (allocTable_dvd ha next) (allocTable_lt hlim hnext)
  unfold modulus
  omega

/-- After the writes each slot holds its entry. -/
theorem readWord_slot (m : Memory) {page index : Nat} (h : Filled page index) :
    (buildPageTables ptPhys hhdmBase m).readWord (allocTable ptPhys page + 8 * index) =
      entry ptPhys page index := by
  have haligned : ∀ u ∈ tableWrites ptPhys hhdmBase, 8 ∣ u.addr := by
    intro u hu
    obtain ⟨page', index', -, rfl⟩ := mem_tableWrites.mp hu
    rw [slot_addr]
    rw [pageSize] at ha
    omega
  have hagree : ∀ u ∈ tableWrites ptPhys hhdmBase, u.addr = (slot ptPhys page index).addr →
      u.value = (slot ptPhys page index).value := by
    intro u hu haddr
    obtain ⟨page', index', h', rfl⟩ := mem_tableWrites.mp hu
    have hbounds := h.bounds
    have hbounds' := h'.bounds
    rw [slot_addr, slot_addr] at haddr
    have hpage : page' = page := by omega
    have hindex : index' = index := by omega
    rw [hpage, hindex]
  have hread := readWord_writes m (mem_tableWrites.mpr ⟨page, index, h, rfl⟩)
    (entry_lt ha hlim h) haligned hagree
  rwa [slot_addr, show ptPhys + (512 * page + index) * 8 = allocTable ptPhys page + 8 * index by
    rw [allocTable, pageSize]; omega] at hread

/-- Through the shared page directories an address is translated to its place in the 4 GiB. -/
theorem translate_shared (m : Memory) {v pdpt : Nat} (hpdpt : pdpt = 1 ∨ pdpt = 6)
    (hfilled : Filled 0 (tableIndex 3 v))
    (hroot : entry ptPhys 0 (tableIndex 3 v) = link (allocTable ptPhys pdpt))
    (hgib : tableIndex 2 v < 4) :
    translate (buildPageTables ptPhys hhdmBase m) ptPhys v =
      some (tableIndex 2 v * 2 ^ 30 + tableIndex 1 v * page2M + v % page2M) := by
  have hidx : tableIndex 1 v < 512 := tableIndex_lt 1 v
  have hpage : pdpt < 10 := by omega
  have hpd : 2 + tableIndex 2 v < 10 := by omega
  have h3 : (buildPageTables ptPhys hhdmBase m).readWord (ptPhys + 8 * tableIndex 3 v) =
      link (allocTable ptPhys pdpt) := by
    have hread := readWord_slot ha hlim m hfilled
    rwa [hroot, allocTable, Nat.zero_mul, Nat.add_zero] at hread
  have h2 : (buildPageTables ptPhys hhdmBase m).readWord
      (allocTable ptPhys pdpt + 8 * tableIndex 2 v) =
        link (allocTable ptPhys (2 + tableIndex 2 v)) := by
    rw [readWord_slot ha hlim m (by unfold Filled; omega), entry_pdpt ptPhys _ hpdpt]
  have h1 : (buildPageTables ptPhys hhdmBase m).readWord
      (allocTable ptPhys (2 + tableIndex 2 v) + 8 * tableIndex 1 v) =
        leaf2M (tableIndex 2 v * 1024 * 1024 * 1024 + tableIndex 1 v * page2M) := by
    rw [readWord_slot ha hlim m (by unfold Filled; omega), entry_pd ptPhys _ _ hgib]
  have hphys : pageSize ∣ tableIndex 2 v * 1024 * 1024 * 1024 + tableIndex 1 v * page2M := by
    rw [pageSize, page2M]
    omega
  rw [translate_eq (allocTable_dvd ha pdpt) (allocTable_dvd ha _) hphys (allocTable_lt hlim hpage)
    (allocTable_lt hlim hpd) (by rw [page2M]; omega) h3 h2 h1]
  refine congrArg some ?_
  rw [page2M]
  omega

/-- The identity map is right. -/
theorem translate_identity (m : Memory) {v : Nat} (hv : v < 4 * 2 ^ 30) :
    translate (buildPageTables ptPhys hhdmBase m) ptPhys v = some v := by
  have h3 : tableIndex 3 v = 0 := by
    rw [tableIndex_eq]
    omega
  have h2 : tableIndex 2 v = v / 2 ^ 30 := by
    rw [tableIndex_eq]
    omega
  have h1 : tableIndex 1 v = v / 2 ^ 21 % 512 := tableIndex_eq 1 v
  rw [translate_shared ha hlim m (Or.inl rfl) (by unfold Filled; omega)
    (by rw [h3, entry_root]; rfl) (by omega), h2, h1, page2M]
  refine congrArg some ?_
  omega

/-- The direct map is right. -/
theorem translate_direct (m : Memory) {p : Nat} (hp : p < 4 * 2 ^ 30) :
    translate (buildPageTables ptPhys hhdmBase m) ptPhys (hhdmBase + p) = some p := by
  have h3 : tableIndex 3 (hhdmBase + p) = 256 := by
    rw [tableIndex_eq, hhdmBase]
    omega
  have h2 : tableIndex 2 (hhdmBase + p) = p / 2 ^ 30 := by
    rw [tableIndex_eq, hhdmBase]
    omega
  have h1 : tableIndex 1 (hhdmBase + p) = p / 2 ^ 21 % 512 := by
    rw [tableIndex_eq, hhdmBase]
    omega
  rw [translate_shared ha hlim m (Or.inr rfl) (by unfold Filled; omega)
    (by rw [h3, entry_root]; rfl) (by omega), h2, h1, page2M, hhdmBase]
  refine congrArg some ?_
  omega

end

/-- Wherever the tables are, they are not as documented, because of the leaves of the kernel: the
rest is, all writes and all other entries, the identity map and the direct map. -/
theorem kernel_leaves_ill_formed {ptPhys : Nat} (ha : pageSize ∣ ptPhys) (hlim : ptPhys < 2 ^ 46)
    (m : Memory) :
    ¬AsDocumented ptPhys m ∧
    (∀ w ∈ tableWrites ptPhys hhdmBase, ptPhys ≤ w.addr ∧ w.addr + 8 ≤ ptPhys + 16 * pageSize ∧
      (WellFormed (w.level ptPhys) w.value ↔ w.table ≠ allocTable ptPhys 9)) ∧
    (∀ v < 4 * 2 ^ 30, translate (buildPageTables ptPhys hhdmBase m) ptPhys v = some v) ∧
    (∀ p < 4 * 2 ^ 30,
      translate (buildPageTables ptPhys hhdmBase m) ptPhys (hhdmBase + p) = some p) := by
  refine ⟨?_, ?_, fun v => translate_identity ha hlim m, fun p => translate_direct ha hlim m⟩
  · intro h
    have hfilled : Filled 9 0 := by unfold Filled; omega
    have hslot := h.wellFormed _ (mem_tableWrites.mpr ⟨9, 0, hfilled, rfl⟩)
    exact (slot_wellFormed ha hlim hfilled).mp hslot rfl
  · intro w hw
    obtain ⟨hlow, hhigh⟩ := writes_within hw
    obtain ⟨page, index, hfilled, rfl⟩ := mem_tableWrites.mp hw
    have htable : (slot ptPhys page index).table = allocTable ptPhys 9 ↔ page = 9 := by
      change ptPhys + page * 4096 = ptPhys + 9 * 4096 ↔ page = 9
      omega
    refine ⟨hlow, by rw [pageSize] at hhigh ⊢; omega, ?_⟩
    rw [slot_wellFormed ha hlim hfilled, ne_eq, ne_eq, htable]

/-- Memory as the tables are given: no frame is handed out yet, and all is zero. -/
def bootMemory : Memory := ⟨Pmm.empty, fun _ => 0, Trace.empty⟩

/-- The address of the text screen, by the finished tables. -/
theorem identity_at_2MiB :
    translate (buildPageTables 0x200000 hhdmBase bootMemory) 0x200000 0xB8000 = some 0xB8000 :=
  (kernel_leaves_ill_formed (by decide) (by decide) bootMemory).2.2.1 0xB8000 (by decide)

/-- The first page of the kernel is entered with bit 20 of its address set. -/
theorem first_kernel_leaf_ill_formed : ¬AsDocumented 0x200000 bootMemory := by
  intro h
  have hleaf : slot 0x200000 9 0 ∈ tableWrites 0x200000 hhdmBase :=
    mem_tableWrites.mpr ⟨9, 0, by unfold Filled; omega, rfl⟩
  have hformed := (h.wellFormed _ hleaf).large
  rw [slot_level] at hformed
  exact absurd (hformed (by decide) (by decide)) (by decide)

end BootTables
