import Noxisa.ElfLoader

/-!
# Building the page table of an isolated task

The model of `create_isolated_user_table_fresh` and its helper
`map_user_page_split` in `memory/paging.rs`: a fresh PML4 whose upper half is
copied from the active one, and a walk through three levels for each page,
which makes the tables that are missing and sets the USER bit in every entry
it passes.

The arithmetic of entries is in the lemmas at the end: what an entry points to
(`and_addrMask`), and that the new entries and the changed ones point where
they should.
-/

namespace UserPageTable

open ElfLoader FrameAllocator MachineWord PhysicalMemory

/-- The entry points to something. -/
def pagePresent : Nat := 1

/-- What it points to may be written. -/
def pageWritable : Nat := 2

/-- Ring 3 may use it. -/
def pageUser : Nat := 4

/-- No code is executed from there. -/
def noExecute : Nat := 2 ^ 63

/-- The address in an entry. -/
def addrMask : Nat := 0x000FFFFFFFFFF000

/-- Which of the 512 entries of a PML4 an address belongs to. -/
def pml4Idx (vaddr : Nat) : Nat := (vaddr >>> 39) &&& 0x1FF

/-- The same for the table below. -/
def pdptIdx (vaddr : Nat) : Nat := (vaddr >>> 30) &&& 0x1FF

/-- The same for the directory. -/
def pdIdx (vaddr : Nat) : Nat := (vaddr >>> 21) &&& 0x1FF

/-- The same for the last table. -/
def ptIdx (vaddr : Nat) : Nat := (vaddr >>> 12) &&& 0x1FF

section

variable {ε : Type}

/-- One level of the walk, at the entry `table.add(idx)`: make the next table
if the entry is not present, else set its USER bit; the next table, and the
frames of the tables made. -/
def enterTable (message : String) (table idx : Nat) (tableFrames : List Nat) :
    Command Memory ε (Nat × List Nat) := do
  let entry ← Command.gets (fun m => m.readWord (table + 8 * idx))
  if entry &&& pagePresent = 0 then do
    let frame ← allocExpect message
    Command.modify (fun m => m.zeroFrame frame)
    Command.modify (fun m =>
      m.writeWord (table + 8 * idx) (frame ||| pagePresent ||| pageWritable ||| pageUser))
    let entry ← Command.gets (fun m => m.readWord (table + 8 * idx))
    return (entry &&& addrMask, tableFrames ++ [frame])
  else do
    Command.modify (fun m => m.writeWord (table + 8 * idx) (entry ||| pageUser))
    let entry ← Command.gets (fun m => m.readWord (table + 8 * idx))
    return (entry &&& addrMask, tableFrames)

/-- The flags of a leaf entry. -/
def leafFlags (writable executable : Bool) : Nat :=
  pagePresent ||| pageUser ||| (if writable then pageWritable else 0) |||
    (if executable then 0 else noExecute)

/-- `map_user_page_split`: the tables on the way are made where they are missing, and
then the leaf is written. -/
def mapUserPageSplit (newPml4 vaddr paddr : Nat) (writable executable : Bool)
    (tableFrames : List Nat) : Command Memory ε (List Nat) := do
  let (pdpt, tableFrames) ←
    enterTable "out of memory (PDPT, isolated table)" newPml4 (pml4Idx vaddr) tableFrames
  let (pd, tableFrames) ←
    enterTable "out of memory (PD, isolated table)" pdpt (pdptIdx vaddr) tableFrames
  let (pt, tableFrames) ←
    enterTable "out of memory (PT, isolated table)" pd (pdIdx vaddr) tableFrames
  Command.modify (fun m =>
    m.writeWord (pt + 8 * ptIdx vaddr) ((paddr &&& addrMask) ||| leafFlags writable executable))
  return tableFrames

/-- `for i in 256..512`: copy the upper half of the active PML4. -/
def copyUpper (kernelPml4 newPml4 : Nat) (m : Memory) : Memory :=
  (List.range 256).foldl
    (fun m i => m.writeWord (newPml4 + 8 * (256 + i)) (m.readWord (kernelPml4 + 8 * (256 + i)))) m

/-- The loop over the pages of the program. -/
def mapPages (newPml4 : Nat) : List Page → List Nat → Command Memory ε (List Nat)
  | [], tableFrames => pure tableFrames
  | page :: pages, tableFrames => do
      let tableFrames ←
        mapUserPageSplit newPml4 page.vaddr page.frame page.writable page.executable tableFrames
      mapPages newPml4 pages tableFrames

/-- The new PML4 and the frames of all tables.  The stack page is mapped at its
own physical address. -/
def createIsolatedUserTableFresh (cr3 : Nat) (pages : List Page) (stackPhys : Nat) :
    Command Memory ε (Nat × List Nat) := do
  let newPml4 ← allocExpect "out of memory building isolated PML4"
  Command.modify (fun m => m.zeroFrame newPml4)
  Command.modify (copyUpper (cr3 &&& addrMask) newPml4)
  let tableFrames ← mapPages newPml4 pages [newPml4]
  let tableFrames ← mapUserPageSplit newPml4 stackPhys stackPhys true false tableFrames
  return (newPml4, tableFrames)

end

/-- The address in an entry is a page below `2 ^ 52`. -/
theorem and_addrMask (e : Nat) : e &&& addrMask = e / 4096 % 2 ^ 40 * 4096 := by
  have hmask : addrMask = (2 ^ 40 - 1) <<< 12 := by decide
  have hright : e / 4096 % 2 ^ 40 * 4096 = ((e >>> 12) % 2 ^ 40) <<< 12 := by
    rw [Nat.shiftRight_eq_div_pow, Nat.shiftLeft_eq]
  rw [hmask, hright]
  apply Nat.eq_of_testBit_eq
  intro i
  simp only [Nat.testBit_and, Nat.testBit_shiftLeft, Nat.testBit_shiftRight,
    Nat.testBit_two_pow_sub_one, Nat.testBit_mod_two_pow]
  by_cases hlow : 12 ≤ i
  · simp [hlow, Nat.add_sub_cancel' hlow, Bool.and_comm]
  · simp [hlow]

/-- The bits below the address of an entry are its flags. -/
theorem or_and_low {a b : Nat} (ha : pageSize ∣ a) (f : Nat) (hb : b < 4096) :
    (a ||| f) &&& b = f &&& b := by
  obtain ⟨k, rfl⟩ := ha
  have hlow : pageSize * k &&& b = 0 := by
    have hshift : pageSize * k = k <<< 12 := by rw [Nat.shiftLeft_eq, Nat.mul_comm]; rfl
    rw [hshift]
    apply Nat.eq_of_testBit_eq
    intro i
    rw [Nat.testBit_and, Nat.testBit_shiftLeft, Nat.zero_testBit]
    by_cases hi : 12 ≤ i
    · have hpow : 2 ^ 12 ≤ 2 ^ i := Nat.pow_le_pow_right (by omega) hi
      have hzero : b.testBit i = false := Nat.testBit_lt_two_pow (lt_of_lt_of_le hb hpow)
      rw [hzero, Bool.and_false]
    · simp [hi]
  rw [Nat.and_or_distrib_right, hlow, Nat.zero_or]

/-- Low bits are added to an address of a page. -/
theorem or_eq_add {a f : Nat} (ha : pageSize ∣ a) (hf : f < 4096) : a ||| f = a + f := by
  obtain ⟨k, rfl⟩ := ha
  exact (Nat.two_pow_add_eq_or_of_lt (i := 12) hf k).symm

/-- The address in an entry is that of a page. -/
theorem dvd_and_addrMask (e : Nat) : pageSize ∣ e &&& addrMask := by
  rw [and_addrMask]
  exact Dvd.intro_left _ rfl

/-- Setting the USER bit of an entry changes neither where it points nor
whether it is present. -/
theorem or_user_addr (e : Nat) : (e ||| pageUser) &&& addrMask = e &&& addrMask := by
  have hdiv : (e ||| pageUser) / 4096 = e / 4096 := by
    have h := Nat.shiftRight_or_distrib (i := 12) (a := e) (b := pageUser)
    simpa [Nat.shiftRight_eq_div_pow, pageUser] using h
  rw [and_addrMask, and_addrMask, hdiv]

/-- With the USER bit set, it is set. -/
theorem or_user_user (e : Nat) : (e ||| pageUser) &&& pageUser ≠ 0 := by
  rw [Nat.and_or_distrib_right, Nat.and_self]
  intro h
  have := (Nat.or_eq_zero_iff.mp h).2
  simp [pageUser] at this

/-- An entry with the bit is a word. -/
theorem or_user_lt {e : Nat} (h : e < modulus) : e ||| pageUser < modulus :=
  Nat.or_lt_two_pow h (by decide)

/-- The entry of a new table points to its frame. -/
theorem new_entry {f : Nat} (hf : pageSize ∣ f) (hlt : f + pageSize ≤ 2 ^ 52) :
    (f ||| pagePresent ||| pageWritable ||| pageUser) &&& addrMask = f := by
  have hor : f ||| pagePresent ||| pageWritable ||| pageUser = f + 7 := by
    rw [Nat.or_assoc, Nat.or_assoc]
    exact or_eq_add hf (by decide)
  rw [hor, and_addrMask]
  simp only [pageSize] at hf hlt
  omega

/-- A new entry is a word. -/
theorem new_entry_lt {f : Nat} (hlt : f + pageSize ≤ 2 ^ 52) :
    f ||| pagePresent ||| pageWritable ||| pageUser < modulus := by
  have hbig : f < modulus := by
    unfold modulus
    omega
  exact or_user_lt (Nat.or_lt_two_pow (Nat.or_lt_two_pow hbig (by decide)) (by decide))

/-- A leaf has the USER bit. -/
theorem leaf_user (a : Nat) (w x : Bool) :
    (a &&& addrMask ||| leafFlags w x) &&& pageUser ≠ 0 := by
  have hflags : leafFlags w x &&& pageUser = pageUser := by
    cases w <;> cases x <;> decide
  rw [Nat.and_or_distrib_right, hflags]
  intro h
  have := (Nat.or_eq_zero_iff.mp h).2
  simp [pageUser] at this

/-- A leaf is a word. -/
theorem leaf_lt (a : Nat) (w x : Bool) : a &&& addrMask ||| leafFlags w x < modulus := by
  have haddr : a &&& addrMask < modulus := lt_of_le_of_lt Nat.and_le_right (by decide)
  have hflags : leafFlags w x < modulus := by
    cases w <;> cases x <;> decide
  exact Nat.or_lt_two_pow haddr hflags

/-- An index is below 512. -/
theorem idx_lt (a : Nat) : a &&& 0x1FF < 512 :=
  lt_of_le_of_lt Nat.and_le_right (by decide)

/-- The upper half of the PML4 is for the addresses with bit 47. -/
theorem pml4Idx_upper (v : Nat) : 256 ≤ pml4Idx v ↔ v.testBit 47 = true := by
  have hidx : pml4Idx v = v / 2 ^ 39 % 2 ^ 9 := by
    unfold pml4Idx
    rw [Nat.shiftRight_eq_div_pow]
    exact Nat.and_two_pow_sub_one_eq_mod _ 9
  rw [hidx, Nat.testBit_eq_decide_div_mod_eq, decide_eq_true_iff]
  omega

end UserPageTable
