import Noxisa.UserPageTable

/-!
# What the processor makes of a page table

The four-level walk of a virtual address.  A table of level 3 is a PML4, one of
level 0 holds the leaf entries; an entry of level 1 or 2 with the page size bit
is a leaf for a larger page.  Ring 3 may use a page if every entry on the way
has the USER bit, and the same goes for writing; one NO_EXECUTE bit on the way
takes the right to execute.

The walk looks at the bits 12 to 47 of the address only: `pageKey n v` is what
it has seen of `v` when it has passed level `n`.
-/

namespace UserPageTable

open ByteMemory FrameAllocator MachineWord PhysicalMemory

/-- The `PS` bit: an entry that is a large page. -/
def pageSizeBit : Nat := 128

/-- The index into the table of level `n`. -/
def tableIndex (n v : Nat) : Nat := (v >>> (12 + 9 * n)) &&& 0x1FF

/-- The bits of the address at level `n` and above. -/
def pageKey (n v : Nat) : Nat := v / 2 ^ (12 + 9 * n) % 2 ^ (36 - 9 * n)

/-- What the whole walk looks at. -/
abbrev tag (v : Nat) : Nat := pageKey 0 v

/-- Where an address goes, the size of the page, and what it may be used for. -/
structure Translation where
  frame : Nat
  size : Nat
  writable : Bool
  user : Bool
  executable : Bool
deriving DecidableEq

/-- A present leaf entry of level `n`. -/
def leafTranslation (n e : Nat) : Translation :=
  let size := 2 ^ (12 + 9 * n)
  { frame := (e &&& addrMask) / size * size, size := size
    writable := e &&& pageWritable != 0, user := e &&& pageUser != 0
    executable := e &&& noExecute == 0 }

/-- What an entry on the way leaves of the rights. -/
def Translation.restrict (t : Translation) (e : Nat) : Translation :=
  { t with
    writable := t.writable && e &&& pageWritable != 0
    user := t.user && e &&& pageUser != 0
    executable := t.executable && e &&& noExecute == 0 }

/-- The walk from a table of level `n`.  The page size bit is reserved in the
entries of a PML4. -/
def walk (m : Memory) : Nat → Nat → Nat → Option Translation
  | 0, table, v =>
      let e := m.readWord (table + 8 * tableIndex 0 v)
      if e &&& pagePresent = 0 then none else some (leafTranslation 0 e)
  | n + 1, table, v =>
      let e := m.readWord (table + 8 * tableIndex (n + 1) v)
      if e &&& pagePresent = 0 then none
      else if e &&& pageSizeBit ≠ 0 then
        if n + 1 < 3 then some (leafTranslation (n + 1) e) else none
      else (walk m n (e &&& addrMask) v).map (fun t => t.restrict e)

/-- An index is below 512. -/
theorem tableIndex_lt (n v : Nat) : tableIndex n v < 512 := idx_lt _

/-- An index is nine bits of the address. -/
theorem tableIndex_eq (n v : Nat) : tableIndex n v = v / 2 ^ (12 + 9 * n) % 2 ^ 9 := by
  unfold tableIndex
  rw [Nat.shiftRight_eq_div_pow]
  exact Nat.and_two_pow_sub_one_eq_mod _ 9

/-- One level adds nine bits to what has been seen. -/
theorem pageKey_succ {n : Nat} (hn : n < 4) (v : Nat) :
    pageKey n v = pageKey (n + 1) v * 512 + tableIndex n v := by
  rw [tableIndex_eq]
  unfold pageKey
  have hup : v / 2 ^ (12 + 9 * (n + 1)) = v / 2 ^ (12 + 9 * n) / 512 := by
    rw [Nat.div_div_eq_div_mul]
    ring_nf
  have hwidth : 2 ^ (36 - 9 * n) = 512 * 2 ^ (36 - 9 * (n + 1)) := by
    have hsum : 36 - 9 * n = 9 + (36 - 9 * (n + 1)) := by omega
    rw [hsum, pow_add]
    rfl
  rw [hup, hwidth, Nat.mod_mul]
  omega

/-- The whole walk has seen all of the address it looks at. -/
theorem pageKey_top (v : Nat) : pageKey 4 v = 0 := by
  unfold pageKey
  omega

/-- An entry on the way that is open to everything takes no rights. -/
theorem restrict_open {t : Translation} {e : Nat} (hw : e &&& pageWritable ≠ 0)
    (hu : e &&& pageUser ≠ 0) (hx : e &&& noExecute = 0) : t.restrict e = t := by
  have hwrite : (e &&& pageWritable != 0) = true := bne_iff_ne.mpr hw
  have huser : (e &&& pageUser != 0) = true := bne_iff_ne.mpr hu
  simp [Translation.restrict, hwrite, huser, hx]

/-- Behind an entry without the USER bit there is nothing for ring 3. -/
theorem walk_not_user {m : Memory} {n table v : Nat} {t : Translation}
    (he : m.readWord (table + 8 * tableIndex n v) &&& pageUser = 0)
    (h : walk m n table v = some t) : t.user = false := by
  cases n with
  | zero =>
      simp only [walk] at h
      split at h
      · cases h
      · obtain rfl := Option.some.inj h
        simp [leafTranslation, he]
  | succ n =>
      simp only [walk] at h
      split at h
      · cases h
      · split at h
        · split at h
          · obtain rfl := Option.some.inj h
            simp [leafTranslation, he]
          · cases h
        · obtain ⟨t', -, rfl⟩ := Option.map_eq_some_iff.mp h
          simp [Translation.restrict, he]

end UserPageTable
