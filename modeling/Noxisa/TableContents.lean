import Noxisa.ProgramFrames

/-!
# What a new page table holds

`create_isolated_user_table_fresh` takes pages at any addresses of the lower
half and any physical addresses, of which an entry keeps the bits 12 to 51.
`create_contents` says what can be read out of the table it returns: for each
address the last page with the same bits 12 to 47, in the upper half what the
active PML4 has there, and in the list of frames each frame that was allocated,
once.

`debug_read_pte_flags` goes down the same four levels as the processor, but
looks at the rights in the last entry only (`leafEntry`).  In a directory the
entries on the way take no rights, so it reports those of the walk.
-/

namespace UserPageTable

open ByteMemory ElfLoader FrameAllocator MachineWord PhysicalMemory
open Scheduler (Listed create_books)

/-- `debug_read_pte_flags`: whether the leaf entry is writable, and executable. -/
def debugReadPteFlags (m : Memory) (pml4Phys vaddr : Nat) : Option (Bool × Bool) :=
  let pml4 := pml4Phys &&& addrMask
  let pml4e := m.readWord (pml4 + 8 * pml4Idx vaddr)
  if pml4e &&& pagePresent = 0 then none else
  let pdpt := pml4e &&& addrMask
  let pdpte := m.readWord (pdpt + 8 * pdptIdx vaddr)
  if pdpte &&& pagePresent = 0 then none else
  let pd := pdpte &&& addrMask
  let pde := m.readWord (pd + 8 * pdIdx vaddr)
  if pde &&& pagePresent = 0 then none else
  let pt := pde &&& addrMask
  let pte := m.readWord (pt + 8 * ptIdx vaddr)
  if pte &&& pagePresent = 0 then none else
  some (pte &&& pageWritable != 0, pte &&& noExecute == 0)

/-- The last entry on the way down from a table of level `n`. -/
def leafEntry (m : Memory) : Nat → Nat → Nat → Option Nat
  | 0, table, v =>
      let e := m.readWord (table + 8 * tableIndex 0 v)
      if e &&& pagePresent = 0 then none else some e
  | n + 1, table, v =>
      let e := m.readWord (table + 8 * tableIndex (n + 1) v)
      if e &&& pagePresent = 0 then none else leafEntry m n (e &&& addrMask) v

/-- The flags that `debug_read_pte_flags` reads are those of the entry the walk ends at.
-/
theorem debugReadPteFlags_eq (m : Memory) (pml4Phys v : Nat) :
    debugReadPteFlags m pml4Phys v = (leafEntry m 3 (pml4Phys &&& addrMask) v).map
      (fun e => (e &&& pageWritable != 0, e &&& noExecute == 0)) := by
  have htop : tableIndex 3 v = pml4Idx v := rfl
  have hpdpt : tableIndex 2 v = pdptIdx v := rfl
  have hpd : tableIndex 1 v = pdIdx v := rfl
  have hpt : tableIndex 0 v = ptIdx v := rfl
  simp only [debugReadPteFlags, leafEntry, htop, hpdpt, hpd, hpt]
  split_ifs <;> rfl

section

variable {dir : Nat → Nat → Option Nat} {pml4 : Nat} {s : Layout} {m : Memory}

/-- In a directory the last entry says what the layout says. -/
theorem Directory.leafEntry_from (h : Directory dir pml4 s m) {v : Nat}
    (hv : v.testBit 47 = false) :
    ∀ n table, n < 4 → dir n (pageKey (n + 1) v) = some table →
      (leafEntry m n table v).map (leafTranslation 0) = s (tag v) := by
  intro n
  induction n with
  | zero =>
      intro table _ ht
      rw [← h.last ht, leafEntry, leafOf]
      split_ifs <;> rfl
  | succ n ih =>
      intro table hn ht
      rcases h.step hv hn ht with ⟨hempty, hnone⟩ | ⟨f, hnext, hword, hdvd, hlt⟩
      · rw [hnone, leafEntry, if_pos hempty]
        rfl
      · have haddr : openEntry f &&& addrMask = f := new_entry hdvd hlt
        rw [← ih f (by omega) hnext, leafEntry, hword, if_neg (openEntry_present hdvd), haddr]

/-- **The debug read reports the rights of the walk.** -/
theorem Directory.debugRead_eq (h : Directory dir pml4 s m) {v : Nat} (hv : v.testBit 47 = false) :
    debugReadPteFlags m pml4 v = (s (tag v)).map (fun t => (t.writable, t.executable)) := by
  obtain ⟨hdvd, hlt⟩ := h.page 3 0 pml4 h.top
  have haddr : pml4 &&& addrMask = pml4 := by
    have hsame := masked_eq (p := stackPage pml4) hdvd hlt
    exact congrArg Page.frame hsame
  have htop : dir 3 (pageKey 4 v) = some pml4 := by
    rw [pageKey_top]
    exact h.top
  rw [debugReadPteFlags_eq, haddr, ← h.leafEntry_from hv 3 pml4 (by decide) htop, Option.map_map]
  rfl

end

/-- `p` is the last of the pages whose address has the bits 12 to 47 of `v`. -/
def LastFor (pages : List Page) (v : Nat) (p : Page) : Prop :=
  ∃ before after, pages = before ++ p :: after ∧ tag p.vaddr = tag v ∧
    ∀ q ∈ after, tag q.vaddr ≠ tag v

section

variable {ε : Type} {limit cr3 stackPhys pml4 : Nat} {held frames : List Nat} {pages : List Page}
  {m m' : Memory}

/-- What the layout of masked pages says. -/
theorem layoutOf_masked {v : Nat} {tr : Translation} :
    layoutOf (pages.map masked) (tag v) = some tr ↔
      ∃ p, LastFor pages v p ∧ tr = translation (masked p) := by
  rw [layoutOf_eq_some]
  constructor
  · rintro ⟨before, p, after, hsplit, htag, rfl, hafter⟩
    obtain ⟨before', rest, rfl, -, hrest⟩ := List.map_eq_append_iff.mp hsplit
    obtain ⟨q, after', rfl, rfl, rfl⟩ := List.map_eq_cons_iff.mp hrest
    refine ⟨q, ⟨before', after', rfl, htag, fun r hr => ?_⟩, rfl⟩
    exact hafter (masked r) (List.mem_map_of_mem hr)
  · rintro ⟨p, ⟨before, after, rfl, htag, hafter⟩, rfl⟩
    refine ⟨before.map masked, masked p, after.map masked, by simp, htag, rfl, ?_⟩
    intro q hq
    obtain ⟨r, hr, rfl⟩ := List.mem_map.mp hq
    exact hafter r hr

/-- A page is laid out where one of the list goes. -/
theorem layoutOf_masked_isSome {v : Nat} :
    (layoutOf (pages.map masked) (tag v)).isSome ↔ ∃ p ∈ pages, tag p.vaddr = tag v := by
  unfold layoutOf
  rw [Option.isSome_map, List.find?_isSome]
  constructor
  · rintro ⟨p, hp, hbeq⟩
    obtain ⟨q, hq, rfl⟩ := List.mem_map.mp (List.mem_reverse.mp hp)
    exact ⟨q, hq, beq_iff_eq.mp hbeq⟩
  · rintro ⟨p, hp, htag⟩
    exact ⟨masked p, List.mem_reverse.mpr (List.mem_map_of_mem hp), beq_iff_eq.mpr htag⟩

/-- **What the table builder makes of any list of pages.** -/
theorem create_contents (hl : limit ≤ 2 ^ 52) (h : Sound limit m.pmm held)
    (hk : InUse limit m.pmm (cr3 &&& addrMask)) (htrace : m.trace = Trace.empty)
    (hpages : ∀ p ∈ pages, p.vaddr.testBit 47 = false) (hlow : stackPhys.testBit 47 = false)
    (hrun : (createIsolatedUserTableFresh cr3 pages stackPhys : Command Memory ε _) m =
      (.ok (pml4, frames), m')) :
    (∀ v, v.testBit 47 = false →
      ((walk m' 3 pml4 v).isSome ↔
        ∃ p ∈ pages ++ [stackPage stackPhys], tag p.vaddr = tag v) ∧
      (∀ p, LastFor (pages ++ [stackPage stackPhys]) v p → walk m' 3 pml4 v = some
        { frame := p.frame &&& addrMask, size := pageSize, writable := p.writable, user := true
          executable := p.executable }) ∧
      debugReadPteFlags m' pml4 v =
        (walk m' 3 pml4 v).map (fun t => (t.writable, t.executable))) ∧
    (∀ i, 256 ≤ i → i < 512 →
      m'.readWord (pml4 + 8 * i) = m.readWord ((cr3 &&& addrMask) + 8 * i)) ∧
    frames.Nodup ∧ frames.Perm m'.trace.taken := by
  obtain ⟨held', hmem, hsound⟩ := h.hold (dvd_and_addrMask cr3) hk
  have hmod : limit + pageSize < modulus := by
    simp only [pageSize, modulus]
    omega
  have hcall := callSound_start hsound htrace
  have hbuilt := create_space (ε := ε) hl hcall hmem hpages hlow
  rw [hrun] at hbuilt
  obtain ⟨lvl, dir, hspace⟩ := hbuilt
  have hstart : Listed ⟨limit, 0, False⟩ held' [] [] m := by
    refine ⟨⟨?_, False.elim⟩, ?_⟩
    · rw [htrace]
      exact hsound
    · rw [htrace]
      exact List.Perm.nil
  have htotal : 0 < modulus := by decide
  have hlisted := create_books (ε := ε) hmod htotal cr3 pages stackPhys m hstart
  rw [hrun] at hlisted
  have hperm : m'.trace.taken.Perm (frames ++ []) := Listed.perm hlisted
  rw [List.append_nil] at hperm
  have hnodup : m'.trace.taken.Nodup :=
    (List.nodup_append'.mp
      (List.nodup_append'.mp hspace.tables.call.sound.separated.nodup).1).1
  refine ⟨fun v hv => ⟨?_, fun p hp => ?_, ?_⟩, fun i hlo hhi => ?_, ?_, hperm.symm⟩
  · rw [hspace.directory.walk_eq hv]
    exact layoutOf_masked_isSome
  · rw [hspace.directory.walk_eq hv]
    exact layoutOf_masked.mpr ⟨p, hp, rfl⟩
  · rw [hspace.directory.walk_eq hv]
    exact hspace.directory.debugRead_eq hv
  · exact hspace.tables.upper_eq i hlo hhi
  · exact hperm.nodup_iff.mp hnodup

/-- Two pages for the same address, and a stack: the second page wins, and the
low bits of its frame are dropped. -/
def samplePages : List Page := [⟨0x400000, 0x7000, false, true⟩, ⟨0x400ABC, 0x9123, true, false⟩]

/-- The hypotheses are met by two pages on one address and a stack. -/
theorem sample_contents : ∃ pml4 frames m',
    (createIsolatedUserTableFresh 0x1000 samplePages 0x8000 : Command Memory Empty _)
      Scheduler.shellKernel.mem = (.ok (pml4, frames), m') ∧
    walk m' 3 pml4 0x400FFF = some ⟨0x9000, 4096, true, true, false⟩ ∧
    debugReadPteFlags m' pml4 0x400FFF = some (true, false) ∧
    ¬(walk m' 3 pml4 0x401000).isSome ∧ frames.Nodup := by
  have hsound : Sound (2 ^ 47) Scheduler.shellKernel.mem.pmm [] :=
    bootPmm_sound (by decide) (by decide) Scheduler.lowMap
  have hpages : ∀ p ∈ samplePages, p.vaddr.testBit 47 = false := by decide
  have hok : ((createIsolatedUserTableFresh 0x1000 samplePages 0x8000 : Command Memory Empty _)
      Scheduler.shellKernel.mem).1 =
        .ok (0x400000, [0x400000, 0x401000, 0x402000, 0x403000, 0x404000]) := by
    decide +kernel
  have hlast : LastFor (samplePages ++ [stackPage 0x8000]) 0x400FFF
      ⟨0x400ABC, 0x9123, true, false⟩ := by
    refine ⟨[⟨0x400000, 0x7000, false, true⟩], [stackPage 0x8000], rfl, by decide, ?_⟩
    intro q hq
    obtain rfl := List.mem_singleton.mp hq
    decide
  obtain ⟨m', hrun⟩ := Command.exists_of_fst hok
  obtain ⟨hwalk, -, hnodup, -⟩ := create_contents (by decide) hsound
    Scheduler.shellKernel_cr3_inUse rfl hpages (by decide) hrun
  obtain ⟨-, hleaf, hdebug⟩ := hwalk 0x400FFF (by decide)
  have hpage := hleaf _ hlast
  refine ⟨_, _, m', hrun, hpage, ?_, ?_, hnodup⟩
  · rw [hdebug, hpage]
    rfl
  · rw [(hwalk 0x401000 (by decide)).1]
    decide

end

end UserPageTable
