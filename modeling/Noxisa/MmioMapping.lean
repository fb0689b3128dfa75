import Noxisa.KernelPaging
import Noxisa.Mmu

/-!
# Mapping device registers

The model of `map_mmio` in `memory/paging.rs`.  For each page of the region it
walks from the table in CR3, makes the tables that are missing and writes a leaf
entry; it panics at a huge page.

The kernel's own tables form a tree: `KernelTree` gives each of them a level, 4
for the PML4, and an entry of the upper half leads one level down.  `Mapping` is
what a call keeps: the tables stay a tree, and it writes to no frame that was in
use before, the tables of the tree below the PML4 excepted.  The PML4 itself is
written to only when an entry is missing (`frozen` says that none is).
-/

namespace UserPageTable

open ByteMemory FrameAllocator MachineWord PhysicalMemory

/-- Cache disable. -/
def pagePcd : Nat := 16

section

variable {ε : Type}

/-- The next table behind an entry, made if it is missing. -/
def nextTable (message : String) (table idx : Nat) : Command Memory ε Nat := do
  let entry ← Command.gets (fun m => m.readWord (table + 8 * idx))
  if entry &&& pagePresent = 0 then do
    let frame ← allocExpect message
    Command.modify (fun m => m.zeroFrame frame)
    Command.modify (fun m =>
      m.writeWord (table + 8 * idx) (frame ||| pagePresent ||| pageWritable))
    let entry ← Command.gets (fun m => m.readWord (table + 8 * idx))
    return entry &&& addrMask
  else return entry &&& addrMask

/-- Panic at an entry for a huge page. -/
def refuseHuge (message : String) (table idx : Nat) : Command Memory ε Unit := do
  let entry ← Command.gets (fun m => m.readWord (table + 8 * idx))
  if entry &&& pagePresent ≠ 0 ∧ entry &&& pageSizeBit ≠ 0 then Command.panic message
  else return ()

/-- The body of the loop of `map_mmio`. -/
def mapMmioPage (pml4 offset phys : Nat) : Command Memory ε Unit := do
  let virt := add offset phys
  let pdpt ← nextTable "out of memory mapping MMIO region (PDPT)" pml4 (pml4Idx virt)
  refuseHuge ("map_mmio: PDPT entry at " ++ hex virt ++ " is a 1GiB huge page, cannot split")
    pdpt (pdptIdx virt)
  let pd ← nextTable "out of memory mapping MMIO region (PD)" pdpt (pdptIdx virt)
  refuseHuge ("map_mmio: PD entry at " ++ hex virt ++ " is a 2MiB huge page, cannot split")
    pd (pdIdx virt)
  let pt ← nextTable "out of memory mapping MMIO region (PT)" pd (pdIdx virt)
  Command.modify (fun m => m.writeWord (pt + 8 * ptIdx virt)
    (phys ||| pagePresent ||| pageWritable ||| pagePcd ||| noExecute))

/-- `phys_start & !0xFFF` -/
def mmioStart (physStart : Nat) : Nat := pageMask physStart

/-- The number of pages of a region. -/
def mmioPages (physStart size : Nat) : Nat :=
  (pageMask (add (add physStart size) 0xFFF) - mmioStart physStart) / 0x1000

/-- `offset` is `hhdm_offset()`.  The virtual address of the region. -/
def mapMmio (cr3 offset physStart size : Nat) : Command Memory ε Nat := do
  Command.forRange
    (fun i => mapMmioPage (cr3 &&& addrMask) offset (mmioStart physStart + i * 0x1000))
    0 (mmioPages physStart size)
  return add offset (mmioStart physStart)

end

/-- **The kernel's tables**, each with its level; an entry of the upper half, or
of a lower table, leads one level down, if it is not for a huge page. -/
structure KernelTree (root : Nat) (lvl : Nat → Option Nat) (tables : List Nat) (m : Memory) :
    Prop where
  top : lvl root = some 4
  own : ∀ f n, lvl f = some n → f ∈ tables
  down : ∀ f n i, lvl f = some (n + 2) → i < 512 → (f = root → 256 ≤ i) →
    m.readWord (f + 8 * i) &&& pagePresent ≠ 0 →
    (n + 2 = 4 ∨ m.readWord (f + 8 * i) &&& pageSizeBit = 0) →
    lvl (m.readWord (f + 8 * i) &&& addrMask) = some (n + 1)

/-- What counts in the kernel's tables: every present entry that is not for a huge
page, of the PML4 those of its upper half. -/
def CountsUpper (root : Nat) : Nat → Nat → Nat → Nat → Prop :=
  fun f n i w => (f = root → 256 ≤ i) ∧ w &&& pagePresent ≠ 0 ∧
    (n + 2 = 4 ∨ w &&& pageSizeBit = 0)

/-- The kernel's tables lead down, in the upper half. -/
theorem KernelTree.leadsDown {root : Nat} {lvl : Nat → Option Nat} {tables : List Nat}
    {m : Memory} (h : KernelTree root lvl tables m) : LeadsDown lvl (CountsUpper root) m :=
  fun f n i hf hi hcounts => h.down f n i hf hi hcounts.1 hcounts.2.1 hcounts.2.2

/-- A tree whose words are kept. -/
theorem KernelTree.congr {pml4 : Nat} {lvl : Nat → Option Nat} {tables : List Nat} {m m' : Memory}
    (h : KernelTree pml4 lvl tables m) (hsame : ∀ f ∈ tables, ∀ i < 512,
      m'.readWord (f + 8 * i) = m.readWord (f + 8 * i)) : KernelTree pml4 lvl tables m' := by
  refine ⟨h.top, h.own, ?_⟩
  intro f n i hf hi hup
  rw [hsame f (h.own f _ hf) i hi]
  exact h.down f n i hf hi hup

/-- What a call finds: the frames in use, those of the kernel's tables among
them, and whether it may write to the PML4. -/
structure MapEnv where
  limit : Nat
  root : Nat
  held : List Nat
  tables : List Nat
  old : Memory
  frozen : Prop
  sub : ∀ f ∈ tables, f ∈ held
  root_mem : root ∈ tables

/-- **The invariant of `map_mmio`.** -/
structure Mapping (env : MapEnv) (lvl : Nat → Option Nat) (m : Memory) : Prop where
  sound : Sound env.limit m.pmm (m.trace.taken ++ env.held)
  tree : KernelTree env.root lvl (m.trace.taken ++ env.tables) m
  kept : ∀ g ∈ env.held, (g ∉ env.tables ∨ env.frozen ∧ g = env.root) → ∀ i < 512,
    m.readWord (g + 8 * i) = env.old.readWord (g + 8 * i)

section

variable {ε : Type} {env : MapEnv} {lvl : Nat → Option Nat} {m m' : Memory}

/-- The tables of the tree are frames in use. -/
theorem Mapping.inUse (h : Mapping env lvl m) {f n : Nat} (hf : lvl f = some n) :
    f ∈ m.trace.taken ++ env.held := by
  rcases List.mem_append.mp (h.tree.own f n hf) with htaken | htable
  · exact List.mem_append_left _ htaken
  · exact List.mem_append_right _ (env.sub f htable)

/-- Two slots of frames in use are the same or do not overlap. -/
theorem Mapping.slots_apart (h : Mapping env lvl m) {f g i j : Nat}
    (hf : f ∈ m.trace.taken ++ env.held) (hg : g ∈ m.trace.taken ++ env.held) (hi : i < 512)
    (hj : j < 512) (hne : ¬(f = g ∧ i = j)) :
    g + 8 * j + 8 ≤ f + 8 * i ∨ f + 8 * i + 8 ≤ g + 8 * j := by
  obtain ⟨a, rfl⟩ := h.sound.separated.aligned f (List.mem_append_left _ hf)
  obtain ⟨b, rfl⟩ := h.sound.separated.aligned g (List.mem_append_left _ hg)
  simp only [pageSize] at hne ⊢
  omega

/-- A frame that is kept is not a table that the call writes to. -/
theorem Mapping.kept_ne (h : Mapping env lvl m) {f g n : Nat} (hf : lvl f = some n)
    (hroot : f = env.root → ¬env.frozen) (hg : g ∈ env.held)
    (hkept : g ∉ env.tables ∨ env.frozen ∧ g = env.root) : f ≠ g := by
  rintro rfl
  rcases hkept with htable | ⟨hfrozen, heq⟩
  · rcases List.mem_append.mp (h.tree.own f n hf) with htaken | hmem
    · have hnd := (List.nodup_append'.mp h.sound.separated.nodup).1
      exact (List.nodup_append'.mp hnd).2.2 htaken hg
    · exact htable hmem
  · exact hroot heq hfrozen

/-- Writing the entry of a table. -/
theorem Mapping.write (h : Mapping env lvl m) {f n i v : Nat} (hf : lvl f = some (n + 1))
    (hi : i < 512) (hroot : f = env.root → ¬env.frozen)
    (hdown : n ≠ 0 → v < modulus ∧ (v &&& pagePresent ≠ 0 → lvl (v &&& addrMask) = some n)) :
    Mapping env lvl (m.writeWord (f + 8 * i) v) := by
  have hown := h.inUse hf
  have hleads := h.tree.leadsDown.write hf
    (fun k hk => ⟨(hdown (by omega)).1, fun hcounts => (hdown (by omega)).2 hcounts.2.1⟩)
    (fun g k j hg hj hne =>
      readWord_writeWord_other m v (h.slots_apart hown (h.inUse hg) hi hj hne))
  refine ⟨h.sound, ⟨h.tree.top, h.tree.own,
    fun g k j hg hj hup hpresent hsmall => hleads g k j hg hj ⟨hup, hpresent, hsmall⟩⟩, ?_⟩
  · intro g hg hkept j hj
    have hne := h.kept_ne hf hroot hg hkept
    have hapart := h.slots_apart hown (List.mem_append_right _ hg) hi hj (fun heq => hne heq.1)
    rw [readWord_writeWord_other m v hapart]
    exact h.kept g hg hkept j hj

/-- The frame handed out was not in use. -/
theorem Mapping.fresh (hl : env.limit + pageSize < modulus) (h : Mapping env lvl m) {f : Nat}
    (ha : m.allocFrame = (some f, m')) :
    Sound env.limit m'.pmm (m'.trace.taken ++ env.held) ∧ f ∉ m.trace.taken ++ env.held := by
  obtain ⟨p, hp, rfl⟩ := allocFrame_some ha
  have hsound := h.sound.allocFrame hl hp
  exact ⟨hsound, (List.nodup_cons.mp (List.nodup_append'.mp hsound.separated.nodup).1).1⟩

/-- Zeroing it leaves the words of the others alone. -/
theorem Mapping.readWord_zeroNew (hl : env.limit + pageSize < modulus) (h : Mapping env lvl m)
    {f : Nat} (ha : m.allocFrame = (some f, m')) {g j : Nat}
    (hg : g ∈ m.trace.taken ++ env.held) (hj : j < 512) :
    (m'.zeroFrame f).readWord (g + 8 * j) = m.readWord (g + 8 * j) := by
  obtain ⟨hsound, hfresh⟩ := h.fresh hl ha
  obtain ⟨p, -, rfl⟩ := allocFrame_some ha
  apply readWord_zeroFrame_other
  have hne : f ≠ g := fun heq => hfresh (heq ▸ hg)
  obtain ⟨a, rfl⟩ := hsound.separated.aligned f (List.mem_append_left _ List.mem_cons_self)
  obtain ⟨b, rfl⟩ := h.sound.separated.aligned g (List.mem_append_left _ hg)
  simp only [pageSize] at hne ⊢
  omega

/-- A new table, empty, at any level below. -/
theorem Mapping.grow (hl : env.limit + pageSize < modulus) (h : Mapping env lvl m) {f : Nat}
    (n : Nat) (ha : m.allocFrame = (some f, m')) :
    lvl f = none ∧ Mapping env (Function.update lvl f (some n)) (m'.zeroFrame f) := by
  obtain ⟨hsound, hfresh⟩ := h.fresh hl ha
  have hword : ∀ g j, g ∈ m.trace.taken ++ env.held → j < 512 →
      (m'.zeroFrame f).readWord (g + 8 * j) = m.readWord (g + 8 * j) :=
    fun g j hg hj => h.readWord_zeroNew hl ha hg hj
  have hnone : lvl f = none := by
    cases hf : lvl f with
    | none => rfl
    | some k => exact absurd (h.inUse hf) hfresh
  have hgrown := h.tree.leadsDown.grow n hnone (fun _ _ _ hcounts => hcounts.2.1 (Nat.zero_and _))
    (fun g k j hg hj => hword g j (h.inUse hg) hj)
  obtain ⟨p, -, rfl⟩ := allocFrame_some ha
  refine ⟨hnone, hsound, ⟨?_, own_grow h.tree.own f n,
    fun g k i hg hi hup hpresent hsmall => hgrown g k i hg hi ⟨hup, hpresent, hsmall⟩⟩, ?_⟩
  · rw [Function.update_of_ne (fun heq => by rw [← heq, h.tree.top] at hnone; cases hnone)]
    exact h.tree.top
  · intro g hg hkept j hj
    rw [hword g j (List.mem_append_right _ hg) hj]
    exact h.kept g hg hkept j hj

/-- How one level can end: at a table one level down, or with a panic. -/
def NextDone (env : MapEnv) (n : Nat) (o : Outcome ε Nat) (m : Memory) : Prop :=
  match o with
  | .ok next => ∃ lvl, lvl next = some n ∧ Mapping env lvl m
  | .err _ => False
  | .panic _ => True

/-- The new entry leads to the new table. -/
theorem table_entry {f : Nat} (hf : pageSize ∣ f) (hlt : f + pageSize ≤ 2 ^ 52) :
    (f ||| pagePresent ||| pageWritable) &&& addrMask = f ∧
      f ||| pagePresent ||| pageWritable < modulus := by
  have hbig : f < modulus := by
    unfold modulus
    omega
  have hlt' := Nat.or_lt_two_pow (Nat.or_lt_two_pow hbig (show pagePresent < 2 ^ 64 by decide))
    (show pageWritable < 2 ^ 64 by decide)
  refine ⟨?_, hlt'⟩
  rw [← or_user_addr]
  exact new_entry hf hlt

/-- The walk is at an entry of a table of level `n + 2`, not one for a huge
page. -/
def AtEntry (env : MapEnv) (n table idx : Nat) (m : Memory) : Prop :=
  ∃ lvl, lvl table = some (n + 2) ∧ Mapping env lvl m ∧
    (m.readWord (table + 8 * idx) &&& pagePresent ≠ 0 →
      n + 2 = 4 ∨ m.readWord (table + 8 * idx) &&& pageSizeBit = 0)

/-- **One level**: the PML4 may not be frozen. -/
theorem nextTable_mapping (hl : env.limit ≤ 2 ^ 52) (message : String) {table n idx : Nat}
    (hi : idx < 512) (hroot : table = env.root → 256 ≤ idx ∧ ¬env.frozen) :
    Command.Spec (AtEntry env n table idx) (nextTable message table idx : Command Memory ε _)
      (NextDone env (n + 1)) := by
  intro m hm
  obtain ⟨lvl, ht, h, hsmall⟩ := hm
  have hmod : env.limit + pageSize < modulus := by
    simp only [pageSize, modulus]
    omega
  unfold nextTable
  rw [Command.gets_bind]
  by_cases hpresent : m.readWord (table + 8 * idx) &&& pagePresent = 0
  · rw [if_pos hpresent, Command.bind_apply, allocExpect]
    cases ha : m.allocFrame with
    | mk o m' =>
        cases o with
        | none => trivial
        | some f =>
            obtain ⟨hnone, hgrown⟩ := h.grow hmod (n + 1) ha
            have hne : table ≠ f := fun heq => by rw [heq, hnone] at ht; cases ht
            have htable : Function.update lvl f (some (n + 1)) table = some (n + 2) := by
              rw [Function.update_of_ne hne]
              exact ht
            have hframe : Function.update lvl f (some (n + 1)) f = some (n + 1) :=
              Function.update_self f _ lvl
            have hin := hgrown.inUse hframe
            have haligned := hgrown.sound.separated.aligned f (List.mem_append_left _ hin)
            have hbelow := hgrown.sound.separated.inside f (List.mem_append_left _ hin)
            obtain ⟨hleads, hlt⟩ := table_entry haligned (hbelow.trans hl)
            have hwritten := hgrown.write htable hi (fun heq => (hroot heq).2)
              (fun _ => ⟨hlt, fun _ => hleads.symm ▸ hframe⟩)
            refine ⟨_, ?_, hwritten⟩
            change Function.update lvl f (some (n + 1))
              (Memory.readWord _ (table + 8 * idx) &&& addrMask) = _
            rw [readWord_writeWord_same _ _ hlt, hleads]
            exact hframe
  · rw [if_neg hpresent]
    exact ⟨lvl, h.tree.down table n idx ht hi (fun heq => (hroot heq).1) hpresent
      (hsmall hpresent), h⟩

/-- **One level below the PML4**. -/
theorem lowerTable_mapping (hl : env.limit ≤ 2 ^ 52) (message : String) {table n idx : Nat}
    (hi : idx < 512) (hn : n + 2 < 4) :
    Command.Spec (AtEntry env n table idx) (nextTable message table idx : Command Memory ε _)
      (NextDone env (n + 1)) := by
  intro m hm
  have hne : table ≠ env.root := by
    rintro rfl
    obtain ⟨lvl, ht, h, -⟩ := hm
    rw [h.tree.top] at ht
    have := Option.some.inj ht
    omega
  exact nextTable_mapping hl message hi (fun heq => absurd heq hne) m hm

/-- How the check for a huge page can end. -/
def ChecksDone (env : MapEnv) (n table idx : Nat) (o : Outcome ε Unit) (m : Memory) : Prop :=
  match o with
  | .ok _ => AtEntry env n table idx m
  | .err _ => False
  | .panic _ => True

/-- What passes the check is not for a huge page. -/
theorem refuseHuge_checks (message : String) (table n idx : Nat) :
    Command.Spec (fun m => ∃ lvl, lvl table = some (n + 2) ∧ Mapping env lvl m)
      (refuseHuge message table idx : Command Memory ε Unit) (ChecksDone env n table idx) := by
  intro m hm
  obtain ⟨lvl, ht, h⟩ := hm
  unfold refuseHuge
  rw [Command.gets_bind]
  by_cases hhuge : m.readWord (table + 8 * idx) &&& pagePresent ≠ 0 ∧
      m.readWord (table + 8 * idx) &&& pageSizeBit ≠ 0
  · rw [if_pos hhuge]
    trivial
  · rw [if_neg hhuge]
    refine ⟨lvl, ht, h, fun hpresent => Or.inr ?_⟩
    by_contra hsize
    exact hhuge ⟨hpresent, hsize⟩

/-- The walk may start at `pml4`: it is the kernel's, and may be written to, or
its entry is there, and the kernel's too. -/
def MayEnter (env : MapEnv) (pml4 idx : Nat) : Prop :=
  ¬env.frozen ∧ pml4 = env.root ∨
    env.frozen ∧ pml4 ∈ env.held ∧ (pml4 ∉ env.tables ∨ pml4 = env.root) ∧
      env.old.readWord (pml4 + 8 * idx) = env.old.readWord (env.root + 8 * idx) ∧
      env.old.readWord (pml4 + 8 * idx) &&& pagePresent ≠ 0

/-- **The top level.** -/
theorem topTable_mapping (hl : env.limit ≤ 2 ^ 52) (message : String) {pml4 idx : Nat}
    (hi : idx < 512) (hup : 256 ≤ idx) (henter : MayEnter env pml4 idx) :
    Command.Spec (fun m => ∃ lvl, Mapping env lvl m)
      (nextTable message pml4 idx : Command Memory ε _) (NextDone env 3) := by
  intro m hm
  obtain ⟨lvl, h⟩ := hm
  rcases henter with ⟨hopen, rfl⟩ | ⟨hfrozen, hheld, hkept, hsame, hpresent⟩
  · apply nextTable_mapping hl message hi (fun _ => ⟨hup, hopen⟩)
    exact ⟨lvl, h.tree.top, h, fun _ => Or.inl rfl⟩
  · have hmine : m.readWord (pml4 + 8 * idx) = env.old.readWord (pml4 + 8 * idx) :=
      h.kept pml4 hheld (Or.imp_right (fun heq => ⟨hfrozen, heq⟩) hkept) idx hi
    have hroot : m.readWord (env.root + 8 * idx) = env.old.readWord (env.root + 8 * idx) :=
      h.kept env.root (env.sub _ env.root_mem) (Or.inr ⟨hfrozen, rfl⟩) idx hi
    have hword : m.readWord (pml4 + 8 * idx) = m.readWord (env.root + 8 * idx) := by
      rw [hmine, hroot, hsame]
    rw [← hmine] at hpresent
    unfold nextTable
    rw [Command.gets_bind, if_neg hpresent]
    rw [hword] at hpresent
    refine ⟨lvl, ?_, h⟩
    rw [hword]
    exact h.tree.down env.root 2 idx h.tree.top hi (fun _ => hup) hpresent (Or.inl rfl)

/-- How mapping can end. -/
def MapDone {α : Type} (env : MapEnv) (o : Outcome ε α) (m : Memory) : Prop :=
  match o with
  | .ok _ => ∃ lvl, Mapping env lvl m
  | .err _ => False
  | .panic _ => True

/-- **One page.** -/
theorem mapMmioPage_mapping (hl : env.limit ≤ 2 ^ 52) {pml4 offset phys : Nat}
    (hup : (add offset phys).testBit 47 = true)
    (henter : MayEnter env pml4 (pml4Idx (add offset phys))) :
    Command.Spec (fun m => ∃ lvl, Mapping env lvl m)
      (mapMmioPage pml4 offset phys : Command Memory ε Unit) (MapDone env) := by
  unfold mapMmioPage
  refine (topTable_mapping hl _ (idx_lt _) ((pml4Idx_upper _).mpr hup) henter).seq
    (fun pdpt => ?_) (fun _ _ h => h) (fun _ _ h => h)
  refine (refuseHuge_checks _ pdpt 1 _).seq (fun _ => ?_) (fun _ _ h => h) (fun _ _ h => h)
  refine (lowerTable_mapping hl _ (idx_lt _) (by decide)).seq (fun pd => ?_)
    (fun _ _ h => h) (fun _ _ h => h)
  refine (refuseHuge_checks _ pd 0 _).seq (fun _ => ?_) (fun _ _ h => h) (fun _ _ h => h)
  refine (lowerTable_mapping hl _ (idx_lt _) (by decide)).seq (fun pt m hm => ?_)
    (fun _ _ h => h) (fun _ _ h => h)
  obtain ⟨lvl, hpt, h⟩ := hm
  refine ⟨lvl, h.write hpt (idx_lt _) ?_ (fun hzero => absurd rfl hzero)⟩
  rintro rfl
  rw [h.tree.top] at hpt
  cases hpt

/-- The pages of a region, each at its address in the direct map. -/
def MayMap (env : MapEnv) (pml4 offset physStart size : Nat) : Prop :=
  ∀ i < mmioPages physStart size,
    (add offset (mmioStart physStart + i * 0x1000)).testBit 47 = true ∧
      MayEnter env pml4 (pml4Idx (add offset (mmioStart physStart + i * 0x1000)))

/-- **`map_mmio`** keeps the kernel's tables a tree, and what else is in use as
it is. -/
theorem mapMmio_mapping (hl : env.limit ≤ 2 ^ 52) {cr3 offset physStart size : Nat}
    (hmay : MayMap env (cr3 &&& addrMask) offset physStart size) :
    Command.Spec (fun m => ∃ lvl, Mapping env lvl m)
      (mapMmio cr3 offset physStart size : Command Memory ε Nat) (MapDone env) := by
  have hloop := @Command.Spec.forRange _ ε (fun _ m => ∃ lvl, Mapping env lvl m) (MapDone env)
    (fun i => mapMmioPage (cr3 &&& addrMask) offset (mmioStart physStart + i * 0x1000))
    0 (mmioPages physStart size) (fun i _ hi m hm => ?_)
  · unfold mapMmio
    refine Command.Spec.seq hloop (fun _ m hm => hm) (fun _ _ h => h) (fun _ _ h => h)
  · rw [Nat.zero_add] at hi
    obtain ⟨hup, henter⟩ := hmay i hi
    have hpage := mapMmioPage_mapping (ε := ε) hl hup henter m hm
    cases ho : (mapMmioPage (ε := ε) (cr3 &&& addrMask) offset
        (mmioStart physStart + i * 0x1000) m).1 with
    | ok _ =>
        rw [ho] at hpage
        exact hpage
    | err e =>
        rw [ho] at hpage
        exact hpage
    | panic s => trivial

end

end UserPageTable
