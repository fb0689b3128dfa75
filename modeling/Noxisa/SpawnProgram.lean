import Noxisa.ElfLoaderSafety
import Noxisa.KernelPaging
import Noxisa.SchedulerRuns

/-!
# Starting a program

`spawn_program`: load the file, build a page table for it, and spawn a task
that will run in it.  The model leaves out the name and the printed flags of
the entry page, which nothing else reads.

The frames of the machine lie below `2 ^ 47`: the direct map puts all of them
into the upper half of a 48-bit address space.  So the page of the user stack,
which is mapped at its own physical address, is in the lower half.  Whether the
pages of the program are is up to the file.
-/

namespace Scheduler

open ByteMemory ElfLoader FrameAllocator MachineWord PhysicalMemory RangePool UserPageTable

/-- `spawn_program` of a file, with the address of `isolated_trampoline` and
the number of pages that the heap has room for. -/
def spawnProgram (trampoline room : Nat) (elf : Slice) (caps : Nat) :
    Command Kernel String Nat := do
  let (entry, pages) ← onMemory (Command.mapErr (fun _ => "elf load failed") (loadFresh elf room))
  let stackPhys ← onMemory (allocOr "out of memory allocating stack")
  onMemory (Command.modify (fun m => m.zeroFrame stackPhys))
  let cr3 ← Command.gets (fun k => k.cpu.cr3)
  let (newPml4, tableFrames) ← onMemory (createIsolatedUserTableFresh cr3 pages stackPhys)
  spawnIsolated trampoline
    { cr3 := newPml4, userEntry := entry, userStackTop := add stackPhys 4096, caps := caps
      tableFrames := tableFrames ++ pages.map Page.frame, userStackPhys := stackPhys }

/-- `m` comes from `m₀` by writing into frames that were fresh in between. -/
structure Grown (env : Env) (m₀ m : Memory) : Prop where
  sound : Sound env.limit m.pmm (m.trace.taken ++ env.held)
  own : OwnWrites m₀.trace → OwnWrites m.trace
  same : ∀ g ∈ m₀.trace.taken, ∀ x, g ≤ x → x < g + pageSize → m.ram x = m₀.ram x

section

variable {ε : Type} {env : Env} {m₀ m : Memory}

/-- A command on the memory, and what comes after it. -/
theorem onMemory_bind {α β : Type} (c : Command Memory ε α) (f : α → Command Kernel ε β)
    (k : Kernel) :
    (onMemory c >>= f) k =
      match c k.mem with
      | (.ok a, m) => f a { k with mem := m }
      | (.err e, m) => (.err e, { k with mem := m })
      | (.panic s, m) => (.panic s, { k with mem := m }) := by
  rw [Command.bind_apply, onMemory, Command.zoom]
  cases c k.mem with
  | mk o m => cases o <;> rfl

/-- What `spawn` does to the memory: four frames for a stack, and one word on
it. -/
theorem spawn_mem (entry : Nat) (k : Kernel) :
    ((spawn entry : Command Kernel ε Nat) k).2.mem =
      match k.mem.allocContiguousFrames 4 with
      | (some a, m') => m'.writeWord (sub (add a (4 * pageSize) / 16 * 16) 8) entry
      | (none, m') => m' := by
  simp only [spawn, Command.gets_bind, onSched, Command.modify_bind]
  rw [onMemory_bind]
  simp only [allocContiguousExpect]
  cases k.mem.allocContiguousFrames 4 with
  | mk o m' =>
      cases o with
      | none => rfl
      | some a =>
          simp only [onMemory_bind, initStack, Command.modify_bind, Command.pure_apply,
            Command.gets_bind]
          rw [Command.bind_apply, storeTcb]
          split_ifs <;> rfl

/-- The word `spawn` writes is the last but one of the top frame. -/
theorem stack_top {a limit : Nat} (ha : pageSize ∣ a) (hl : limit + 4 * pageSize < modulus)
    (hlt : a ≤ limit) : sub (add a (4 * pageSize) / 16 * 16) 8 = a + 3 * pageSize + 4088 := by
  obtain ⟨i, rfl⟩ := ha
  rw [add_eq (by omega), sub_eq (by simp only [pageSize, modulus] at *; omega)
    (by simp only [pageSize]; omega)]
  simp only [pageSize]
  omega

/-- `spawn` writes to no frame that was in use. -/
theorem spawn_kept {limit : Nat} {held : List Nat} (hl : limit + 4 * pageSize < modulus)
    (entry : Nat) {k : Kernel} (h : Sound limit k.mem.pmm held) {g x : Nat} (hg : g ∈ held)
    (hlo : g ≤ x) (hhi : x < g + pageSize) :
    ((spawn entry : Command Kernel ε Nat) k).2.mem.ram x = k.mem.ram x := by
  rw [spawn_mem]
  cases ha : k.mem.allocContiguousFrames 4 with
  | mk o m' =>
      cases o with
      | none =>
          obtain ⟨p, hp, rfl⟩ := allocContiguousFrames_none ha
          rfl
      | some a =>
          obtain ⟨p, hp, rfl⟩ := allocContiguousFrames_some ha
          have hsound := h.allocContiguousFrames hl hp
          have hunit : ∀ i < 4, a + i * pageSize ∈ units pageSize a 4 :=
            fun i hi => mem_units.mpr ⟨i, hi, rfl⟩
          have hheld : ∀ f, f ∈ units pageSize a 4 ∨ f ∈ held →
              pageSize ∣ f ∧ f + pageSize ≤ limit := by
            intro f hf
            have hmem := List.mem_append_left p.freeList (List.mem_append.mpr hf)
            exact ⟨hsound.separated.aligned f hmem, hsound.separated.inside f hmem⟩
          have hfirst := hheld (a + 0 * pageSize) (Or.inl (hunit 0 (by decide)))
          rw [Nat.zero_mul, Nat.add_zero] at hfirst
          simp only [stack_top hfirst.1 hl (Nat.le_of_add_right_le hfirst.2)]
          refine writeLE_outside _ _ ?_
          have hne : a + 3 * pageSize ≠ g := by
            rintro rfl
            have hnd := (List.nodup_append'.mp hsound.separated.nodup).1
            exact (List.nodup_append'.mp hnd).2.2 (hunit 3 (by decide)) hg
          obtain ⟨i, rfl⟩ := hfirst.1
          obtain ⟨j, rfl⟩ := (hheld g (Or.inr hg)).1
          simp only [pageSize] at hne hlo hhi ⊢
          omega

/-- Nor does it change the registers. -/
theorem spawn_cpu (entry : Nat) (k : Kernel) :
    ((spawn entry : Command Kernel ε Nat) k).2.cpu = k.cpu := by
  simp only [spawn, Command.gets_bind, onSched, Command.modify_bind]
  rw [onMemory_bind]
  simp only [allocContiguousExpect]
  cases k.mem.allocContiguousFrames 4 with
  | mk o m' =>
      cases o with
      | none => rfl
      | some a =>
          simp only [onMemory_bind, initStack, Command.modify_bind, Command.pure_apply,
            Command.gets_bind]
          rw [Command.bind_apply, storeTcb]
          split_ifs <;> rfl

/-- `spawn` leaves the frames handed out before it alone. -/
theorem spawn_grown (hl : env.limit + 4 * pageSize < modulus) (entry : Nat) {k : Kernel}
    (h : Sound env.limit k.mem.pmm (k.mem.trace.taken ++ env.held)) :
    Grown env k.mem ((spawn entry : Command Kernel ε Nat) k).2.mem := by
  have hkept : ∀ g ∈ k.mem.trace.taken, ∀ x, g ≤ x → x < g + pageSize →
      ((spawn entry : Command Kernel ε Nat) k).2.mem.ram x = k.mem.ram x :=
    fun g hg x hlo hhi => spawn_kept hl entry h (List.mem_append_left _ hg) hlo hhi
  suffices hboth : Sound env.limit ((spawn entry : Command Kernel ε Nat) k).2.mem.pmm
      (((spawn entry : Command Kernel ε Nat) k).2.mem.trace.taken ++ env.held) ∧
      (OwnWrites k.mem.trace → OwnWrites ((spawn entry : Command Kernel ε Nat) k).2.mem.trace) from
    ⟨hboth.1, hboth.2, hkept⟩
  rw [spawn_mem]
  cases ha : k.mem.allocContiguousFrames 4 with
  | mk o m' =>
      cases o with
      | none =>
          obtain ⟨p, hp, rfl⟩ := allocContiguousFrames_none ha
          exact ⟨h.allocContiguousFrames_none hl hp, id⟩
      | some a =>
          obtain ⟨p, hp, rfl⟩ := allocContiguousFrames_some ha
          have hsound := h.allocContiguousFrames hl hp
          have hunit : ∀ i < 4, a + i * pageSize ∈ units pageSize a 4 :=
            fun i hi => mem_units.mpr ⟨i, hi, rfl⟩
          have hmem : a + 0 * pageSize ∈
              (units pageSize a 4 ++ (k.mem.trace.taken ++ env.held)) ++ p.freeList :=
            List.mem_append_left _ (List.mem_append_left _ (hunit 0 (by decide)))
          have haligned := hsound.separated.aligned _ hmem
          have hinside := hsound.separated.inside _ hmem
          rw [Nat.zero_mul, Nat.add_zero] at haligned hinside
          simp only [stack_top haligned hl (Nat.le_of_add_right_le hinside)]
          refine ⟨?_, ?_⟩
          · simpa only [List.append_assoc, writeWord_pmm, writeWord_taken] using hsound
          · intro hown v hv
            rcases List.mem_cons.mp hv with rfl | hv
            · exact ⟨a + 3 * pageSize, List.mem_append_left _ (hunit 3 (by decide)),
                Nat.le_add_right _ _, by simp only [pageSize]; omega⟩
            · obtain ⟨f, hf, hin⟩ := hown v hv
              exact ⟨f, List.mem_append_right _ hf, hin⟩

/-- A word of a frame handed out before is as it was. -/
theorem Grown.readWord (h : Grown env m₀ m) {f i : Nat} (hf : f ∈ m₀.trace.taken) (hi : i < 512) :
    m.readWord (f + 8 * i) = m₀.readWord (f + 8 * i) :=
  readLE_congr (fun x hlo hhi => h.same f hf x (by omega) (by simp only [pageSize]; omega))

/-- `spawn` returns or panics. -/
theorem spawn_not_err (entry : Nat) (k : Kernel) (e : ε) :
    ((spawn entry : Command Kernel ε Nat) k).1 ≠ .err e := by
  simp only [spawn, Command.gets_bind, onSched, Command.modify_bind]
  rw [onMemory_bind]
  simp only [allocContiguousExpect]
  cases k.mem.allocContiguousFrames 4 with
  | mk o m' =>
      cases o with
      | none => simp
      | some a =>
          simp only [onMemory_bind, initStack, Command.modify_bind, Command.pure_apply,
            Command.gets_bind]
          rw [Command.bind_apply, storeTcb]
          split_ifs <;> simp

/-- The patch of `spawn_isolated` is not in the memory, and does not fail. -/
theorem spawnIsolated_mem (trampoline : Nat) (i : Isolation) (k : Kernel) :
    ((spawnIsolated trampoline i : Command Kernel ε Nat) k).2.mem =
      ((spawn trampoline : Command Kernel ε Nat) k).2.mem ∧
    ∀ e, ((spawnIsolated trampoline i : Command Kernel ε Nat) k).1 ≠ .err e := by
  have herr := spawn_not_err (ε := ε) trampoline k
  rw [spawnIsolated, Command.bind_apply]
  cases hs : (spawn trampoline : Command Kernel ε Nat) k with
  | mk o k' =>
      rw [hs] at herr
      cases o with
      | ok pid => exact ⟨rfl, fun e => by simp [onSched, Command.modify_bind]⟩
      | err e => exact absurd rfl (herr e)
      | panic s => exact ⟨rfl, fun e => by simp⟩

/-- A task that `spawn_isolated` returns has the given page table. -/
theorem spawnIsolated_ok {trampoline pid : Nat} {i : Isolation} {k k' : Kernel}
    (h : (spawnIsolated trampoline i : Command Kernel ε Nat) k = (.ok pid, k')) :
    ∃ t, lookup k'.sched.tasks pid = some t ∧ t.cr3 = i.cr3 := by
  obtain ⟨pid', k1, hspawn, hrest⟩ := Command.bind_eq_ok.mp h
  obtain ⟨hpid, rfl⟩ := Prod.mk.inj hrest
  obtain rfl := Outcome.ok.inj hpid
  obtain ⟨-, -, stackPhys, ctx, -, heq⟩ := spawn_ok hspawn
  refine ⟨i.patch (newTcb pid' stackPhys k.cpu.cr3 ctx), ?_, rfl⟩
  simp [heq, enqueue, lookup_adjust, lookup_insert]

end

/-- No entry of the upper half of the PML4 has the USER bit. -/
def UpperHalfClear (m : Memory) (pml4 : Nat) : Prop :=
  ∀ i, 256 ≤ i → i < 512 → m.readWord (pml4 + 8 * i) &&& pageUser = 0

/-- The new address space is apart from the kernel's: every word is written to
a frame of this call, and the kernel's half is not open to ring 3. -/
def Contained (pid : Nat) (k : Kernel) : Prop :=
  OwnWrites k.mem.trace ∧ ∃ t, lookup k.sched.tasks pid = some t ∧ UpperHalfClear k.mem t.cr3

/-- All pages of the file's segments are in the lower half. -/
def LowPages (elf : Slice) : Prop := ∀ v ∈ elf.pagesUpTo elf.phnum, v.testBit 47 = false

/-- What a `spawn_program` that started in `k` guarantees at its end. -/
def SpawnDone (elf : Slice) (k : Kernel) (o : Outcome String Nat) (k' : Kernel) : Prop :=
  match o with
  | .ok pid => Contained pid k' ↔ UpperHalfClear k.mem (k.cpu.cr3 &&& addrMask) ∧ LowPages elf
  | .err _ => OwnWrites k'.mem.trace
  | .panic _ => LowPages elf → OwnWrites k'.mem.trace

section

variable {env : Env} {m₀ m : Memory} {pml4 kernel : Nat}

/-- A memory that has grown keeps the upper half of a table. -/
theorem Grown.upperHalfClear (h : Grown env m₀ m) (hf : pml4 ∈ m₀.trace.taken) :
    UpperHalfClear m pml4 ↔ UpperHalfClear m₀ pml4 := by
  refine forall_congr' (fun i => imp_congr_right (fun _ => imp_congr_right (fun hi => ?_)))
  rw [h.readWord hf hi]

/-- A table whose upper half is the copy it was. -/
theorem Tables.upperHalfClear {lvl : Nat → Option Nat}
    (h : Tables env lvl pml4 (kernelHalf env kernel) m)
    (hold : env.old = m₀.ram) : UpperHalfClear m pml4 ↔ UpperHalfClear m₀ kernel := by
  refine forall_congr' (fun i => imp_congr_right (fun hlo => imp_congr_right (fun hhi => ?_)))
  have hword : m.readWord (pml4 + 8 * i) = m₀.readWord (kernel + 8 * i) := by
    rw [h.upper_eq i hlo hhi, kernelHalf, hold, Memory.readWord]
  rw [hword]

/-- The task that a run returns has its page table in `pml4`. -/
theorem contained_iff {trampoline pid : Nat} {i : Isolation} {k k' : Kernel}
    (hrun : (spawnIsolated trampoline i : Command Kernel String Nat) k = (.ok pid, k'))
    (h : Grown env k.mem k'.mem) (hf : i.cr3 ∈ k.mem.trace.taken) :
    Contained pid k' ↔ OwnWrites k'.mem.trace ∧ UpperHalfClear k.mem i.cr3 := by
  obtain ⟨t, ht, hcr⟩ := spawnIsolated_ok hrun
  rw [← h.upperHalfClear hf, ← hcr]
  refine and_congr_right (fun _ => ⟨?_, fun hclear => ⟨t, ht, hclear⟩⟩)
  rintro ⟨t', ht', hclear⟩
  obtain rfl := Option.some.inj (ht.symm.trans ht')
  exact hclear

/-- The part of `spawn_program` after the stack: the table and the task. -/
theorem spawnTask_done (hl : env.limit ≤ 2 ^ 47) {elf : Slice} {k₀ k : Kernel}
    (hcall : CallSound env k.mem) (hcr3 : k.cpu.cr3 &&& addrMask ∈ env.held)
    (hold : env.old = k₀.mem.ram) (hsame : k₀.cpu.cr3 = k.cpu.cr3) {pages : List Page}
    (hpages : LowPages elf ↔ ∀ p ∈ pages, p.vaddr.testBit 47 = false) {stackPhys : Nat}
    (hstack : stackPhys ∈ k.mem.trace.taken) (trampoline entry caps : Nat) :
    Command.Spec (fun k' => k' = k)
      (do
        let (newPml4, tableFrames) ←
          onMemory (createIsolatedUserTableFresh k.cpu.cr3 pages stackPhys)
        spawnIsolated trampoline
          { cr3 := newPml4, userEntry := entry, userStackTop := add stackPhys 4096, caps := caps
            tableFrames := tableFrames ++ pages.map Page.frame, userStackPhys := stackPhys })
      (SpawnDone elf k₀) := by
  rintro k' rfl
  have hmod : env.limit + 4 * pageSize < modulus := by
    simp only [pageSize, modulus]
    omega
  have hlow := fun h : LowPages elf => create_tables (ε := String) hl hcall hcr3 (hpages.mp h) hstack
  have hany := create_exposed (ε := String) (hl.trans (by decide)) hcall hcr3 pages stackPhys
  rw [onMemory_bind]
  cases hc : (createIsolatedUserTableFresh k'.cpu.cr3 pages stackPhys : Command Memory String _)
      k'.mem with
  | mk o m =>
      rw [hc] at hlow hany
      cases o with
      | err e => exact absurd hany id
      | panic s => exact fun h => (hlow h).own
      | ok out =>
          obtain ⟨pml4, tableFrames⟩ := out
          dsimp only
          generalize hi : Isolation.mk _ _ _ _ _ _ = i
          have hgrown := spawn_grown (ε := String) hmod trampoline (k := { k' with mem := m })
            (Exposed.sound hany)
          obtain ⟨hmem, herr⟩ := spawnIsolated_mem (ε := String) trampoline i { k' with mem := m }
          rw [← hmem] at hgrown
          cases hs : (spawnIsolated trampoline i : Command Kernel String Nat)
              { k' with mem := m } with
          | mk o k2 =>
              rw [hs] at hgrown herr
              cases o with
              | err e => exact absurd rfl (herr e)
              | panic s =>
                  intro h
                  obtain ⟨lvl, htables⟩ := hlow h
                  exact hgrown.own htables.call.own
              | ok pid =>
                  have hpml4 : i.cr3 = pml4 := by rw [← hi]
                  refine (contained_iff hs hgrown (hpml4.symm ▸ Exposed.taken hany)).trans ?_
                  rw [hpml4]
                  constructor
                  · rintro ⟨-, hupper⟩
                    have hlowPages : LowPages elf := by
                      refine hpages.mpr (fun p hp => Bool.eq_false_iff.mpr (fun hbit => ?_))
                      obtain ⟨j, hlo, hhi, hu⟩ := Exposed.seen hany ⟨p, hp, hbit⟩
                      exact hu (hupper j hlo hhi)
                    obtain ⟨lvl, htables⟩ := hlow hlowPages
                    exact ⟨hsame ▸ (Tables.upperHalfClear htables hold).mp hupper, hlowPages⟩
                  · rintro ⟨hkernel, hlowPages⟩
                    obtain ⟨lvl, htables⟩ := hlow hlowPages
                    exact ⟨hgrown.own htables.call.own,
                      (Tables.upperHalfClear htables hold).mpr (hsame ▸ hkernel)⟩

end

/-- **What a started program can touch.**  In every reachable state of the frame
allocator and for every file: a `spawn_program` that returns a task has built
its address space apart from the kernel's exactly if the kernel's half was
closed to ring 3 and all pages of the file are in the lower half.  A run that
returns an error has written into its own frames only, and so has one that
panics on such a file. -/
theorem spawnProgram_contained_iff {map : MemoryMap (2 ^ 47)} {w : World}
    (hw : (frameSystem map).Reach w) {k : Kernel} (hpmm : k.mem.pmm = w.pmm)
    (htrace : k.mem.trace = Trace.empty)
    (hcr3 : InUse (2 ^ 47) k.mem.pmm (k.cpu.cr3 &&& addrMask))
    (trampoline room : Nat) (elf : Slice) (caps : Nat) :
    SpawnDone elf k (spawnProgram trampoline room elf caps k).1
      (spawnProgram trampoline room elf caps k).2 := by
  obtain ⟨held, hmem, hsound⟩ := (reach_sound (by decide) (by decide) map hw).hold
    (dvd_and_addrMask _) (hpmm ▸ hcr3)
  have hmod : 2 ^ 47 + pageSize < modulus := by decide
  have hstart := callSound_start (hpmm ▸ hsound) htrace
  have hload := @loadFresh_loaded _ elf room hmod _ hstart
  unfold spawnProgram
  rw [onMemory_bind, Command.mapErr]
  cases hrun : loadFresh elf room k.mem with
  | mk o m1 =>
      rw [hrun] at hload
      cases o with
      | err e => exact hload.own
      | panic s => exact fun _ => hload.own
      | ok out =>
          obtain ⟨entry, pages⟩ := out
          obtain ⟨-, hloaded⟩ := hload
          dsimp only
          rw [onMemory_bind, allocOr]
          cases ha : m1.allocFrame with
          | mk o m2 =>
              cases o with
              | none => exact (hloaded.call.allocFrame_none hmod ha).own
              | some stackPhys =>
                  have hcall := hloaded.call.zeroNew hmod ha
                  have hstack : stackPhys ∈ (m2.zeroFrame stackPhys).trace.taken := by
                    obtain ⟨p, -, rfl⟩ := allocFrame_some ha
                    exact List.mem_cons_self
                  have hpages : LowPages elf ↔ ∀ p ∈ pages, p.vaddr.testBit 47 = false := by
                    unfold LowPages
                    constructor
                    · exact fun h p hp => h _ (hloaded.mem.mpr ⟨p, hp, rfl⟩)
                    · intro h v hv
                      obtain ⟨p, hp, rfl⟩ := hloaded.mem.mp hv
                      exact h p hp
                  have hdone := @spawnTask_done _ (Nat.le_refl _) elf k
                    { k with mem := m2.zeroFrame stackPhys } hcall hmem rfl rfl pages hpages
                    stackPhys hstack trampoline entry caps
                  exact hdone _ rfl

/-- When the start went through, the promise is about the new task. -/
private theorem spawnDone_ok {elf : Slice} {k k' : Kernel} {pid : Nat} :
    SpawnDone elf k (.ok pid) k' ↔
      (Contained pid k' ↔ UpperHalfClear k.mem (k.cpu.cr3 &&& addrMask) ∧ LowPages elf) :=
  Iff.rfl

-- a match on the outcome of a concrete run must not be evaluated
attribute [irreducible] SpawnDone

/-- One megabyte of frames below `2 ^ 47`. -/
def lowMap : MemoryMap (2 ^ 47) where
  entries := [⟨0x400000, 0x100000⟩]
  ascending := by decide
  bounded := by decide

/-- The shell after boot: its PML4 is at `0x1000`, and entry 256, the direct
map, points to a table of the kernel's at `0x2000`. -/
def shellKernel : Kernel where
  mem := ⟨bootPmm lowMap, writeLE (fun _ => 0) 0x1800 8 0x2003, Trace.empty⟩
  sched := initial
  cpu := ⟨⟨0, 0, 0, 0, 0, 0, 0, 0⟩, 0x1000⟩

/-- The kernel's table is in use at boot. -/
theorem shellKernel_cr3_inUse :
    InUse (2 ^ 47) shellKernel.mem.pmm (shellKernel.cpu.cr3 &&& addrMask) := by
  have hcr3 : shellKernel.cpu.cr3 &&& addrMask = 0x1000 := by decide
  have hunbumped : unbumped shellKernel.mem.pmm = [⟨0x400000, 0x500000⟩] := by decide +kernel
  rw [hcr3]
  refine ⟨by decide, by decide +kernel, ?_⟩
  rw [← space_unbumped, hunbumped, Set.disjoint_left]
  rintro x ⟨-, hx⟩ ⟨r, hr, hlo, -⟩
  obtain rfl := List.mem_singleton.mp hr
  simp only [pageSize] at hx hlo
  omega

/-- Its upper half is clear of user pages. -/
theorem shellKernel_upperHalfClear : UpperHalfClear shellKernel.mem 0x1000 := by
  have hall : ∀ i < 512, 256 ≤ i → shellKernel.mem.readWord (0x1000 + 8 * i) &&& pageUser = 0 := by
    decide +kernel
  exact fun i hlo hhi => hall i hhi hlo

/-- A program of the lower half, started from the shell. -/
theorem sample_spawnProgram_contained :
    ∃ k, spawnProgram 0x8000 100 goodElf 0 shellKernel = (.ok 1, k) ∧ Contained 1 k := by
  have hboot : (frameSystem lowMap).Reach ⟨bootPmm lowMap, []⟩ := TransitionSystem.Run.boot rfl
  have hdone := spawnProgram_contained_iff hboot (k := shellKernel) rfl rfl shellKernel_cr3_inUse
    0x8000 100 goodElf 0
  have hok : (spawnProgram 0x8000 100 goodElf 0 shellKernel).1 = .ok 1 := by decide +kernel
  have hlow : LowPages goodElf := by
    unfold LowPages
    decide +kernel
  cases hrun : spawnProgram 0x8000 100 goodElf 0 shellKernel with
  | mk o k =>
      rw [hrun] at hdone hok
      obtain rfl : o = .ok 1 := hok
      exact ⟨k, rfl, (spawnDone_ok.mp hdone).mpr ⟨shellKernel_upperHalfClear, hlow⟩⟩

/-- One segment of four bytes in the kernel's half. -/
def upperElf : Slice :=
  Slice.ofList (elfHeader 0xFFFF800000000000 64 56 1 ++ elfPhdr 120 0xFFFF800000000000 4 4 ++
    [0x90, 0x90, 0xEB, 0xFE]) (by decide +kernel)

/-- **Not every program is contained.**  A file with a segment in the kernel's
half is started; the kernel's own table at `0x2000` is written to, and entry
256 of the new PML4 gets the USER bit. -/
theorem spawnProgram_not_contained :
    (frameSystem lowMap).Reach ⟨shellKernel.mem.pmm, []⟩ ∧
    InUse (2 ^ 47) shellKernel.mem.pmm (shellKernel.cpu.cr3 &&& addrMask) ∧
    UpperHalfClear shellKernel.mem 0x1000 ∧
    ∃ k t, spawnProgram 0x8000 100 upperElf 0 shellKernel = (.ok 1, k) ∧
      (0x2000, 8) ∈ k.mem.trace.writes ∧ ¬OwnWrites k.mem.trace ∧
      lookup k.sched.tasks 1 = some t ∧ ¬UpperHalfClear k.mem t.cr3 := by
  refine ⟨TransitionSystem.Run.boot rfl, shellKernel_cr3_inUse, shellKernel_upperHalfClear, ?_⟩
  have hok : (spawnProgram 0x8000 100 upperElf 0 shellKernel).1 = .ok 1 := by decide +kernel
  have hwrite : (0x2000, 8) ∈
      (spawnProgram 0x8000 100 upperElf 0 shellKernel).2.mem.trace.writes := by
    decide +kernel
  have hown : ¬OwnWrites (spawnProgram 0x8000 100 upperElf 0 shellKernel).2.mem.trace := by
    unfold OwnWrites
    decide +kernel
  have htask : (lookup (spawnProgram 0x8000 100 upperElf 0 shellKernel).2.sched.tasks 1).map Tcb.cr3 =
      some 0x402000 := by
    decide +kernel
  have hentry : (spawnProgram 0x8000 100 upperElf 0 shellKernel).2.mem.readWord
      (0x402000 + 8 * 256) &&& pageUser = 4 := by
    decide +kernel
  cases hrun : spawnProgram 0x8000 100 upperElf 0 shellKernel with
  | mk o k =>
      rw [hrun] at hok hwrite hown htask hentry
      obtain rfl : o = .ok 1 := hok
      obtain ⟨t, ht, hcr3⟩ := Option.map_eq_some_iff.mp htask
      refine ⟨k, t, rfl, hwrite, hown, ht, fun hclear => ?_⟩
      rw [hcr3] at hclear
      rw [hclear 256 (by decide) (by decide)] at hentry
      cases hentry

end Scheduler
