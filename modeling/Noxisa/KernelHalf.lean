import Noxisa.FrameScrubbing
import Noxisa.MmioTranslation
import Noxisa.TaskLifetime

/-!
# The kernel's half of every page table

An isolated task has a page table of its own, whose upper half was copied from
the table in CR3 when it was built.  Runs of `map_mmio`, of the two functions
that build a table, of `spawn_isolated`, of the scheduler and of `reap` are
those of a `Spaces`: the kernel, the frames of the kernel's own tables, the
tables that were built and have no task yet, and what else was handed out.  The
kernel's tasks are there from the start.

The copies stay what they were, so they stay the kernel's half as long as
`map_mmio` adds no entry to a PML4 (`kernel_half_shared`).  It does add one for a
device behind an entry that is missing, and only to the table in CR3.
-/

namespace Scheduler

open ByteMemory ElfLoader FrameAllocator MachineWord PhysicalMemory RangePool UserPageTable

section

variable {ε : Type}

/-- `map_user_page` maps a page at its own physical address. -/
def mapUserPage (newPml4 virtPhys : Nat) (writable executable : Bool) (tableFrames : List Nat) :
    Command Memory ε (List Nat) :=
  mapUserPageSplit newPml4 virtPhys virtPhys writable executable tableFrames

/-- The loop over the pages of a process, which may be written and executed as they are.
-/
def mapUserPages (newPml4 : Nat) : List Nat → List Nat → Command Memory ε (List Nat)
  | [], tableFrames => pure tableFrames
  | page :: userPages, tableFrames => do
      let tableFrames ← mapUserPage newPml4 page false true tableFrames
      mapUserPages newPml4 userPages tableFrames

/-- `create_isolated_user_table`: the pages keep their addresses. -/
def createIsolatedUserTable (cr3 : Nat) (userPages : List Nat) (stackPhys : Nat) :
    Command Memory ε (Nat × List Nat) := do
  let newPml4 ← allocExpect "out of memory building isolated PML4"
  Command.modify (fun m => m.zeroFrame newPml4)
  Command.modify (copyUpper (cr3 &&& addrMask) newPml4)
  let tableFrames ← mapUserPages newPml4 userPages [newPml4]
  let tableFrames ← mapUserPage newPml4 stackPhys true false tableFrames
  return (newPml4, tableFrames)

/-- The page that `create_isolated_user_table` maps for an address. -/
def userPage (page : Nat) : Page := ⟨page, page, false, true⟩

/-- It is the loop over mappings. -/
private theorem mapUserPages_eq (newPml4 : Nat) (userPages tableFrames : List Nat) :
    (mapUserPages newPml4 userPages tableFrames : Command Memory ε _) =
      mapPages newPml4 (userPages.map userPage) tableFrames := by
  induction userPages generalizing tableFrames with
  | nil => rfl
  | cons page userPages ih =>
      simp only [mapUserPages, ih]
      rfl

/-- It is the builder for programs, with these pages. -/
private theorem createIsolatedUserTable_eq (cr3 : Nat) (userPages : List Nat) (stackPhys : Nat) :
    (createIsolatedUserTable cr3 userPages stackPhys : Command Memory ε _) =
      createIsolatedUserTableFresh cr3 (userPages.map userPage) stackPhys := by
  unfold createIsolatedUserTable
  simp only [mapUserPages_eq]
  rfl

end

/-- A table that was built: the PML4, the frames of all tables, and the stack of
the user. -/
structure Built where
  pml4 : Nat
  tableFrames : List Nat
  stackPhys : Nat
deriving DecidableEq

/-- The frames of a table that has no task yet. -/
def Built.frames (b : Built) : List Nat := b.tableFrames ++ [b.stackPhys]

/-- The kernel's tables, those of the tasks, and those in between. -/
structure Spaces where
  kernel : Kernel
  /-- the frames of the kernel's own tables -/
  tables : List Nat
  /-- the tables that have no task yet -/
  built : List Built
  /-- what else was handed out -/
  loose : List Nat

/-- What changes the tables: the allocator, the builders, `map_mmio`, and the scheduler.
-/
inductive SpaceAct
  | allocFrame
  | mapMmio (physStart size : Nat)
  | createIsolatedUserTable (userPages : List Nat) (stackPhys : Nat)
  | createIsolatedUserTableFresh (pages : List Page) (stackPhys : Nat)
  | spawnIsolated (trampoline : Nat) (b : Built) (userEntry caps : Nat)
  | run
  | yieldNow
  | tryPreempt
  | exitCurrent
  | reap (pid : Nat)

namespace Spaces

/-- The frames in use that are no task's. -/
def rest (s : Spaces) : List Nat := s.tables ++ (s.built.flatMap Built.frames ++ s.loose)

/-- The frames that the allocator has given away, and not got back, and those of
the kernel's tables. -/
def held (s : Spaces) : List Nat := taskFrames s.kernel.sched.tasks ++ s.rest

/-- The same tables with another kernel. -/
def withKernel (s : Spaces) (k : Kernel) : Spaces := { s with kernel := k }

/-- A table was built, with a stack from `loose`. -/
def create (s : Spaces) (stackPhys : Nat) (out : Outcome Empty (Nat × List Nat) × Memory) :
    Option Spaces :=
  match out with
  | (.ok (pml4, tableFrames), m) =>
      some { s with
        kernel := { s.kernel with mem := m }
        built := ⟨pml4, tableFrames, stackPhys⟩ :: s.built
        loose := s.loose.erase stackPhys }
  | _ => none

/-- One step; `none` if it panics.  `offset` is `hhdm_offset()`. -/
def next (offset : Nat) (s : Spaces) : SpaceAct → Option Spaces
  | .allocFrame =>
      let out := s.kernel.mem.allocFrame
      some { s with
        kernel := { s.kernel with mem := out.2 }, loose := out.1.toList ++ s.loose }
  | .mapMmio physStart size =>
      match (UserPageTable.mapMmio s.kernel.cpu.cr3 offset physStart size :
          Command Memory Empty Nat) s.kernel.fresh.mem with
      | (.ok _, m) =>
          some { s with kernel := { s.kernel with mem := m }, tables := m.trace.taken ++ s.tables }
      | _ => none
  | .createIsolatedUserTable userPages stackPhys =>
      if stackPhys ∈ s.loose then
        s.create stackPhys
          (Scheduler.createIsolatedUserTable s.kernel.cpu.cr3 userPages stackPhys
            s.kernel.fresh.mem)
      else none
  | .createIsolatedUserTableFresh pages stackPhys =>
      if stackPhys ∈ s.loose then
        s.create stackPhys
          (UserPageTable.createIsolatedUserTableFresh s.kernel.cpu.cr3 pages stackPhys
            s.kernel.fresh.mem)
      else none
  | .spawnIsolated trampoline b userEntry caps =>
      if b ∈ s.built then
        match (Scheduler.spawnIsolated trampoline
            { cr3 := b.pml4, userEntry := userEntry, userStackTop := add b.stackPhys 4096
              caps := caps, tableFrames := b.tableFrames, userStackPhys := b.stackPhys } :
            Command Kernel Empty Nat) s.kernel.fresh with
        | (.ok _, k) => some { s with kernel := k, built := s.built.erase b }
        | _ => none
      else none
  | .run => some (s.withKernel (s.kernel.resume (s.kernel.sched.run s.kernel.cpu)))
  | .yieldNow => some (s.withKernel (s.kernel.resume (s.kernel.sched.yieldNow s.kernel.cpu)))
  | .tryPreempt => some (s.withKernel (s.kernel.resume (s.kernel.sched.tryPreempt s.kernel.cpu)))
  | .exitCurrent =>
      match Scheduler.exitCurrent s.kernel.sched with
      | .ok (sched, cpu) => some (s.withKernel { s.kernel with sched := sched, cpu := cpu })
      | _ => none
  | .reap pid =>
      match (Scheduler.reap pid : Command Kernel Empty Unit) s.kernel with
      | (.ok _, k) => some (s.withKernel k)
      | _ => none

end Spaces

/-- The kernel after boot: its tasks have its own table, `root` in CR3, and no
other table was built.  Nobody else has the frames of its tables. -/
structure Booted (root : Nat) (s : Spaces) : Prop where
  sound : Sound (2 ^ 47) s.kernel.mem.pmm s.held
  consistent : Consistent s.kernel.sched
  tree : ∃ lvl, KernelTree (root &&& addrMask) lvl s.tables s.kernel.mem
  tasks : ∀ pid t, lookup s.kernel.sched.tasks pid = some t →
    t.isolatedTableFrames = none ∧ t.cr3 = root
  built_eq : s.built = []
  cr3_eq : s.kernel.cpu.cr3 = root

/-- Runs of these acts. -/
def spaceSystem (root offset : Nat) : TransitionSystem Spaces SpaceAct where
  boot := Booted root
  next := Spaces.next offset

/-- The upper halves of two PML4s are the same. -/
def SameHalf (root : Nat) (m : Memory) (pml4 : Nat) : Prop :=
  ∀ i, 256 ≤ i → i < 512 → m.readWord (pml4 + 8 * i) = m.readWord (root + 8 * i)

/-- **The kernel half is shared.**  Every isolated task has the upper half of
the kernel's PML4 in its own, and an address of it is translated in the same way
when that task's table is loaded. -/
structure HalfShared (root : Nat) (s : Spaces) : Prop where
  entries : ∀ pid t, lookup s.kernel.sched.tasks pid = some t → t.isolatedTableFrames.isSome →
    SameHalf (root &&& addrMask) s.kernel.mem (t.cr3 &&& addrMask)
  walks : ∀ pid t, lookup s.kernel.sched.tasks pid = some t → t.isolatedTableFrames.isSome →
    ∀ v, v.testBit 47 = true → walk s.kernel.mem 3 (t.cr3 &&& addrMask) v =
      walk s.kernel.mem 3 (root &&& addrMask) v

namespace Spaces

/-- Only the kernel's own table is there. -/
def Alone (root : Nat) (s : Spaces) : Prop :=
  s.kernel.cpu.cr3 = root ∧ s.built = [] ∧
    ∀ pid t, lookup s.kernel.sched.tasks pid = some t → t.isolatedTableFrames = none

/-- The condition on a step: a device is mapped behind an entry that is there,
or while there is no other table; a table is built for the lower half. -/
def Shares (root offset : Nat) (s : Spaces) : SpaceAct → Prop
  | .mapMmio physStart size => ∀ i < mmioPages physStart size,
      (add offset (mmioStart physStart + i * 0x1000)).testBit 47 = true ∧
        (s.Alone root ∨ s.kernel.mem.readWord ((s.kernel.cpu.cr3 &&& addrMask) +
          8 * pml4Idx (add offset (mmioStart physStart + i * 0x1000))) &&& pagePresent ≠ 0)
  | .createIsolatedUserTable userPages _ => ∀ page ∈ userPages, page.testBit 47 = false
  | .createIsolatedUserTableFresh pages _ => ∀ page ∈ pages, page.vaddr.testBit 47 = false
  | _ => True

end Spaces

/-- What holds of every state whose steps met the condition. -/
structure Sharing (root : Nat) (s : Spaces) : Prop where
  sound : Sound (2 ^ 47) s.kernel.mem.pmm s.held
  consistent : Consistent s.kernel.sched
  tree : ∃ lvl, KernelTree (root &&& addrMask) lvl s.tables s.kernel.mem
  kernel_cr3 : ∀ pid t, lookup s.kernel.sched.tasks pid = some t →
    t.isolatedTableFrames = none → t.cr3 = root
  isolated : ∀ pid t frames, lookup s.kernel.sched.tasks pid = some t →
    t.isolatedTableFrames = some frames →
    t.cr3 ∈ frames ∧ SameHalf (root &&& addrMask) s.kernel.mem t.cr3
  built : ∀ b ∈ s.built, b.pml4 ∈ b.tableFrames ∧
    SameHalf (root &&& addrMask) s.kernel.mem b.pml4
  /-- the table in CR3 is the kernel's or that of the current task -/
  loaded : s.kernel.cpu.cr3 = root ∨
    ∃ t, currentTcb s.kernel.sched = some t ∧ s.kernel.cpu.cr3 = t.cr3

section

variable {root offset : Nat} {s s' : Spaces}

/-- The frames of a task are those of all tasks. -/
theorem mem_taskFrames {ts : Tasks CpuCtx} {pid f : Nat} {t : Tcb CpuCtx}
    (ht : lookup ts pid = some t) (hf : f ∈ t.frames) : f ∈ taskFrames ts :=
  (removed_frames ts ht).mem_iff.mpr (List.mem_append_left _ hf)

/-- A frame of a process's table belongs to its task. -/
theorem mem_isolated_frames {t : Tcb CpuCtx} {frames : List Nat} {f : Nat}
    (h : t.isolatedTableFrames = some frames) (hf : f ∈ frames) : f ∈ t.frames := by
  simp [Tcb.frames, h, hf]

/-- The frames of tasks and of tables without a task are not the kernel's. -/
theorem not_mem_tables (h : Sound (2 ^ 47) s.kernel.mem.pmm s.held) {f : Nat}
    (hf : f ∈ taskFrames s.kernel.sched.tasks ∨ f ∈ s.built.flatMap Built.frames) :
    f ∈ s.held ∧ f ∉ s.tables := by
  have hnd := (List.nodup_append'.mp h.separated.nodup).1
  unfold Spaces.held Spaces.rest at hnd ⊢
  obtain ⟨-, hrest, hapart⟩ := List.nodup_append'.mp hnd
  obtain ⟨-, -, hapart'⟩ := List.nodup_append'.mp hrest
  rcases hf with htask | hbuilt
  · exact ⟨List.mem_append_left _ htask,
      fun htable => hapart htask (List.mem_append_left _ htable)⟩
  · refine ⟨List.mem_append_right _ (List.mem_append_right _ (List.mem_append_left _ hbuilt)), ?_⟩
    exact fun htable => hapart' htable (List.mem_append_left _ hbuilt)

/-- A frame of a table without a task is held. -/
theorem mem_built_frames {b : Built} {bs : List Built} {f : Nat} (hb : b ∈ bs)
    (hf : f ∈ b.tableFrames) : f ∈ bs.flatMap Built.frames :=
  List.mem_flatMap.mpr ⟨b, hb, List.mem_append_left _ hf⟩

/-- A frame of the kernel's tables is. -/
theorem mem_held_tables {f : Nat} (hf : f ∈ s.tables) : f ∈ s.held :=
  List.mem_append_right _ (List.mem_append_left _ hf)

/-- A frame in use is its own base address. -/
theorem held_base {held : List Nat} {p : Pmm} (h : Sound (2 ^ 47) p held) {f : Nat}
    (hf : f ∈ held) : f &&& addrMask = f := by
  have haligned := h.separated.aligned f (List.mem_append_left _ hf)
  have hbelow := h.separated.inside f (List.mem_append_left _ hf)
  obtain ⟨k, rfl⟩ := haligned
  rw [and_addrMask]
  simp only [pageSize] at hbelow ⊢
  omega

/-- The frames in use before and after a step, those of the kernel's lower
tables excepted, have the same words. -/
def KeepsWords (root : Nat) (s s' : Spaces) : Prop :=
  ∀ g ∈ s.held, g ∈ s'.held → (g ∉ s.tables ∨ g = root &&& addrMask) → ∀ i < 512,
    s'.kernel.mem.readWord (g + 8 * i) = s.kernel.mem.readWord (g + 8 * i)

/-- A task whose table was there before. -/
def HadTable (s : Spaces) (t' : Tcb CpuCtx) : Prop :=
  (∃ pid t, lookup s.kernel.sched.tasks pid = some t ∧ t'.cr3 = t.cr3 ∧
      t'.isolatedTableFrames = t.isolatedTableFrames) ∨
    ∃ b ∈ s.built, t'.cr3 = b.pml4 ∧ t'.isolatedTableFrames = some b.tableFrames

/-- **Every step goes through this**: the kernel's tables stay a tree, no other
table that stays is written to, and no task gets a table that was not there. -/
theorem Sharing.carry (h : Sharing root s) (hsound : Sound (2 ^ 47) s'.kernel.mem.pmm s'.held)
    (hcons : Consistent s'.kernel.sched)
    (htree : ∃ lvl, KernelTree (root &&& addrMask) lvl s'.tables s'.kernel.mem)
    (hkeeps : KeepsWords root s s')
    (htasks : ∀ pid t', lookup s'.kernel.sched.tasks pid = some t' → HadTable s t')
    (hbuilt : ∀ b ∈ s'.built, b ∈ s.built ∨
      b.pml4 ∈ b.tableFrames ∧ SameHalf (root &&& addrMask) s'.kernel.mem b.pml4)
    (hloaded : s'.kernel.cpu.cr3 = root ∨
      ∃ t, currentTcb s'.kernel.sched = some t ∧ s'.kernel.cpu.cr3 = t.cr3) :
    Sharing root s' := by
  obtain ⟨lvl, hold⟩ := h.tree
  obtain ⟨lvl', hnew⟩ := htree
  have hroot : root &&& addrMask ∈ s.held := mem_held_tables (hold.own _ _ hold.top)
  have hroot' : root &&& addrMask ∈ s'.held := mem_held_tables (hnew.own _ _ hnew.top)
  have hhalf : ∀ p, p ∈ s.held ∧ p ∉ s.tables → p ∈ s'.held →
      SameHalf (root &&& addrMask) s.kernel.mem p →
      SameHalf (root &&& addrMask) s'.kernel.mem p := by
    intro p hp hp' hsame i hlo hhi
    rw [hkeeps p hp.1 hp' (Or.inl hp.2) i hhi, hkeeps _ hroot hroot' (Or.inr rfl) i hhi]
    exact hsame i hlo hhi
  refine ⟨hsound, hcons, ⟨lvl', hnew⟩, ?_, ?_, ?_, hloaded⟩
  · intro pid t' ht' hnone
    rcases htasks pid t' ht' with ⟨x, t, ht, hcr3, hframes⟩ | ⟨b, -, -, hframes⟩
    · rw [hcr3]
      exact h.kernel_cr3 x t ht (hframes.symm.trans hnone)
    · rw [hframes] at hnone
      cases hnone
  · intro pid t' frames ht' hsome
    have hheld' : ∀ f ∈ frames, f ∈ s'.held := fun f hf =>
      (not_mem_tables hsound (Or.inl (mem_taskFrames ht' (mem_isolated_frames hsome hf)))).1
    rcases htasks pid t' ht' with ⟨x, t, ht, hcr3, hframes⟩ | ⟨b, hb, hcr3, hframes⟩
    · rw [hframes] at hsome
      obtain ⟨hmem, hsame⟩ := h.isolated x t frames ht hsome
      rw [hcr3]
      refine ⟨hmem, hhalf t.cr3 ?_ (hheld' _ hmem) hsame⟩
      exact not_mem_tables h.sound (Or.inl (mem_taskFrames ht (mem_isolated_frames hsome hmem)))
    · obtain ⟨hmem, hsame⟩ := h.built b hb
      obtain rfl : frames = b.tableFrames := Option.some.inj (hsome.symm.trans hframes)
      rw [hcr3]
      refine ⟨hmem, hhalf b.pml4 ?_ (hheld' _ hmem) hsame⟩
      exact not_mem_tables h.sound (Or.inr (mem_built_frames hb hmem))
  · intro b hb
    rcases hbuilt b hb with hwas | hfresh
    · obtain ⟨hmem, hsame⟩ := h.built b hwas
      refine ⟨hmem, hhalf b.pml4 ?_ ?_ hsame⟩
      · exact not_mem_tables h.sound (Or.inr (mem_built_frames hwas hmem))
      · exact (not_mem_tables hsound (Or.inr (mem_built_frames hb hmem))).1
    · exact hfresh

/-- A step that leaves the kernel's tables and all frames in use alone. -/
theorem Sharing.quiet (h : Sharing root s) (hsound : Sound (2 ^ 47) s'.kernel.mem.pmm s'.held)
    (hcons : Consistent s'.kernel.sched) (htables : s'.tables = s.tables)
    (hwords : ∀ g ∈ s.held, g ∈ s'.held → ∀ i < 512,
      s'.kernel.mem.readWord (g + 8 * i) = s.kernel.mem.readWord (g + 8 * i))
    (htasks : ∀ pid t', lookup s'.kernel.sched.tasks pid = some t' → HadTable s t')
    (hbuilt : ∀ b ∈ s'.built, b ∈ s.built ∨
      b.pml4 ∈ b.tableFrames ∧ SameHalf (root &&& addrMask) s'.kernel.mem b.pml4)
    (hloaded : s'.kernel.cpu.cr3 = root ∨
      ∃ t, currentTcb s'.kernel.sched = some t ∧ s'.kernel.cpu.cr3 = t.cr3) :
    Sharing root s' := by
  refine h.carry hsound hcons ?_ (fun g hg hg' _ => hwords g hg hg') htasks hbuilt hloaded
  obtain ⟨lvl, htree⟩ := h.tree
  refine ⟨lvl, ?_⟩
  rw [htables]
  refine htree.congr (fun f hf => hwords f (mem_held_tables hf) ?_)
  exact mem_held_tables (htables ▸ hf)

/-- What a step that changes states and registers only leaves of the tables. -/
theorem hadTable_of_view {ts' : Tasks CpuCtx}
    (hview : ∀ x, (lookup ts' x).map (fun t => (t.cr3, t.isolatedTableFrames)) =
      (lookup s.kernel.sched.tasks x).map (fun t => (t.cr3, t.isolatedTableFrames)))
    (pid : Nat) (t' : Tcb CpuCtx) (ht' : lookup ts' pid = some t') : HadTable s t' := by
  have hmap := hview pid
  rw [ht', Option.map_some] at hmap
  obtain ⟨t, ht, hsame⟩ := Option.map_eq_some_iff.mp hmap.symm
  obtain ⟨hcr3, hframes⟩ := Prod.mk.inj hsame
  exact Or.inl ⟨pid, t, ht, hcr3.symm, hframes.symm⟩

/-- A step that changes the scheduler and the registers, and no frames. -/
theorem Sharing.switch (h : Sharing root s) {sched : Scheduler CpuCtx} {cpu : Cpu CpuCtx}
    (hcons : Consistent sched)
    (hframes : ∀ x, (lookup sched.tasks x).map Tcb.frames =
      (lookup s.kernel.sched.tasks x).map Tcb.frames)
    (hview : ∀ x, (lookup sched.tasks x).map (fun t => (t.cr3, t.isolatedTableFrames)) =
      (lookup s.kernel.sched.tasks x).map (fun t => (t.cr3, t.isolatedTableFrames)))
    (hloaded : cpu.cr3 = root ∨ ∃ t, currentTcb sched = some t ∧ cpu.cr3 = t.cr3) :
    Sharing root (s.withKernel { s.kernel with sched := sched, cpu := cpu }) := by
  have hheld : (s.withKernel { s.kernel with sched := sched, cpu := cpu }).held = s.held := by
    have htasks : taskFrames sched.tasks = taskFrames s.kernel.sched.tasks :=
      taskFrames_congr (fun x => congrArg (fun o => o.getD []) (hframes x))
    unfold Spaces.held Spaces.withKernel Spaces.rest
    rw [htasks]
  refine h.quiet ?_ hcons rfl (fun _ _ _ _ _ => rfl) (hadTable_of_view hview)
    (fun b hb => Or.inl hb) hloaded
  rw [hheld]
  exact h.sound

/-- A switch stores no word of memory. -/
theorem Sharing.reschedule (h : Sharing root s) :
    Sharing root (s.withKernel
      (s.kernel.resume (Scheduler.reschedule s.kernel.sched s.kernel.cpu))) := by
  refine h.switch (h.consistent.reschedule _).1
    (reschedule_view (fun _ _ _ => rfl) h.consistent _)
    (reschedule_view (fun _ _ _ => rfl) h.consistent _) ?_
  rcases h.consistent.placed.reschedule s.kernel.cpu h.consistent.zero h.consistent.canLeave with
    ⟨heq, -⟩ | ⟨next, sched, t, heq, -, ht, -, hcur, -, -, hlook⟩
  · rw [heq]
    exact h.loaded
  · rw [heq]
    refine Or.inr ⟨{ t with state := .running }, ?_, rfl⟩
    rw [currentTcb, hcur, hlook, if_pos rfl]

/-- `exit_current` leaves the tables to the zombie. -/
theorem Sharing.exit (h : Sharing root s) {sched : Scheduler CpuCtx} {cpu : Cpu CpuCtx}
    (hexit : exitCurrent s.kernel.sched = .ok (sched, cpu)) :
    Sharing root (s.withKernel { s.kernel with sched := sched, cpu := cpu }) := by
  refine h.switch (h.consistent.exitCurrent.1 _ _ hexit)
    (exitCurrent_view (fun _ _ _ => rfl) h.consistent hexit).2
    (exitCurrent_view (fun _ _ _ => rfl) h.consistent hexit).2 ?_
  rcases h.consistent.placed.exitCurrent h.consistent.zero with
    ⟨heq, -⟩ | ⟨next, sched', t, heq, -, ht, -, hcur, -, -, hlook⟩
  · rw [heq] at hexit
    cases hexit
  · obtain ⟨rfl, rfl⟩ := Prod.mk.inj (Outcome.ok.inj (heq.symm.trans hexit))
    refine Or.inr ⟨{ t with state := .running }, ?_, rfl⟩
    rw [currentTcb, hcur, hlook, if_pos rfl]

/-- Freeing frames writes to these frames only. -/
theorem freeAll_outside {ε : Type} {frames : List Nat} {m m' : Memory} {x : Nat}
    (hrun : (freeAll frames : Command Memory ε Unit) m = (.ok (), m'))
    (hx : ∀ f ∈ frames, x < f ∨ f + pageSize ≤ x) : m'.ram x = m.ram x := by
  induction frames generalizing m with
  | nil =>
      obtain ⟨-, rfl⟩ := Prod.mk.inj hrun
      rfl
  | cons f frames ih =>
      obtain ⟨⟨⟩, m1, hfirst, hrest⟩ := Command.bind_eq_ok.mp hrun
      rw [ih hrest (fun g hg => hx g (List.mem_cons_of_mem f hg))]
      unfold freeFrameOrPanic Memory.freeFrame at hfirst
      cases hp : FrameAllocator.freeFrame m.pmm f with
      | none => simp [hp] at hfirst
      | some p =>
          simp only [hp, Option.map_some, Prod.mk.injEq, true_and] at hfirst
          subst hfirst
          exact fill_outside m.ram 0 (hx f List.mem_cons_self)

/-- The account that does not count. -/
def uncounted : Account := ⟨2 ^ 47, 0, False⟩

/-- `reap` frees the table of a zombie, and nobody else is on it. -/
theorem Sharing.reap (h : Sharing root s) {pid : Nat} {k : Kernel}
    (hrun : (Scheduler.reap pid : Command Kernel Empty Unit) s.kernel = (.ok (), k)) :
    Sharing root (s.withKernel k) := by
  obtain ⟨t, ht, hst, -⟩ := reap_ok hrun
  have hsplit : s.held.Perm
      (t.frames ++ (taskFrames (remove s.kernel.sched.tasks pid) ++ s.rest)) := by
    unfold Spaces.held
    rw [← List.append_assoc]
    exact (removed_frames _ ht).append_right _
  have hbefore := h.sound.perm hsplit
  have hledger : Ledger uncounted s.kernel.mem.pmm
      (t.frames ++ (taskFrames (remove s.kernel.sched.tasks pid) ++ s.rest)) :=
    ⟨hbefore, False.elim⟩
  obtain ⟨m, hfree, -, hafter⟩ :=
    freeAll_ledger (ε := Empty) (by decide) t.frames s.kernel.mem hledger
  obtain ⟨-, rfl⟩ := Prod.mk.inj (hrun.symm.trans (reap_run ht hst hfree))
  refine h.quiet hafter.sound (h.consistent.reap ht hst) rfl ?_ ?_ (fun b hb => Or.inl hb) ?_
  · -- the frames that stay are apart from those freed
    intro g _ hg i hi
    apply readLE_congr
    intro x hlo hhi
    refine freeAll_outside hfree (fun f hf => ?_)
    have hne : f ≠ g := by
      rintro rfl
      have hnd := (List.nodup_append'.mp hbefore.separated.nodup).1
      exact (List.nodup_append'.mp hnd).2.2 hf hg
    exact Sound.other_frame hbefore (List.mem_append_left _ hf)
      (List.mem_append_left _ (List.mem_append_right _ hg)) hne (by omega)
      (by simp only [pageSize]; omega)
  · intro x t' ht'
    change lookup (remove s.kernel.sched.tasks pid) x = _ at ht'
    rw [lookup_remove] at ht'
    by_cases hx : x = pid
    · rw [if_pos hx] at ht'
      cases ht'
    · rw [if_neg hx] at ht'
      exact Or.inl ⟨x, t', ht', rfl, rfl⟩
  · rcases h.loaded with hroot | ⟨c, hc, hcr3⟩
    · exact Or.inl hroot
    · refine Or.inr ⟨c, ?_, hcr3⟩
      have hne : s.kernel.sched.current ≠ pid := by
        rintro rfl
        obtain ⟨t', ht', hrunning⟩ := h.consistent.running (fun hzero => by
          rw [hzero, h.consistent.zero] at ht
          cases ht)
        obtain rfl := Option.some.inj (ht'.symm.trans ht)
        rw [hst] at hrunning
        cases hrunning
      change lookup (remove s.kernel.sched.tasks pid) s.kernel.sched.current = _
      rw [lookup_remove, if_neg hne]
      exact hc

/-- The allocator hands out a frame that is in no table. -/
theorem Sharing.allocFrame (h : Sharing root s) :
    Sharing root { s with
      kernel := { s.kernel with mem := s.kernel.mem.allocFrame.2 }
      loose := s.kernel.mem.allocFrame.1.toList ++ s.loose } := by
  cases ha : s.kernel.mem.allocFrame with
  | mk o m =>
      cases o with
      | none =>
          obtain ⟨p, hp, rfl⟩ := PhysicalMemory.allocFrame_none ha
          exact h.quiet (h.sound.allocFrame_none (by decide) hp) h.consistent rfl
            (fun _ _ _ _ _ => rfl) (hadTable_of_view (fun _ => rfl)) (fun b hb => Or.inl hb) h.loaded
      | some f =>
          obtain ⟨p, hp, rfl⟩ := PhysicalMemory.allocFrame_some ha
          refine h.quiet ((h.sound.allocFrame (by decide) hp).perm ?_) h.consistent rfl
            (fun _ _ _ _ _ => rfl) (hadTable_of_view (fun _ => rfl)) (fun b hb => Or.inl hb) h.loaded
          simp only [Spaces.held, Spaces.rest, Option.toList_some, List.singleton_append]
          rw [← List.append_assoc, ← List.append_assoc, ← List.append_assoc, ← List.append_assoc]
          exact List.perm_middle.symm

/-- The table in CR3 is a frame in use with the kernel's upper half. -/
theorem Sharing.live (h : Sharing root s) :
    s.kernel.cpu.cr3 &&& addrMask ∈ s.held ∧
      SameHalf (root &&& addrMask) s.kernel.mem (s.kernel.cpu.cr3 &&& addrMask) ∧
      (s.kernel.cpu.cr3 &&& addrMask ∉ s.tables ∨
        s.kernel.cpu.cr3 &&& addrMask = root &&& addrMask) := by
  obtain ⟨lvl, htree⟩ := h.tree
  have hroot := htree.own _ _ htree.top
  have hkernel : s.kernel.cpu.cr3 = root →
      s.kernel.cpu.cr3 &&& addrMask ∈ s.held ∧
      SameHalf (root &&& addrMask) s.kernel.mem (s.kernel.cpu.cr3 &&& addrMask) ∧
      (s.kernel.cpu.cr3 &&& addrMask ∉ s.tables ∨
        s.kernel.cpu.cr3 &&& addrMask = root &&& addrMask) := by
    intro heq
    rw [heq]
    exact ⟨mem_held_tables hroot, fun _ _ _ => rfl, Or.inr rfl⟩
  rcases h.loaded with heq | ⟨t, ht, heq⟩
  · exact hkernel heq
  · cases hframes : t.isolatedTableFrames with
    | none => exact hkernel (heq.trans (h.kernel_cr3 _ t ht hframes))
    | some frames =>
        obtain ⟨hmem, hsame⟩ := h.isolated _ t frames ht hframes
        obtain ⟨hheld, htable⟩ :=
          not_mem_tables h.sound (Or.inl (mem_taskFrames ht (mem_isolated_frames hframes hmem)))
        have hbase : t.cr3 &&& addrMask = t.cr3 := held_base h.sound hheld
        rw [heq, hbase]
        exact ⟨hheld, hsame, Or.inl htable⟩

/-- The frames in use when a table was built. -/
theorem perm_create {taken tf T K B L : List Nat} {f : Nat} (htaken : taken.Perm tf)
    (hf : f ∈ L) :
    (taken ++ (T ++ (K ++ (B ++ L)))).Perm (T ++ (K ++ (((tf ++ [f]) ++ B) ++ L.erase f))) := by
  have hloose := List.perm_cons_erase hf
  rw [List.perm_iff_count]
  intro x
  have h1 := htaken.count_eq x
  have h2 := hloose.count_eq x
  simp only [List.count_cons, List.count_append, List.count_nil] at h2 ⊢
  omega

/-- **A new table** has the upper half of the one in CR3. -/
theorem Sharing.create (h : Sharing root s) {pages : List Page} {stackPhys : Nat}
    (hpages : ∀ page ∈ pages, page.vaddr.testBit 47 = false) (hstack : stackPhys ∈ s.loose)
    (hnext : s.create stackPhys (createIsolatedUserTableFresh s.kernel.cpu.cr3 pages stackPhys
      s.kernel.fresh.mem) = some s') : Sharing root s' := by
  have hheld : stackPhys ∈ s.held :=
    List.mem_append_right _ (List.mem_append_right _ (List.mem_append_right _ hstack))
  have hlow : stackPhys.testBit 47 = false :=
    low_of_below (Nat.le_refl _) (h.sound.separated.inside _ (List.mem_append_left _ hheld))
  obtain ⟨hlive, hhalf, -⟩ := h.live
  have hcall : CallSound ⟨2 ^ 47, s.held, s.kernel.mem.ram⟩ s.kernel.fresh.mem :=
    callSound_start (m := s.kernel.fresh.mem) h.sound rfl
  have htables := create_tables_low (ε := Empty) (Nat.le_refl _) hcall hlive hpages hlow
  have hstart : Listed uncounted s.held [] [] s.kernel.fresh.mem :=
    ⟨⟨h.sound, False.elim⟩, List.Perm.refl _⟩
  have hlisted := create_books (ε := Empty) (by decide) (by decide) s.kernel.cpu.cr3 pages
    stackPhys s.kernel.fresh.mem hstart
  cases hrun : (createIsolatedUserTableFresh s.kernel.cpu.cr3 pages stackPhys s.kernel.fresh.mem :
      Outcome Empty (Nat × List Nat) × Memory) with
  | mk o m =>
      rw [hrun] at hnext htables hlisted
      cases o with
      | err e => cases hnext
      | panic message => cases hnext
      | ok out =>
          obtain ⟨pml4, tf⟩ := out
          obtain rfl := Option.some.inj hnext
          obtain ⟨lvl, htables⟩ := htables
          obtain ⟨hbooks, hperm⟩ := hlisted
          rw [List.append_nil] at hperm
          have hword : ∀ g ∈ s.held, ∀ i < 512,
              m.readWord (g + 8 * i) = s.kernel.mem.readWord (g + 8 * i) :=
            fun g hg i hi => htables.call.readWord_held hg (by omega)
              (by simp only [pageSize]; omega)
          refine h.quiet (hbooks.sound.perm (perm_create hperm hstack)) h.consistent rfl
            (fun g hg _ => hword g hg) (hadTable_of_view (fun _ => rfl)) ?_ h.loaded
          intro b hb
          rcases List.mem_cons.mp hb with rfl | hb
          · refine Or.inr ⟨hperm.mem_iff.mp (htables.own _ _ htables.top), ?_⟩
            obtain ⟨lvl', htree⟩ := h.tree
            intro i hlo hhi
            change m.readWord (pml4 + 8 * i) = m.readWord ((root &&& addrMask) + 8 * i)
            rw [htables.upper_eq i hlo hhi,
              hword _ (mem_held_tables (htree.own _ _ htree.top)) i hhi]
            exact hhalf i hlo hhi
          · exact Or.inl hb

/-- The frames in use when a table gets its task. -/
theorem perm_spawned {stack T T' K L : List Nat} {B : List Built} {b : Built} (hb : b ∈ B)
    (htasks : T'.Perm ((b.frames ++ stack) ++ T)) :
    (stack ++ (T ++ (K ++ (B.flatMap Built.frames ++ L)))).Perm
      (T' ++ (K ++ ((B.erase b).flatMap Built.frames ++ L))) := by
  have hbuilt := (List.perm_cons_erase hb).flatMap_right Built.frames
  rw [List.flatMap_cons] at hbuilt
  rw [List.perm_iff_count]
  intro x
  have h1 := htasks.count_eq x
  have h2 := hbuilt.count_eq x
  simp only [List.count_append] at h1 h2 ⊢
  omega

/-- **A new task** gets a table that was built for it. -/
theorem Sharing.spawn (h : Sharing root s) {trampoline userEntry caps pid : Nat} {b : Built}
    {k : Kernel} (hb : b ∈ s.built)
    (hrun : (Scheduler.spawnIsolated trampoline
      { cr3 := b.pml4, userEntry := userEntry, userStackTop := add b.stackPhys 4096
        caps := caps, tableFrames := b.tableFrames, userStackPhys := b.stackPhys } :
      Command Kernel Empty Nat) s.kernel.fresh = (.ok pid, k)) :
    Sharing root { s with kernel := k, built := s.built.erase b } := by
  have hfour : (2 : Nat) ^ 47 + 4 * pageSize < modulus := by decide
  have hbooks : Books uncounted s.held s.kernel.fresh.mem := ⟨h.sound, False.elim⟩
  obtain ⟨t, hadded⟩ := spawnIsolated_added hfour (k := s.kernel.fresh) h.consistent hbooks hrun
  have hpid : pid = s.kernel.sched.nextPid := hadded.pid_eq
  have hlook : ∀ x, lookup k.sched.tasks x = _ := hadded.lookup_eq
  have htaken : k.mem.trace.taken = t.frames := by
    rw [hadded.taken]
    exact List.append_nil _
  have htasks : (taskFrames k.sched.tasks).Perm
      ((b.frames ++ k.mem.trace.taken) ++ taskFrames s.kernel.sched.tasks) := by
    have hempty : framesAt s.kernel.sched.tasks pid = [] := hpid ▸ framesAt_nextPid h.consistent
    have hframes := inserted_frames hempty hlook
    rw [hadded.frames_eq, ← htaken] at hframes
    exact hframes
  obtain ⟨pid', k1, hspawn, hrest⟩ := Command.bind_eq_ok.mp hrun
  have hpatched : k.cpu = k1.cpu ∧ k.mem = k1.mem := by
    obtain ⟨-, rfl⟩ := Prod.mk.inj hrest
    exact ⟨rfl, rfl⟩
  have hcpu : k.cpu = s.kernel.cpu := by
    have hsame := spawn_cpu (ε := Empty) trampoline s.kernel.fresh
    rw [hspawn] at hsame
    exact hpatched.1.trans hsame
  refine h.quiet (hadded.books.sound.perm (perm_spawned hb htasks)) hadded.consistent rfl ?_ ?_
    (fun c hc => Or.inl (List.mem_of_mem_erase hc)) ?_
  · intro g hg _ i hi
    apply readLE_congr
    intro x hlo hhi
    have hkept := spawn_kept (ε := Empty) hfour trampoline (k := s.kernel.fresh) h.sound hg
      (show g ≤ x by omega) (by simp only [pageSize]; omega)
    rw [hspawn] at hkept
    change k.mem.ram x = s.kernel.mem.ram x
    rw [hpatched.2]
    exact hkept
  · intro x t' ht'
    change lookup k.sched.tasks x = some t' at ht'
    rw [hlook] at ht'
    by_cases hx : x = pid
    · rw [if_pos hx] at ht'
      obtain rfl := Option.some.inj ht'
      exact Or.inr ⟨b, hb, rfl, rfl⟩
    · rw [if_neg hx] at ht'
      exact Or.inl ⟨x, t', ht', rfl, rfl⟩
  · rcases h.loaded with hroot | ⟨c, hc, hcr3⟩
    · refine Or.inl ?_
      change k.cpu.cr3 = root
      rw [hcpu]
      exact hroot
    · refine Or.inr ⟨c, ?_, ?_⟩
      · have hne : s.kernel.sched.current ≠ pid := by
          have hold := h.consistent.fresh _ c hc
          omega
        have hcurrent : k.sched.current = s.kernel.sched.current := hadded.current_eq
        change lookup k.sched.tasks k.sched.current = some c
        rw [hcurrent, hlook, if_neg hne]
        exact hc
      · change k.cpu.cr3 = c.cr3
        rw [hcpu]
        exact hcr3

/-- What `map_mmio` finds. -/
def Spaces.mapEnv (s : Spaces) (root : Nat) (frozen : Prop) (h : root &&& addrMask ∈ s.tables) :
    MapEnv where
  limit := 2 ^ 47
  root := root &&& addrMask
  held := s.held
  tables := s.tables
  old := s.kernel.mem
  frozen := frozen
  sub := fun _ hf => mem_held_tables hf
  root_mem := h

/-- The frames in use when tables were made for a device. -/
theorem perm_mapped (taken T K R : List Nat) :
    (taken ++ (T ++ (K ++ R))).Perm (T ++ ((taken ++ K) ++ R)) := by
  rw [List.perm_iff_count]
  intro x
  simp only [List.count_append]
  omega

/-- **A device** is mapped in the tables that all share, or before there are
any others. -/
theorem Sharing.mapMmio (h : Sharing root s) {physStart size ret : Nat} {m : Memory}
    (hok : s.Shares root offset (.mapMmio physStart size))
    (hrun : (UserPageTable.mapMmio s.kernel.cpu.cr3 offset physStart size :
      Command Memory Empty Nat) s.kernel.fresh.mem = (.ok ret, m)) :
    Sharing root { s with
      kernel := { s.kernel with mem := m }, tables := m.trace.taken ++ s.tables } := by
  obtain ⟨lvl, htree⟩ := h.tree
  have hroot := htree.own _ _ htree.top
  obtain ⟨hlive, hhalf, hplace⟩ := h.live
  have hmap : ∀ frozen : Prop, MayMap (s.mapEnv root frozen hroot) (s.kernel.cpu.cr3 &&& addrMask)
      offset physStart size → ∃ lvl, Mapping (s.mapEnv root frozen hroot) lvl m := by
    intro frozen hmay
    have hstart : Mapping (s.mapEnv root frozen hroot) lvl s.kernel.fresh.mem :=
      ⟨h.sound, htree.congr (fun _ _ _ _ => rfl), fun _ _ _ _ _ => rfl⟩
    have hdone := mapMmio_mapping (ε := Empty) (show (2 : Nat) ^ 47 ≤ 2 ^ 52 by decide) hmay _
      ⟨lvl, hstart⟩
    rw [hrun] at hdone
    exact hdone
  by_cases halone : s.Alone root
  · -- there is no other table
    obtain ⟨hcr3, hbuilt, hnone⟩ := halone
    obtain ⟨lvl', hmapping⟩ := hmap False (fun i hi => ⟨(hok i hi).1, Or.inl ⟨id, by rw [hcr3]; rfl⟩⟩)
    refine ⟨hmapping.sound.perm (perm_mapped _ _ _ _), h.consistent, ⟨lvl', hmapping.tree⟩,
      h.kernel_cr3, ?_, ?_, h.loaded⟩
    · intro pid t frames ht hsome
      have hnot : t.isolatedTableFrames = none := hnone pid t ht
      rw [hsome] at hnot
      cases hnot
    · intro b hb
      change b ∈ s.built at hb
      rw [hbuilt] at hb
      cases hb
  · have hmay : MayMap (s.mapEnv root True hroot) (s.kernel.cpu.cr3 &&& addrMask) offset physStart
        size := by
      intro i hi
      obtain ⟨hup, hpresent⟩ := hok i hi
      have hidx := (pml4Idx_upper _).mpr hup
      exact ⟨hup, Or.inr ⟨trivial, hlive, hplace, hhalf _ hidx (idx_lt _),
        hpresent.resolve_left halone⟩⟩
    obtain ⟨lvl', hmapping⟩ := hmap True hmay
    refine h.carry (hmapping.sound.perm (perm_mapped _ _ _ _)) h.consistent ⟨lvl', hmapping.tree⟩
      ?_ (hadTable_of_view (fun _ => rfl)) (fun b hb => Or.inl hb) h.loaded
    intro g hg _ hkept i hi
    exact hmapping.kept g hg (hkept.imp_right (fun heq => ⟨trivial, heq⟩)) i hi

/-- **One step** that meets the condition. -/
theorem next_sharing (h : Sharing root s) {a : SpaceAct} (hok : s.Shares root offset a)
    (hnext : s.next offset a = some s') : Sharing root s' := by
  cases a with
  | allocFrame =>
      obtain rfl := Option.some.inj hnext
      exact h.allocFrame
  | mapMmio physStart size =>
      simp only [Spaces.next] at hnext
      split at hnext
      next ret m hrun =>
        obtain rfl := Option.some.inj hnext
        exact h.mapMmio hok hrun
      next => cases hnext
  | createIsolatedUserTable userPages stackPhys =>
      simp only [Spaces.next] at hnext
      split at hnext
      next hstack =>
        rw [createIsolatedUserTable_eq] at hnext
        refine h.create (fun page hpage => ?_) hstack hnext
        obtain ⟨p, hp, rfl⟩ := List.mem_map.mp hpage
        exact hok p hp
      next => cases hnext
  | createIsolatedUserTableFresh pages stackPhys =>
      simp only [Spaces.next] at hnext
      split at hnext
      next hstack => exact h.create hok hstack hnext
      next => cases hnext
  | spawnIsolated trampoline b userEntry caps =>
      simp only [Spaces.next] at hnext
      split at hnext
      next hb =>
        split at hnext
        next pid k hrun =>
          obtain rfl := Option.some.inj hnext
          exact h.spawn hb hrun
        next => cases hnext
      next => cases hnext
  | run =>
      obtain rfl := Option.some.inj hnext
      exact h.reschedule
  | yieldNow =>
      obtain rfl := Option.some.inj hnext
      exact h.reschedule
  | tryPreempt =>
      obtain rfl := Option.some.inj hnext
      exact h.reschedule
  | exitCurrent =>
      simp only [Spaces.next] at hnext
      split at hnext
      next sched cpu hexit =>
        obtain rfl := Option.some.inj hnext
        exact h.exit hexit
      next => cases hnext
  | reap pid =>
      simp only [Spaces.next] at hnext
      split at hnext
      next k hrun =>
        obtain rfl := Option.some.inj hnext
        exact h.reap hrun
      next => cases hnext

/-- The machine at the start. -/
theorem Booted.sharing (h : Booted root s) : Sharing root s := by
  refine ⟨h.sound, h.consistent, h.tree, fun pid t ht _ => (h.tasks pid t ht).2, ?_, ?_,
    Or.inl h.cr3_eq⟩
  · intro pid t frames ht hsome
    rw [(h.tasks pid t ht).1] at hsome
    cases hsome
  · intro b hb
    rw [h.built_eq] at hb
    cases hb

/-- **Every run** that meets the condition has the upper half of all tables alike. -/
theorem run_sharing (h : (spaceSystem root offset).Run (Spaces.Shares root offset) s) :
    Sharing root s := by
  refine h.invariant (fun t hboot => ?_) (fun _ _ _ hs hok hnext => next_sharing hs hok hnext)
  have hbooted : Booted root t := hboot
  exact hbooted.sharing

/-- Tables with the same upper half translate the addresses of it alike. -/
theorem SameHalf.walk_eq {m : Memory} {pml4 v : Nat} (h : SameHalf root m pml4)
    (hv : v.testBit 47 = true) : walk m 3 pml4 v = walk m 3 root v := by
  have hup : 256 ≤ tableIndex 3 v := (pml4Idx_upper v).mpr hv
  have hword := h _ hup (tableIndex_lt 3 v)
  simp only [walk, hword]

/-- **The kernel's half stays shared** in every run that maps no device behind a
missing entry of a PML4 once there are other tables. -/
theorem kernel_half_shared (h : (spaceSystem root offset).Run (Spaces.Shares root offset) s) :
    HalfShared root s := by
  have hsharing := run_sharing h
  have hentries : ∀ pid t, lookup s.kernel.sched.tasks pid = some t →
      t.isolatedTableFrames.isSome →
      SameHalf (root &&& addrMask) s.kernel.mem (t.cr3 &&& addrMask) := by
    intro pid t ht hsome
    obtain ⟨frames, hframes⟩ := Option.isSome_iff_exists.mp hsome
    obtain ⟨hmem, hsame⟩ := hsharing.isolated pid t frames ht hframes
    have hheld := (not_mem_tables hsharing.sound
      (Or.inl (mem_taskFrames ht (mem_isolated_frames hframes hmem)))).1
    rw [held_base hsharing.sound hheld]
    exact hsame
  exact ⟨hentries, fun pid t ht hsome v hv => (hentries pid t ht hsome).walk_eq hv⟩

end

/-- The shell, with an empty table behind entry 256 of its PML4. -/
def shellSpaces : Spaces := ⟨shellKernel, [0x1000, 0x2000], [], []⟩

/-- The shell has booted so. -/
theorem shellSpaces_booted : Booted 0x1000 shellSpaces := by
  have hroot : (0x1000 : Nat) &&& addrMask = 0x1000 := by decide
  have htop : ∀ i < 512, 256 ≤ i → shellKernel.mem.readWord (0x1000 + 8 * i) &&& pagePresent ≠ 0 →
      shellKernel.mem.readWord (0x1000 + 8 * i) &&& addrMask = 0x2000 := by decide +kernel
  have hbelow : ∀ i < 512, shellKernel.mem.readWord (0x2000 + 8 * i) = 0 := by decide +kernel
  refine ⟨shell_sound, initial_consistent, ⟨fun f => if f = 0x1000 then some 4 else
    if f = 0x2000 then some 3 else none, ?_, ?_, ?_⟩, ?_, rfl, rfl⟩
  · rw [hroot]
    rfl
  · intro f n hf
    split_ifs at hf with h1 h2
    · exact h1 ▸ List.mem_cons_self
    · exact h2 ▸ List.mem_cons_of_mem _ List.mem_cons_self
  · intro f n i hf hi hup hpresent _
    split_ifs at hf with h1 h2
    · subst h1
      obtain rfl : n = 2 := by
        have := Option.some.inj hf
        omega
      have hnext := htop i hi (hup hroot.symm) hpresent
      change (if shellKernel.mem.readWord (0x1000 + 8 * i) &&& addrMask = 0x1000 then some 4 else
        if shellKernel.mem.readWord (0x1000 + 8 * i) &&& addrMask = 0x2000 then some 3 else none) = _
      rw [hnext]
      rfl
    · subst h2
      have hzero : shellKernel.mem.readWord (0x2000 + 8 * i) &&& pagePresent = 0 := by
        rw [hbelow i hi]
        rfl
      exact absurd hzero hpresent
  · intro pid t ht
    cases ht

/-- A table with one page, and the task that gets it. -/
def isolatedRun : List SpaceAct :=
  [.allocFrame, .createIsolatedUserTable [0x5000] 0x400000,
    .spawnIsolated 0x8000
      ⟨0x401000, [0x401000, 0x402000, 0x403000, 0x404000, 0x405000], 0x400000⟩ 0x5000 0,
    .run]

/-- The isolated task is task 1, and runs. -/
def isolatedSpaces : Spaces :=
  ((spaceSystem 0x1000 0xFFFF800000000000).exec shellSpaces isolatedRun).getD shellSpaces

/-- A run that spawns a program on its own table. -/
private theorem isolatedSpaces_exec :
    (spaceSystem 0x1000 0xFFFF800000000000).exec shellSpaces isolatedRun = some isolatedSpaces :=
  eq_some_getD (by decide +kernel) shellSpaces

/-- It meets the condition. -/
theorem isolatedSpaces_run : (spaceSystem 0x1000 0xFFFF800000000000).Run
    (Spaces.Shares 0x1000 0xFFFF800000000000) isolatedSpaces := by
  refine TransitionSystem.Run.exec (.boot shellSpaces_booted) (fun a ha s => ?_) isolatedSpaces_exec
  simp only [isolatedRun, List.mem_cons, List.not_mem_nil, or_false] at ha
  rcases ha with rfl | rfl | rfl | rfl
  · trivial
  · intro page hpage
    rw [List.mem_singleton.mp hpage]
    decide
  · trivial
  · trivial

/-- A device behind the entry that all tables have. -/
theorem sample_half_shared : ∃ s,
    isolatedSpaces.next 0xFFFF800000000000 (.mapMmio 0x40000000 0x1000) = some s ∧
    HalfShared 0x1000 s := by
  have hsome : (isolatedSpaces.next 0xFFFF800000000000 (.mapMmio 0x40000000 0x1000)).isSome := by
    decide +kernel
  obtain ⟨s, hnext⟩ := Option.isSome_iff_exists.mp hsome
  have hpages : mmioPages 0x40000000 0x1000 = 1 := by decide +kernel
  have hok : isolatedSpaces.Shares 0x1000 0xFFFF800000000000 (.mapMmio 0x40000000 0x1000) := by
    intro i hi
    obtain rfl : i = 0 := by omega
    refine ⟨by decide +kernel, Or.inr ?_⟩
    decide +kernel
  exact ⟨s, hnext, kernel_half_shared (.step isolatedSpaces_run hok hnext)⟩

/-- **The kernel's half is not always shared.**  A device behind entry 257, which
is missing, is mapped for the task that runs, and not for the kernel. -/
theorem half_not_shared : ∃ s,
    (spaceSystem 0x1000 0xFFFF800000000000).Reach s ∧ ¬HalfShared 0x1000 s := by
  have hsome : (isolatedSpaces.next 0xFFFF800000000000 (.mapMmio 0x8000000000 0x1000)).isSome := by
    decide +kernel
  have htask : ((isolatedSpaces.next 0xFFFF800000000000 (.mapMmio 0x8000000000 0x1000)).map
      (fun s => (lookup s.kernel.sched.tasks 1).map
        (fun t => (t.isolatedTableFrames.isSome, t.cr3)))) = some (some (true, 0x401000)) := by
    decide +kernel
  have hwords : ((isolatedSpaces.next 0xFFFF800000000000 (.mapMmio 0x8000000000 0x1000)).map
      (fun s => (s.kernel.mem.readWord (0x401000 + 8 * 257),
        s.kernel.mem.readWord (0x1000 + 8 * 257)))) = some (0x40A003, 0) := by
    decide +kernel
  obtain ⟨s, hnext⟩ := Option.isSome_iff_exists.mp hsome
  rw [hnext] at htask hwords
  obtain ⟨hmine, hroot⟩ := Prod.mk.inj (Option.some.inj hwords)
  obtain ⟨t, ht, heq⟩ := Option.map_eq_some_iff.mp (Option.some.inj htask)
  obtain ⟨hsome', hcr3⟩ := Prod.mk.inj heq
  have hstep : (spaceSystem 0x1000 0xFFFF800000000000).next isolatedSpaces
      (.mapMmio 0x8000000000 0x1000) = some s := hnext
  refine ⟨s, .step isolatedSpaces_run.reach trivial hstep, fun h => ?_⟩
  have hentry := h.entries 1 t ht hsome' 257 (by decide) (by decide)
  rw [hcr3] at hentry
  have hsame : s.kernel.mem.readWord (0x401000 + 8 * 257) =
      s.kernel.mem.readWord (0x1000 + 8 * 257) := hentry
  rw [hmine, hroot] at hsame
  cases hsame

end Scheduler
