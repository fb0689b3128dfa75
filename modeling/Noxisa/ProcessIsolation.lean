import Noxisa.ProgramMemory

/-!
# Isolation of programs

The steps are those of a `Machine`.  What code does to the memory is restricted to what it can
do: ring 3 writes to pages that the loaded table lets it write to, and the kernel keeps off the
frames of programs and off its own PML4 (`Machine.Confined`).

Then a program stays housed from `spawn_program` to `reap`: nobody writes to a table, which
ring 3 does not reach (`Onward.words`), and ring 3 writes to pages of the current program
only (`Guarded.ring3`).  So no two programs share a page (`programs_isolated`), and what a
program sees changes by its own stores only (`memory_private`).
-/

namespace Scheduler

open ByteMemory ElfLoader FrameAllocator MachineWord PhysicalMemory RangePool UserPageTable

/-- No memory is counted. -/
def noRegions : MemoryMap (2 ^ 47) := ⟨[], List.Pairwise.nil, by simp⟩

namespace Machine

/-- A byte that ring 3 can write to with the loaded table.  It runs in programs only. -/
def Ring3 (s : Machine) (x : Nat) : Prop :=
  ∃ t, currentTcb s.kernel.sched = some t ∧ t.isolatedTableFrames.isSome ∧
    ∃ v tr, walk s.kernel.mem 3 (s.kernel.cpu.cr3 &&& addrMask) v = some tr ∧
      tr.user = true ∧ tr.writable = true ∧ x = tr.frame + v % tr.size

/-- A byte in no frame of a program, nor in the PML4 of the kernel. -/
def KernelOwn (root : Nat) (s : Machine) (x : Nat) : Prop :=
  (x < (root &&& addrMask) ∨ (root &&& addrMask) + pageSize ≤ x) ∧
    ∀ pid t, lookup s.kernel.sched.tasks pid = some t → ∀ f ∈ t.programFrames,
      x < f ∨ f + pageSize ≤ x

/-- The condition on a step.  Kernel tasks are spawned with the kernel's table loaded, the
pages of a file are in the lower half, and code writes where it can. -/
def Confined (root : Nat) (s : Machine) : Act → Prop
  | .spawn _ => s.kernel.cpu.cr3 = root
  | .spawnProgram _ _ elf _ => LowPages elf
  | .freeFrame addr => addr ≠ root &&& addrMask
  | .work cpu ram => cpu.cr3 = s.kernel.cpu.cr3 ∧
      ∀ x, ram x ≠ s.kernel.mem.ram x → s.Ring3 x ∨ s.KernelOwn root x
  | _ => True

/-- While the task runs, only the kernel writes. -/
def StoresNothing (root pid : Nat) (s : Machine) : Act → Prop
  | .work _ ram => s.kernel.sched.current = pid →
      ∀ x, ram x ≠ s.kernel.mem.ram x → s.KernelOwn root x
  | _ => True

end Machine

/-- The kernel after boot, with its PML4 at `root`, closed to ring 3, and in use. -/
structure Prepared (root : Nat) (s : Machine) : Prop where
  sched_eq : s.kernel.sched = initial
  cr3_eq : s.kernel.cpu.cr3 = root
  sound : Sound (2 ^ 47) s.kernel.mem.pmm s.loose
  root_mem : root &&& addrMask ∈ s.loose
  closed : UpperHalfClear s.kernel.mem (root &&& addrMask)

/-- Runs of the machine: `root` is the table the kernel runs on. -/
def memorySystem (root : Nat) : TransitionSystem Machine Act where
  boot := Prepared root
  next := Machine.next

/-- What holds in all runs. -/
structure Guarded (root : Nat) (s : Machine) : Prop where
  solvent : Solvent noRegions s
  root_mem : root &&& addrMask ∈ s.loose
  closed : UpperHalfClear s.kernel.mem (root &&& addrMask)
  settled : ∀ pid t, lookup s.kernel.sched.tasks pid = some t → Settled root s.kernel.mem t
  /-- the table in CR3 is that of the current task -/
  loaded : (currentTcb s.kernel.sched = none ∧ s.kernel.cpu.cr3 = root) ∨
    ∃ t, currentTcb s.kernel.sched = some t ∧ s.kernel.cpu.cr3 = t.cr3

/-- Out of the reach of ring 3: the PML4 of the kernel, or a frame of a program that is no
page of it. -/
def Machine.Closed (root : Nat) (s : Machine) (g : Nat) : Prop :=
  g = root &&& addrMask ∨
    ∃ pid t, lookup s.kernel.sched.tasks pid = some t ∧ g ∈ t.programFrames ∧
      ∀ v tr, walk s.kernel.mem 3 t.cr3 v = some tr → tr.user = true → tr.frame ≠ g

/-- A page table: the PML4 of the kernel, or what the processor reads when it translates an
address of the lower half in a program. -/
def Machine.Table (root : Nat) (s : Machine) (g : Nat) : Prop :=
  g = root &&& addrMask ∨
    ∃ pid t v, lookup s.kernel.sched.tasks pid = some t ∧ t.isolatedTableFrames.isSome ∧
      v.testBit 47 = false ∧ g ∈ tablesRead s.kernel.mem 3 t.cr3 v

/-- **What a step does**: only code writes to frames that stay in use, tasks stay where they
are, and a new one is settled. -/
structure Onward (root : Nat) (s : Machine) (act : Act) (s' : Machine) : Prop where
  root_mem : root &&& addrMask ∈ s'.loose
  kept : ∀ g ∈ s.held, g ∈ s'.held → ∀ x, g ≤ x → x < g + pageSize →
    s'.kernel.mem.ram x = s.kernel.mem.ram x ∨
      ∃ cpu ram, act = .work cpu ram ∧ ram x ≠ s.kernel.mem.ram x
  tasks : ∀ pid t', lookup s'.kernel.sched.tasks pid = some t' →
    (∃ t, lookup s.kernel.sched.tasks pid = some t ∧ t'.home = t.home) ∨
      s.kernel.sched.nextPid ≤ pid ∧ Settled root s'.kernel.mem t'
  loaded : (currentTcb s'.kernel.sched = none ∧ s'.kernel.cpu.cr3 = root) ∨
    ∃ t, currentTcb s'.kernel.sched = some t ∧ s'.kernel.cpu.cr3 = t.cr3

section

variable {root pid : Nat} {s s' : Machine} {act : Act} {t t' : Tcb CpuCtx}

/-- The frames of all parties are in use, each once. -/
theorem Guarded.sound (h : Guarded root s) : Sound (2 ^ 47) s.kernel.mem.pmm s.held :=
  h.solvent.ledger.sound

/-- The kernel's own PML4 is among them. -/
theorem Guarded.root_held (h : Guarded root s) : root &&& addrMask ∈ s.held :=
  List.mem_append_right _ h.root_mem

/-- The frames of a program are. -/
theorem programFrames_held (ht : lookup s.kernel.sched.tasks pid = some t) {f : Nat}
    (hf : f ∈ t.programFrames) : f ∈ s.held :=
  List.mem_append_left _ (mem_taskFrames ht (List.mem_append_left _ hf))

/-- A task owns what its program has, and its kernel stack. -/
theorem frames_eq (t : Tcb CpuCtx) : t.frames = t.programFrames ++ t.stackFrames := rfl

/-- Its stack frames are frames of its own. -/
private theorem stackFrames_sub (t : Tcb CpuCtx) {f : Nat} (hf : f ∈ t.stackFrames) :
    f ∈ t.frames :=
  List.mem_append_right _ hf

/-- The kernel stack of a task is apart from the rest of its frames. -/
private theorem stack_apart (h : Sound (2 ^ 47) s.kernel.mem.pmm s.held)
    (ht : lookup s.kernel.sched.tasks pid = some t) {f : Nat} (hf : f ∈ t.programFrames)
    (hstack : f ∈ t.stackFrames) : False := by
  have hnd := (List.nodup_append'.mp (List.nodup_append'.mp h.separated.nodup).1).1
  have hsplit := (removed_frames _ ht).nodup_iff.mp hnd
  have hown := (List.nodup_append'.mp hsplit).1
  rw [frames_eq] at hown
  exact (List.nodup_append'.mp hown).2.2 hf hstack

/-- The frames of two tasks are different, -/
theorem frames_apart (h : Sound (2 ^ 47) s.kernel.mem.pmm s.held) {pid' : Nat} (hne : pid' ≠ pid)
    (ht : lookup s.kernel.sched.tasks pid = some t)
    (ht' : lookup s.kernel.sched.tasks pid' = some t') {f : Nat} (hf : f ∈ t.frames)
    (hf' : f ∈ t'.frames) : False := by
  have hnd := (List.nodup_append'.mp (List.nodup_append'.mp h.separated.nodup).1).1
  have hsplit := (removed_frames _ ht).nodup_iff.mp hnd
  have hstays : lookup (remove s.kernel.sched.tasks pid) pid' = some t' := by
    rw [lookup_remove, if_neg hne, ht']
  exact (List.nodup_append'.mp hsplit).2.2 hf (mem_taskFrames hstays hf')

/-- and different from those of others. -/
theorem frames_not_loose (h : Sound (2 ^ 47) s.kernel.mem.pmm s.held)
    (ht : lookup s.kernel.sched.tasks pid = some t) {f : Nat} (hf : f ∈ t.frames) :
    f ∉ s.loose := by
  have hnd := (List.nodup_append'.mp h.separated.nodup).1
  exact (List.nodup_append'.mp hnd).2.2 (mem_taskFrames ht hf)

/-- Frames that share a byte are the same. -/
theorem same_frame (h : Sound (2 ^ 47) s.kernel.mem.pmm s.held) {f g x : Nat} (hf : f ∈ s.held)
    (hg : g ∈ s.held) (hflo : f ≤ x) (hfhi : x < f + pageSize) (hglo : g ≤ x)
    (hghi : x < g + pageSize) : f = g := by
  by_contra hne
  rcases Sound.other_frame h hf (List.mem_append_left _ hg) hne hglo hghi with hlt | hge
  · omega
  · omega

/-- The base of a frame in use is its address. -/
theorem Guarded.base (h : Guarded root s) {f : Nat} (hf : f ∈ s.held) : f &&& addrMask = f :=
  held_base h.sound hf

/-- An isolated task has its tables, with a layout. -/
theorem Guarded.housed (h : Guarded root s) (ht : lookup s.kernel.sched.tasks pid = some t)
    (hiso : t.isolatedTableFrames.isSome) : ∃ dir lay, Housed s.kernel.mem t dir lay :=
  (h.settled pid t ht).program hiso

/-- The PML4 in CR3 is in use, and closed to ring 3. -/
theorem Guarded.live (h : Guarded root s) :
    s.kernel.cpu.cr3 &&& addrMask ∈ s.held ∧
      UpperHalfClear s.kernel.mem (s.kernel.cpu.cr3 &&& addrMask) := by
  have hkernel : s.kernel.cpu.cr3 = root → s.kernel.cpu.cr3 &&& addrMask ∈ s.held ∧
      UpperHalfClear s.kernel.mem (s.kernel.cpu.cr3 &&& addrMask) := by
    intro heq
    rw [heq]
    exact ⟨h.root_held, h.closed⟩
  rcases h.loaded with ⟨-, heq⟩ | ⟨t, ht, heq⟩
  · exact hkernel heq
  · cases hiso : t.isolatedTableFrames with
    | none => exact hkernel (heq.trans ((h.settled _ t ht).kernel hiso))
    | some frames =>
        obtain ⟨dir, lay, hh⟩ := h.housed ht (by rw [hiso]; rfl)
        have hmem := programFrames_held ht (hh.tables _ _ _ hh.directory.top)
        rw [heq, h.base hmem]
        exact ⟨hmem, hh.closed⟩

/-- **Ring 3 writes to pages of the current program.** -/
theorem Guarded.ring3 (h : Guarded root s) {x : Nat} (hx : s.Ring3 x) :
    ∃ t v tr, lookup s.kernel.sched.tasks s.kernel.sched.current = some t ∧
      walk s.kernel.mem 3 t.cr3 v = some tr ∧ tr.user = true ∧ tr.frame ∈ t.programFrames ∧
      tr.frame ≤ x ∧ x < tr.frame + pageSize := by
  obtain ⟨t, ht, hiso, v, tr, hwalk, huser, -, rfl⟩ := hx
  obtain ⟨dir, lay, hh⟩ := h.housed ht hiso
  have hcr3 : s.kernel.cpu.cr3 = t.cr3 := by
    rcases h.loaded with ⟨hnone, -⟩ | ⟨t', ht', heq⟩
    · rw [ht] at hnone
      cases hnone
    · rw [heq, Option.some.inj (ht.symm.trans ht')]
  rw [hcr3, h.base (programFrames_held ht (hh.tables _ _ _ hh.directory.top))] at hwalk
  obtain ⟨hsize, hframe, -⟩ := hh.pages _ _ (hh.reached hwalk huser).2
  have hlt : v % tr.size < pageSize := by
    rw [hsize]
    exact Nat.mod_lt _ (by decide)
  exact ⟨t, v, tr, ht, hwalk, huser, hframe, Nat.le_add_right _ _, by omega⟩

/-- Nobody writes to a closed frame. -/
theorem Onward.words (h : Guarded root s) (hok : s.Confined root act)
    (hon : Onward root s act s') {g i : Nat} (hclosed : s.Closed root g) (hg : g ∈ s.held)
    (hg' : g ∈ s'.held) (hi : i < 512) :
    s'.kernel.mem.readWord (g + 8 * i) = s.kernel.mem.readWord (g + 8 * i) := by
  refine readLE_congr (fun x hlo hhi => ?_)
  have hglo : g ≤ x := by omega
  have hghi : x < g + pageSize := by
    simp only [pageSize]
    omega
  rcases hon.kept g hg hg' x hglo hghi with hsame | ⟨cpu, ram, rfl, hram⟩
  · exact hsame
  · exfalso
    rcases hok.2 x hram with hring | ⟨hroot, hprograms⟩
    · -- a page of the current program is not closed
      obtain ⟨t, v, tr, ht, hwalk, huser, hframe, hxlo, hxhi⟩ := h.ring3 hring
      have heq := same_frame h.sound (programFrames_held ht hframe) hg hxlo hxhi hglo hghi
      rcases hclosed with rfl | ⟨pid, u, hu, hgu, hnot⟩
      · exact frames_not_loose h.sound ht (List.mem_append_left _ hframe) (heq ▸ h.root_mem)
      · by_cases hsame : s.kernel.sched.current = pid
        · obtain rfl := Option.some.inj (ht.symm.trans (hsame ▸ hu))
          exact hnot v tr hwalk huser heq
        · exact frames_apart h.sound hsame hu ht (List.mem_append_left _ hgu)
            (List.mem_append_left _ (heq ▸ hframe))
    · rcases hclosed with rfl | ⟨pid, u, hu, hgu, -⟩
      · omega
      · have hout := hprograms pid u hu g hgu
        omega

/-- A program stays housed. -/
theorem Onward.housed (h : Guarded root s) (hok : s.Confined root act)
    (hon : Onward root s act s') (ht : lookup s.kernel.sched.tasks pid = some t)
    (ht' : lookup s'.kernel.sched.tasks pid = some t') (hhome : t'.home = t.home)
    {dir : Nat → Nat → Option Nat} {lay : Layout} (hh : Housed s.kernel.mem t dir lay) :
    Housed s'.kernel.mem t' dir lay := by
  refine (hh.congr (fun n key table i htable hi => ?_)).moved hhome
  have hmem := hh.tables n key table htable
  refine Onward.words h hok hon (Or.inr ⟨pid, t, ht, hmem, ?_⟩) (programFrames_held ht hmem) ?_ hi
  · exact fun v tr hwalk huser => hh.table_not_reached htable hwalk huser
  · rw [← programFrames_congr hhome] at hmem
    exact programFrames_held ht' hmem

/-- **The invariant is kept.** -/
theorem Onward.guarded (h : Guarded root s) (hok : s.Confined root act)
    (hon : Onward root s act s') (hsolvent : Solvent noRegions s') : Guarded root s' := by
  refine ⟨hsolvent, hon.root_mem, ?_, ?_, hon.loaded⟩
  · intro i hlo hhi
    rw [Onward.words h hok hon (Or.inl rfl) h.root_held
      (List.mem_append_right _ hon.root_mem) hhi]
    exact h.closed i hlo hhi
  · intro pid t' ht'
    rcases hon.tasks pid t' ht' with ⟨t, ht, hhome⟩ | ⟨-, hsettled⟩
    · have hold := h.settled pid t ht
      obtain ⟨hcr3, hrest⟩ := Prod.mk.inj hhome
      obtain ⟨hframes, -⟩ := Prod.mk.inj hrest
      refine ⟨fun hnone => ?_, fun hsome => ?_⟩
      · rw [hcr3]
        exact hold.kernel (hframes ▸ hnone)
      · obtain ⟨dir, lay, hh⟩ := hold.program (hframes ▸ hsome)
        exact ⟨dir, lay, Onward.housed h hok hon ht ht' hhome hh⟩
    · exact hsettled

end

/-- The blocks keep their homes, and the CPU its task. -/
structure SameHomes (sched sched' : Scheduler CpuCtx) : Prop where
  current_eq : sched'.current = sched.current
  view : ∀ x, (lookup sched'.tasks x).map Tcb.home = (lookup sched.tasks x).map Tcb.home

section

variable {sched : Scheduler CpuCtx}

/-- Homes that do not change. -/
theorem sameHomes_refl : SameHomes sched sched := ⟨rfl, fun _ => rfl⟩

/-- A change of the running task that leaves its home alone. -/
theorem sameHomes_current {f : Tcb CpuCtx → Tcb CpuCtx} (hf : ∀ t, (f t).home = t.home) :
    SameHomes sched (adjustCurrent sched f) := by
  refine ⟨rfl, fun x => ?_⟩
  rw [lookup_adjustCurrent]
  by_cases hx : x = sched.current
  · rw [if_pos hx, Option.map_map]
    congr 1
    funext t
    exact hf t
  · rw [if_neg hx]

/-- A descriptor that is allocated leaves the homes alone. -/
theorem sameHomes_allocFd {of : OpenFile} {out : Int × Scheduler CpuCtx}
    (h : Scheduler.allocFd sched of = some out) : SameHomes sched out.2 := by
  unfold Scheduler.allocFd at h
  split at h
  · obtain rfl := Option.some.inj h
    exact sameHomes_refl
  · split at h
    · obtain rfl := Option.some.inj h
      exact sameHomes_current (fun _ => rfl)
    · split at h
      · cases h
      · obtain rfl := Option.some.inj h
        exact sameHomes_current (fun _ => rfl)

/-- So does moving an offset. -/
theorem sameHomes_setFdOffset (fd : Int) (offset : Nat) :
    SameHomes sched (Scheduler.setFdOffset sched fd offset) := by
  unfold Scheduler.setFdOffset
  split
  · exact sameHomes_refl
  · exact sameHomes_current (fun _ => rfl)

/-- So does closing one. -/
theorem sameHomes_closeFd (fd : Int) : SameHomes sched (Scheduler.closeFd sched fd).2 := by
  unfold Scheduler.closeFd
  split
  · exact sameHomes_refl
  · exact sameHomes_current (fun _ => rfl)

/-- The running task has had a pid handed out. -/
theorem Consistent.current_lt {κ : Type} {sched : Scheduler κ} (h : Consistent sched) :
    sched.current < sched.nextPid := by
  by_cases hzero : sched.current = 0
  · rw [hzero]
    exact h.positive
  · obtain ⟨t, ht, -⟩ := h.running hzero
    exact h.fresh _ t ht

/-- A task of the new list was in the old one, at the same home. -/
private theorem old_of_view {ts ts' : Tasks CpuCtx}
    (hview : ∀ x, (lookup ts' x).map Tcb.home = (lookup ts x).map Tcb.home) {pid : Nat}
    {t' : Tcb CpuCtx} (ht' : lookup ts' pid = some t') :
    ∃ t, lookup ts pid = some t ∧ t'.home = t.home := by
  have hmap := hview pid
  rw [ht', Option.map_some] at hmap
  obtain ⟨t, ht, hsame⟩ := Option.map_eq_some_iff.mp hmap.symm
  exact ⟨t, ht, hsame.symm⟩

end

section

variable {root pid : Nat} {s s' : Machine} {act : Act} {k : Kernel}

/-- A step of the scheduler. -/
theorem Guarded.onward_sched (h : Guarded root s) {sched : Scheduler CpuCtx} {cpu : Cpu CpuCtx}
    (hview : ∀ x, (lookup sched.tasks x).map Tcb.home =
      (lookup s.kernel.sched.tasks x).map Tcb.home)
    (hloaded : (currentTcb sched = none ∧ cpu.cr3 = root) ∨
      ∃ t, currentTcb sched = some t ∧ cpu.cr3 = t.cr3) :
    Onward root s act { s with kernel := { s.kernel with sched := sched, cpu := cpu } } :=
  ⟨h.root_mem, fun _ _ _ _ _ _ => Or.inl rfl, fun _ _ ht' => Or.inl (old_of_view hview ht'),
    hloaded⟩

/-- A switch to another task stores no word of memory. -/
theorem Guarded.onward_reschedule (h : Guarded root s) :
    Onward root s act (s.resume (Scheduler.reschedule s.kernel.sched s.kernel.cpu)) := by
  have hs := h.solvent.consistent
  refine h.onward_sched (reschedule_view (fun _ _ _ => rfl) hs _) ?_
  rcases hs.placed.reschedule s.kernel.cpu hs.zero hs.canLeave with
    ⟨heq, -⟩ | ⟨next, sched, t, heq, -, ht, -, hcur, -, -, hlook⟩
  · rw [heq]
    exact h.loaded
  · rw [heq]
    refine Or.inr ⟨{ t with state := .running }, ?_, rfl⟩
    rw [currentTcb, hcur, hlook, if_pos rfl]

/-- `exit_current` makes the task a zombie and leaves its frames to it. -/
theorem Guarded.onward_exit (h : Guarded root s) {sched : Scheduler CpuCtx} {cpu : Cpu CpuCtx}
    (hexit : exitCurrent s.kernel.sched = .ok (sched, cpu)) :
    Onward root s act { s with kernel := { s.kernel with sched := sched, cpu := cpu } } := by
  have hs := h.solvent.consistent
  refine h.onward_sched (exitCurrent_view (fun _ _ _ => rfl) hs hexit).2 ?_
  rcases hs.placed.exitCurrent hs.zero with
    ⟨heq, -⟩ | ⟨next, sched', t, heq, -, ht, -, hcur, -, -, hlook⟩
  · rw [heq] at hexit
    cases hexit
  · obtain ⟨rfl, rfl⟩ := Prod.mk.inj (Outcome.ok.inj (heq.symm.trans hexit))
    refine Or.inr ⟨{ t with state := .running }, ?_, rfl⟩
    rw [currentTcb, hcur, hlook, if_pos rfl]

/-- A change of the resources of the current task. -/
theorem Guarded.onward_homes (h : Guarded root s) {sched : Scheduler CpuCtx}
    (hsame : SameHomes s.kernel.sched sched) : Onward root s act (s.withSched sched) := by
  refine h.onward_sched hsame.view ?_
  have hcur : (currentTcb sched).map Tcb.home = (currentTcb s.kernel.sched).map Tcb.home := by
    rw [currentTcb, hsame.current_eq]
    exact hsame.view _
  rcases h.loaded with ⟨hnone, hcr3⟩ | ⟨t, ht, hcr3⟩
  · rw [hnone, Option.map_none, Option.map_eq_none_iff] at hcur
    exact Or.inl ⟨hcur, hcr3⟩
  · rw [ht, Option.map_some] at hcur
    obtain ⟨t', ht', hhome⟩ := Option.map_eq_some_iff.mp hcur
    exact Or.inr ⟨t', ht', hcr3.trans (Prod.mk.inj hhome).1.symm⟩

/-- A call of the allocator. -/
theorem Guarded.onward_mem (h : Guarded root s) {m : Memory} {loose : List Nat}
    (hroot : root &&& addrMask ∈ loose)
    (hkept : ∀ g ∈ s.held, g ∈ taskFrames s.kernel.sched.tasks ++ loose → ∀ x, g ≤ x →
      x < g + pageSize → m.ram x = s.kernel.mem.ram x) :
    Onward root s act { kernel := { s.kernel with mem := m }, loose := loose } :=
  ⟨hroot, fun g hg hg' x hlo hhi => Or.inl (hkept g hg hg' x hlo hhi),
    fun _ t' ht' => Or.inl ⟨t', ht', rfl⟩, h.loaded⟩

/-- One more task. -/
theorem Guarded.onward_new (h : Guarded root s) {t : Tcb CpuCtx}
    (hpid : pid = s.kernel.sched.nextPid)
    (hkept : ∀ g ∈ s.held, ∀ x, g ≤ x → x < g + pageSize → k.mem.ram x = s.kernel.mem.ram x)
    (hcpu : k.cpu = s.kernel.cpu) (hcurrent : k.sched.current = s.kernel.sched.current)
    (hlook : ∀ x, lookup k.sched.tasks x =
      if x = pid then some t else lookup s.kernel.sched.tasks x)
    (ht : Settled root k.mem t) : Onward root s act { s with kernel := k } := by
  refine ⟨h.root_mem, fun g hg _ x hlo hhi => Or.inl (hkept g hg x hlo hhi), ?_, ?_⟩
  · intro x t' ht'
    change lookup k.sched.tasks x = some t' at ht'
    rw [hlook] at ht'
    by_cases hx : x = pid
    · rw [if_pos hx] at ht'
      obtain rfl := Option.some.inj ht'
      exact Or.inr ⟨by omega, ht⟩
    · rw [if_neg hx] at ht'
      exact Or.inl ⟨t', ht', rfl⟩
  · have hlt := h.solvent.consistent.current_lt
    have hsame : currentTcb k.sched = currentTcb s.kernel.sched := by
      rw [currentTcb, hcurrent, hlook, if_neg (by omega)]
      rfl
    change (currentTcb k.sched = none ∧ k.cpu.cr3 = root) ∨
      ∃ t, currentTcb k.sched = some t ∧ k.cpu.cr3 = t.cr3
    rw [hsame, hcpu]
    exact h.loaded

/-- `spawn` draws a stack for a kernel task. -/
theorem Guarded.onward_spawn (h : Guarded root s) (hcr3 : s.kernel.cpu.cr3 = root) {entry : Nat}
    (hrun : (Scheduler.spawn entry : Command Kernel Empty Nat) s.kernel.fresh = (.ok pid, k)) :
    Onward root s act { s with kernel := k } := by
  obtain ⟨hpid, -, stackPhys, ctx, -, hsched⟩ := spawn_ok hrun
  have hcpu := spawn_cpu (ε := Empty) entry s.kernel.fresh
  rw [hrun] at hcpu
  refine h.onward_new (hpid.trans (nextPid_eq h.solvent.consistent).1) ?_ hcpu ?_
    (t := newTcb pid stackPhys s.kernel.cpu.cr3 ctx) ?_ ⟨fun _ => hcr3, fun hsome => ?_⟩
  · intro g hg x hlo hhi
    have hkept := spawn_kept (ε := Empty) (by decide) entry (k := s.kernel.fresh) h.sound hg hlo hhi
    rw [hrun] at hkept
    exact hkept
  · rw [hsched]
    rfl
  · intro x
    rw [hsched]
    exact lookup_insert _ _ _ _
  · cases hsome

/-- `spawn_program` draws the frames of a program and houses it. -/
theorem Guarded.onward_spawnProgram (h : Guarded root s) {trampoline room caps : Nat} {elf : Slice}
    (hlow : LowPages elf)
    (hrun : spawnProgram trampoline room elf caps s.kernel.fresh = (.ok pid, k)) :
    Onward root s act { s with kernel := k } := by
  obtain ⟨hlive, hclosed⟩ := h.live
  obtain ⟨hkept, hcurrent, t, dir, lay, ht, hiso, hh⟩ :=
    spawnProgram_housed (k := s.kernel.fresh) h.sound rfl hlive hclosed hlow hrun
  have hcpu := spawnProgram_cpu hrun
  obtain ⟨u, hadded⟩ := spawnProgram_added (a := uncounted) (k := s.kernel.fresh) (by decide)
    (by decide) h.solvent.consistent ⟨h.sound, False.elim⟩ rfl hrun
  have hu := hadded.lookup_eq pid
  rw [if_pos rfl, ht] at hu
  obtain rfl := Option.some.inj hu
  refine h.onward_new hadded.pid_eq hkept hcpu hcurrent hadded.lookup_eq
    ⟨fun hnone => ?_, fun _ => ⟨dir, lay, hh⟩⟩
  rw [hnone] at hiso
  cases hiso

/-- A `spawn_program` that fails leaves frames that nobody has. -/
theorem Guarded.onward_failed (h : Guarded root s) {trampoline room caps : Nat} {elf : Slice}
    {e : String}
    (hrun : spawnProgram trampoline room elf caps s.kernel.fresh = (.err e, k)) :
    Onward root s act { kernel := k, loose := k.mem.trace.taken ++ s.loose } := by
  have hkept := spawnProgram_err_kept (k := s.kernel.fresh) h.sound rfl hrun
  have hstart : Sound (2 ^ 47) s.kernel.fresh.mem.pmm (s.kernel.fresh.mem.trace.taken ++ s.held) :=
    h.sound
  have hsched := (spawnProgram_err_cases (by decide) hstart hrun).1
  have hcpu := spawnProgram_cpu hrun
  obtain ⟨m, sched, cpu⟩ := k
  obtain rfl : sched = s.kernel.sched := hsched
  obtain rfl : cpu = s.kernel.cpu := hcpu
  exact h.onward_mem (List.mem_append_right _ h.root_mem) (fun g hg _ => hkept g hg)

/-- `reap` gives back the frames of a zombie. -/
theorem Guarded.onward_reap (h : Guarded root s)
    (hrun : (Scheduler.reap pid : Command Kernel Empty Unit) s.kernel = (.ok (), k)) :
    Onward root s act { s with kernel := k } := by
  obtain ⟨t, ht, hst, -⟩ := reap_ok hrun
  have hsplit : s.held.Perm
      (t.frames ++ (taskFrames (remove s.kernel.sched.tasks pid) ++ s.loose)) := by
    unfold Machine.held
    rw [← List.append_assoc]
    exact (removed_frames _ ht).append_right _
  have hbefore := h.sound.perm hsplit
  obtain ⟨m, hfree, -, -⟩ := freeAll_ledger (ε := Empty) (a := uncounted) (by decide) t.frames
    s.kernel.mem ⟨hbefore, False.elim⟩
  obtain ⟨-, rfl⟩ := Prod.mk.inj (hrun.symm.trans (reap_run ht hst hfree))
  refine ⟨h.root_mem, ?_, ?_, ?_⟩
  · -- the frames that stay are apart from those freed
    intro g _ hg x hlo hhi
    refine Or.inl (freeAll_outside hfree (fun f hf => ?_))
    have hne : f ≠ g := by
      rintro rfl
      have hnd := (List.nodup_append'.mp hbefore.separated.nodup).1
      exact (List.nodup_append'.mp hnd).2.2 hf hg
    exact Sound.other_frame hbefore (List.mem_append_left _ hf)
      (List.mem_append_left _ (List.mem_append_right _ hg)) hne hlo hhi
  · intro x t' ht'
    change lookup (remove s.kernel.sched.tasks pid) x = _ at ht'
    rw [lookup_remove] at ht'
    by_cases hx : x = pid
    · rw [if_pos hx] at ht'
      cases ht'
    · rw [if_neg hx] at ht'
      exact Or.inl ⟨t', ht', rfl⟩
  · have hne : s.kernel.sched.current ≠ pid := by
      rintro rfl
      obtain ⟨t', ht', hrunning⟩ := h.solvent.consistent.running (fun hzero => by
        rw [hzero, h.solvent.consistent.zero] at ht
        cases ht)
      obtain rfl := Option.some.inj (ht'.symm.trans ht)
      rw [hst] at hrunning
      cases hrunning
    have hsame : lookup (remove s.kernel.sched.tasks pid) s.kernel.sched.current =
        currentTcb s.kernel.sched := by
      rw [lookup_remove, if_neg hne]
      rfl
    change (lookup (remove s.kernel.sched.tasks pid) s.kernel.sched.current = none ∧ _) ∨
      ∃ t, lookup (remove s.kernel.sched.tasks pid) s.kernel.sched.current = some t ∧ _
    rw [hsame]
    exact h.loaded

/-- The kernel gives back a frame that it holds for itself. -/
theorem Guarded.onward_freeFrame (h : Guarded root s) {addr : Nat} {m : Memory}
    (hne : addr ≠ root &&& addrMask) (hmem : addr ∈ s.loose)
    (hfree : s.kernel.mem.freeFrame addr = some m) :
    Onward root s act { kernel := { s.kernel with mem := m }, loose := s.loose.erase addr } := by
  refine h.onward_mem ((List.mem_erase_of_ne (Ne.symm hne)).mpr h.root_mem) ?_
  intro g hg hg' x hlo hhi
  have hother : addr ≠ g := by
    rintro rfl
    have hnd := (List.nodup_append'.mp h.sound.separated.nodup).1
    have hloose := (List.nodup_append'.mp hnd).2.1
    rcases List.mem_append.mp hg' with htask | hstill
    · exact (List.nodup_append'.mp hnd).2.2 htask hmem
    · exact hloose.not_mem_erase hstill
  obtain ⟨p, -, rfl⟩ := Option.map_eq_some_iff.mp hfree
  exact fill_outside s.kernel.mem.ram 0
    (Sound.other_frame h.sound (List.mem_append_right _ hmem) (List.mem_append_left _ hg) hother hlo
      hhi)

/-- **One step.** -/
theorem next_onward (h : Guarded root s) (hok : s.Confined root act)
    (hnext : s.next act = some s') : Onward root s act s' := by
  cases act with
  | spawn entry =>
      simp only [Machine.next] at hnext
      split at hnext
      next pid k hrun =>
        obtain rfl := Option.some.inj hnext
        exact h.onward_spawn hok hrun
      next => cases hnext
  | spawnProgram trampoline room elf caps =>
      simp only [Machine.next] at hnext
      split at hnext
      next pid k hrun =>
        obtain rfl := Option.some.inj hnext
        exact h.onward_spawnProgram hok hrun
      next e k hrun =>
        obtain rfl := Option.some.inj hnext
        exact h.onward_failed hrun
      next => cases hnext
  | run =>
      obtain rfl := Option.some.inj hnext
      exact h.onward_reschedule
  | yieldNow =>
      obtain rfl := Option.some.inj hnext
      exact h.onward_reschedule
  | tryPreempt =>
      obtain rfl := Option.some.inj hnext
      exact h.onward_reschedule
  | exitCurrent =>
      simp only [Machine.next] at hnext
      split at hnext
      next sched cpu hexit =>
        obtain rfl := Option.some.inj hnext
        exact h.onward_exit hexit
      next => cases hnext
  | reap pid =>
      simp only [Machine.next] at hnext
      split at hnext
      next k hrun =>
        obtain rfl := Option.some.inj hnext
        exact h.onward_reap hrun
      next => cases hnext
  | setIdentity uid gid =>
      obtain rfl := Option.some.inj hnext
      exact h.onward_homes (sameHomes_current (fun _ => rfl))
  | setCwd path =>
      obtain rfl := Option.some.inj hnext
      exact h.onward_homes (sameHomes_current (fun _ => rfl))
  | allocFd of =>
      obtain ⟨out, hout, rfl⟩ := Option.map_eq_some_iff.mp hnext
      exact h.onward_homes (sameHomes_allocFd hout)
  | setFdOffset fd offset =>
      obtain rfl := Option.some.inj hnext
      exact h.onward_homes (sameHomes_setFdOffset fd offset)
  | closeFd fd =>
      obtain rfl := Option.some.inj hnext
      exact h.onward_homes (sameHomes_closeFd fd)
  | allocFrame =>
      obtain rfl := Option.some.inj hnext
      refine h.onward_mem (List.mem_append_right _ h.root_mem) (fun g _ _ x _ _ => ?_)
      cases ha : s.kernel.mem.allocFrame with
      | mk o m =>
          cases o with
          | none =>
              obtain ⟨p, -, rfl⟩ := allocFrame_none ha
              rfl
          | some f =>
              obtain ⟨p, -, rfl⟩ := allocFrame_some ha
              rfl
  | allocContiguousFrames n =>
      simp only [Machine.next] at hnext
      split at hnext
      next =>
        obtain rfl := Option.some.inj hnext
        refine h.onward_mem (List.mem_append_right _ h.root_mem) (fun g _ _ x _ _ => ?_)
        cases ha : s.kernel.mem.allocContiguousFrames n with
        | mk o m =>
            cases o with
            | none =>
                obtain ⟨p, -, rfl⟩ := allocContiguousFrames_none ha
                rfl
            | some f =>
                obtain ⟨p, -, rfl⟩ := allocContiguousFrames_some ha
                rfl
      next => cases hnext
  | freeFrame addr =>
      simp only [Machine.next] at hnext
      split at hnext
      next hmem =>
        obtain ⟨m, hm, rfl⟩ := Option.map_eq_some_iff.mp hnext
        exact h.onward_freeFrame hok hmem hm
      next => cases hnext
  | work cpu ram =>
      obtain rfl := Option.some.inj hnext
      refine ⟨h.root_mem, fun g _ _ x _ _ => ?_, fun _ t' ht' => Or.inl ⟨t', ht', rfl⟩, ?_⟩
      · by_cases hx : ram x = s.kernel.mem.ram x
        · exact Or.inl hx
        · exact Or.inr ⟨cpu, ram, rfl, hx⟩
      · change (currentTcb s.kernel.sched = none ∧ cpu.cr3 = root) ∨
          ∃ t, currentTcb s.kernel.sched = some t ∧ cpu.cr3 = t.cr3
        rw [hok.1]
        exact h.loaded

/-- **One act** keeps the invariant. -/
theorem next_guarded (h : Guarded root s) (hok : s.Confined root act)
    (hnext : s.next act = some s') : Guarded root s' :=
  Onward.guarded h hok (next_onward h hok hnext)
    (next_stepped (by decide) h.solvent hnext).solvent

end

section

variable {root pid : Nat} {s s' : Machine} {act : Act} {t t' : Tcb CpuCtx}

/-- The machine at the start. -/
theorem Prepared.guarded (h : Prepared root s) : Guarded root s := by
  have hheld : s.held = s.loose := by
    rw [Machine.held, h.sched_eq]
    rfl
  have hnone : ∀ pid, lookup s.kernel.sched.tasks pid = none := by
    intro pid
    rw [h.sched_eq]
    rfl
  refine ⟨⟨⟨?_, ?_⟩, ?_⟩, h.root_mem, h.closed, ?_, Or.inl ⟨hnone _, h.cr3_eq⟩⟩
  · rw [hheld]
    exact h.sound
  · rintro ⟨r, hr, -⟩
    cases hr
  · rw [h.sched_eq]
    exact initial_consistent
  · intro pid t ht
    rw [hnone] at ht
    cases ht

/-- **Any run** keeps it. -/
theorem run_guarded (h : (memorySystem root).Run (Machine.Confined root) s) : Guarded root s :=
  h.invariant (fun _ hboot => Prepared.guarded hboot)
    (fun _ _ _ hs hok hnext => next_guarded hs hok hnext)

/-- Ring 3 reaches the frame in a program. -/
def Machine.Reaches (s : Machine) (pid v f : Nat) : Prop :=
  ∃ t tr, lookup s.kernel.sched.tasks pid = some t ∧ t.isolatedTableFrames.isSome ∧
    walk s.kernel.mem 3 t.cr3 v = some tr ∧ tr.user = true ∧ tr.frame = f

/-- **Programs are isolated.**  A frame that ring 3 reaches in a program is reached in no other
one; it is no page table of any program nor the kernel's PML4, no frame of a kernel stack, and
no frame that the kernel has for itself. -/
structure Isolated (root : Nat) (s : Machine) : Prop where
  low : ∀ pid v f, s.Reaches pid v f → v.testBit 47 = false
  alone : ∀ pid v f pid' v', s.Reaches pid v f → s.Reaches pid' v' f → pid' = pid
  not_table : ∀ pid v f, s.Reaches pid v f → ¬s.Table root f
  not_stack : ∀ pid v f, s.Reaches pid v f → ∀ pid' t',
    lookup s.kernel.sched.tasks pid' = some t' → f ∉ t'.stackFrames
  not_loose : ∀ pid v f, s.Reaches pid v f → f ∉ s.loose

/-- What ring 3 reaches is a frame of the running task's program, at an address in the
lower half. -/
theorem Guarded.reaches (h : Guarded root s) {v f : Nat} (hf : s.Reaches pid v f) :
    v.testBit 47 = false ∧ ∃ t, lookup s.kernel.sched.tasks pid = some t ∧ f ∈ t.programFrames := by
  obtain ⟨t, tr, ht, hiso, hwalk, huser, rfl⟩ := hf
  obtain ⟨dir, lay, hh⟩ := h.housed ht hiso
  obtain ⟨hlow, hlay⟩ := hh.reached hwalk huser
  exact ⟨hlow, t, ht, (hh.pages _ _ hlay).2.1⟩

/-- **The invariant isolates.** Frames of different tasks are different, and so are the
frames of one task's program, its tables and its stack. -/
theorem Guarded.isolated (h : Guarded root s) : Isolated root s := by
  have hown : ∀ {pid v f pid' t'}, s.Reaches pid v f →
      lookup s.kernel.sched.tasks pid' = some t' → f ∈ t'.frames → pid' = pid := by
    intro pid v f pid' t' hf ht' hf'
    obtain ⟨-, t, ht, hmem⟩ := h.reaches hf
    by_contra hne
    exact frames_apart h.sound hne ht ht' (List.mem_append_left _ hmem) hf'
  refine ⟨fun pid v f hf => (h.reaches hf).1, ?_, ?_, ?_, ?_⟩
  · intro pid v f pid' v' hf hf'
    obtain ⟨-, t', ht', hmem'⟩ := h.reaches hf'
    exact hown hf ht' (List.mem_append_left _ hmem')
  · rintro pid v f hf (rfl | ⟨pid', t', v', ht', hiso', hlow, hread⟩)
    · obtain ⟨-, t, ht, hmem⟩ := h.reaches hf
      exact frames_not_loose h.sound ht (List.mem_append_left _ hmem) h.root_mem
    · obtain ⟨dir, lay, hh⟩ := h.housed ht' hiso'
      obtain ⟨n, key, htable⟩ := hh.table_of_read hlow 3 t'.cr3 (by decide)
        (by rw [pageKey_top]; exact hh.directory.top) hread
      obtain rfl := hown hf ht' (List.mem_append_left _ (hh.tables n key f htable))
      obtain ⟨t, tr, ht, -, hwalk, huser, hframe⟩ := hf
      obtain rfl := Option.some.inj (ht.symm.trans ht')
      exact hh.table_not_reached htable hwalk huser hframe
  · intro pid v f hf pid' t' ht' hstack
    obtain rfl := hown hf ht' (stackFrames_sub t' hstack)
    obtain ⟨-, t, ht, hmem⟩ := h.reaches hf
    obtain rfl := Option.some.inj (ht.symm.trans ht')
    exact stack_apart h.sound ht hmem hstack
  · intro pid v f hf
    obtain ⟨-, t, ht, hmem⟩ := h.reaches hf
    exact frames_not_loose h.sound ht (List.mem_append_left _ hmem)

/-- **Isolation of programs**, in every state of every run. -/
theorem programs_isolated (h : (memorySystem root).Run (Machine.Confined root) s) :
    Isolated root s :=
  (run_guarded h).isolated

/-- The bytes of a program that does not store stay. -/
theorem Onward.bytes (h : Guarded root s) (hok : s.Confined root act)
    (hquiet : s.StoresNothing root pid act) (hon : Onward root s act s')
    (ht : lookup s.kernel.sched.tasks pid = some t)
    (ht' : lookup s'.kernel.sched.tasks pid = some t') (hhome : t'.home = t.home) :
    ∀ g ∈ t.programFrames, ∀ x, g ≤ x → x < g + pageSize →
      s'.kernel.mem.ram x = s.kernel.mem.ram x := by
  intro g hg x hlo hhi
  have hg' : g ∈ s'.held := programFrames_held ht' (programFrames_congr hhome ▸ hg)
  have hnotKernel : ¬s.KernelOwn root x := by
    rintro ⟨-, hprograms⟩
    have hout := hprograms pid t ht g hg
    omega
  rcases hon.kept g (programFrames_held ht hg) hg' x hlo hhi with hsame | ⟨cpu, ram, rfl, hram⟩
  · exact hsame
  · exfalso
    by_cases hcur : s.kernel.sched.current = pid
    · exact hnotKernel (hquiet hcur x hram)
    · rcases hok.2 x hram with hring | hkernel
      · obtain ⟨u, v, tr, hu, -, -, hframe, hxlo, hxhi⟩ := h.ring3 hring
        have heq := same_frame h.sound (programFrames_held hu hframe) (programFrames_held ht hg)
          hxlo hxhi hlo hhi
        exact frames_apart h.sound hcur ht hu (List.mem_append_left _ hg)
          (List.mem_append_left _ (heq ▸ hframe))
      · exact hnotKernel hkernel

/-- Two memories with the same layout and the same bytes in its pages. -/
theorem Housed.seen_congr {m m' : Memory} {dir : Nat → Nat → Option Nat} {lay : Layout}
    (h : Housed m t dir lay) (h' : Housed m' t dir lay)
    (hbytes : ∀ g ∈ t.programFrames, ∀ x, g ≤ x → x < g + pageSize → m'.ram x = m.ram x)
    (v : Nat) : seen m' t.cr3 v = seen m t.cr3 v := by
  rw [h.seen_eq, h'.seen_eq]
  cases hlay : lay (tag v) with
  | none => rfl
  | some tr =>
      obtain ⟨hsize, hframe, -⟩ := h.pages _ _ hlay
      have hlt : v % tr.size < pageSize := by
        rw [hsize]
        exact Nat.mod_lt _ (by decide)
      have hbyte := hbytes tr.frame hframe (tr.frame + v % tr.size) (Nat.le_add_right _ _)
        (by omega)
      simp only [Option.bind_some, hbyte]

/-- What is so of a program from `s` on, while it does not store. -/
structure Undisturbed (root pid : Nat) (s : Machine) (t : Tcb CpuCtx)
    (dir : Nat → Nat → Option Nat) (lay : Layout) (s' : Machine) : Prop where
  guarded : Guarded root s'
  pid_lt : pid < s'.kernel.sched.nextPid
  same : ∀ t', lookup s'.kernel.sched.tasks pid = some t' → t'.home = t.home ∧
    Housed s'.kernel.mem t dir lay ∧ ∀ v, seen s'.kernel.mem t.cr3 v = seen s.kernel.mem t.cr3 v

/-- An act of somebody else leaves what the program sees as it is. -/
theorem Undisturbed.next {u : Machine} {dir : Nat → Nat → Option Nat} {lay : Layout}
    (h : Undisturbed root pid s t dir lay u) (hok : u.Confined root act)
    (hquiet : u.StoresNothing root pid act) (hnext : u.next act = some s') :
    Undisturbed root pid s t dir lay s' := by
  have hon := next_onward h.guarded hok hnext
  have hstep := next_stepped (by decide) h.guarded.solvent hnext
  refine ⟨next_guarded h.guarded hok hnext, h.pid_lt.trans_le hstep.nextPid_le, fun t' ht' => ?_⟩
  rcases hon.tasks pid t' ht' with ⟨t₀, ht₀, hhome⟩ | ⟨hle, -⟩
  · obtain ⟨hhome₀, hh, hseen⟩ := h.same t₀ ht₀
    have hh₀ := Onward.housed h.guarded hok hon ht₀ ht' hhome (hh.moved hhome₀)
    have hh' := hh₀.moved (hhome.trans hhome₀).symm
    have hbytes := Onward.bytes h.guarded hok hquiet hon ht₀ ht' hhome
    rw [programFrames_congr hhome₀] at hbytes
    exact ⟨hhome.trans hhome₀, hh', fun v => (hh.seen_congr hh' hbytes v).trans (hseen v)⟩
  · exact absurd h.pid_lt (Nat.not_lt.mpr hle)

/-- **The memory of a program is its own.**  Whatever is started, scheduled, ended, mapped and
written in the meantime, ring 3 sees the same pages with the same rights and the same bytes as
long as it does not store itself. -/
theorem memory_private (h : (memorySystem root).Run (Machine.Confined root) s)
    (ht : lookup s.kernel.sched.tasks pid = some t) (hiso : t.isolatedTableFrames.isSome)
    (hrun : (lifeFrom s).Run (fun u act => u.Confined root act ∧ u.StoresNothing root pid act) s')
    (ht' : lookup s'.kernel.sched.tasks pid = some t') :
    ∀ v, seen s'.kernel.mem t'.cr3 v = seen s.kernel.mem t.cr3 v := by
  have hguarded := run_guarded h
  obtain ⟨dir, lay, hh⟩ := hguarded.housed ht hiso
  have hafter : Undisturbed root pid s t dir lay s' := by
    refine hrun.invariant ?_ (fun _ _ _ hu hok hnext => hu.next hok.1 hok.2 hnext)
    rintro _ rfl
    refine ⟨hguarded, hguarded.solvent.consistent.fresh _ t ht, fun t₀ ht₀ => ?_⟩
    obtain rfl := Option.some.inj (ht₀.symm.trans ht)
    exact ⟨rfl, hh, fun _ => rfl⟩
  obtain ⟨hhome, -, hseen⟩ := hafter.same t' ht'
  intro v
  rw [(Prod.mk.inj hhome).1]
  exact hseen v

end

/-- The shell and the kernel's tables, before any program. -/
def preparedShell : Machine := ⟨shellKernel, [0x1000, 0x2000]⟩

/-- That is a machine as it is at the start. -/
private theorem preparedShell_prepared : Prepared 0x1000 preparedShell := by
  have hroot : (0x1000 : Nat) &&& addrMask = 0x1000 := by decide
  refine ⟨rfl, rfl, shell_sound, ?_, ?_⟩
  · rw [hroot]
    exact List.mem_cons_self
  · rw [hroot]
    exact shellKernel_upperHalfClear

/-- The same file twice. -/
def twoStarts : List Act :=
  [.spawnProgram 0x8000 100 goodElf 0, .spawnProgram 0x8000 100 goodElf 0, .run]

/-- Program 1 runs. -/
def twoPrograms : Machine :=
  ((memorySystem 0x1000).exec preparedShell twoStarts).getD preparedShell

/-- Two programs are spawned from there. -/
theorem twoPrograms_run :
    (memorySystem 0x1000).Run (Machine.Confined 0x1000) twoPrograms := by
  have hlow : LowPages goodElf := by
    unfold LowPages
    decide +kernel
  have hexec : (memorySystem 0x1000).exec preparedShell twoStarts = some twoPrograms :=
    eq_some_getD (by decide +kernel) preparedShell
  refine TransitionSystem.Run.exec (.boot preparedShell_prepared) (fun a ha s => ?_) hexec
  simp only [twoStarts, List.mem_cons, List.not_mem_nil, or_false] at ha
  rcases ha with rfl | rfl | rfl
  · exact hlow
  · exact hlow
  · trivial

/-- A page of a program, from what can be evaluated. -/
theorem reaches_of_eval {s : Machine} {pid v f : Nat}
    (h : ((lookup s.kernel.sched.tasks pid).bind (fun t =>
      if t.isolatedTableFrames.isSome then (walk s.kernel.mem 3 t.cr3 v).map
        (fun tr => (tr.user, tr.frame)) else none)) = some (true, f)) : s.Reaches pid v f := by
  obtain ⟨t, ht, hrest⟩ := Option.bind_eq_some_iff.mp h
  split at hrest
  next hiso =>
    obtain ⟨tr, hwalk, heq⟩ := Option.map_eq_some_iff.mp hrest
    obtain ⟨huser, hframe⟩ := Prod.mk.inj heq
    exact ⟨t, tr, ht, hiso, hwalk, huser, hframe⟩
  next => cases hrest

/-- Both of them reach a page of their own. -/
theorem sample_programs_isolated :
    twoPrograms.Reaches 1 0x400000 0x400000 ∧ twoPrograms.Reaches 2 0x400000 0x40A000 ∧
      Isolated 0x1000 twoPrograms :=
  ⟨reaches_of_eval (by decide +kernel), reaches_of_eval (by decide +kernel),
    programs_isolated twoPrograms_run⟩

/-- Program 1 has stored to its stack. -/
def storedRam : Mem := fun x => if x = 0x401123 then 0xAB else twoPrograms.kernel.mem.ram x

/-- The machine with another memory. -/
def Machine.withRam (s : Machine) (ram : Mem) : Machine :=
  { s with kernel := { s.kernel with mem := { s.kernel.mem with ram := ram } } }

/-- The scheduler does not see the memory. -/
private theorem withRam_sched (s : Machine) (ram : Mem) :
    (s.withRam ram).kernel.sched = s.kernel.sched := rfl

/-- Code that has written to memory. -/
private theorem next_work (s : Machine) (ram : Mem) :
    s.next (.work s.kernel.cpu ram) = some (s.withRam ram) := rfl

/-- A store by the first program that the second one does not see. -/
theorem sample_memory_private :
    (twoPrograms.withRam storedRam).kernel.mem.ram 0x401123 ≠
        twoPrograms.kernel.mem.ram 0x401123 ∧
      ∀ v, seen (twoPrograms.withRam storedRam).kernel.mem 0x40C000 v =
        seen twoPrograms.kernel.mem 0x40C000 v := by
  have hcur : twoPrograms.kernel.sched.current = 1 := by decide +kernel
  have hone : (currentTcb twoPrograms.kernel.sched).map (fun t => t.isolatedTableFrames.isSome) =
      some true := by decide +kernel
  have htwo : (lookup twoPrograms.kernel.sched.tasks 2).map
      (fun t => (t.isolatedTableFrames.isSome, t.cr3)) = some (true, 0x40C000) := by decide +kernel
  have hwalk : (walk twoPrograms.kernel.mem 3 (twoPrograms.kernel.cpu.cr3 &&& addrMask)
      0x401123).map (fun tr => (tr.user, tr.writable, tr.frame + 0x401123 % tr.size)) =
      some (true, true, 0x401123) := by decide +kernel
  obtain ⟨t, ht, heq⟩ := Option.map_eq_some_iff.mp htwo
  obtain ⟨hiso, hcr3⟩ := Prod.mk.inj heq
  have hring : twoPrograms.Ring3 0x401123 := by
    obtain ⟨u, hu, huiso⟩ := Option.map_eq_some_iff.mp hone
    obtain ⟨tr, htr, hrights⟩ := Option.map_eq_some_iff.mp hwalk
    obtain ⟨huser, hrest⟩ := Prod.mk.inj hrights
    obtain ⟨hwritable, haddr⟩ := Prod.mk.inj hrest
    exact ⟨u, hu, huiso, _, tr, htr, huser, hwritable, haddr.symm⟩
  have hchanged : ∀ x, storedRam x ≠ twoPrograms.kernel.mem.ram x → x = 0x401123 := by
    intro x hx
    by_contra hne
    exact hx (if_neg hne)
  have hok : twoPrograms.Confined 0x1000 (.work twoPrograms.kernel.cpu storedRam) :=
    ⟨rfl, fun x hx => Or.inl (hchanged x hx ▸ hring)⟩
  have hquiet : twoPrograms.StoresNothing 0x1000 2 (.work twoPrograms.kernel.cpu storedRam) := by
    intro hmine
    rw [hcur] at hmine
    cases hmine
  have hstart : (lifeFrom twoPrograms).boot twoPrograms := Eq.refl twoPrograms
  have hrun : (lifeFrom twoPrograms).Run
      (fun u act => u.Confined 0x1000 act ∧ u.StoresNothing 0x1000 2 act)
      (twoPrograms.withRam storedRam) := .step (.boot hstart) ⟨hok, hquiet⟩ (next_work _ _)
  have ht' : lookup (twoPrograms.withRam storedRam).kernel.sched.tasks 2 = some t := by
    rw [withRam_sched]
    exact ht
  refine ⟨?_, ?_⟩
  · change storedRam 0x401123 ≠ _
    decide +kernel
  · rw [← hcr3]
    exact memory_private twoPrograms_run ht hiso hrun ht'

end Scheduler
