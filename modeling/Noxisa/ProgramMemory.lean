import Noxisa.KernelHalf
import Noxisa.SpawnFailure

/-!
# The memory of a program

What a program has when `spawn_program` returns: tables that represent a layout of pages, and
the pages, in frames that the block of the task lists.  The tables are none of the pages, and
ring 3 has nothing in the kernel's half (`Housed`).

`spawn_program` runs the table builder after the loader, so the frames of the pages count as
handed out by the same call.  The builder does not look at that (`create_agree`), and may be
taken for a call of its own that finds these frames in use (`create_newTable`).
-/

namespace Scheduler

open ByteMemory ElfLoader FrameAllocator MachineWord PhysicalMemory RangePool UserPageTable

/-- The same frames and bytes. -/
def SameState (m m' : Memory) : Prop := m'.pmm = m.pmm ∧ m'.ram = m.ram

section

variable {ε : Type}

/-- Memories that are alike have the same words. -/
theorem SameState.readWord {m m' : Memory} (h : SameState m m') (a : Nat) :
    m'.readWord a = m.readWord a := by
  unfold Memory.readWord
  rw [h.2]

/-- They are alike after the same store. -/
theorem SameState.writeWord {m m' : Memory} (h : SameState m m') (a v : Nat) :
    SameState (m.writeWord a v) (m'.writeWord a v) := by
  refine ⟨h.1, ?_⟩
  change writeLE m'.ram a 8 v = writeLE m.ram a 8 v
  rw [h.2]

/-- And when the same frame is zeroed. -/
theorem SameState.zeroFrame {m m' : Memory} (h : SameState m m') (f : Nat) :
    SameState (m.zeroFrame f) (m'.zeroFrame f) := by
  refine ⟨h.1, ?_⟩
  change fill m'.ram f pageSize 0 = fill m.ram f pageSize 0
  rw [h.2]

/-- And when the same table is copied. -/
theorem SameState.copyUpper {m m' : Memory} (h : SameState m m') (kernel pml4 : Nat) :
    SameState (copyUpper kernel pml4 m) (copyUpper kernel pml4 m') := by
  unfold UserPageTable.copyUpper
  induction List.range 256 generalizing m m' with
  | nil => exact h
  | cons i is ih =>
      rw [List.foldl_cons, List.foldl_cons, h.readWord]
      exact ih (h.writeWord _ _)

/-- The allocator hands out the same frame in both. -/
theorem allocExpect_agree (message : String) :
    Command.Agree SameState (allocExpect message : Command Memory ε Nat) := by
  intro m m' h
  unfold allocExpect Memory.allocFrame
  rw [h.1]
  cases FrameAllocator.allocFrame m.pmm with
  | mk o p =>
      cases o with
      | none => exact ⟨rfl, rfl, h.2⟩
      | some f => exact ⟨rfl, rfl, h.2⟩

/-- So one level of a walk is the same in both. -/
theorem enterTable_agree (message : String) (table idx : Nat) (tf : List Nat) :
    Command.Agree SameState (enterTable message table idx tf : Command Memory ε _) := by
  unfold enterTable
  refine Command.Agree.gets (fun m m' h => h.readWord _) (fun entry => ?_)
  by_cases hp : entry &&& pagePresent = 0
  · rw [if_pos hp]
    refine (allocExpect_agree message).bind (fun frame => ?_)
    refine (Command.Agree.modify (fun m m' h => h.zeroFrame frame)).bind (fun _ => ?_)
    refine (Command.Agree.modify (fun m m' h => h.writeWord _ _)).bind (fun _ => ?_)
    exact Command.Agree.gets (fun m m' h => h.readWord _) (fun _ => Command.Agree.pure _)
  · rw [if_neg hp]
    refine (Command.Agree.modify (fun m m' h => h.writeWord _ _)).bind (fun _ => ?_)
    exact Command.Agree.gets (fun m m' h => h.readWord _) (fun _ => Command.Agree.pure _)

/-- So is the mapping of a page. -/
theorem mapUserPageSplit_agree (pml4 vaddr paddr : Nat) (w x : Bool) (tf : List Nat) :
    Command.Agree SameState (mapUserPageSplit pml4 vaddr paddr w x tf : Command Memory ε _) := by
  unfold mapUserPageSplit
  refine (enterTable_agree _ _ _ _).bind (fun out => ?_)
  refine (enterTable_agree _ _ _ _).bind (fun out => ?_)
  refine (enterTable_agree _ _ _ _).bind (fun out => ?_)
  exact (Command.Agree.modify (fun m m' h => h.writeWord _ _)).bind (fun _ => Command.Agree.pure _)

/-- So are those of all pages. -/
theorem mapPages_agree (pml4 : Nat) (pages : List Page) (tf : List Nat) :
    Command.Agree SameState (mapPages pml4 pages tf : Command Memory ε _) := by
  induction pages generalizing tf with
  | nil => exact Command.Agree.pure _
  | cons page pages ih => exact (mapUserPageSplit_agree _ _ _ _ _ _).bind (fun tf' => ih tf')

/-- **The table builder** does the same whatever the call has been handed before. -/
theorem create_agree (cr3 : Nat) (pages : List Page) (stackPhys : Nat) :
    Command.Agree SameState
      (createIsolatedUserTableFresh cr3 pages stackPhys : Command Memory ε _) := by
  unfold createIsolatedUserTableFresh
  refine (allocExpect_agree _).bind (fun pml4 => ?_)
  refine (Command.Agree.modify (fun m m' h => h.zeroFrame pml4)).bind (fun _ => ?_)
  refine (Command.Agree.modify (fun m m' h => h.copyUpper _ _)).bind (fun _ => ?_)
  refine (mapPages_agree _ _ _).bind (fun tf => ?_)
  exact (mapUserPageSplit_agree _ _ _ _ _ _).bind (fun _ => Command.Agree.pure _)

end

/-- What ring 3 finds at an address: the page with its rights, and the byte. -/
def seen (m : Memory) (pml4 v : Nat) : Option (Translation × UInt8) :=
  (walk m 3 pml4 v).bind (fun tr =>
    if tr.user then some (tr, m.ram (tr.frame + v % tr.size)) else none)

/-- The tables that a walk reads, from the one of level `n` down to where it ends. -/
def tablesRead (m : Memory) : Nat → Nat → Nat → List Nat
  | 0, table, _ => [table]
  | n + 1, table, v =>
      let e := m.readWord (table + 8 * tableIndex (n + 1) v)
      if e &&& pagePresent = 0 ∨ e &&& pageSizeBit ≠ 0 then [table]
      else table :: tablesRead m n (e &&& addrMask) v

/-- The frames of the kernel stack of a task. -/
def Tcb.stackFrames {κ : Type} (t : Tcb κ) : List Nat :=
  (List.range 4).map (fun i => add t.stackPhys (mul i pageSize))

/-- What the block of a task lists without its kernel stack: tables, pages, and the stack of
the user. -/
def Tcb.programFrames {κ : Type} (t : Tcb κ) : List Nat :=
  match t.isolatedTableFrames with
  | some frames => frames ++ [t.isolatedUserStackPhys]
  | none => []

/-- Where the memory of a task is. -/
def Tcb.home {κ : Type} (t : Tcb κ) : Nat × Option (List Nat) × Nat :=
  (t.cr3, t.isolatedTableFrames, t.isolatedUserStackPhys)

/-- **The memory of a program**: tables that represent a layout of pages, both in its own
frames, and nothing for ring 3 in the kernel's half. -/
structure Housed (m : Memory) (t : Tcb CpuCtx) (dir : Nat → Nat → Option Nat) (lay : Layout) :
    Prop where
  directory : Directory dir t.cr3 lay m
  tables : ∀ n key table, dir n key = some table → table ∈ t.programFrames
  pages : ∀ v tr, lay v = some tr → tr.size = pageSize ∧ tr.frame ∈ t.programFrames ∧
    ∀ n key, dir n key ≠ some tr.frame
  closed : UpperHalfClear m t.cr3

/-- A task has a table of its own, or runs on the kernel's. -/
structure Settled (root : Nat) (m : Memory) (t : Tcb CpuCtx) : Prop where
  kernel : t.isolatedTableFrames = none → t.cr3 = root
  program : t.isolatedTableFrames.isSome → ∃ dir lay, Housed m t dir lay

section

variable {m m' : Memory} {t t' : Tcb CpuCtx} {dir : Nat → Nat → Option Nat} {lay : Layout}

/-- The same home has the same frames. -/
theorem programFrames_congr (h : t'.home = t.home) : t'.programFrames = t.programFrames := by
  obtain ⟨-, hrest⟩ := Prod.mk.inj h
  obtain ⟨hframes, hstack⟩ := Prod.mk.inj hrest
  unfold Tcb.programFrames
  rw [hframes, hstack]

/-- A program is housed wherever its block has gone. -/
theorem Housed.moved (h : Housed m t dir lay) (hhome : t'.home = t.home) :
    Housed m t' dir lay := by
  have hframes := programFrames_congr hhome
  obtain ⟨hcr3, -⟩ := Prod.mk.inj hhome
  refine ⟨?_, ?_, ?_, ?_⟩
  · rw [hcr3]
    exact h.directory
  · rw [hframes]
    exact h.tables
  · rw [hframes]
    exact h.pages
  · rw [hcr3]
    exact h.closed

/-- It depends on the words of the tables only. -/
theorem Housed.congr (h : Housed m t dir lay)
    (hwords : ∀ n key table i, dir n key = some table → i < 512 →
      m'.readWord (table + 8 * i) = m.readWord (table + 8 * i)) : Housed m' t dir lay := by
  refine ⟨h.directory.congr hwords, h.tables, h.pages, fun i hlo hhi => ?_⟩
  rw [hwords 3 0 t.cr3 i h.directory.top hhi]
  exact h.closed i hlo hhi

/-- Ring 3 reaches the pages of the layout. -/
theorem Housed.reached (h : Housed m t dir lay) {v : Nat} {tr : Translation}
    (hwalk : walk m 3 t.cr3 v = some tr) (huser : tr.user = true) :
    v.testBit 47 = false ∧ lay (tag v) = some tr := by
  cases hv : v.testBit 47 with
  | false => exact ⟨rfl, (h.directory.walk_eq hv).symm.trans hwalk⟩
  | true =>
      have hentry := h.closed _ ((pml4Idx_upper v).mpr hv) (tableIndex_lt 3 v)
      rw [walk_not_user hentry hwalk] at huser
      cases huser

/-- **What ring 3 sees** is the layout and the bytes of its pages. -/
theorem Housed.seen_eq (h : Housed m t dir lay) (v : Nat) :
    seen m t.cr3 v = if v.testBit 47 then none else
      (lay (tag v)).bind (fun tr =>
        if tr.user then some (tr, m.ram (tr.frame + v % tr.size)) else none) := by
  unfold seen
  cases hv : v.testBit 47 with
  | false =>
      rw [h.directory.walk_eq hv]
      rfl
  | true =>
      cases hwalk : walk m 3 t.cr3 v with
      | none => rfl
      | some tr =>
          have hentry := h.closed _ ((pml4Idx_upper v).mpr hv) (tableIndex_lt 3 v)
          simp [walk_not_user hentry hwalk]

/-- A walk in the lower half reads tables of the directory only. -/
theorem Housed.table_of_read (h : Housed m t dir lay) {v g : Nat} (hv : v.testBit 47 = false) :
    ∀ n table, n < 4 → dir n (pageKey (n + 1) v) = some table → g ∈ tablesRead m n table v →
      ∃ n' key, dir n' key = some g := by
  intro n
  induction n with
  | zero =>
      intro table _ htable hg
      obtain rfl := List.mem_singleton.mp hg
      exact ⟨0, _, htable⟩
  | succ n ih =>
      intro table hn htable hg
      rw [tablesRead] at hg
      rcases h.directory.step hv hn htable with ⟨hempty, -⟩ | ⟨f, hnext, hword, hdvd, hlt⟩
      · rw [if_pos (Or.inl hempty)] at hg
        obtain rfl := List.mem_singleton.mp hg
        exact ⟨n + 1, _, htable⟩
      · have haddr : openEntry f &&& addrMask = f := new_entry hdvd hlt
        split at hg
        · obtain rfl := List.mem_singleton.mp hg
          exact ⟨n + 1, _, htable⟩
        · rcases List.mem_cons.mp hg with rfl | hg
          · exact ⟨n + 1, _, htable⟩
          · rw [hword, haddr] at hg
            exact ih f (by omega) hnext hg

/-- The tables are none of the pages that ring 3 reaches. -/
theorem Housed.table_not_reached (h : Housed m t dir lay) {n key table v : Nat} {tr : Translation}
    (ht : dir n key = some table) (hwalk : walk m 3 t.cr3 v = some tr) (huser : tr.user = true) :
    tr.frame ≠ table := by
  rintro rfl
  exact (h.pages _ _ (h.reached hwalk huser).2).2.2 n key ht

end

section

variable {held : List Nat} {trampoline room caps pid : Nat} {elf : Slice} {k k' : Kernel}

/-- `spawn_program` does not touch the processor's registers. -/
theorem spawnProgram_cpu {o : Outcome String Nat}
    (hrun : spawnProgram trampoline room elf caps k = (o, k')) : k'.cpu = k.cpu := by
  have hmem : ∀ {ε α : Type} (c : Command Memory ε α),
      Command.Keeps (fun k' : Kernel => k'.cpu = k.cpu) (onMemory c) := fun c _ h => h
  have hspawn : ∀ i, Command.Keeps (fun k' : Kernel => k'.cpu = k.cpu)
      (spawnIsolated trampoline i : Command Kernel String Nat) := by
    intro i
    refine Command.Keeps.bind (fun k1 h => ?_) (fun pid => ?_)
    · exact (spawn_cpu (ε := String) trampoline k1).trans h
    · exact Command.Keeps.bind (Command.Keeps.modify (fun _ h => h)) (fun _ => Command.Keeps.pure _)
  have hkeeps : Command.Keeps (fun k' : Kernel => k'.cpu = k.cpu)
      (spawnProgram trampoline room elf caps) := by
    unfold spawnProgram
    refine (hmem _).bind (fun out => ?_)
    refine (hmem _).bind (fun stackPhys => ?_)
    refine (hmem _).bind (fun _ => ?_)
    refine (Command.Keeps.gets _).bind (fun cr3 => ?_)
    exact (hmem _).bind (fun out => hspawn _)
  have hend := hkeeps k rfl
  rwa [hrun] at hend

/-- A call that fails has written to no frame that was in use. -/
theorem spawnProgram_err_kept (hs : Sound (2 ^ 47) k.mem.pmm held)
    (htrace : k.mem.trace = Trace.empty) {e : String}
    (hrun : spawnProgram trampoline room elf caps k = (.err e, k')) :
    ∀ g ∈ held, ∀ x, g ≤ x → x < g + pageSize → k'.mem.ram x = k.mem.ram x := by
  have hmod : 2 ^ 47 + pageSize < modulus := by decide
  have hload := @loadFresh_loaded _ elf room hmod _ (callSound_start hs htrace)
  have hstart : Sound (2 ^ 47) k.mem.pmm (k.mem.trace.taken ++ held) := by
    rw [htrace]
    exact hs
  rcases (spawnProgram_err_cases hmod hstart hrun).2 with
    ⟨e', herr⟩ | ⟨entry, pages, loaded, hok, hnone⟩
  · rw [herr] at hload
    exact hload.kept
  · rw [hok] at hload
    obtain ⟨p, -, hmem⟩ := allocFrame_none hnone
    rw [hmem]
    exact hload.2.call.kept

/-- The block of a task that `spawn_isolated` returns. -/
theorem spawnIsolated_task {ε : Type} {i : Isolation}
    (h : (spawnIsolated trampoline i : Command Kernel ε Nat) k = (.ok pid, k')) :
    k'.sched.current = k.sched.current ∧ ∃ t, lookup k'.sched.tasks pid = some (i.patch t) := by
  obtain ⟨pid', k1, hspawn, hrest⟩ := Command.bind_eq_ok.mp h
  obtain ⟨hpid, rfl⟩ := Prod.mk.inj hrest
  obtain rfl := Outcome.ok.inj hpid
  obtain ⟨-, -, stackPhys, ctx, -, heq⟩ := spawn_ok hspawn
  refine ⟨?_, newTcb pid' stackPhys k.cpu.cr3 ctx, ?_⟩
  · change k1.sched.current = _
    rw [heq]
    rfl
  · simp [heq, enqueue, lookup_adjust, lookup_insert]

/-- What the builder has made in frames that were free. -/
structure NewTable (pages : List Page) (kernel : Nat) (inUse : List Nat) (m : Memory) (pml4 : Nat)
    (tf : List Nat) (m' : Memory) (dir : Nat → Nat → Option Nat) : Prop where
  directory : Directory dir pml4 (layoutOf pages) m'
  tables : ∀ n key table, dir n key = some table → table ∈ tf
  sound : Sound (2 ^ 47) m'.pmm (tf ++ inUse)
  kept : ∀ g ∈ inUse, ∀ x, g ≤ x → x < g + pageSize → m'.ram x = m.ram x
  upper : ∀ i, 256 ≤ i → i < 512 →
    m'.readWord (pml4 + 8 * i) = m.readWord (kernel + 8 * i)

/-- **The builder makes a new table** that the processor walks as the pages say, out of
frames that nobody has. -/
theorem create_newTable {ε : Type} {m m' : Memory} {inUse tf : List Nat} {pages : List Page}
    {cr3 stackPhys pml4 : Nat} (hs : Sound (2 ^ 47) m.pmm inUse)
    (hcr3 : cr3 &&& addrMask ∈ inUse) (hpages : ∀ p ∈ pages, p.vaddr.testBit 47 = false)
    (hframes : ∀ p ∈ pages ++ [stackPage stackPhys], p.frame ∈ inUse)
    (hrun : (createIsolatedUserTableFresh cr3 pages stackPhys : Command Memory ε _) m =
      (.ok (pml4, tf), m')) :
    ∃ dir, NewTable (pages ++ [stackPage stackPhys]) (cr3 &&& addrMask) inUse m pml4 tf m' dir := by
  have hlimit : (2 : Nat) ^ 47 ≤ 2 ^ 52 := by decide
  have hinUse : ∀ p ∈ pages ++ [stackPage stackPhys],
      pageSize ∣ p.frame ∧ p.frame + pageSize ≤ 2 ^ 47 := fun p hp =>
    ⟨hs.separated.aligned _ (List.mem_append_left _ (hframes p hp)),
      hs.separated.inside _ (List.mem_append_left _ (hframes p hp))⟩
  have hsame : ∀ p ∈ pages ++ [stackPage stackPhys], masked p = p := fun p hp =>
    masked_eq (hinUse p hp).1 ((hinUse p hp).2.trans hlimit)
  -- a call of its own, that finds all these frames in use
  have hfresh : CallSound ⟨2 ^ 47, inUse, m.ram⟩ { m with trace := Trace.empty } :=
    callSound_start (m := { m with trace := Trace.empty }) hs rfl
  have hstack : stackPhys + pageSize ≤ 2 ^ 47 := (hinUse (stackPage stackPhys) (by simp)).2
  have hspace := create_space (ε := ε) hlimit hfresh hcr3 hpages
    (low_of_below (Nat.le_refl _) hstack)
  rw [List.map_congr_left hsame, List.map_id'] at hspace
  have hstart : Listed uncounted inUse [] [] { m with trace := Trace.empty } :=
    ⟨⟨hs, False.elim⟩, List.Perm.refl _⟩
  have hlisted := create_books (ε := ε) (by decide) (by decide) cr3 pages stackPhys _ hstart
  obtain ⟨hout, hpmm, hram⟩ := create_agree (ε := ε) cr3 pages stackPhys m
    { m with trace := Trace.empty } ⟨rfl, rfl⟩
  generalize (createIsolatedUserTableFresh cr3 pages stackPhys : Command Memory ε _) m = run
    at hrun hout hpmm hram
  subst hrun
  generalize (createIsolatedUserTableFresh cr3 pages stackPhys : Command Memory ε _)
    { m with trace := Trace.empty } = out at hspace hlisted hout hpmm hram
  obtain ⟨o, made⟩ := out
  obtain rfl : Outcome.ok (pml4, tf) = o := hout
  obtain ⟨lvl, dir, hspace⟩ := hspace
  have hperm : made.trace.taken.Perm tf := by
    have hlist := hlisted.2
    rwa [List.append_nil] at hlist
  have hword : ∀ a, m'.readWord a = made.readWord a := fun a => by
    unfold Memory.readWord
    rw [← hram]
  refine ⟨dir, ?_, ?_, ?_, ?_, ?_⟩
  · exact hspace.directory.congr (fun _ _ _ _ _ _ => hword _)
  · exact fun n key table htable => hperm.mem_iff.mp (hspace.own htable)
  · rw [← hpmm]
    exact hspace.tables.call.sound.perm (hperm.append_right _)
  · intro g hg x hlo hhi
    rw [← hram]
    exact hspace.tables.call.kept g hg x hlo hhi
  · intro i hlo hhi
    rw [hword, hspace.tables.upper_eq i hlo hhi]
    rfl

/-- **A started program is housed**, and no frame that was in use has been written to. -/
theorem spawnProgram_housed (hs : Sound (2 ^ 47) k.mem.pmm held)
    (htrace : k.mem.trace = Trace.empty) (hcr3 : k.cpu.cr3 &&& addrMask ∈ held)
    (hclosed : UpperHalfClear k.mem (k.cpu.cr3 &&& addrMask)) (hlow : LowPages elf)
    (hrun : spawnProgram trampoline room elf caps k = (.ok pid, k')) :
    (∀ g ∈ held, ∀ x, g ≤ x → x < g + pageSize → k'.mem.ram x = k.mem.ram x) ∧
      k'.sched.current = k.sched.current ∧ ∃ t dir lay, lookup k'.sched.tasks pid = some t ∧
        t.isolatedTableFrames.isSome ∧ Housed k'.mem t dir lay := by
  have hmod : 2 ^ 47 + pageSize < modulus := by decide
  obtain ⟨entry, pages, loaded, stackPhys, stacked, pml4, tf, built, hsteps⟩ := spawnProgram_ok hrun
  have hloading := @loadFresh_loaded _ elf room hmod _ (callSound_start hs htrace)
  rw [hsteps.load] at hloading
  obtain ⟨-, hloaded⟩ := hloading
  have hcall := hloaded.call.zeroNew hmod hsteps.stack
  have htop : stackPhys ∈ (stacked.zeroFrame stackPhys).trace.taken ∧
      ∀ f ∈ loaded.trace.taken, f ∈ (stacked.zeroFrame stackPhys).trace.taken := by
    obtain ⟨p, -, hstacked⟩ := allocFrame_some hsteps.stack
    rw [hstacked]
    exact ⟨List.mem_cons_self, fun f hf => List.mem_cons_of_mem _ hf⟩
  have hframes : ∀ p ∈ pages ++ [stackPage stackPhys],
      p.frame ∈ (stacked.zeroFrame stackPhys).trace.taken := by
    intro p hp
    rcases List.mem_append.mp hp with hp | hp
    · exact htop.2 _ (hloaded.taken p hp)
    · rw [List.mem_singleton.mp hp]
      exact htop.1
  obtain ⟨dir, hnew⟩ := create_newTable hcall.sound (List.mem_append_right _ hcr3)
    (fun p hp => hlow _ (hloaded.mem.mpr ⟨p, hp, rfl⟩))
    (fun p hp => List.mem_append_left _ (hframes p hp)) hsteps.create
  -- the rest writes to a new stack
  have hkept : ∀ g ∈ tf ++ ((stacked.zeroFrame stackPhys).trace.taken ++ held), ∀ x, g ≤ x →
      x < g + pageSize → k'.mem.ram x = built.ram x := by
    intro g hg x hlo hhi
    have hspawn := spawn_kept (ε := String) (by decide) trampoline (k := { k with mem := built })
      hnew.sound hg hlo hhi
    rw [← (spawnIsolated_mem trampoline _ _).1, hsteps.spawn] at hspawn
    exact hspawn
  have hword : ∀ n key table i, dir n key = some table → i < 512 →
      k'.mem.readWord (table + 8 * i) = built.readWord (table + 8 * i) := by
    intro n key table i ht hi
    refine readLE_congr (fun x hlo hhi => hkept table ?_ x (by omega) ?_)
    · exact List.mem_append_left _ (hnew.tables n key table ht)
    · simp only [pageSize]
      omega
  obtain ⟨hcurrent, t, ht⟩ := spawnIsolated_task hsteps.spawn
  refine ⟨?_, hcurrent, _, dir, layoutOf (pages ++ [stackPage stackPhys]), ht, rfl,
    hnew.directory.congr hword, ?_, ?_, ?_⟩
  · intro g hg x hlo hhi
    rw [hkept g (List.mem_append_right _ (List.mem_append_right _ hg)) x hlo hhi]
    rw [hnew.kept g (List.mem_append_right _ hg) x hlo hhi]
    exact hcall.kept g hg x hlo hhi
  · intro n key table htable
    exact List.mem_append_left _ (List.mem_append_left _ (hnew.tables n key table htable))
  · intro v tr hlay
    obtain ⟨before, p, after, hsplit, -, rfl, -⟩ := layoutOf_eq_some.mp hlay
    have hp : p ∈ pages ++ [stackPage stackPhys] := by
      rw [hsplit]
      exact List.mem_append_right _ List.mem_cons_self
    refine ⟨rfl, ?_, fun n key htable => ?_⟩
    · rcases List.mem_append.mp hp with hp | hp
      · exact List.mem_append_left _ (List.mem_append_right _ (List.mem_map_of_mem hp))
      · rw [List.mem_singleton.mp hp]
        exact List.mem_append_right _ List.mem_cons_self
    · have hnd := (List.nodup_append'.mp hnew.sound.separated.nodup).1
      exact (List.nodup_append'.mp hnd).2.2 (hnew.tables n key _ htable)
        (List.mem_append_left _ (hframes p hp))
  · intro i hlo hhi
    change k'.mem.readWord (pml4 + 8 * i) &&& pageUser = 0
    rw [hword 3 0 pml4 i hnew.directory.top hhi, hnew.upper i hlo hhi,
      hcall.readWord_held hcr3 (by omega) (by simp only [pageSize]; omega)]
    exact hclosed i hlo hhi

end

end Scheduler
