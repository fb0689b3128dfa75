import Noxisa.AddressSpace
import Noxisa.SpawnProgram

/-!
# The pages of a started program

What a file asks for and what its task gets.  `Slice.pageSpecs` is the list of
pages of a file, with the rights that the first segment with the page asks for,
and `loadFresh_laid` says that the loader gives each of them a frame, in this
order.  So the frame of the stack is the next one (`stackFrame`), and the
address space of the task is the layout of these pages and the stack
(`spawnProgram_layout`).

Two pages with one tag have one entry, and the later one gets it.  This decides
when each page is mapped to its own frame (`spawnProgram_maps_pages_iff`) and
when no page is writable and executable (`spawnProgram_wx_iff`).
-/

namespace ElfLoader

open ByteMemory FrameAllocator MachineWord PhysicalMemory

/-- A page that a file asks for. -/
structure PageSpec where
  vaddr : Nat
  writable : Bool
  executable : Bool
deriving DecidableEq

/-- A page without its frame. -/
def Page.spec (p : Page) : PageSpec := ⟨p.vaddr, p.writable, p.executable⟩

/-- Add the pages at the given addresses that are not there yet. -/
def addPages (writable executable : Bool) : List Nat → List PageSpec → List PageSpec
  | [], specs => specs
  | v :: vs, specs =>
      if specs.any (fun s => s.vaddr == v) then addPages writable executable vs specs
      else addPages writable executable vs (specs ++ [⟨v, writable, executable⟩])

/-- The pages of the loadable segments before header `i`. -/
def Slice.pageSpecs (d : Slice) : Nat → List PageSpec
  | 0 => []
  | i + 1 =>
      if d.pType i = ptLoad then
        addPages (d.pFlags i &&& 2 != 0) (d.pFlags i &&& 1 != 0)
          (List.range' (d.segStart i) ((d.segEnd i - d.segStart i) / pageSize) pageSize)
          (d.pageSpecs i)
      else d.pageSpecs i

/-- The allocator after `n` calls of `alloc_frame`. -/
def allocTimes (p : Pmm) : Nat → Pmm
  | 0 => p
  | n + 1 => (FrameAllocator.allocFrame (allocTimes p n)).2

/-- **What a load has taken**: a frame for each page, in order. -/
structure Laid (m₀ : Memory) (specs : List PageSpec) (pages : List Page) (m : Memory) : Prop where
  specs_eq : pages.map Page.spec = specs
  pmm_eq : m.pmm = allocTimes m₀.pmm pages.length
  taken_eq : m.trace.taken = (pages.map Page.frame).reverse ++ m₀.trace.taken

/-- What holds if a part of the load returns. -/
def LaidDone (m₀ : Memory) (specs : List PageSpec) (o : Outcome ElfError (List Page))
    (m : Memory) : Prop :=
  match o with
  | .ok pages => Laid m₀ specs pages m
  | .err _ => True
  | .panic _ => True

section

variable {m₀ m m' : Memory} {specs : List PageSpec} {pages : List Page} {d : Slice} {room i : Nat}

/-- What is read, checked and copied does not matter. -/
theorem Laid.noted (m m' : Memory) (h : Laid m₀ specs pages m) (hn : Noted m m') :
    Laid m₀ specs pages m' :=
  ⟨h.specs_eq, hn.pmm_eq.trans h.pmm_eq, hn.taken_eq.trans h.taken_eq⟩

/-- At the start no page is laid. -/
private theorem laid_start (m : Memory) : Laid m [] [] m := ⟨rfl, rfl, rfl⟩

/-- The `any` test of the page loop sees the specs. -/
private theorem any_spec (pages : List Page) (v : Nat) :
    (pages.map Page.spec).any (fun s => s.vaddr == v) = pages.any (fun p => p.vaddr == v) := by
  rw [List.any_map]
  rfl

/-- One more page with the frame just handed out. -/
theorem Laid.push (h : Laid m₀ specs pages m) {v f : Nat} {w x : Bool}
    (ha : m.allocFrame = (some f, m')) :
    Laid m₀ (specs ++ [⟨v, w, x⟩]) (pages ++ [⟨v, f, w, x⟩]) (m'.zeroFrame f) := by
  obtain ⟨p, hp, rfl⟩ := allocFrame_some ha
  refine ⟨?_, ?_, ?_⟩
  · rw [List.map_append, h.specs_eq]
    rfl
  · rw [List.length_append, List.length_singleton, allocTimes, ← h.pmm_eq, hp]
    rfl
  · simp [h.taken_eq]

/-- **The page loop** follows `addPages`. -/
theorem pageLoop_laid {segEnd : Nat} (hlt : segEnd < modulus) (w x : Bool) :
    ∀ fuel v specs pages, (fuel ≠ 0 → v + fuel * pageSize ≤ segEnd) →
      Command.Spec (Laid m₀ specs pages) (pageLoop room segEnd w x fuel v pages)
        (LaidDone m₀ (addPages w x (List.range' v fuel pageSize) specs)) := by
  intro fuel
  induction fuel with
  | zero => exact fun v specs pages _ m h => h
  | succ fuel ih =>
      intro v specs pages hroom m h
      have hend := hroom (Nat.succ_ne_zero fuel)
      have hpage : pageSize = 4096 := rfl
      rw [hpage] at hend
      have hmore : v < segEnd := by omega
      have hnext : add v pageSize = v + pageSize := add_eq (by rw [hpage]; omega)
      have hrest : fuel ≠ 0 → v + pageSize + fuel * pageSize ≤ segEnd := by
        intro _
        rw [hpage]
        omega
      rw [List.range'_succ, addPages, ← h.specs_eq, any_spec, h.specs_eq]
      by_cases hany : pages.any (fun p => p.vaddr == v) = true
      · rw [if_pos hany, pageLoop, if_pos hmore, if_pos hany, hnext]
        exact ih _ _ _ hrest m h
      · rw [if_neg hany, pageLoop_fresh hmore hany, hnext]
        cases ha : m.allocFrame with
        | mk o m' =>
            cases o with
            | none => trivial
            | some f =>
                dsimp only
                by_cases hfull : pages.length < room
                · rw [if_pos hfull]
                  exact ih _ _ _ hrest _ (h.push ha)
                · rw [if_neg hfull]
                  trivial

/-- An invariant of the load, kept by a part of it that may fail. -/
theorem Laid.seq {α : Type} {c : Command Memory ElfError α}
    {f : α → Command Memory ElfError (List Page)} {specs' : List PageSpec}
    (hc : Command.Keeps (Laid m₀ specs pages) c)
    (hf : ∀ a, Command.Spec (Laid m₀ specs pages) (f a) (LaidDone m₀ specs')) :
    Command.Spec (Laid m₀ specs pages) (c >>= f) (LaidDone m₀ specs') :=
  Command.Spec.seq (R := fun _ => Laid m₀ specs pages) hc hf (fun _ _ _ => trivial)
    (fun _ _ _ => trivial)

/-- **One segment's pages** are laid with the frames the allocator hands out. -/
theorem loadContents_laid (hload : d.pType i = ptLoad) :
    Command.Spec (Laid m₀ (d.pageSpecs i) pages) (loadContents d room i pages)
      (LaidDone m₀ (d.pageSpecs (i + 1))) := by
  have hroom : (d.segEnd i - d.segStart i) / pageSize ≠ 0 →
      d.segStart i + (d.segEnd i - d.segStart i) / pageSize * pageSize ≤ d.segEnd i := by
    have hpage : pageSize = 4096 := rfl
    rw [hpage]
    omega
  have hspecs : d.pageSpecs (i + 1) = addPages (d.pFlags i &&& 2 != 0) (d.pFlags i &&& 1 != 0)
      (List.range' (d.segStart i) ((d.segEnd i - d.segStart i) / pageSize) pageSize)
      (d.pageSpecs i) := by
    rw [Slice.pageSpecs, if_pos hload]
  unfold loadContents
  refine Laid.seq (checkBounds_keeps Laid.noted d _ _ _) (fun _ => ?_)
  rw [hspecs]
  refine (pageLoop_laid (segEnd_lt d i) _ _ _ _ _ _ hroom).seq (fun pages' => ?_)
    (fun _ _ _ => trivial) (fun _ _ _ => trivial)
  exact Laid.seq (copyLoop_keeps Laid.noted d _ _ _ _ _ _) (fun _ m h => h)

/-- The same with the bounds test of the segment before. -/
theorem loadSegment_laid :
    Command.Spec (Laid m₀ (d.pageSpecs i) pages) (loadSegment d room i pages)
      (LaidDone m₀ (d.pageSpecs (i + 1))) := by
  unfold loadSegment
  refine Laid.seq (checkBounds_keeps Laid.noted d _ _ _) (fun _ => ?_)
  refine Laid.seq (readInput_keeps Laid.noted _ _) (fun _ => ?_)
  by_cases hload : d.pType i = ptLoad
  · rw [if_neg (not_not.mpr hload)]
    exact loadContents_laid hload
  · rw [if_pos hload, Slice.pageSpecs, if_neg hload]
    exact fun m h => h

/-- The loop over the headers lays the pages of all of them. -/
theorem headerLoop_laid :
    ∀ n i pages, Command.Spec (Laid m₀ (d.pageSpecs i) pages) (headerLoop d room n i pages)
      (LaidDone m₀ (d.pageSpecs (i + n))) := by
  intro n
  induction n with
  | zero => exact fun i pages m h => h
  | succ n ih =>
      intro i pages
      have hshift : i + (n + 1) = i + 1 + n := by omega
      rw [headerLoop, hshift]
      exact loadSegment_laid.seq (fun pages' => ih _ _) (fun _ _ _ => trivial)
        (fun _ _ _ => trivial)

/-- **What `load_fresh` takes** is a frame for each page of the file. -/
theorem loadFresh_laid {entry : Nat} (h : loadFresh d room m = (.ok (entry, pages), m')) :
    Laid m (d.pageSpecs d.phnum) pages m' := by
  unfold loadFresh at h
  by_cases hsize : d.len < 64
  · rw [if_pos hsize] at h
    cases h
  · rw [if_neg hsize] at h
    obtain ⟨_, m1, hread, hrest⟩ := Command.bind_eq_ok.mp h
    have hstart := (readInput_keeps Laid.noted 0 64).of_ok (laid_start m) hread
    cases herr : d.headerError with
    | some e =>
        rw [herr] at hrest
        cases hrest
    | none =>
        rw [herr] at hrest
        obtain ⟨pages', m2, hloop, hpure⟩ := Command.bind_eq_ok.mp hrest
        obtain ⟨hout, rfl⟩ := Prod.mk.inj hpure
        obtain ⟨-, rfl⟩ := Prod.mk.inj (Outcome.ok.inj hout)
        have hspec : Command.Spec (Laid m (d.pageSpecs 0) []) (headerLoop d room d.phnum 0 [])
            (LaidDone m (d.pageSpecs (0 + d.phnum))) := headerLoop_laid d.phnum 0 []
        have hlaid := hspec m1 hstart
        rw [hloop, Nat.zero_add] at hlaid
        exact hlaid

end

end ElfLoader

namespace Scheduler

open ByteMemory ElfLoader FrameAllocator MachineWord PhysicalMemory RangePool UserPageTable

/-- The frame that `spawn_program` will get for the stack. -/
def stackFrame (elf : Slice) (p : Pmm) : Option Nat :=
  (FrameAllocator.allocFrame (allocTimes p (elf.pageSpecs elf.phnum).length)).1

/-- The parts of a `spawn_program` that returns a task: the pages and the
memory after the load, the stack and the memory with it, and the table. -/
structure SpawnSteps (trampoline room : Nat) (elf : Slice) (caps : Nat) (k : Kernel) (pid : Nat)
    (k' : Kernel) (entry : Nat) (pages : List Page) (loaded : Memory) (stackPhys : Nat)
    (stacked : Memory) (pml4 : Nat) (tableFrames : List Nat) (built : Memory) : Prop where
  load : loadFresh elf room k.mem = (.ok (entry, pages), loaded)
  stack : loaded.allocFrame = (some stackPhys, stacked)
  create : (createIsolatedUserTableFresh k.cpu.cr3 pages stackPhys : Command Memory String _)
    (stacked.zeroFrame stackPhys) = (.ok (pml4, tableFrames), built)
  spawn : (spawnIsolated trampoline
    { cr3 := pml4, userEntry := entry, userStackTop := add stackPhys 4096, caps := caps
      tableFrames := tableFrames ++ pages.map Page.frame, userStackPhys := stackPhys } :
    Command Kernel String Nat) { k with mem := built } = (.ok pid, k')

section

variable {trampoline room caps pid : Nat} {elf : Slice} {k k' : Kernel}

/-- A start that went through took each of its steps. -/
theorem spawnProgram_ok (h : spawnProgram trampoline room elf caps k = (.ok pid, k')) :
    ∃ entry pages loaded stackPhys stacked pml4 tableFrames built,
      SpawnSteps trampoline room elf caps k pid k' entry pages loaded stackPhys stacked pml4
        tableFrames built := by
  unfold spawnProgram at h
  rw [onMemory_bind, Command.mapErr] at h
  cases hload : loadFresh elf room k.mem with
  | mk o loaded =>
      rw [hload] at h
      cases o with
      | err e => cases h
      | panic s => cases h
      | ok out =>
          obtain ⟨entry, pages⟩ := out
          dsimp only at h
          rw [onMemory_bind, allocOr] at h
          cases hstack : loaded.allocFrame with
          | mk o stacked =>
              rw [hstack] at h
              cases o with
              | none => cases h
              | some stackPhys =>
                  dsimp only at h
                  rw [onMemory_bind, Command.modify_apply] at h
                  dsimp only at h
                  rw [Command.gets_bind, onMemory_bind] at h
                  cases hcreate : (createIsolatedUserTableFresh k.cpu.cr3 pages stackPhys :
                      Command Memory String _) (stacked.zeroFrame stackPhys) with
                  | mk o built =>
                      rw [hcreate] at h
                      cases o with
                      | err e => cases h
                      | panic s => cases h
                      | ok out =>
                          obtain ⟨pml4, tableFrames⟩ := out
                          exact ⟨entry, pages, loaded, stackPhys, stacked, pml4, tableFrames, built,
                            hload, hstack, hcreate, h⟩

/-- **The address space of a started program** is the layout of its pages and
the stack: of a task that was started with all pages in the lower half. -/
structure HasLayout (elf : Slice) (k : Kernel) (pages : List Page) (stackPhys : Nat) (pml4 : Nat)
    (k' : Kernel) : Prop where
  stack_eq : stackFrame elf k.mem.pmm = some stackPhys
  specs_eq : pages.map Page.spec = elf.pageSpecs elf.phnum
  frames : ((pages ++ [stackPage stackPhys]).map Page.frame).Nodup
  low : ∀ p ∈ pages ++ [stackPage stackPhys], p.vaddr.testBit 47 = false
  walk_eq : ∀ v, v.testBit 47 = false →
    walk k'.mem 3 pml4 v = layoutOf (pages ++ [stackPage stackPhys]) (tag v)
  /-- the kernel's half, if it was closed to ring 3 -/
  closed : UpperHalfClear k.mem (k.cpu.cr3 &&& addrMask) → ∀ v t, v.testBit 47 = true →
    walk k'.mem 3 pml4 v = some t → t.user = false

/-- **A started program has the layout of its pages**, by the walk that the processor
makes. -/
theorem spawnProgram_layout {map : MemoryMap (2 ^ 47)} {w : World}
    (hw : (frameSystem map).Reach w) (hpmm : k.mem.pmm = w.pmm)
    (htrace : k.mem.trace = Trace.empty)
    (hcr3 : InUse (2 ^ 47) k.mem.pmm (k.cpu.cr3 &&& addrMask)) (hlow : LowPages elf)
    {entry : Nat} {pages : List Page} {loaded : Memory}
    (hload : loadFresh elf room k.mem = (.ok (entry, pages), loaded))
    (hrun : spawnProgram trampoline room elf caps k = (.ok pid, k')) :
    ∃ t stackPhys, lookup k'.sched.tasks pid = some t ∧
      HasLayout elf k pages stackPhys t.cr3 k' := by
  obtain ⟨held, hmem, hsound⟩ := (reach_sound (by decide) (by decide) map hw).hold
    (dvd_and_addrMask _) (hpmm ▸ hcr3)
  have hmod : 2 ^ 47 + pageSize < modulus := by decide
  have hstart := callSound_start (hpmm ▸ hsound) htrace
  obtain ⟨entry', pages', loaded', stackPhys, stacked, pml4, tableFrames, built, hsteps⟩ :=
    spawnProgram_ok hrun
  obtain ⟨rfl, rfl⟩ : pages' = pages ∧ loaded' = loaded := by
    have hsame := hsteps.load.symm.trans hload
    obtain ⟨hout, rfl⟩ := Prod.mk.inj hsame
    exact ⟨(Prod.mk.inj (Outcome.ok.inj hout)).2, rfl⟩
  have hlaid := loadFresh_laid hload
  have hloading := @loadFresh_loaded _ elf room hmod _ hstart
  rw [hload] at hloading
  obtain ⟨-, hloaded⟩ := hloading
  have hcall := hloaded.call.zeroNew hmod hsteps.stack
  obtain ⟨p, hp, hstacked⟩ := allocFrame_some hsteps.stack
  have htaken : (stacked.zeroFrame stackPhys).trace.taken =
      stackPhys :: (pages'.map Page.frame).reverse := by
    rw [hstacked, zeroFrame_taken]
    simp only [hlaid.taken_eq, htrace, Trace.empty, List.append_nil]
  have hpages : ∀ q ∈ pages', q.vaddr.testBit 47 = false :=
    fun q hq => hlow _ (hloaded.mem.mpr ⟨q, hq, rfl⟩)
  have hframes : ∀ q ∈ pages', q.frame ∈ (stacked.zeroFrame stackPhys).trace.taken := by
    intro q hq
    rw [htaken]
    exact List.mem_cons_of_mem _ (List.mem_reverse.mpr (List.mem_map_of_mem hq))
  have hstack : stackPhys ∈ (stacked.zeroFrame stackPhys).trace.taken := by
    rw [htaken]
    exact List.mem_cons_self
  have hbuilt := create_layout (ε := String) (Nat.le_refl _) hcall hmem hpages hframes hstack
  rw [hsteps.create] at hbuilt
  obtain ⟨lvl, dir, hspace⟩ := hbuilt
  have hgrown := spawn_grown (ε := String) (show 2 ^ 47 + 4 * pageSize < modulus by decide)
    trampoline (k := { k with mem := built }) hspace.tables.call.sound
  obtain ⟨t, ht, hpml4⟩ := spawnIsolated_ok hsteps.spawn
  rw [← (spawnIsolated_mem trampoline _ _).1, hsteps.spawn] at hgrown
  have hpml4' : t.cr3 = pml4 := hpml4
  have hdir : Directory dir pml4 (layoutOf (pages' ++ [stackPage stackPhys])) k'.mem :=
    hspace.directory.congr (fun n key table i ht hi => hgrown.readWord (hspace.own ht) hi)
  refine ⟨t, stackPhys, ht, ?_, hlaid.specs_eq, ?_, ?_, ?_, ?_⟩
  · rw [stackFrame, ← hlaid.specs_eq, List.length_map, ← hlaid.pmm_eq, hp]
  · have hnd := (List.nodup_append'.mp (List.nodup_append'.mp hcall.sound.separated.nodup).1).1
    rw [htaken] at hnd
    have hrev := List.nodup_reverse.mpr hnd
    simpa [stackPage] using hrev
  · intro q hq
    rcases List.mem_append.mp hq with hq | hq
    · exact hpages q hq
    · rw [List.mem_singleton.mp hq]
      refine Nat.testBit_lt_two_pow ?_
      have hbelow : stackPhys + pageSize ≤ 2 ^ 47 := hcall.below hstack
      exact lt_of_lt_of_le (Nat.lt_add_of_pos_right (by decide)) hbelow
  · intro v hv
    rw [hpml4']
    exact hdir.walk_eq hv
  · intro hclear v tr hv hwalk
    rw [hpml4'] at hwalk
    have hup : 256 ≤ tableIndex 3 v := (pml4Idx_upper v).mpr hv
    refine walk_not_user ?_ hwalk
    rw [hgrown.readWord (hspace.tables.own _ _ hspace.tables.top) (tableIndex_lt 3 v)]
    rw [hspace.tables.upper_eq _ hup (tableIndex_lt 3 v)]
    exact hclear _ hup (tableIndex_lt 3 v)

end

/-- No two pages have one entry. -/
def Apart (specs : List PageSpec) : Prop := (specs.map (fun s => tag s.vaddr)).Nodup

/-- A page that is to be writable and executable loses its entry to a later
one. -/
def Replaced (specs : List PageSpec) : Prop :=
  ∀ before s after, specs = before ++ s :: after → s.writable = true → s.executable = true →
    ∃ q ∈ after, tag q.vaddr = tag s.vaddr

/-- The pages of the file and the stack, in the order of their mapping. -/
def wanted (elf : Slice) (stackPhys : Nat) : List PageSpec :=
  elf.pageSpecs elf.phnum ++ [(stackPage stackPhys).spec]

/-- Every page is mapped to its own frame exactly if they are all apart. -/
theorem layoutOf_own_iff {pages : List Page} (hframes : (pages.map Page.frame).Nodup) :
    (∀ p ∈ pages, ∃ t, layoutOf pages (tag p.vaddr) = some t ∧ t.frame = p.frame) ↔
      Apart (pages.map Page.spec) := by
  unfold Apart
  rw [List.map_map]
  constructor
  · intro hown
    refine (List.nodup_map_iff_inj_on hframes.of_map).mpr (fun p hp q hq htag => ?_)
    obtain ⟨t, ht, htp⟩ := hown p hp
    obtain ⟨t', ht', htq⟩ := hown q hq
    have hsame : tag p.vaddr = tag q.vaddr := htag
    rw [hsame, ht'] at ht
    obtain rfl := Option.some.inj ht
    exact List.inj_on_of_nodup_map hframes hp hq (htp.symm.trans htq)
  · intro hnd p hp
    obtain ⟨before, after, rfl⟩ := List.append_of_mem hp
    refine ⟨translation p, layoutOf_eq_some.mpr ⟨before, p, after, rfl, rfl, rfl, ?_⟩, rfl⟩
    intro q hq heq
    rw [List.map_append, List.map_cons] at hnd
    have hnot := (List.nodup_cons.mp (List.nodup_append'.mp hnd).2.1).1
    exact hnot (List.mem_map.mpr ⟨q, hq, heq⟩)

/-- No page of the layout is writable and executable exactly if those that
should be are replaced. -/
theorem layoutOf_wx_iff {pages : List Page} :
    (∀ p ∈ pages, ∀ t, layoutOf pages (tag p.vaddr) = some t →
        ¬(t.writable = true ∧ t.executable = true)) ↔ Replaced (pages.map Page.spec) := by
  constructor
  · rintro hwx before s after hsplit hw hx
    obtain ⟨before', rest, rfl, rfl, hrest⟩ := List.map_eq_append_iff.mp hsplit
    obtain ⟨p, after', rfl, rfl, rfl⟩ := List.map_eq_cons_iff.mp hrest
    by_contra hlast
    refine hwx p (by simp) (translation p) (layoutOf_eq_some.mpr
      ⟨before', p, after', rfl, rfl, rfl, fun q hq heq => hlast ?_⟩) ⟨hw, hx⟩
    exact ⟨q.spec, List.mem_map_of_mem hq, heq⟩
  · rintro hrep p - t ht ⟨hw, hx⟩
    obtain ⟨before, q, after, rfl, htag, rfl, hlast⟩ := layoutOf_eq_some.mp ht
    obtain ⟨r, hr, heq⟩ := hrep (before.map Page.spec) q.spec (after.map Page.spec)
      (by simp) hw hx
    obtain ⟨r', hr', rfl⟩ := List.mem_map.mp hr
    exact hlast r' hr' (heq.trans htag)

section

variable {elf : Slice} {k k' : Kernel} {pages : List Page} {stackPhys pml4 : Nat}

/-- The pages of the layout are the wanted ones. -/
theorem HasLayout.wanted_eq (h : HasLayout elf k pages stackPhys pml4 k') :
    (pages ++ [stackPage stackPhys]).map Page.spec = wanted elf stackPhys := by
  rw [List.map_append, h.specs_eq]
  rfl

/-- A condition on the page that the stack takes is one on the pages mapped. -/
theorem HasLayout.wanted_iff (h : HasLayout elf k pages stackPhys pml4 k')
    {C : List PageSpec → Prop} :
    (∀ f, stackFrame elf k.mem.pmm = some f → C (wanted elf f)) ↔
      C ((pages ++ [stackPage stackPhys]).map Page.spec) := by
  rw [h.wanted_eq]
  constructor
  · intro hall
    exact hall _ h.stack_eq
  · intro hone f hf
    obtain rfl := Option.some.inj (h.stack_eq.symm.trans hf)
    exact hone

end

/-- Page `p` of the file is in the address space of the task: at its own
virtual page, in its own frame. -/
def MapsTo (k : Kernel) (pid : Nat) (p : Page) : Prop :=
  ∃ t tr, lookup k.sched.tasks pid = some t ∧ walk k.mem 3 t.cr3 p.vaddr = some tr ∧
    tr.frame = p.frame ∧ tr.size = pageSize

/-- Ring 3 has no page that it can both write and execute. -/
def WriteXorExecute (k : Kernel) (pid : Nat) : Prop :=
  ∃ t, lookup k.sched.tasks pid = some t ∧ ∀ v tr, walk k.mem 3 t.cr3 v = some tr →
    tr.user = true → ¬(tr.writable = true ∧ tr.executable = true)

/-- **When every page is where the file wants it.**  In every reachable state
of the frame allocator and for every file with its pages in the lower half: if
`spawn_program` returns a task, all pages of the load are mapped to their own
frames exactly if they and the page of the stack have different tags. -/
theorem spawnProgram_maps_pages_iff {map : MemoryMap (2 ^ 47)} {w : World}
    (hw : (frameSystem map).Reach w) {k k' : Kernel} (hpmm : k.mem.pmm = w.pmm)
    (htrace : k.mem.trace = Trace.empty)
    (hcr3 : InUse (2 ^ 47) k.mem.pmm (k.cpu.cr3 &&& addrMask))
    {trampoline room caps pid : Nat} {elf : Slice} (hlow : LowPages elf)
    {entry : Nat} {pages : List Page} {loaded : Memory}
    (hload : loadFresh elf room k.mem = (.ok (entry, pages), loaded))
    (hrun : spawnProgram trampoline room elf caps k = (.ok pid, k')) :
    (∀ p ∈ pages, MapsTo k' pid p) ↔
      ∀ stackPhys, stackFrame elf k.mem.pmm = some stackPhys → Apart (wanted elf stackPhys) := by
  obtain ⟨t, stackPhys, ht, hlayout⟩ :=
    spawnProgram_layout hw hpmm htrace hcr3 hlow hload hrun
  rw [hlayout.wanted_iff, ← layoutOf_own_iff hlayout.frames]
  constructor
  · intro hmaps p hp
    rcases List.mem_append.mp hp with hin | hin
    · obtain ⟨t', tr, ht', hwalk, hframe, -⟩ := hmaps p hin
      obtain rfl := Option.some.inj (ht.symm.trans ht')
      rw [hlayout.walk_eq _ (hlayout.low p hp)] at hwalk
      exact ⟨tr, hwalk, hframe⟩
    · -- the stack is mapped last
      obtain rfl := List.mem_singleton.mp hin
      rw [layoutOf_append_one, Function.update_self]
      exact ⟨_, rfl, rfl⟩
  · intro hown p hp
    have hmem : p ∈ pages ++ [stackPage stackPhys] := List.mem_append_left _ hp
    obtain ⟨tr, htr, hframe⟩ := hown p hmem
    obtain ⟨-, q, -, -, -, rfl, -⟩ := layoutOf_eq_some.mp htr
    refine ⟨t, _, ht, ?_, hframe, rfl⟩
    rw [hlayout.walk_eq _ (hlayout.low p hmem)]
    exact htr

/-- **When no page is writable and executable.**  In every reachable state of
the frame allocator and for every file with its pages in the lower half: if
`spawn_program` returns a task and the kernel's half was closed to ring 3, ring
3 has no page that it can write and execute exactly if each page for which the
file asks for both has lost its entry to a later one. -/
theorem spawnProgram_wx_iff {map : MemoryMap (2 ^ 47)} {w : World}
    (hw : (frameSystem map).Reach w) {k k' : Kernel} (hpmm : k.mem.pmm = w.pmm)
    (htrace : k.mem.trace = Trace.empty)
    (hcr3 : InUse (2 ^ 47) k.mem.pmm (k.cpu.cr3 &&& addrMask))
    (hclear : UpperHalfClear k.mem (k.cpu.cr3 &&& addrMask))
    {trampoline room caps pid : Nat} {elf : Slice} (hlow : LowPages elf)
    (hrun : spawnProgram trampoline room elf caps k = (.ok pid, k')) :
    WriteXorExecute k' pid ↔
      ∀ stackPhys, stackFrame elf k.mem.pmm = some stackPhys →
        Replaced (wanted elf stackPhys) := by
  obtain ⟨entry, pages, loaded, _, _, _, _, _, hsteps⟩ := spawnProgram_ok hrun
  obtain ⟨t, stackPhys, ht, hlayout⟩ :=
    spawnProgram_layout hw hpmm htrace hcr3 hlow hsteps.load hrun
  rw [hlayout.wanted_iff, ← layoutOf_wx_iff]
  constructor
  · rintro ⟨t', ht', hwx⟩ p hp tr htr
    obtain rfl := Option.some.inj (ht.symm.trans ht')
    have huser : tr.user = true := by
      obtain ⟨-, q, -, -, -, rfl, -⟩ := layoutOf_eq_some.mp htr
      rfl
    exact hwx p.vaddr tr ((hlayout.walk_eq _ (hlayout.low p hp)).trans htr) huser
  · refine fun hwx => ⟨t, ht, fun v tr hwalk huser => ?_⟩
    by_cases hv : v.testBit 47 = true
    · rw [hlayout.closed hclear v tr hv hwalk] at huser
      cases huser
    · rw [hlayout.walk_eq v (Bool.eq_false_iff.mpr hv)] at hwalk
      obtain ⟨before, q, after, hsplit, htag, -, -⟩ := layoutOf_eq_some.mp hwalk
      refine hwx q (by simp [hsplit]) tr ?_
      rw [htag]
      exact hwalk

/-- A program whose page is not where the stack will be. -/
theorem sample_spawnProgram_maps_pages : ∃ pages k,
    (loadFresh goodElf 100 shellKernel.mem).1 = .ok (0x400000, pages) ∧
    spawnProgram 0x8000 100 goodElf 0 shellKernel = (.ok 1, k) ∧
    ∀ p ∈ pages, MapsTo k 1 p := by
  have hboot : (frameSystem lowMap).Reach ⟨bootPmm lowMap, []⟩ := TransitionSystem.Run.boot rfl
  have hok : (spawnProgram 0x8000 100 goodElf 0 shellKernel).1 = .ok 1 := by decide +kernel
  have hload : (loadFresh goodElf 100 shellKernel.mem).1 =
      .ok (0x400000, [⟨0x400000, 0x400000, false, true⟩]) := by decide +kernel
  have hlow : LowPages goodElf := by
    unfold LowPages
    decide +kernel
  have hapart : Apart (wanted goodElf 0x401000) := by
    unfold Apart
    decide +kernel
  have hframe : stackFrame goodElf shellKernel.mem.pmm = some 0x401000 := by decide +kernel
  obtain ⟨k, hrun⟩ := Command.exists_of_fst hok
  obtain ⟨loaded, hloaded⟩ := Command.exists_of_fst hload
  refine ⟨[⟨0x400000, 0x400000, false, true⟩], k, hload, hrun, ?_⟩
  refine (spawnProgram_maps_pages_iff hboot (k := shellKernel) rfl rfl shellKernel_cr3_inUse hlow
    hloaded hrun).mpr (fun f hf => ?_)
  obtain rfl := Option.some.inj (hframe.symm.trans hf)
  exact hapart

/-- One page at the address of the frame that will be the stack. -/
def stackElf : Slice :=
  Slice.ofList (elfHeader 0x401000 64 56 1 ++ elfPhdr 120 0x401000 4 4 ++ [0x90, 0x90, 0xEB, 0xFE])
    (by decide +kernel)

/-- **A page can be replaced.**  The page at `0x401000` gets frame `0x400000`;
the stack gets frame `0x401000` and takes its entry. -/
theorem spawnProgram_page_replaced :
    (frameSystem lowMap).Reach ⟨shellKernel.mem.pmm, []⟩ ∧ ∃ k,
      (loadFresh stackElf 100 shellKernel.mem).1 =
        .ok (0x401000, [⟨0x401000, 0x400000, false, true⟩]) ∧
      spawnProgram 0x8000 100 stackElf 0 shellKernel = (.ok 1, k) ∧
      ¬MapsTo k 1 ⟨0x401000, 0x400000, false, true⟩ := by
  have hok : (spawnProgram 0x8000 100 stackElf 0 shellKernel).1 = .ok 1 := by decide +kernel
  have hload : (loadFresh stackElf 100 shellKernel.mem).1 =
      .ok (0x401000, [⟨0x401000, 0x400000, false, true⟩]) := by decide +kernel
  have htask : (lookup (spawnProgram 0x8000 100 stackElf 0 shellKernel).2.sched.tasks 1).map Tcb.cr3 =
      some 0x402000 := by decide +kernel
  have hwalk : (walk (spawnProgram 0x8000 100 stackElf 0 shellKernel).2.mem 3 0x402000
      0x401000).map Translation.frame = some 0x401000 := by decide +kernel
  obtain ⟨k, hrun⟩ := Command.exists_of_fst hok
  rw [hrun] at htask hwalk
  refine ⟨TransitionSystem.Run.boot rfl, k, hload, hrun, ?_⟩
  rintro ⟨t, tr, ht, hmap, hframe, -⟩
  rw [ht] at htask
  obtain hcr3 : t.cr3 = 0x402000 := Option.some.inj htask
  have hmap' : walk _ 3 0x402000 0x401000 = some tr := hcr3 ▸ hmap
  rw [hmap'] at hwalk
  have hother : tr.frame = 0x401000 := Option.some.inj hwalk
  rw [hother] at hframe
  exact absurd hframe (by decide)

/-- The page of `goodElf` is executable, and the stack is not. -/
theorem sample_spawnProgram_wx :
    ∃ k, spawnProgram 0x8000 100 goodElf 0 shellKernel = (.ok 1, k) ∧ WriteXorExecute k 1 := by
  have hboot : (frameSystem lowMap).Reach ⟨bootPmm lowMap, []⟩ := TransitionSystem.Run.boot rfl
  have hcr3 : shellKernel.cpu.cr3 &&& addrMask = 0x1000 := by decide
  have hok : (spawnProgram 0x8000 100 goodElf 0 shellKernel).1 = .ok 1 := by decide +kernel
  have hlow : LowPages goodElf := by
    unfold LowPages
    decide +kernel
  have hnone : ∀ f, ∀ s ∈ wanted goodElf f, s.writable = true → s.executable = false := by
    intro f s hs
    have hspecs : goodElf.pageSpecs goodElf.phnum = [⟨0x400000, false, true⟩] := by decide +kernel
    rw [wanted, hspecs] at hs
    rcases List.mem_cons.mp hs with rfl | hs
    · exact fun h => absurd h (by decide)
    · rw [List.mem_singleton.mp hs]
      exact fun _ => rfl
  obtain ⟨k, hrun⟩ := Command.exists_of_fst hok
  refine ⟨k, hrun, ?_⟩
  refine (spawnProgram_wx_iff hboot (k := shellKernel) rfl rfl shellKernel_cr3_inUse
    (hcr3 ▸ shellKernel_upperHalfClear) hlow hrun).mpr ?_
  intro f _ before s after hsplit hw hx
  rw [hnone f s (hsplit ▸ by simp) hw] at hx
  cases hx

/-- One segment that is readable, writable and executable. -/
def wxElf : Slice :=
  Slice.ofList (elfHeader 0x400000 64 56 1 ++ (elfPhdr 120 0x400000 4 4).set 4 7 ++
    [0x90, 0x90, 0xEB, 0xFE]) (by decide +kernel)

/-- **A page can be writable and executable.** -/
theorem spawnProgram_not_wx :
    (frameSystem lowMap).Reach ⟨shellKernel.mem.pmm, []⟩ ∧ UpperHalfClear shellKernel.mem 0x1000 ∧
    ∃ k, spawnProgram 0x8000 100 wxElf 0 shellKernel = (.ok 1, k) ∧ ¬WriteXorExecute k 1 := by
  have hok : (spawnProgram 0x8000 100 wxElf 0 shellKernel).1 = .ok 1 := by decide +kernel
  have htask : (lookup (spawnProgram 0x8000 100 wxElf 0 shellKernel).2.sched.tasks 1).map Tcb.cr3 =
      some 0x402000 := by decide +kernel
  have hwalk : walk (spawnProgram 0x8000 100 wxElf 0 shellKernel).2.mem 3 0x402000 0x400000 =
      some ⟨0x400000, 4096, true, true, true⟩ := by decide +kernel
  obtain ⟨k, hrun⟩ := Command.exists_of_fst hok
  rw [hrun] at htask hwalk
  refine ⟨TransitionSystem.Run.boot rfl, shellKernel_upperHalfClear, k, hrun, ?_⟩
  rintro ⟨t, ht, hwx⟩
  rw [ht] at htask
  obtain hcr3 : t.cr3 = 0x402000 := Option.some.inj htask
  rw [← hcr3] at hwalk
  exact hwx _ _ hwalk rfl ⟨rfl, rfl⟩

end Scheduler
