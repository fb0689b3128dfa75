import Noxisa.ElfImage
import Noxisa.PageMappings

/-!
# The rights that the segments of a program ask for

A page that several segments touch is on the list once, with the rights of the
first of them: `load_fresh` looks at the flags of a segment only where it
allocates a page (`mem_pageSpecs`).  What a later segment asks for is lost, and
so is what any of them asks for if a page with the same tag, or the stack, is
mapped afterwards.  `spawnProgram_rights_iff` says that these are the only ways
in which a page can end up without a right that one of its segments has.
-/

namespace ElfLoader

open ByteMemory FrameAllocator MachineWord PhysicalMemory

/-- `PF_W` -/
def Slice.segWritable (d : Slice) (i : Nat) : Bool := d.pFlags i &&& 2 != 0

/-- `PF_X` -/
def Slice.segExecutable (d : Slice) (i : Nat) : Bool := d.pFlags i &&& 1 != 0

/-- The loop over the pages of segment `i` comes to `v`. -/
def Slice.Touches (d : Slice) (i v : Nat) : Prop :=
  d.pType i = ptLoad ∧ pageSize ∣ v ∧ d.segStart i ≤ v ∧ v < d.segEnd i

/-- Segment `i` is the first that touches `v`. -/
def Slice.FirstTouches (d : Slice) (i v : Nat) : Prop :=
  d.Touches i v ∧ ∀ j < i, ¬d.Touches j v

section

variable {d : Slice} {specs : List PageSpec}

/-- What the pages of a segment add to those before them. -/
theorem mem_addPages (w x : Bool) {s : PageSpec} :
    ∀ (vs : List Nat) (specs : List PageSpec), s ∈ addPages w x vs specs ↔ s ∈ specs ∨
      s.vaddr ∈ vs ∧ (∀ q ∈ specs, q.vaddr ≠ s.vaddr) ∧ s.writable = w ∧ s.executable = x := by
  intro vs
  induction vs with
  | nil => simp [addPages]
  | cons v vs ih =>
      intro specs
      rw [addPages]
      by_cases hany : specs.any (fun s => s.vaddr == v) = true
      · obtain ⟨q, hq, hv⟩ := List.any_eq_true.mp hany
        obtain rfl : q.vaddr = v := beq_iff_eq.mp hv
        rw [if_pos hany, ih specs]
        constructor
        · rintro (hs | ⟨hmem, hrest⟩)
          · exact Or.inl hs
          · exact Or.inr ⟨List.mem_cons_of_mem _ hmem, hrest⟩
        · rintro (hs | ⟨hmem, hnew, hrest⟩)
          · exact Or.inl hs
          · rcases List.mem_cons.mp hmem with hsame | hmem
            · exact absurd hsame.symm (hnew q hq)
            · exact Or.inr ⟨hmem, hnew, hrest⟩
      · have hfresh : ∀ q ∈ specs, q.vaddr ≠ v := by
          intro q hq hv
          exact hany (List.any_eq_true.mpr ⟨q, hq, beq_iff_eq.mpr hv⟩)
        rw [if_neg hany, ih]
        constructor
        · rintro (hs | ⟨hmem, hnew, hrest⟩)
          · rcases List.mem_append.mp hs with hs | hs
            · exact Or.inl hs
            · obtain rfl := List.mem_singleton.mp hs
              exact Or.inr ⟨List.mem_cons_self, hfresh, rfl, rfl⟩
          · refine Or.inr ⟨List.mem_cons_of_mem _ hmem, fun q hq => ?_, hrest⟩
            exact hnew q (List.mem_append_left _ hq)
        · rintro (hs | ⟨hmem, hnew, hw, hx⟩)
          · exact Or.inl (List.mem_append_left _ hs)
          · by_cases hv : s.vaddr = v
            · refine Or.inl (List.mem_append_right _ (List.mem_singleton.mpr ?_))
              obtain ⟨vaddr, writable, executable⟩ := s
              simp only at hv hw hx
              rw [hv, hw, hx]
            · refine Or.inr ⟨(List.mem_cons.mp hmem).resolve_left hv, fun q hq => ?_, hw, hx⟩
              rcases List.mem_append.mp hq with hq | hq
              · exact hnew q hq
              · rw [List.mem_singleton.mp hq]
                exact Ne.symm hv

/-- The addresses of the page loop. -/
theorem mem_segmentRange {i v : Nat} :
    v ∈ List.range' (d.segStart i) ((d.segEnd i - d.segStart i) / pageSize) pageSize ↔
      pageSize ∣ v ∧ d.segStart i ≤ v ∧ v < d.segEnd i := by
  rw [← mem_segmentPages (segStart_dvd d i) (segEnd_dvd d i), segmentPages, Finset.mem_image,
    List.mem_range']
  constructor
  · rintro ⟨k, hk, rfl⟩
    exact ⟨k, Finset.mem_range.mpr hk, by rw [Nat.mul_comm]⟩
  · rintro ⟨k, hk, rfl⟩
    exact ⟨k, Finset.mem_range.mp hk, by rw [Nat.mul_comm]⟩

/-- Of the segments that touch a page one is the first. -/
theorem Slice.Touches.exists_first {v : Nat} :
    ∀ {i : Nat}, d.Touches i v → ∃ j ≤ i, d.FirstTouches j v := by
  intro i
  induction i using Nat.strong_induction_on with
  | _ i ih =>
      intro h
      by_cases hearlier : ∃ j < i, d.Touches j v
      · obtain ⟨j, hj, htouch⟩ := hearlier
        obtain ⟨k, hk, hfirst⟩ := ih j hj htouch
        exact ⟨k, hk.trans hj.le, hfirst⟩
      · exact ⟨i, Nat.le_refl i, h, fun j hj htouch => hearlier ⟨j, hj, htouch⟩⟩

/-- **The pages of a file** have the rights of the first segment with them. -/
theorem mem_pageSpecs {s : PageSpec} {n : Nat} :
    s ∈ d.pageSpecs n ↔ ∃ i < n, d.FirstTouches i s.vaddr ∧
      s.writable = d.segWritable i ∧ s.executable = d.segExecutable i := by
  induction n generalizing s with
  | zero => simp [Slice.pageSpecs]
  | succ n ih =>
      rw [Slice.pageSpecs]
      by_cases hload : d.pType n = ptLoad
      · rw [if_pos hload, mem_addPages, mem_segmentRange, ih]
        constructor
        · rintro (⟨i, hi, h⟩ | ⟨hrange, hnew, hw, hx⟩)
          · exact ⟨i, by omega, h⟩
          · refine ⟨n, by omega, ⟨⟨hload, hrange⟩, fun j hj htouch => ?_⟩, hw, hx⟩
            -- the first segment with the page has put it on the list
            obtain ⟨k, hk, hfirst⟩ := htouch.exists_first
            have hlisted : (⟨s.vaddr, d.segWritable k, d.segExecutable k⟩ : PageSpec) ∈
                d.pageSpecs n := ih.mpr ⟨k, by omega, hfirst, rfl, rfl⟩
            exact hnew _ hlisted rfl
        · rintro ⟨i, hi, hfirst, hw, hx⟩
          by_cases hlast : i = n
          · subst hlast
            refine Or.inr ⟨hfirst.1.2, fun q hq hv => ?_, hw, hx⟩
            obtain ⟨j, hj, hother, -⟩ := ih.mp hq
            exact hfirst.2 j hj (hv ▸ hother.1)
          · exact Or.inl ⟨i, by omega, hfirst, hw, hx⟩
      · rw [if_neg hload, ih]
        constructor
        · rintro ⟨i, hi, h⟩
          exact ⟨i, by omega, h⟩
        · rintro ⟨i, hi, hfirst, h⟩
          have hne : i ≠ n := fun heq => hload (heq ▸ hfirst.1.1)
          exact ⟨i, by omega, hfirst, h⟩

end

end ElfLoader

namespace Scheduler

open ByteMemory ElfLoader FrameAllocator MachineWord PhysicalMemory RangePool UserPageTable

/-- `s` is the last of the pages with the tag of `v`. -/
def LastSpec (specs : List PageSpec) (v : Nat) (s : PageSpec) : Prop :=
  ∃ before after, specs = before ++ s :: after ∧ tag s.vaddr = tag v ∧
    ∀ q ∈ after, tag q.vaddr ≠ tag v

/-- The page that gets the entry for a page of a segment has the rights of the
segment. -/
def Grants (elf : Slice) (specs : List PageSpec) : Prop :=
  ∀ i < elf.phnum, ∀ v, elf.Touches i v →
    (elf.segWritable i = true → ∃ s, LastSpec specs v s ∧ s.writable = true) ∧
    (elf.segExecutable i = true → ∃ s, LastSpec specs v s ∧ s.executable = true)

/-- Each page that a segment touches is mapped with the rights of the segment. -/
def SegmentRights (elf : Slice) (k : Kernel) (pid : Nat) : Prop :=
  ∃ t, lookup k.sched.tasks pid = some t ∧ ∀ i < elf.phnum, ∀ v, elf.Touches i v →
    (elf.segWritable i = true → ∃ tr, walk k.mem 3 t.cr3 v = some tr ∧ tr.writable = true) ∧
    (elf.segExecutable i = true → ∃ tr, walk k.mem 3 t.cr3 v = some tr ∧ tr.executable = true)

/-- A right of a page in the layout is that of the last one with its tag. -/
theorem layoutOf_right_iff {pages : List Page} {v : Nat} (right : Translation → Bool)
    (asked : PageSpec → Bool) (hright : ∀ p, right (translation p) = asked p.spec) :
    (∃ tr, layoutOf pages (tag v) = some tr ∧ right tr = true) ↔
      ∃ s, LastSpec (pages.map Page.spec) v s ∧ asked s = true := by
  constructor
  · rintro ⟨tr, htr, hr⟩
    obtain ⟨before, p, after, rfl, htag, rfl, hlast⟩ := layoutOf_eq_some.mp htr
    refine ⟨p.spec, ⟨before.map Page.spec, after.map Page.spec, by simp, htag, ?_⟩, ?_⟩
    · intro q hq
      obtain ⟨r, hr, rfl⟩ := List.mem_map.mp hq
      exact hlast r hr
    · rw [← hright]
      exact hr
  · rintro ⟨s, ⟨before, after, hsplit, htag, hlast⟩, ha⟩
    obtain ⟨before', rest, rfl, rfl, hrest⟩ := List.map_eq_append_iff.mp hsplit
    obtain ⟨p, after', rfl, rfl, rfl⟩ := List.map_eq_cons_iff.mp hrest
    refine ⟨translation p, layoutOf_eq_some.mpr ⟨before', p, after', rfl, htag, rfl, ?_⟩, ?_⟩
    · exact fun q hq => hlast q.spec (List.mem_map_of_mem hq)
    · rw [hright]
      exact ha

/-- Where no two pages have one entry, each page keeps the rights of the first
segment with it. -/
theorem grants_iff_of_apart {elf : Slice} {stackPhys : Nat} (h : Apart (wanted elf stackPhys)) :
    Grants elf (wanted elf stackPhys) ↔
      ∀ i < elf.phnum, ∀ j v, elf.Touches i v → elf.FirstTouches j v →
        (elf.segWritable i = true → elf.segWritable j = true) ∧
        (elf.segExecutable i = true → elf.segExecutable j = true) := by
  -- the first segment with a page gives the last entry for it
  have hlast : ∀ i < elf.phnum, ∀ j v, elf.Touches i v → elf.FirstTouches j v → ∀ s,
      LastSpec (wanted elf stackPhys) v s ↔ s = ⟨v, elf.segWritable j, elf.segExecutable j⟩ := by
    intro i hi j v htouch hfirst s
    have hj : j ≤ i := by
      by_contra hlt
      exact hfirst.2 i (by omega) htouch
    have hmem : (⟨v, elf.segWritable j, elf.segExecutable j⟩ : PageSpec) ∈ wanted elf stackPhys :=
      List.mem_append_left _ (mem_pageSpecs.mpr ⟨j, by omega, hfirst, rfl, rfl⟩)
    have hinj := List.inj_on_of_nodup_map h
    constructor
    · rintro ⟨before, after, hsplit, htag, -⟩
      exact hinj (hsplit ▸ by simp) hmem htag
    · rintro rfl
      obtain ⟨before, after, hsplit⟩ := List.append_of_mem hmem
      refine ⟨before, after, hsplit, rfl, fun q hq htag => ?_⟩
      rw [Apart, hsplit, List.map_append, List.map_cons] at h
      have hnot := (List.nodup_cons.mp (List.nodup_append'.mp h).2.1).1
      exact hnot (List.mem_map.mpr ⟨q, hq, htag⟩)
  constructor
  · intro hgrants i hi j v htouch hfirst
    obtain ⟨hw, hx⟩ := hgrants i hi v htouch
    constructor
    · intro hright
      obtain ⟨s, hs, hsw⟩ := hw hright
      obtain rfl := (hlast i hi j v htouch hfirst s).mp hs
      exact hsw
    · intro hright
      obtain ⟨s, hs, hsx⟩ := hx hright
      obtain rfl := (hlast i hi j v htouch hfirst s).mp hs
      exact hsx
  · intro hfirsts i hi v htouch
    obtain ⟨j, -, hfirst⟩ := htouch.exists_first
    obtain ⟨hw, hx⟩ := hfirsts i hi j v htouch hfirst
    have hs := (hlast i hi j v htouch hfirst _).mpr rfl
    exact ⟨fun hright => ⟨_, hs, hw hright⟩, fun hright => ⟨_, hs, hx hright⟩⟩

/-- **When every page has the rights of its segments.**  In every reachable
state of the frame allocator and for every file with its pages in the lower
half: if `spawn_program` returns a task, each page that a segment touches is
mapped with the rights of the segment exactly if the last page with its tag
asks for them. -/
theorem spawnProgram_rights_iff {map : MemoryMap (2 ^ 47)} {w : World}
    (hw : (frameSystem map).Reach w) {k k' : Kernel} (hpmm : k.mem.pmm = w.pmm)
    (htrace : k.mem.trace = Trace.empty)
    (hcr3 : InUse (2 ^ 47) k.mem.pmm (k.cpu.cr3 &&& addrMask))
    {trampoline room caps pid : Nat} {elf : Slice} (hlow : LowPages elf)
    (hrun : spawnProgram trampoline room elf caps k = (.ok pid, k')) :
    SegmentRights elf k' pid ↔
      ∀ stackPhys, stackFrame elf k.mem.pmm = some stackPhys →
        Grants elf (wanted elf stackPhys) := by
  obtain ⟨entry, pages, loaded, _, _, _, _, _, hsteps⟩ := spawnProgram_ok hrun
  obtain ⟨t, stackPhys, ht, hlayout⟩ :=
    spawnProgram_layout hw hpmm htrace hcr3 hlow hsteps.load hrun
  have hwalk : ∀ i < elf.phnum, ∀ v, elf.Touches i v →
      walk k'.mem 3 t.cr3 v = layoutOf (pages ++ [stackPage stackPhys]) (tag v) := by
    intro i hi v htouch
    exact hlayout.walk_eq v (hlow v (mem_pagesUpTo.mpr ⟨i, hi, htouch⟩))
  rw [hlayout.wanted_iff]
  constructor
  · rintro ⟨t', ht', hrights⟩ i hi v htouch
    obtain rfl := Option.some.inj (ht.symm.trans ht')
    have hboth := hrights i hi v htouch
    rw [hwalk i hi v htouch,
      layoutOf_right_iff Translation.writable PageSpec.writable (fun _ => rfl),
      layoutOf_right_iff Translation.executable PageSpec.executable (fun _ => rfl)] at hboth
    exact hboth
  · refine fun hgrants => ⟨t, ht, fun i hi v htouch => ?_⟩
    have hboth := hgrants i hi v htouch
    rw [hwalk i hi v htouch,
      layoutOf_right_iff Translation.writable PageSpec.writable (fun _ => rfl),
      layoutOf_right_iff Translation.executable PageSpec.executable (fun _ => rfl)]
    exact hboth

/-- A text page that a data segment shares: the first segment may execute, the
second may write. -/
def sharedPageElf : Slice :=
  Slice.ofList (elfHeader 0x400000 64 56 2 ++ elfPhdr 176 0x400000 4 4 ++
    (elfPhdr 180 0x400800 4 4).set 4 6 ++ [0x90, 0x90, 0xEB, 0xFE, 1, 2, 3, 4]) (by decide +kernel)

/-- The good file asks for no page twice, and gets what it asks for. -/
private theorem goodElf_grants (stackPhys : Nat) (h : Apart (wanted goodElf stackPhys)) :
    Grants goodElf (wanted goodElf stackPhys) := by
  have hnum : goodElf.phnum = 1 := by decide +kernel
  refine (grants_iff_of_apart h).mpr (fun i hi j v _ hfirst => ?_)
  obtain rfl : i = 0 := by omega
  obtain rfl : j = 0 := by
    by_contra hne
    exact hfirst.2 0 (by omega) ‹_›
  exact ⟨id, id⟩

/-- One segment. -/
theorem sample_segmentRights :
    ∃ k, spawnProgram 0x8000 100 goodElf 0 shellKernel = (.ok 1, k) ∧
      SegmentRights goodElf k 1 := by
  have hboot : (frameSystem lowMap).Reach ⟨bootPmm lowMap, []⟩ := TransitionSystem.Run.boot rfl
  have hok : (spawnProgram 0x8000 100 goodElf 0 shellKernel).1 = .ok 1 := by decide +kernel
  have hlow : LowPages goodElf := by
    unfold LowPages
    decide +kernel
  have hapart : Apart (wanted goodElf 0x401000) := by
    unfold Apart
    decide +kernel
  have hframe : stackFrame goodElf shellKernel.mem.pmm = some 0x401000 := by decide +kernel
  obtain ⟨k, hrun⟩ := Command.exists_of_fst hok
  refine ⟨k, hrun, ?_⟩
  refine (spawnProgram_rights_iff hboot (k := shellKernel) rfl rfl shellKernel_cr3_inUse hlow
    hrun).mpr (fun f hf => ?_)
  obtain rfl := Option.some.inj (hframe.symm.trans hf)
  exact goodElf_grants _ hapart

/-- **A page can lack a right.**  The page that the data segment shares with the
text is mapped without the right to write. -/
theorem sharedPage_not_writable :
    (frameSystem lowMap).Reach ⟨shellKernel.mem.pmm, []⟩ ∧
    ∃ k, spawnProgram 0x8000 100 sharedPageElf 0 shellKernel = (.ok 1, k) ∧
      ¬SegmentRights sharedPageElf k 1 := by
  have hok : (spawnProgram 0x8000 100 sharedPageElf 0 shellKernel).1 = .ok 1 := by decide +kernel
  have htask : (lookup (spawnProgram 0x8000 100 sharedPageElf 0 shellKernel).2.sched.tasks 1).map
      Tcb.cr3 = some 0x402000 := by decide +kernel
  have hwalk : (walk (spawnProgram 0x8000 100 sharedPageElf 0 shellKernel).2.mem 3 0x402000
      0x400000).map Translation.writable = some false := by decide +kernel
  obtain ⟨k, hrun⟩ := Command.exists_of_fst hok
  rw [hrun] at htask hwalk
  refine ⟨TransitionSystem.Run.boot rfl, k, hrun, ?_⟩
  rintro ⟨t, ht, hrights⟩
  have htouch : sharedPageElf.Touches 1 0x400000 := by
    unfold Slice.Touches
    decide +kernel
  obtain ⟨hwrite, -⟩ := hrights 1 (by decide +kernel) 0x400000 htouch
  obtain ⟨tr, htr, hwritable⟩ := hwrite (by decide +kernel)
  rw [ht] at htask
  obtain hcr3 : t.cr3 = 0x402000 := Option.some.inj htask
  rw [hcr3] at htr
  have hmap : walk _ 3 0x402000 0x400000 = some tr := htr
  rw [hmap] at hwalk
  have hfalse : tr.writable = false := Option.some.inj hwalk
  rw [hwritable] at hfalse
  cases hfalse

end Scheduler
