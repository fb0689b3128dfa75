import Noxisa.ElfImage
import Noxisa.ProgramFrames

/-!
# What a failed start of a program costs

`spawn_program` returns an error in two places: when `load_fresh` does, and when
no frame is left for the user stack.  In both the list of pages is dropped, and
the frames of the pages with it: nobody can free them any more.

A `Charge` follows the allocator from the start of a call: the frames that it
has handed out are missing, and if it has handed out none then nothing has
changed.  `spawn_error_restores_iff` combines this with the places where a load
can end.
-/

namespace Scheduler

open ByteMemory ElfLoader FrameAllocator MachineWord PhysicalMemory RangePool UserPageTable

/-- The frames that the allocator has to give. -/
def frameSet (p : Pmm) : Set Nat :=
  {f | f ∈ p.freeList} ∪ unitsIn pageSize (unbumped p)

/-- **A call since it started** with the allocator `p₀`. -/
structure Charge (limit : Nat) (held : List Nat) (p₀ : Pmm) (m : Memory) : Prop where
  sound : Sound limit m.pmm (m.trace.taken ++ held)
  missing : ∀ f ∈ m.trace.taken, f ∈ frameSet p₀
  within : frameSet m.pmm ⊆ frameSet p₀
  counted : available m.pmm + m.trace.taken.length = available p₀
  untouched : m.trace.taken = [] → frameSet m.pmm = frameSet p₀ ∧ m.pmm.free = p₀.free

/-- The allocator is as it was, and so is the task table. -/
structure Restored (k k' : Kernel) : Prop where
  frames : frameSet k'.mem.pmm = frameSet k.mem.pmm
  free : freeFrames k'.mem.pmm = freeFrames k.mem.pmm
  sched : k'.sched = k.sched

section

variable {limit : Nat} {held : List Nat} {p p' p₀ : Pmm} {m m' : Memory} {f : Nat}

/-- A held frame is not there to give. -/
private theorem held_notMem_frameSet (h : Sound limit p held) (hf : f ∈ held) : f ∉ frameSet p := by
  rintro (hlist | ⟨r, hr, i, heq, hend⟩)
  · exact h.not_mem_freeList hf hlist
  · have hout := h.separated.outside f (List.mem_append_left _ hf)
    refine Set.disjoint_left.mp hout ⟨Nat.le_refl f, by unfold pageSize; omega⟩ ?_
    exact ⟨r, hr, by omega, by unfold pageSize at hend; omega⟩

/-- `alloc_frame` hands out a frame the allocator had, and adds none. -/
theorem allocFrame_frameSet (hl : limit + pageSize < modulus) (hb : Bounded limit p)
    (hs : Ascending (unbumped p)) (ha : FrameAllocator.allocFrame p = (some f, p')) :
    f ∈ frameSet p ∧ frameSet p' ⊆ frameSet p := by
  rcases allocFrame_cases hl hb with ⟨a, rest, hfree, heq⟩ | ⟨hfree, hfree', hcarve, -⟩
  · obtain ⟨rfl, rfl⟩ : a = f ∧ _ = p' := by simpa [heq] using ha
    have hsame : unbumped { p with freeList := rest, free := sub p.free 1 } = unbumped p :=
      unbumped_congr rfl rfl rfl
    unfold frameSet
    rw [hsame, hfree]
    refine ⟨Or.inl List.mem_cons_self, Set.union_subset_union_left _ ?_⟩
    intro g hg
    exact List.mem_cons_of_mem a hg
  · rw [ha] at hfree' hcarve
    obtain ⟨hstart, hleft⟩ := Prod.mk.inj hcarve
    dsimp only at hfree' hleft
    have hmoved := carve_unit_moves (u := pageSize) (by decide) hs hstart.symm
    unfold frameSet
    rw [hfree', hfree, hleft]
    refine ⟨Or.inr hmoved.1, Set.union_subset_union_right _ ?_⟩
    exact unitsIn_carve_subset _ _

/-- Without a frame to give it leaves the allocator's frames as they are. -/
theorem allocFrame_none_same (hl : limit + pageSize < modulus) (hb : Bounded limit p)
    (ha : FrameAllocator.allocFrame p = (none, p')) :
    frameSet p' = frameSet p ∧ p'.free = p.free := by
  rcases allocFrame_cases hl hb with ⟨a, rest, -, heq⟩ | ⟨hfree, hfree', hcarve, -⟩
  · simp [heq] at ha
  · refine ⟨?_, allocFrame_none_free hl hb ha⟩
    rw [ha] at hfree' hcarve
    obtain ⟨hstart, hleft⟩ := Prod.mk.inj hcarve
    dsimp only at hfree' hleft
    unfold frameSet
    rw [hfree', hfree, hleft, carve_none hstart.symm, unitsIn_eq_empty hstart.symm]
    simp [unitsIn]

/-- At its start a call has been charged nothing. -/
theorem charge_start (h : Sound limit m.pmm held) (htaken : m.trace.taken = []) :
    Charge limit held m.pmm m := by
  refine ⟨?_, ?_, Set.Subset.refl _, ?_, fun _ => ⟨rfl, rfl⟩⟩
  · rw [htaken]
    exact h
  · rw [htaken]
    intro f hf
    cases hf
  · rw [htaken]
    rfl

/-- What is read, checked and copied is not charged. -/
theorem Charge.noted (h : Charge limit held p₀ m) (hn : Noted m m') : Charge limit held p₀ m' := by
  obtain ⟨hpmm, htaken, -, -⟩ := hn
  refine ⟨?_, ?_, ?_, ?_, ?_⟩
  · rw [hpmm, htaken]
    exact h.sound
  · rw [htaken]
    exact h.missing
  · rw [hpmm]
    exact h.within
  · rw [hpmm, htaken]
    exact h.counted
  · rw [hpmm, htaken]
    exact h.untouched

/-- A frame handed out is charged. -/
theorem Charge.alloc (hl : limit + pageSize < modulus) {o : Option Nat}
    (h : Charge limit held p₀ m) (ha : m.allocFrame = (o, m')) : Charge limit held p₀ m' := by
  have hb := h.sound.bounded
  have havail := allocFrame_available hl hb
  have hcounted := h.counted
  cases o with
  | none =>
      obtain ⟨p, hp, rfl⟩ := allocFrame_none ha
      obtain ⟨hset, hfree⟩ := allocFrame_none_same hl hb hp
      rw [hp] at havail
      simp only [Option.isSome_none, Bool.false_eq_true, if_false] at havail
      refine ⟨h.sound.allocFrame_none hl hp, h.missing, ?_, ?_, ?_⟩
      · rw [hset]
        exact h.within
      · dsimp only
        omega
      · intro hnone
        obtain ⟨hset', hfree'⟩ := h.untouched hnone
        exact ⟨hset.trans hset', hfree.trans hfree'⟩
  | some f =>
      obtain ⟨p, hp, rfl⟩ := allocFrame_some ha
      obtain ⟨hmem, hsub⟩ := allocFrame_frameSet hl hb h.sound.separated.ascending hp
      rw [hp] at havail
      simp only [Option.isSome_some, if_true] at havail
      refine ⟨h.sound.allocFrame hl hp, ?_, hsub.trans h.within, ?_, ?_⟩
      · intro g hg
        rcases List.mem_cons.mp hg with rfl | hg
        · exact h.within hmem
        · exact h.missing g hg
      · dsimp only
        rw [List.length_cons]
        omega
      · intro hnone
        cases hnone

/-- Nothing has changed exactly if no frame has been handed out. -/
theorem Charge.restored_iff {k k' : Kernel} (h : Charge limit held k.mem.pmm k'.mem)
    (hsched : k'.sched = k.sched) : Restored k k' ↔ k'.mem.trace.taken = [] := by
  constructor
  · intro hrestored
    by_contra hne
    obtain ⟨f, hf⟩ := List.exists_mem_of_ne_nil _ hne
    have hgone := held_notMem_frameSet h.sound (List.mem_append_left _ hf)
    rw [hrestored.frames] at hgone
    exact hgone (h.missing f hf)
  · intro hnone
    obtain ⟨hframes, hfree⟩ := h.untouched hnone
    exact ⟨hframes, hfree, hsched⟩

end

/-- **The condition for a failed start to cost nothing**, with `frames` frames
available: there is no frame to lose, the ELF header is rejected, or the first
program header that fails a bounds check is in front of all pages. -/
def FailsFirst (d : Slice) (frames : Nat) : Prop :=
  frames = 0 ∨ d.len < 64 ∨ d.headerError ≠ none ∨
    ∃ i < d.phnum, d.Stops i ∧ (∀ j < i, ¬d.Stops j) ∧ d.pagesUpTo i = ∅

section

variable {limit room entry : Nat} {held : List Nat} {d : Slice} {m m' : Memory}
  {pages : List Page} {e : ElfError}

/-- A load that fails has been handed nothing exactly if the condition holds. -/
theorem loadFresh_err_iff (hl : limit + pageSize < modulus) (hs : Sound limit m.pmm held)
    (htrace : m.trace = Trace.empty) (hrun : loadFresh d room m = (.err e, m')) :
    m'.trace.taken = [] ↔ FailsFirst d (available m.pmm) := by
  have htaken : m.trace.taken = [] := by rw [htrace]; rfl
  have hcall := callSound_start hs htrace
  have hend : LoadEnd _ d room m _ _ := loadFresh_end hl hcall htaken
  have hcharge : Charge limit held m.pmm m' :=
    (loadFresh_keeps (I := Charge limit held m.pmm) (fun _ _ h hn => h.noted hn)
      (fun _ _ _ h ha => h.alloc hl ha) d room).of_ok (charge_start hs htaken) hrun
  have hcounted := hcharge.counted
  rw [hrun] at hend
  unfold LoadEnd at hend
  split at hend
  next hbad =>
    refine iff_of_true hend.2.2 ?_
    rcases hbad with hshort | herr
    · exact Or.inr (Or.inl hshort)
    · exact Or.inr (Or.inr (Or.inl herr))
  next hgood =>
    obtain ⟨k, hk, hreach, hstop⟩ := hend
    -- only the frames and the headers are left of the condition
    have hfails : FailsFirst d (available m.pmm) ↔ available m.pmm = 0 ∨
        ∃ i < d.phnum, d.Stops i ∧ (∀ j < i, ¬d.Stops j) ∧ d.pagesUpTo i = ∅ := by
      constructor
      · rintro (hzero | hshort | herr | hfirst)
        · exact Or.inl hzero
        · exact absurd (Or.inl hshort) hgood
        · exact absurd (Or.inr herr) hgood
        · exact Or.inr hfirst
      · rintro (hzero | hfirst)
        · exact Or.inl hzero
        · exact Or.inr (Or.inr (Or.inr hfirst))
    rw [hfails]
    rcases hstop with ⟨hstop, pages, himage⟩ | hout
    · have hcard := himage.loading.card
      have hcount := himage.loading.count
      have hlist : m'.trace.taken = [] ↔ d.pagesUpTo k = ∅ := by
        rw [himage.taken_eq, ← Finset.card_eq_zero, hcard, List.reverse_eq_nil_iff,
          List.map_eq_nil_iff, List.length_eq_zero_iff]
      rw [hlist]
      constructor
      · intro hnone
        exact Or.inr ⟨k, hk, hstop, fun j hj => (hreach j hj).1, hnone⟩
      · rintro (hzero | ⟨i, hi, hstopi, hfirst, hnone⟩)
        · apply Finset.card_eq_zero.mp
          omega
        · have hik : i = k := by
            by_contra hne
            rcases Nat.lt_or_gt_of_ne hne with hlt | hgt
            · exact (hreach i hlt).1 hstopi
            · exact hfirst k hgt hstop
          rw [← hik]
          exact hnone
    · have hleft : available m'.pmm = 0 := hout.none_left
      rw [← List.length_eq_zero_iff]
      constructor
      · intro hnone
        left
        omega
      · rintro (hzero | ⟨i, hi, hstopi, hfirst, hnone⟩)
        · omega
        · have hlt : k + 1 ≤ i := by
            by_contra hge
            by_cases heq : i = k
            · exact hout.reads (heq ▸ hstopi)
            · exact (hreach i (by omega)).1 hstopi
          have hmono := Finset.card_le_card (pagesUpTo_mono (d := d) hlt)
          have hfew := hout.few
          rw [hnone, Finset.card_empty] at hmono
          omega

/-- So has one that succeeds when no frame is left for the stack. -/
theorem loadFresh_ok_iff (hl : limit + pageSize < modulus) (hs : Sound limit m.pmm held)
    (htrace : m.trace = Trace.empty) (hrun : loadFresh d room m = (.ok (entry, pages), m'))
    (hnone : available m'.pmm = 0) :
    m'.trace.taken = [] ↔ FailsFirst d (available m.pmm) := by
  have htaken : m.trace.taken = [] := by rw [htrace]; rfl
  have hcall := callSound_start hs htrace
  have hend : LoadEnd _ d room m _ _ := loadFresh_end hl hcall htaken
  have hcharge : Charge limit held m.pmm m' :=
    (loadFresh_keeps (I := Charge limit held m.pmm) (fun _ _ h hn => h.noted hn)
      (fun _ _ _ h ha => h.alloc hl ha) d room).of_ok (charge_start hs htaken) hrun
  have hcounted := hcharge.counted
  rw [hrun] at hend
  unfold LoadEnd at hend
  split at hend
  next =>
    obtain ⟨⟨e, he⟩, -⟩ := hend
    cases he
  next hgood =>
    obtain ⟨-, hreach, -⟩ := hend
    rw [← List.length_eq_zero_iff]
    constructor
    · intro hempty
      left
      omega
    · rintro (hzero | hshort | herr | ⟨i, hi, hstop, -⟩)
      · omega
      · exact absurd (Or.inl hshort) hgood
      · exact absurd (Or.inr herr) hgood
      · exact absurd hstop (hreach i hi).1

end

section

variable {limit trampoline room caps : Nat} {held : List Nat} {elf : Slice} {k k' : Kernel}
  {e : String}

/-- **A failed `spawn_program` leaves everything as it was** exactly if it fails
before it has been handed a frame. -/
theorem spawn_error_restores_iff {map : MemoryMap limit} {w : World}
    (hl : limit + pageSize < modulus) (hlow : 0x300000 ≤ limit)
    (hw : (callSystem map).Run (Fits limit) w) (hpmm : k.mem.pmm = w.pmm)
    (htrace : k.mem.trace = Trace.empty)
    (hrun : spawnProgram trampoline room elf caps k = (.err e, k')) :
    Restored k k' ↔ FailsFirst elf (available k.mem.pmm) := by
  have hs : Sound limit k.mem.pmm w.live.flatten := hpmm ▸ call_sound hl hlow hw
  have htaken : k.mem.trace.taken = [] := by rw [htrace]; rfl
  have hstart := charge_start hs htaken
  have hload := loadFresh_keeps (I := Charge limit w.live.flatten k.mem.pmm)
    (fun _ _ h hn => h.noted hn) (fun _ _ _ h ha => h.alloc hl ha) elf room
  obtain ⟨hsched, hcases⟩ := spawnProgram_err_cases hl hstart.sound hrun
  rcases hcases with ⟨e', hfresh⟩ | ⟨entry, pages, loaded, hfresh, ha⟩
  · rw [(hload.of_ok hstart hfresh).restored_iff hsched]
    exact loadFresh_err_iff hl hs htrace hfresh
  · have hloaded := hload.of_ok hstart hfresh
    rw [(hloaded.alloc hl ha).restored_iff hsched]
    obtain ⟨p, hp, heq⟩ := allocFrame_none ha
    have hnone := available_of_none hl hloaded.sound.bounded hp
    have hsame : k'.mem.trace.taken = loaded.trace.taken := by rw [heq]
    rw [hsame]
    exact loadFresh_ok_iff hl hs htrace hfresh hnone

end

/-- A page of a segment, and a second segment outside the file. -/
def truncatedElf : Slice :=
  Slice.ofList (elfHeader 0x400000 64 56 2 ++ elfPhdr 176 0x400000 4 4 ++
    elfPhdr 1000 0x500000 4 4 ++ [0x90, 0x90, 0xEB, 0xFE]) (by decide +kernel)

/-- A segment outside the file in front of all others. -/
def outsideElf : Slice :=
  Slice.ofList (elfHeader 0x400000 64 56 1 ++ elfPhdr 1000 0x500000 4 4) (by decide +kernel)

/-- The hypotheses are met by a file whose segment lies outside of it. -/
theorem sample_spawn_error_restores :
    ∃ k', spawnProgram 0x8000 100 outsideElf 0 shellKernel = (.err "elf load failed", k') ∧
      Restored shellKernel k' := by
  have hboot : (callSystem lowMap).Run (Fits (2 ^ 47)) ⟨bootPmm lowMap, []⟩ := .boot rfl
  have herr : (spawnProgram 0x8000 100 outsideElf 0 shellKernel).1 = .err "elf load failed" := by
    decide +kernel
  have hrun := Command.eq_of_fst herr
  have hfields : 0 < outsideElf.phnum ∧ outsideElf.pType 0 = ptLoad ∧
      ¬add (outsideElf.pOffset 0) (outsideElf.pFilesz 0) ≤ outsideElf.len := by decide +kernel
  obtain ⟨hnum, hload, hout⟩ := hfields
  have hfirst : FailsFirst outsideElf (available shellKernel.mem.pmm) :=
    Or.inr (Or.inr (Or.inr ⟨0, hnum, Or.inr ⟨hload, hout⟩,
      fun j hj => absurd hj (Nat.not_lt_zero j), rfl⟩))
  exact ⟨_, hrun, (spawn_error_restores_iff (by decide) (by decide) hboot rfl rfl hrun).mpr hfirst⟩

/-- The frame of the first segment is lost. -/
theorem truncated_spawn_leaks :
    ¬ ∀ elf e k', spawnProgram 0x8000 100 elf 0 shellKernel = (.err e, k') →
      Restored shellKernel k' := by
  intro h
  have herr : (spawnProgram 0x8000 100 truncatedElf 0 shellKernel).1 = .err "elf load failed" := by
    decide +kernel
  have hcount : freeFrames (spawnProgram 0x8000 100 truncatedElf 0 shellKernel).2.mem.pmm = 255 ∧
      freeFrames shellKernel.mem.pmm = 256 := by decide +kernel
  have hfree := (h truncatedElf _ _ (Command.eq_of_fst herr)).free
  rw [hcount.1, hcount.2] at hfree
  cases hfree

end Scheduler
