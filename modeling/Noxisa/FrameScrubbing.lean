import Noxisa.FrameCalls
import Noxisa.PhysicalMemory

/-!
# Frames are scrubbed on reuse

`free_frame` zeroes a frame before it puts it on the free list.  That nothing
else gets into it until it is handed out again rests on ownership: whoever
freed the frame does not own it any more, and the frames that others own share
no byte with it.

A state of `scrubSystem` has the contents of all memory.  Owners write what
they want into their frames; blocks are freed frame by frame.
-/

namespace PhysicalMemory

open ByteMemory FrameAllocator MachineWord RangePool

/-- Memory, the frames of the owners, and all frames that were ever freed, which
the code does not record. -/
structure Store where
  mem : Memory
  live : List (List Nat)
  freed : List Nat

/-- What owners do: call the allocator, or write into a frame. -/
inductive Use
  | call (op : Op)
  | write (owner frame : Nat) (bytes : Nat → UInt8)

/-- The allocator and the frames of the owners. -/
def Store.world (s : Store) : World := ⟨s.mem.pmm, s.live⟩

/-- `none` for a call outside the contract, and for the double-free panic. -/
def Store.use (s : Store) : Use → Option Store
  | .call .allocFrame =>
      match s.mem.allocFrame with
      | (some f, m) => some { s with mem := m, live := [f] :: s.live }
      | (none, m) => some { s with mem := m }
  | .call (.allocContiguousFrames n) =>
      match s.mem.allocContiguousFrames n with
      | (some a, m) => some { s with mem := m, live := units pageSize a n :: s.live }
      | (none, m) => some { s with mem := m }
  | .call (.freeFrame owner f) =>
      if f ∈ s.live.getD owner [] then
        (s.mem.freeFrame f).map (fun m =>
          { mem := m, live := s.live.modify owner (·.erase f), freed := f :: s.freed })
      else none
  | .write owner frame bytes =>
      if frame ∈ s.live.getD owner [] then
        some { s with mem := s.mem.copyTo frame pageSize bytes }
      else none

/-- Runs from a memory map, with memory that holds anything. -/
def scrubSystem {limit : Nat} (map : MemoryMap limit) : TransitionSystem Store Use where
  boot := fun s => s.mem.pmm = bootPmm map ∧ s.live = [] ∧ s.freed = []
  next := Store.use

/-- No address sum of the call wraps. -/
def Use.Fits (limit : Nat) (s : Store) : Use → Prop
  | .call op => FrameAllocator.Fits limit s.world op
  | .write _ _ _ => True

/-- All bytes of a frame are zero. -/
def Scrubbed (ram : Mem) (f : Nat) : Prop :=
  ∀ x, f ≤ x → x < f + pageSize → ram x = 0

/-- **The invariant**: nobody owns a listed frame, a listed frame is zero, and a
frame that was freed is owned again or still listed. -/
structure Clean (limit : Nat) (s : Store) : Prop where
  sound : Sound limit s.mem.pmm s.live.flatten
  zero : ∀ f ∈ s.mem.pmm.freeList, Scrubbed s.mem.ram f
  known : ∀ f ∈ s.freed, f ∈ s.live.flatten ∨ f ∈ s.mem.pmm.freeList

section

variable {limit : Nat} {map : MemoryMap limit} {s s' : Store}

/-- A frame comes off the list, or the list is empty and stays so. -/
theorem allocFrame_list (hl : limit + pageSize < modulus) {p p' : Pmm} {o : Option Nat}
    (hb : Bounded limit p) (ha : FrameAllocator.allocFrame p = (o, p')) :
    (∃ f, o = some f ∧ p.freeList = f :: p'.freeList) ∨
      p.freeList = [] ∧ p'.freeList = [] := by
  rcases allocFrame_cases hl hb with ⟨f, rest, hfree, heq⟩ | ⟨hfree, hfree', -, -⟩
  · rw [heq] at ha
    obtain ⟨rfl, rfl⟩ := Prod.mk.inj ha
    exact Or.inl ⟨f, rfl, hfree⟩
  · rw [ha] at hfree'
    exact Or.inr ⟨hfree, hfree'⟩

/-- Writes into one frame do not reach another. -/
theorem Sound.other_frame {p : Pmm} {held : List Nat} (h : Sound limit p held) {f g x : Nat}
    (hf : f ∈ held) (hg : g ∈ held ++ p.freeList) (hne : f ≠ g) (hlo : g ≤ x)
    (hhi : x < g + pageSize) : x < f ∨ f + pageSize ≤ x := by
  by_contra hin
  have hapart := h.separated.apart (List.mem_append_left _ hf) hg hne
  exact Set.disjoint_left.mp hapart ⟨by omega, by omega⟩ ⟨hlo, hhi⟩

/-- A frame that is handed out is zero, and keeps the store clean. -/
theorem Clean.allocFrame (hl : limit + pageSize < modulus) (h : Clean limit s) {f : Nat}
    {m : Memory} (ha : s.mem.allocFrame = (some f, m)) :
    Clean limit { s with mem := m, live := [f] :: s.live } := by
  obtain ⟨p, hp, rfl⟩ := allocFrame_some ha
  have hlist := allocFrame_list hl h.sound.bounded hp
  refine ⟨h.sound.allocFrame hl hp, ?_, ?_⟩
  · intro g hg
    apply h.zero g
    rcases hlist with ⟨a, -, hpop⟩ | ⟨-, hempty⟩
    · rw [hpop]
      exact List.mem_cons_of_mem a hg
    · rw [hempty] at hg
      cases hg
  · intro g hg
    rw [List.flatten_cons]
    rcases h.known g hg with hlive | hfree
    · exact Or.inl (List.mem_append_right _ hlive)
    · rcases hlist with ⟨a, hsome, hpop⟩ | ⟨hempty, -⟩
      · obtain rfl := Option.some.inj hsome
        rw [hpop] at hfree
        rcases List.mem_cons.mp hfree with rfl | hrest
        · exact Or.inl (List.mem_append_left _ List.mem_cons_self)
        · exact Or.inr hrest
      · rw [hempty] at hfree
        cases hfree

/-- So does a call without a frame to give. -/
theorem Clean.allocFrame_none (hl : limit + pageSize < modulus) (h : Clean limit s) {m : Memory}
    (ha : s.mem.allocFrame = (none, m)) : Clean limit { s with mem := m } := by
  obtain ⟨p, hp, rfl⟩ := PhysicalMemory.allocFrame_none ha
  have hlist := allocFrame_list hl h.sound.bounded hp
  rcases hlist with ⟨a, hsome, -⟩ | ⟨hempty, hempty'⟩
  · cases hsome
  · refine ⟨h.sound.allocFrame_none hl hp, ?_, ?_⟩
    · intro g hg
      dsimp only at hg
      rw [hempty'] at hg
      cases hg
    · intro g hg
      rcases h.known g hg with hlive | hfree
      · exact Or.inl hlive
      · rw [hempty] at hfree
        cases hfree

/-- A block of frames that is handed out keeps the store clean. -/
theorem Clean.allocContiguousFrames {n a : Nat} {m : Memory}
    (hneed : limit + n * pageSize < modulus) (h : Clean limit s)
    (ha : s.mem.allocContiguousFrames n = (some a, m)) :
    Clean limit { s with mem := m, live := units pageSize a n :: s.live } := by
  obtain ⟨p, hp, rfl⟩ := allocContiguousFrames_some ha
  have hlist := (allocContiguousFrames_carve hneed h.sound.bounded).2.1
  rw [hp] at hlist
  dsimp only at hlist
  refine ⟨h.sound.allocContiguousFrames hneed hp, ?_, ?_⟩
  · intro g hg
    dsimp only at hg
    rw [hlist] at hg
    exact h.zero g hg
  · intro g hg
    dsimp only
    rw [hlist, List.flatten_cons]
    exact (h.known g hg).imp_left (List.mem_append_right _)

/-- So does a call without such a block. -/
theorem Clean.allocContiguousFrames_none {n : Nat} {m : Memory}
    (hneed : limit + n * pageSize < modulus) (h : Clean limit s)
    (ha : s.mem.allocContiguousFrames n = (none, m)) : Clean limit { s with mem := m } := by
  obtain ⟨p, hp, rfl⟩ := PhysicalMemory.allocContiguousFrames_none ha
  have hlist := (allocContiguousFrames_carve hneed h.sound.bounded).2.1
  rw [hp] at hlist
  dsimp only at hlist
  refine ⟨h.sound.allocContiguousFrames_none hneed hp, ?_, ?_⟩
  · intro g hg
    dsimp only at hg
    rw [hlist] at hg
    exact h.zero g hg
  · intro g hg
    dsimp only
    rw [hlist]
    exact h.known g hg

/-- The freed frame is zeroed, the listed ones are somewhere else. -/
theorem Clean.freeFrame {owner f : Nat} {m : Memory} (h : Clean limit s)
    (howned : f ∈ s.live.getD owner []) (hf : s.mem.freeFrame f = some m) :
    Clean limit { mem := m, live := s.live.modify owner (·.erase f), freed := f :: s.freed } := by
  have hmem := mem_flatten_of_owner howned
  obtain ⟨p, hp, rfl⟩ := Option.map_eq_some_iff.mp hf
  obtain ⟨q, hq, hsound⟩ := h.sound.freeFrame hmem
  obtain rfl := Option.some.inj (hq.symm.trans hp)
  have hperm := flatten_modify_erase s.live howned
  have hlist : q.freeList = f :: s.mem.pmm.freeList := by
    unfold FrameAllocator.freeFrame at hq
    split at hq
    next => cases hq
    next => exact Option.some.inj hq ▸ rfl
  refine ⟨hsound.perm hperm, ?_, ?_⟩
  · intro g hg x hlo hhi
    dsimp only at hg
    rw [hlist] at hg
    dsimp only [Memory.zeroFrame, Memory.written]
    rcases List.mem_cons.mp hg with rfl | hg
    · exact fill_inside _ _ hlo hhi
    · have hne : f ≠ g := fun heq => h.sound.not_mem_freeList hmem (heq ▸ hg)
      rw [fill_outside _ _ (Sound.other_frame h.sound hmem (List.mem_append_right _ hg) hne hlo hhi)]
      exact h.zero g hg x hlo hhi
  · intro g hg
    dsimp only
    rw [hlist]
    by_cases heq : g = f
    · exact Or.inr (heq ▸ List.mem_cons_self)
    · have hold := h.known g ((List.mem_cons.mp hg).resolve_left heq)
      rcases hold with hlive | hfree
      · exact Or.inl (hperm.subset ((List.mem_erase_of_ne heq).mpr hlive))
      · exact Or.inr (List.mem_cons_of_mem f hfree)

/-- An owner writes into no listed frame. -/
theorem Clean.write {owner f : Nat} (bytes : Nat → UInt8) (h : Clean limit s)
    (howned : f ∈ s.live.getD owner []) :
    Clean limit { s with mem := s.mem.copyTo f pageSize bytes } := by
  have hmem := mem_flatten_of_owner howned
  refine ⟨h.sound, ?_, h.known⟩
  intro g hg x hlo hhi
  have hne : f ≠ g := fun heq => h.sound.not_mem_freeList hmem (heq ▸ hg)
  dsimp only [Memory.copyTo, Memory.written]
  rw [copy_outside _ _ (Sound.other_frame h.sound hmem (List.mem_append_right _ hg) hne hlo hhi)]
  exact h.zero g hg x hlo hhi

/-- **Every use keeps the invariant.** -/
theorem Clean.use (hl : limit + pageSize < modulus) {u : Use} (h : Clean limit s)
    (hfits : u.Fits limit s) (hu : s.use u = some s') : Clean limit s' := by
  cases u with
  | call op =>
      cases op with
      | allocFrame =>
          dsimp only [Store.use] at hu
          split at hu
          next f m ha => exact Option.some.inj hu ▸ h.allocFrame hl ha
          next m ha => exact Option.some.inj hu ▸ h.allocFrame_none hl ha
      | allocContiguousFrames n =>
          have hneed : limit + n * pageSize < modulus := hfits
          dsimp only [Store.use] at hu
          split at hu
          next a m ha => exact Option.some.inj hu ▸ h.allocContiguousFrames hneed ha
          next m ha => exact Option.some.inj hu ▸ h.allocContiguousFrames_none hneed ha
      | freeFrame owner f =>
          dsimp only [Store.use] at hu
          split at hu
          next howned =>
            obtain ⟨m, hm, rfl⟩ := Option.map_eq_some_iff.mp hu
            exact h.freeFrame howned hm
          next => cases hu
  | write owner f bytes =>
      dsimp only [Store.use] at hu
      split at hu
      next howned => exact Option.some.inj hu ▸ h.write bytes howned
      next => cases hu

/-- Every run of fitting calls keeps the store clean, whatever the owners write. -/
theorem run_clean (hl : limit + pageSize < modulus) (hlow : 0x300000 ≤ limit)
    (hs : (scrubSystem map).Run (fun s u => u.Fits limit s) s) : Clean limit s := by
  apply TransitionSystem.Run.invariant (I := Clean limit) _ _ hs
  · intro s hboot
    obtain ⟨hpmm, hlive, hfreed⟩ := hboot
    refine ⟨?_, ?_, ?_⟩
    · rw [hpmm, hlive]
      exact bootPmm_sound hl hlow map
    · rw [hpmm, bootPmm_freeList]
      intro f hf
      cases hf
    · rw [hfreed]
      intro f hf
      cases hf
  · intro s u s' h hfits hu
    exact h.use hl hfits hu

/-- **Frames are scrubbed on reuse.**  In every state that is reached, the listed
frames are zero; a frame that was ever freed is zero when it is handed out; and
no block has one. -/
theorem frames_scrubbed (hl : limit + pageSize < modulus) (hlow : 0x300000 ≤ limit)
    (hs : (scrubSystem map).Run (fun s u => u.Fits limit s) s) :
    (∀ f ∈ s.mem.pmm.freeList, Scrubbed s.mem.ram f) ∧
      (∀ f ∈ s.freed, ∀ m, s.mem.allocFrame = (some f, m) → Scrubbed m.ram f) ∧
      ∀ n a m, limit + n * pageSize < modulus →
        s.mem.allocContiguousFrames n = (some a, m) →
          ∀ f ∈ units pageSize a n, f ∉ s.freed := by
  have h := run_clean hl hlow hs
  refine ⟨h.zero, ?_, ?_⟩
  · intro f hf m ha
    obtain ⟨p, hp, rfl⟩ := allocFrame_some ha
    have hnodup := (h.sound.allocFrame hl hp).separated.nodup
    have hfresh := (List.nodup_cons.mp hnodup).1
    rcases h.known f hf with hlive | hfree
    · exact absurd (List.mem_append_left _ hlive) hfresh
    · exact h.zero f hfree
  · intro n a m hneed ha f hf hfreed
    obtain ⟨p, hp, rfl⟩ := allocContiguousFrames_some ha
    have hlist := (allocContiguousFrames_carve hneed h.sound.bounded).2.1
    rw [hp] at hlist
    have hnodup := (h.sound.allocContiguousFrames hneed hp).separated.nodup
    rw [List.append_assoc, hlist] at hnodup
    have hapart := (List.nodup_append'.mp hnodup).2.2 hf
    rcases h.known f hfreed with hlive | hfree
    · exact hapart (List.mem_append_left _ hlive)
    · exact hapart (List.mem_append_right _ hfree)

end

/-- A frame is written all over, freed, and handed out again. -/
theorem sample_frames_scrubbed :
    ∃ s f m, (scrubSystem sampleMap).Run (fun s u => u.Fits (2 ^ 52) s) s ∧ f ∈ s.freed ∧
      s.mem.allocFrame = (some f, m) ∧ Scrubbed m.ram f := by
  let start : Store := ⟨⟨bootPmm sampleMap, fun _ => 0xaa, Trace.empty⟩, [], []⟩
  have hrun : ((scrubSystem sampleMap).exec start
      [.call .allocFrame, .write 0 0x400000 (fun _ => 0xbb),
        .call (.freeFrame 0 0x400000)]).map (fun s => (s.freed, s.mem.allocFrame.1)) =
          some ([0x400000], some 0x400000) := by decide +kernel
  obtain ⟨s, hs, hend⟩ := Option.map_eq_some_iff.mp hrun
  obtain ⟨hfreed, hgot⟩ := Prod.mk.inj hend
  have hboot : (scrubSystem sampleMap).Run (fun s u => u.Fits (2 ^ 52) s) start :=
    .boot ⟨rfl, rfl, rfl⟩
  have hreached : (scrubSystem sampleMap).Run (fun s u => u.Fits (2 ^ 52) s) s := by
    apply TransitionSystem.Run.exec hboot _ hs
    intro u hu s
    simp only [List.mem_cons, List.not_mem_nil, or_false] at hu
    rcases hu with rfl | rfl | rfl <;> trivial
  have hmem : 0x400000 ∈ s.freed := by
    rw [hfreed]
    exact List.mem_cons_self
  have ha : s.mem.allocFrame = (some 0x400000, s.mem.allocFrame.2) := Prod.ext hgot rfl
  exact ⟨s, _, _, hreached, hmem, ha,
    (frames_scrubbed (by decide) (by decide) hreached).2.1 _ hmem _ ha⟩

end PhysicalMemory
