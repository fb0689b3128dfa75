import Noxisa.MachineWord
import Noxisa.RangePool

/-!
# The physical frame allocator

The model of `memory/pmm.rs`.  Frames come from two places: a stack of freed
frames (`free_list`, popped first) and a pointer `next` that is bumped through
the region `cur` and then hops from region to region.  Contiguous blocks are
only ever bumped.

`unbumped` reads the bump side of a state as a list of ranges, and
`bumpLoop_carve` shows that the region loop is `RangePool.carve` on that list.
`Sound` is the invariant of the allocator together with the frames that are
held by callers; there is one lemma for each operation.
-/

namespace FrameAllocator

open MachineWord RangePool

/-- The size of a frame. -/
def pageSize : Nat := 4096

/-- `MAX_REGIONS` -/
def maxRegions : Nat := 32

/-- A usable region, both ends page aligned. -/
structure Region where
  base : Nat
  end_ : Nat
deriving DecidableEq

/-- `regions` holds the first `count` entries of the source's array, and
`freeList` has the most recently freed frame in front. -/
structure Pmm where
  regions : List Region
  cur : Nat
  next : Nat
  free : Nat
  freeList : List Nat
deriving DecidableEq

/-- The static initial value of `PMM`. -/
def Pmm.empty : Pmm :=
  { regions := [], cur := 0, next := 0, free := 0, freeList := [] }

/-- `add_region`: rounded inwards; a region too many is dropped. -/
def addRegion (p : Pmm) (base len : Nat) : Pmm :=
  if p.regions.length ≥ maxRegions then p
  else
    let alignedBase := pageMask (sub (add base pageSize) 1)
    let alignedEnd := pageMask (add base len)
    if alignedEnd ≤ alignedBase then p
    else
      { p with
        free := add p.free ((alignedEnd - alignedBase) / pageSize)
        regions := p.regions ++ [⟨alignedBase, alignedEnd⟩] }

/-- Start at the first region that reaches above 1 MiB, past the kernel image. -/
def init (p : Pmm) : Pmm :=
  match p.regions.findIdx? (fun r => r.end_ > 0x100000) with
  | some i => { p with cur := i, next := max (p.regions[i]?.elim 0 Region.base) 0x300000 }
  | none => p

/-- `p.cur += 1`, and `p.next` moves to the new region if there is one. -/
def Pmm.hop (p : Pmm) : Pmm :=
  match p.regions[p.cur + 1]? with
  | some r => { p with cur := p.cur + 1, next := r.base }
  | none => { p with cur := p.cur + 1 }

/-- The region loop that `alloc_frame` and `alloc_contiguous_frames` share;
`debit` is what a success does to the free count. -/
def bumpLoop (need : Nat) (debit : Nat → Nat) : Nat → Pmm → Option Nat × Pmm
  | 0, p => (none, p)
  | fuel + 1, p =>
      match p.regions[p.cur]? with
      | none => (none, p)
      | some r =>
          if add p.next need ≤ r.end_ then
            (some p.next, { p with next := add p.next need, free := debit p.free })
          else bumpLoop need debit fuel p.hop

/-- One iteration for each region left, and one to see that none is. -/
def Pmm.fuel (p : Pmm) : Nat := p.regions.length - p.cur + 1

/-- `alloc_frame`: the free list first. -/
def allocFrame (p : Pmm) : Option Nat × Pmm :=
  match p.freeList with
  | addr :: rest => (some addr, { p with freeList := rest, free := sub p.free 1 })
  | [] => bumpLoop pageSize (fun free => if free > 0 then free - 1 else free) p.fuel p

/-- `alloc_contiguous_frames`: never from the free list. -/
def allocContiguousFrames (p : Pmm) (n : Nat) : Option Nat × Pmm :=
  bumpLoop (mul n pageSize) (fun free => if free ≥ n then free - n else 0) p.fuel p

/-- `none` is the double-free panic.  The scrubbing of the frame's contents is
`PhysicalMemory.freeFrame`. -/
def freeFrame (p : Pmm) (addr : Nat) : Option Pmm :=
  if addr ∈ p.freeList then none
  else some { p with freeList := addr :: p.freeList, free := add p.free 1 }

/-- `free_frames` -/
def freeFrames (p : Pmm) : Nat := p.free

/-- The addresses of a region. -/
def Region.range (r : Region) : Range := ⟨r.base, r.end_⟩

/-- What is left to bump: from `next` to the end of region `cur`, and all later
regions. -/
def unbumped (p : Pmm) : List Range :=
  match p.regions[p.cur]? with
  | none => []
  | some r => ⟨p.next, r.end_⟩ :: (p.regions.drop (p.cur + 1)).map Region.range

/-- The number of single frames that can still be handed out. -/
def available (p : Pmm) : Nat :=
  p.freeList.length + capacity pageSize (unbumped p)

/-- All addresses of a state are at most `limit`. -/
structure Bounded (limit : Nat) (p : Pmm) : Prop where
  next_le : p.next ≤ limit
  base_le : ∀ r ∈ p.regions, r.base ≤ limit
  end_le : ∀ r ∈ p.regions, r.end_ ≤ limit

/-- Going on to the next region does not touch the regions. -/
@[simp] theorem hop_regions (p : Pmm) : p.hop.regions = p.regions := by
  unfold Pmm.hop; split <;> rfl

/-- Nor the free list. -/
@[simp] theorem hop_freeList (p : Pmm) : p.hop.freeList = p.freeList := by
  unfold Pmm.hop; split <;> rfl

/-- Nor the count. -/
@[simp] theorem hop_free (p : Pmm) : p.hop.free = p.free := by
  unfold Pmm.hop; split <;> rfl

/-- It is the next one. -/
@[simp] theorem hop_cur (p : Pmm) : p.hop.cur = p.cur + 1 := by
  unfold Pmm.hop; split <;> rfl

/-- The free list and the free count play no part in bumping. -/
theorem unbumped_congr {p q : Pmm} (hr : p.regions = q.regions) (hc : p.cur = q.cur)
    (hn : p.next = q.next) : unbumped p = unbumped q := by
  simp only [unbumped, hr, hc, hn]

/-- Hopping drops the first range. -/
theorem unbumped_hop {p : Pmm} {r : Region} (h : p.regions[p.cur]? = some r) :
    unbumped p = ⟨p.next, r.end_⟩ :: unbumped p.hop := by
  have hrest : unbumped p.hop = (p.regions.drop (p.cur + 1)).map Region.range := by
    cases hnext : p.regions[p.cur + 1]? with
    | none =>
        have hlen : p.regions.length ≤ p.cur + 1 := List.getElem?_eq_none_iff.mp hnext
        simp [unbumped, hnext, List.drop_eq_nil_of_le hlen]
    | some q =>
        obtain ⟨hlt, hq⟩ := List.getElem?_eq_some_iff.mp hnext
        simp [unbumped, Pmm.hop, hnext, List.drop_eq_getElem_cons hlt, hq, Region.range]
  rw [hrest]
  simp [unbumped, h]

/-- It keeps within the bounds. -/
theorem Bounded.hop {limit : Nat} {p : Pmm} (h : Bounded limit p) : Bounded limit p.hop := by
  refine ⟨?_, by simpa using h.base_le, by simpa using h.end_le⟩
  unfold Pmm.hop
  split
  next r hr => exact h.base_le r (List.mem_of_getElem? hr)
  next => exact h.next_le

section

variable {limit need : Nat} {d : Nat → Nat}

/-- **The region loop carves.**  As long as no address sum wraps, the loop
serves a request from the first remaining range with room for it. -/
theorem bumpLoop_carve (hneed : limit + need < modulus) :
    ∀ fuel p, Bounded limit p → p.regions.length - p.cur < fuel →
      let out := bumpLoop need d fuel p
      (out.1, unbumped out.2) = carve need (unbumped p) ∧
      out.2.regions = p.regions ∧ out.2.freeList = p.freeList ∧
      out.2.free = (if out.1.isSome then d p.free else p.free) ∧
      Bounded limit out.2 := by
  intro fuel
  induction fuel with
  | zero => intro p _ hfuel; omega
  | succ fuel ih =>
      intro p hb hfuel
      cases hr : p.regions[p.cur]? with
      | none => simp [bumpLoop, hr, unbumped, carve, hb]
      | some r =>
          have hnext := hb.next_le
          have hend := hb.end_le r (List.mem_of_getElem? hr)
          have hsum : add p.next need = p.next + need := add_eq (by omega)
          rw [unbumped_hop hr]
          by_cases hfit : p.next + need ≤ r.end_
          · have hlater := unbumped_hop hr
            simp only [unbumped, hr, List.cons.injEq, true_and] at hlater
            simp only [bumpLoop, hr, hsum, hfit, if_true, carve, unbumped, hlater]
            refine ⟨trivial, trivial, trivial, by simp, ?_, hb.base_le, hb.end_le⟩
            exact hfit.trans hend
          · have hlt : p.cur < p.regions.length := (List.getElem?_eq_some_iff.mp hr).1
            have hrest := ih p.hop hb.hop (by simp; omega)
            simpa [bumpLoop, hr, hsum, hfit, carve] using hrest

end

/-- **The allocator invariant.**  `held` are the frames callers own.  Held and
freed frames are pairwise different and below `limit`, none of them can be
bumped again, and no address sum wraps. -/
structure Sound (limit : Nat) (p : Pmm) (held : List Nat) : Prop where
  separated : Separated pageSize limit (held ++ p.freeList) (unbumped p)
  bounded : Bounded limit p

section

variable {limit : Nat} {p p' : Pmm} {held held' : List Nat} {a n : Nat}

/-- The order of the held frames does not matter. -/
theorem Sound.perm (h : Sound limit p held) (hp : held.Perm held') : Sound limit p held' :=
  ⟨h.separated.perm (hp.append_right _), h.bounded⟩

/-- What `alloc_frame` does, one clause for each source of frames. -/
theorem allocFrame_cases (hl : limit + pageSize < modulus) (hb : Bounded limit p) :
    (∃ addr rest, p.freeList = addr :: rest ∧
      allocFrame p = (some addr, { p with freeList := rest, free := sub p.free 1 })) ∨
    (p.freeList = [] ∧ (allocFrame p).2.freeList = [] ∧
      ((allocFrame p).1, unbumped (allocFrame p).2) = carve pageSize (unbumped p) ∧
      Bounded limit (allocFrame p).2) := by
  cases hfree : p.freeList with
  | cons addr rest => exact Or.inl ⟨addr, rest, rfl, by simp [allocFrame, hfree]⟩
  | nil =>
      have hloop := bumpLoop_carve (d := fun free => if free > 0 then free - 1 else free)
        hl p.fuel p hb (Nat.lt_succ_self _)
      right
      simp only [allocFrame, hfree] at hloop ⊢
      exact ⟨trivial, hloop.2.2.1, hloop.1, hloop.2.2.2.2⟩

/-- A frame `alloc_frame` returns joins the held frames. -/
theorem Sound.allocFrame (hl : limit + pageSize < modulus) (h : Sound limit p held)
    (ha : FrameAllocator.allocFrame p = (some a, p')) : Sound limit p' (a :: held) := by
  rcases allocFrame_cases hl h.bounded with ⟨addr, rest, hfree, heq⟩ | ⟨hfree, hfree', hcarve, hb⟩
  · obtain ⟨rfl, rfl⟩ : addr = a ∧ _ = p' := by simpa [heq] using ha
    refine ⟨?_, h.bounded.next_le, h.bounded.base_le, h.bounded.end_le⟩
    have hsep := h.separated
    rw [hfree] at hsep
    have hmove : (held ++ addr :: rest).Perm (addr :: held ++ rest) := List.perm_middle
    have hsame : unbumped { p with freeList := rest, free := sub p.free 1 } = unbumped p :=
      unbumped_congr rfl rfl rfl
    rw [hsame]
    exact hsep.perm hmove
  · simp only [ha] at hfree' hcarve hb
    refine ⟨?_, hb⟩
    have hsep := h.separated.carve (n := 1) (a := a) (by decide)
      (by simpa using (congrArg Prod.fst hcarve).symm)
    have hspace : unbumped p' = (carve (1 * pageSize) (unbumped p)).2 := by
      simpa using congrArg Prod.snd hcarve
    simpa [hspace, hfree, hfree', units_one] using hsep

/-- A failed `alloc_frame` leaves the frames where they are. -/
theorem Sound.allocFrame_none (hl : limit + pageSize < modulus) (h : Sound limit p held)
    (ha : FrameAllocator.allocFrame p = (none, p')) : Sound limit p' held := by
  rcases allocFrame_cases hl h.bounded with ⟨addr, rest, _, heq⟩ | ⟨hfree, hfree', hcarve, hb⟩
  · simp [heq] at ha
  · simp only [ha] at hfree' hcarve hb
    refine ⟨?_, hb⟩
    have hspace : unbumped p' = (carve (1 * pageSize) (unbumped p)).2 := by
      simpa using congrArg Prod.snd hcarve
    simpa [hspace, hfree, hfree'] using h.separated.drop 1

/-- What `alloc_contiguous_frames` does when the size of the block does not
overflow. -/
theorem allocContiguousFrames_carve (hl : limit + n * pageSize < modulus)
    (hb : Bounded limit p) :
    ((allocContiguousFrames p n).1, unbumped (allocContiguousFrames p n).2) =
        carve (n * pageSize) (unbumped p) ∧
      (allocContiguousFrames p n).2.freeList = p.freeList ∧
      Bounded limit (allocContiguousFrames p n).2 := by
  have hmul : mul n pageSize = n * pageSize := mul_eq (by omega)
  have hloop := bumpLoop_carve (d := fun free => if free ≥ n then free - n else 0)
    hl p.fuel p hb (Nat.lt_succ_self _)
  simp only [allocContiguousFrames, hmul] at hloop ⊢
  exact ⟨hloop.1, hloop.2.2.1, hloop.2.2.2.2⟩

/-- The frames of a contiguous block join the held frames. -/
theorem Sound.allocContiguousFrames (hl : limit + n * pageSize < modulus)
    (h : Sound limit p held) (ha : FrameAllocator.allocContiguousFrames p n = (some a, p')) :
    Sound limit p' (units pageSize a n ++ held) := by
  obtain ⟨hcarve, hfree, hb⟩ := allocContiguousFrames_carve hl h.bounded
  simp only [ha] at hcarve hfree hb
  refine ⟨?_, hb⟩
  have hsep := h.separated.carve (n := n) (a := a) (by decide)
    (by simpa using (congrArg Prod.fst hcarve).symm)
  have hspace : unbumped p' = (carve (n * pageSize) (unbumped p)).2 := by
    simpa using congrArg Prod.snd hcarve
  simpa [hspace, hfree, List.append_assoc] using hsep

/-- A failed contiguous request leaves the frames where they are. -/
theorem Sound.allocContiguousFrames_none (hl : limit + n * pageSize < modulus)
    (h : Sound limit p held) (ha : FrameAllocator.allocContiguousFrames p n = (none, p')) :
    Sound limit p' held := by
  obtain ⟨hcarve, hfree, hb⟩ := allocContiguousFrames_carve hl h.bounded
  simp only [ha] at hcarve hfree hb
  refine ⟨?_, hb⟩
  have hspace : unbumped p' = (carve (n * pageSize) (unbumped p)).2 := by
    simpa using congrArg Prod.snd hcarve
  simpa [hspace, hfree] using h.separated.drop n

/-- A held frame is not on the free list. -/
theorem Sound.not_mem_freeList (h : Sound limit p held) (ha : a ∈ held) :
    a ∉ p.freeList :=
  fun hfree => (List.nodup_append'.mp h.separated.nodup).2.2 ha hfree

/-- **Freeing an owned frame does not panic**, and the frame leaves the held
frames. -/
theorem Sound.freeFrame (h : Sound limit p held) (ha : a ∈ held) :
    ∃ p', FrameAllocator.freeFrame p a = some p' ∧ Sound limit p' (held.erase a) := by
  refine ⟨_, if_neg (h.not_mem_freeList ha), ?_, h.bounded.next_le, h.bounded.base_le,
    h.bounded.end_le⟩
  have hmove : (held ++ p.freeList).Perm (held.erase a ++ a :: p.freeList) :=
    ((List.perm_cons_erase ha).append_right _).trans List.perm_middle.symm
  exact h.separated.perm hmove

/-- With no frame available, none is handed out, and the other way round. -/
theorem available_of_none (hl : limit + pageSize < modulus) (hb : Bounded limit p)
    (ha : FrameAllocator.allocFrame p = (none, p')) : available p = 0 := by
  rcases allocFrame_cases hl hb with ⟨addr, rest, _, heq⟩ | ⟨hfree, _, hcarve, _⟩
  · simp [heq] at ha
  · simp only [ha] at hcarve
    have hfail : (carve pageSize (unbumped p)).1 = none := (congrArg Prod.fst hcarve).symm
    have hcap := carve_unit_capacity (u := pageSize) (by decide) (unbumped p)
    rw [carve_none hfail, hfail] at hcap
    simp [available, hfree, hcap, capacity]

/-- A single frame is there exactly when the available count is not zero, and
handing it out lowers the count by one. -/
theorem allocFrame_available (hl : limit + pageSize < modulus) (hb : Bounded limit p) :
    available p = available (allocFrame p).2 + (if (allocFrame p).1.isSome then 1 else 0) := by
  rcases allocFrame_cases hl hb with ⟨addr, rest, hfree, heq⟩ | ⟨hfree, hfree', hcarve, _⟩
  · have hsame : unbumped { p with freeList := rest, free := sub p.free 1 } = unbumped p :=
      unbumped_congr rfl rfl rfl
    simp only [available, heq, hsame, hfree, List.length_cons, Option.isSome_some, if_true]
    omega
  · have hcap := carve_unit_capacity (u := pageSize) (by decide) (unbumped p)
    rw [← hcarve] at hcap
    simpa [available, hfree, hfree'] using hcap

end

end FrameAllocator
