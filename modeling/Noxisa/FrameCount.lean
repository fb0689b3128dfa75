import Noxisa.FrameOwnership

/-!
# What the free count counts

`free_frames` reports a counter that the allocator adjusts by hand: one less
for a frame, `n` less for a block but never below zero, one more for a freed
frame.  `Counted` says that the counter is right as a balance: the counter and
the held frames add up to the same total all the time.  It needs that the
counter is never smaller than what can be handed out, so that no difference is
cut off at zero.

Boot establishes this if `init` has found a region to start in
(`MemoryMap.Starts`).  If it has not, the pointer starts at zero and hands out
frames that were never counted.
-/

namespace FrameAllocator

open MachineWord RangePool

/-- **The counter is a balance.** -/
structure Counted (total : Nat) (p : Pmm) (held : List Nat) : Prop where
  balance : p.free + held.length = total
  room : available p ≤ p.free

section

variable {limit total : Nat} {p p' : Pmm} {held held' : List Nat} {a n : Nat}

/-- The count is about how many frames are held. -/
theorem Counted.perm (h : Counted total p held) (hp : held.Perm held') : Counted total p held' :=
  ⟨hp.length_eq ▸ h.balance, h.room⟩

/-- A frame is handed out, and the count is one less. -/
theorem Counted.allocFrame (hl : limit + pageSize < modulus) (ht : total < modulus)
    (hb : Bounded limit p) (h : Counted total p held)
    (ha : FrameAllocator.allocFrame p = (some a, p')) : Counted total p' (a :: held) := by
  have havail := allocFrame_available hl hb
  rw [ha] at havail
  have hbalance := h.balance
  have hroom := h.room
  have hfree : p'.free = p.free - 1 := by
    cases hlist : p.freeList with
    | cons addr rest =>
        simp only [FrameAllocator.allocFrame, hlist, Prod.mk.injEq] at ha
        rw [← ha.2]
        exact sub_eq (by omega) (by simp only [Option.isSome_some, if_true] at havail; omega)
    | nil =>
        have hloop := bumpLoop_carve (d := fun free => if free > 0 then free - 1 else free)
          hl p.fuel p hb (Nat.lt_succ_self _)
        simp only [FrameAllocator.allocFrame, hlist] at ha
        rw [ha] at hloop
        rw [hloop.2.2.2.1]
        simp only [Option.isSome_some, if_true]
        split <;> omega
  simp only [Option.isSome_some, if_true] at havail
  refine ⟨?_, ?_⟩
  · rw [hfree, List.length_cons]
    omega
  · omega

/-- A refused request leaves the counter. -/
theorem allocFrame_none_free (hl : limit + pageSize < modulus) (hb : Bounded limit p)
    (ha : FrameAllocator.allocFrame p = (none, p')) : p'.free = p.free := by
  cases hlist : p.freeList with
  | cons addr rest => simp [FrameAllocator.allocFrame, hlist] at ha
  | nil =>
      have hloop := bumpLoop_carve (d := fun free => if free > 0 then free - 1 else free)
        hl p.fuel p hb (Nat.lt_succ_self _)
      simp only [FrameAllocator.allocFrame, hlist] at ha
      rw [ha] at hloop
      exact hloop.2.2.2.1

/-- None is left, and the count is what it was. -/
theorem Counted.allocFrame_none (hl : limit + pageSize < modulus) (hb : Bounded limit p)
    (h : Counted total p held) (ha : FrameAllocator.allocFrame p = (none, p')) :
    Counted total p' held := by
  have havail := allocFrame_available hl hb
  rw [ha] at havail
  have hroom := h.room
  have hfree := allocFrame_none_free hl hb ha
  simp only [Option.isSome_none, Bool.false_eq_true, if_false] at havail
  exact ⟨hfree ▸ h.balance, by omega⟩

/-- What a contiguous request does to the counter and to what is available. -/
theorem allocContiguousFrames_count (hl : limit + n * pageSize < modulus) (hb : Bounded limit p) :
    (allocContiguousFrames p n).2.free =
        (if (allocContiguousFrames p n).1.isSome then
          (if p.free ≥ n then p.free - n else 0) else p.free) ∧
      available (allocContiguousFrames p n).2 +
        (if (allocContiguousFrames p n).1.isSome then n else 0) ≤ available p := by
  have hmul : mul n pageSize = n * pageSize := mul_eq (by omega)
  have hloop := bumpLoop_carve (d := fun free => if free ≥ n then free - n else 0)
    hl p.fuel p hb (Nat.lt_succ_self _)
  have hcap := carve_units_capacity (u := pageSize) (by decide) n (unbumped p)
  simp only [allocContiguousFrames, hmul, available] at hloop ⊢
  rw [← hloop.1] at hcap
  dsimp only at hcap
  refine ⟨hloop.2.2.2.1, ?_⟩
  rw [hloop.2.2.1]
  omega

/-- A block is handed out. -/
theorem Counted.allocContiguousFrames (hl : limit + n * pageSize < modulus)
    (hb : Bounded limit p) (h : Counted total p held)
    (ha : FrameAllocator.allocContiguousFrames p n = (some a, p')) :
    Counted total p' (units pageSize a n ++ held) := by
  obtain ⟨hfree, havail⟩ := allocContiguousFrames_count hl hb
  have hbalance := h.balance
  have hroom := h.room
  rw [ha] at hfree havail
  simp only [Option.isSome_some, if_true] at hfree havail
  have hlen : (units pageSize a n).length = n := by simp [units]
  rw [if_pos (by omega)] at hfree
  refine ⟨?_, ?_⟩
  · rw [List.length_append, hlen]
    omega
  · omega

/-- None is to be had. -/
theorem Counted.allocContiguousFrames_none (hl : limit + n * pageSize < modulus)
    (hb : Bounded limit p) (h : Counted total p held)
    (ha : FrameAllocator.allocContiguousFrames p n = (none, p')) : Counted total p' held := by
  obtain ⟨hfree, havail⟩ := allocContiguousFrames_count hl hb
  have hroom := h.room
  rw [ha] at hfree havail
  simp only [Option.isSome_none, Bool.false_eq_true, if_false] at hfree havail
  exact ⟨hfree ▸ h.balance, by omega⟩

/-- A frame is given back. -/
theorem Counted.freeFrame (ht : total < modulus) (h : Counted total p held) (ha : a ∈ held)
    (hf : FrameAllocator.freeFrame p a = some p') : Counted total p' (held.erase a) := by
  have hbalance := h.balance
  have hroom := h.room
  have hlen := List.length_pos_of_mem ha
  unfold FrameAllocator.freeFrame at hf
  split at hf
  next => cases hf
  next =>
    obtain rfl := Option.some.inj hf
    have hadd : add p.free 1 = p.free + 1 := add_eq (by omega)
    have havail : available { p with freeList := a :: p.freeList, free := add p.free 1 } =
        available p + 1 := by
      have hspace : unbumped { p with freeList := a :: p.freeList, free := add p.free 1 } =
          unbumped p := unbumped_congr rfl rfl rfl
      rw [available, hspace, available, List.length_cons]
      omega
    refine ⟨?_, ?_⟩
    · simp only [hadd, List.length_erase_of_mem ha]
      omega
    · rw [havail]
      dsimp only
      omega

end

/-- `init` finds a region to start in: one of the regions that `add_region` has
kept ends above 1 MiB. -/
def MemoryMap.Starts {limit : Nat} (m : MemoryMap limit) : Prop :=
  ∃ r ∈ (bootPmm m).regions, 0x100000 < r.end_

/-- Regions with the frames that have been counted for them. -/
structure RegionsCounted (p : Pmm) : Prop where
  count : p.free = capacity pageSize (p.regions.map Region.range)
  sized : ∀ r ∈ p.regions, r.base ≤ r.end_

section

variable {limit : Nat}

/-- The frames of ascending regions below `limit`. -/
theorem RegionsOk.capacity_le {rs : List Region} (h : RegionsOk limit rs)
    (hsized : ∀ r ∈ rs, r.base ≤ r.end_) :
    capacity pageSize (rs.map Region.range) * pageSize ≤ limit := by
  have hasc : Ascending (rs.map Region.range) := List.pairwise_map.mpr h.ascending
  have hle := @RangePool.capacity_le pageSize limit (rs.map Region.range) 0 hasc
    (Nat.zero_le _) (fun _ _ => Nat.zero_le _) (fun s hs => ?_)
  · rwa [Nat.sub_zero] at hle
  · obtain ⟨r, hr, rfl⟩ := List.mem_map.mp hs
    exact ⟨hsized r hr, h.end_le r hr⟩

/-- Another region is counted once. -/
theorem RegionsCounted.addRegion (hl : limit + pageSize < modulus) {p : Pmm} {base len : Nat}
    (hend : base + len ≤ limit) (h : RegionsCounted p)
    (hok : RegionsOk limit (FrameAllocator.addRegion p base len).regions) :
    RegionsCounted (FrameAllocator.addRegion p base len) := by
  rcases addRegion_cases hl p hend with heq | ⟨r, heq, -, -, hsize, -⟩
  · rw [heq]
    exact h
  · rw [heq] at hok ⊢
    have hsized : ∀ s ∈ p.regions ++ [r], s.base ≤ s.end_ := by
      intro s hs
      rcases List.mem_append.mp hs with hs | hs
      · exact h.sized s hs
      · rw [List.mem_singleton.mp hs]
        exact (Nat.le_add_right _ _).trans hsize
    have hcap : capacity pageSize ((p.regions ++ [r]).map Region.range) =
        p.free + (r.end_ - r.base) / pageSize := by
      rw [List.map_append, capacity_append, ← h.count]
      rfl
    have hbound := hok.capacity_le hsized
    rw [hcap] at hbound
    refine ⟨?_, hsized⟩
    change add p.free ((r.end_ - r.base) / pageSize) = _
    rw [hcap]
    refine add_eq ?_
    have hfits := Nat.le_mul_of_pos_right (p.free + (r.end_ - r.base) / pageSize)
      (show 0 < pageSize by decide)
    omega

/-- The regions that `init` finds at boot. -/
theorem bootPmm_regions (hl : limit + pageSize < modulus) (m : MemoryMap limit) :
    ∃ p, bootPmm m = init p ∧ RegionsOk limit p.regions ∧ RegionsCounted p ∧ p.freeList = [] := by
  obtain ⟨hok, hcounted, hfree⟩ := addRegion_foldl_ok hl
    (I := fun p => RegionsCounted p ∧ p.freeList = [])
    (fun p base len hbound hp hok' => ⟨hp.1.addRegion hl hbound hok',
      (addRegion_rest p base len).2.2.trans hp.2⟩)
    m.entries Pmm.empty m.ascending m.bounded regionsOk_empty
    ⟨⟨rfl, by simp [Pmm.empty]⟩, rfl⟩ (by simp [Pmm.empty])
  exact ⟨_, rfl, hok, hcounted, hfree⟩

/-- `init` does not count. -/
theorem init_free (p : Pmm) : (init p).free = p.free := by
  unfold init; split <;> rfl

/-- At boot not more is counted than there are addresses. -/
theorem bootPmm_free_le (hl : limit + pageSize < modulus) (m : MemoryMap limit) :
    (bootPmm m).free ≤ limit := by
  obtain ⟨p, hp, hok, hcounted, -⟩ := bootPmm_regions hl m
  have hbound := hok.capacity_le hcounted.sized
  rw [← hcounted.count] at hbound
  rw [hp, init_free]
  exact (Nat.le_mul_of_pos_right _ (by decide)).trans hbound

/-- **Boot starts a balance**, if there is a region to start in. -/
theorem bootPmm_counted (hl : limit + pageSize < modulus) (m : MemoryMap limit) (hm : m.Starts) :
    Counted (bootPmm m).free (bootPmm m) [] := by
  obtain ⟨r, hr, hend⟩ := hm
  obtain ⟨p, hp, hok, hcounted, hfree⟩ := bootPmm_regions hl m
  rw [hp, init_regions] at hr
  rw [hp]
  unfold init
  cases hfind : p.regions.findIdx? (fun r => decide (r.end_ > 0x100000)) with
  | none =>
      have hnone := List.findIdx?_eq_none_iff.mp hfind r hr
      simp only [gt_iff_lt, decide_eq_false_iff_not, not_lt] at hnone
      omega
  | some i =>
      obtain ⟨hlt, -⟩ := List.findIdx?_eq_some_iff_getElem.mp hfind
      refine ⟨rfl, ?_⟩
      -- what is behind `next` has been counted
      have hdrop : capacity pageSize (p.regions.map Region.range) =
          capacity pageSize ((p.regions.take i).map Region.range) +
            ((p.regions[i].end_ - p.regions[i].base) / pageSize +
              capacity pageSize ((p.regions.drop (i + 1)).map Region.range)) := by
        conv_lhs => rw [← List.take_append_drop i p.regions, List.drop_eq_getElem_cons hlt]
        rw [List.map_append, capacity_append, List.map_cons]
        rfl
      have hfirst : (p.regions[i].end_ - max p.regions[i].base 0x300000) / pageSize ≤
          (p.regions[i].end_ - p.regions[i].base) / pageSize :=
        Nat.div_le_div_right (by omega)
      have hget : p.regions[i]? = some p.regions[i] := List.getElem?_eq_getElem hlt
      have hcount := hcounted.count
      simp only [available, hfree, List.length_nil, unbumped, hget, Option.elim_some, capacity]
      omega

end

/-- What does not change in a run: memory below `limit`, the total of the free
count and all held frames, and whether that total is right. -/
structure Account where
  limit : Nat
  total : Nat
  starts : Prop

/-- **A ledger**: the `held` frames are all that the allocator has given away,
and the free count is a balance if the allocator has started right. -/
structure Ledger (a : Account) (p : Pmm) (held : List Nat) : Prop where
  sound : Sound a.limit p held
  counted : a.starts → Counted a.total p held

section

variable {a : Account} {p p' : Pmm} {held held' : List Nat} {f n : Nat}

/-- The order of the held frames does not matter to the books. -/
theorem Ledger.perm (h : Ledger a p held) (hp : held.Perm held') : Ledger a p held' :=
  ⟨h.sound.perm hp, fun hs => (h.counted hs).perm hp⟩

/-- An allocation, whatever it returns. -/
theorem Ledger.allocFrame (hl : a.limit + pageSize < modulus) (ht : a.total < modulus)
    {o : Option Nat} (h : Ledger a p held) (ha : FrameAllocator.allocFrame p = (o, p')) :
    Ledger a p' (o.toList ++ held) := by
  cases o with
  | none =>
      exact ⟨h.sound.allocFrame_none hl ha,
        fun hs => (h.counted hs).allocFrame_none hl h.sound.bounded ha⟩
  | some f =>
      exact ⟨h.sound.allocFrame hl ha,
        fun hs => (h.counted hs).allocFrame hl ht h.sound.bounded ha⟩

/-- The frames of a block, if it was handed out. -/
def blockFrames (o : Option Nat) (n : Nat) : List Nat :=
  (o.map (fun base => units pageSize base n)).getD []

/-- A block, whatever is returned. -/
theorem Ledger.allocContiguousFrames (hl : a.limit + n * pageSize < modulus) {o : Option Nat}
    (h : Ledger a p held) (ha : FrameAllocator.allocContiguousFrames p n = (o, p')) :
    Ledger a p' (blockFrames o n ++ held) := by
  cases o with
  | none =>
      exact ⟨h.sound.allocContiguousFrames_none hl ha,
        fun hs => (h.counted hs).allocContiguousFrames_none hl h.sound.bounded ha⟩
  | some base =>
      exact ⟨h.sound.allocContiguousFrames hl ha,
        fun hs => (h.counted hs).allocContiguousFrames hl h.sound.bounded ha⟩

/-- Giving a held frame back. -/
theorem Ledger.freeFrame (ht : a.total < modulus) (h : Ledger a p (f :: held)) :
    ∃ p', FrameAllocator.freeFrame p f = some p' ∧ p'.freeList = f :: p.freeList ∧
      Ledger a p' held := by
  obtain ⟨p', hp', hsound⟩ := h.sound.freeFrame List.mem_cons_self
  rw [List.erase_cons_head] at hsound
  refine ⟨p', hp', ?_, hsound, fun hs => ?_⟩
  · unfold FrameAllocator.freeFrame at hp'
    split at hp'
    next => cases hp'
    next => exact Option.some.inj hp' ▸ rfl
  · have hcounted := (h.counted hs).freeFrame ht List.mem_cons_self hp'
    rwa [List.erase_cons_head] at hcounted

end

end FrameAllocator
