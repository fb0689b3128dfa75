import Noxisa.TransitionSystem
import Noxisa.FrameAllocator

/-!
# No frame has two owners

The boot code feeds the usable entries of the memory map to `add_region`, calls
`init`, and from then on callers allocate single frames and contiguous blocks
and give frames back one by one.  A `World` is the allocator together with the
live allocations, each as the list of its frames that have not been freed.

The invariant of a run is `FrameAllocator.Sound` for the frames of all live
allocations.  It is established by `bootPmm_sound`, kept by every operation
(`world_step_sound`), and read off as `OneOwner`.
-/

namespace FrameAllocator

open MachineWord RangePool

/-- A usable entry of the boot loader's memory map. -/
structure MemoryEntry where
  base : Nat
  length : Nat

/-- Usable memory as the boot loader reports it: ascending and disjoint entries
that end at or below `limit`. -/
structure MemoryMap (limit : Nat) where
  entries : List MemoryEntry
  ascending : entries.Pairwise (fun e f => e.base + e.length ≤ f.base)
  bounded : ∀ e ∈ entries, e.base + e.length ≤ limit

/-- `add_region` for every entry, then `init`. -/
def bootPmm {limit : Nat} (m : MemoryMap limit) : Pmm :=
  init (m.entries.foldl (fun p e => addRegion p e.base e.length) Pmm.empty)

/-- Regions as `add_region` leaves them. -/
structure RegionsOk (limit : Nat) (rs : List Region) : Prop where
  aligned : ∀ r ∈ rs, pageSize ∣ r.base
  base_le : ∀ r ∈ rs, r.base ≤ limit
  end_le : ∀ r ∈ rs, r.end_ ≤ limit
  ascending : rs.Pairwise (fun r s => r.end_ ≤ s.base)

section

variable {limit : Nat}

/-- `add_region` ignores an entry or appends the whole pages inside it. -/
theorem addRegion_cases (hl : limit + pageSize < modulus) (p : Pmm) {base len : Nat}
    (hend : base + len ≤ limit) :
    addRegion p base len = p ∨
    ∃ r, addRegion p base len =
        { p with
          free := add p.free ((r.end_ - r.base) / pageSize)
          regions := p.regions ++ [r] } ∧
      pageSize ∣ r.base ∧ base ≤ r.base ∧ r.base + pageSize ≤ r.end_ ∧ r.end_ ≤ base + len := by
  have hround : sub (add base pageSize) 1 = base + 4095 := by
    rw [add_eq (by omega), sub_eq (by omega) (by unfold pageSize; omega)]
    rfl
  have hpage : pageSize = 4096 := rfl
  have hbase : pageMask (base + 4095) = (base + 4095) / 4096 * 4096 := pageMask_eq (by omega)
  have hlast : pageMask (add base len) = (base + len) / 4096 * 4096 := by
    rw [add_eq (by omega), pageMask_eq (by omega)]
  unfold addRegion
  rw [hround, hbase, hlast]
  split
  · exact Or.inl rfl
  · dsimp only
    split
    · exact Or.inl rfl
    · refine Or.inr ⟨_, rfl, Dvd.intro_left _ rfl, ?_, ?_, ?_⟩ <;> dsimp only <;> omega

/-- `add_region` leaves the pointers and the free list alone. -/
theorem addRegion_rest (p : Pmm) (base len : Nat) :
    (addRegion p base len).cur = p.cur ∧ (addRegion p base len).next = p.next ∧
      (addRegion p base len).freeList = p.freeList := by
  unfold addRegion
  split
  · exact ⟨rfl, rfl, rfl⟩
  · dsimp only
    split <;> exact ⟨rfl, rfl, rfl⟩

/-- One entry behind all regions built so far. -/
theorem addRegion_ok (hl : limit + pageSize < modulus) {p : Pmm} {e : MemoryEntry}
    (hend : e.base + e.length ≤ limit) (hok : RegionsOk limit p.regions)
    (hbefore : ∀ r ∈ p.regions, r.end_ ≤ e.base) :
    RegionsOk limit (addRegion p e.base e.length).regions ∧
      ∀ r ∈ (addRegion p e.base e.length).regions, r.end_ ≤ e.base + e.length := by
  rcases addRegion_cases hl p hend with heq | ⟨r, heq, halign, hlo, hle, hhi⟩
  · rw [heq]
    exact ⟨hok, fun r hr => (hbefore r hr).trans (Nat.le_add_right _ _)⟩
  · rw [heq]
    refine ⟨⟨?_, ?_, ?_, ?_⟩, ?_⟩
    · intro s hs
      rcases List.mem_append.mp hs with hs | hs
      · exact hok.aligned s hs
      · exact List.mem_singleton.mp hs ▸ halign
    · intro s hs
      rcases List.mem_append.mp hs with hs | hs
      · exact hok.base_le s hs
      · obtain rfl := List.mem_singleton.mp hs
        omega
    · intro s hs
      rcases List.mem_append.mp hs with hs | hs
      · exact hok.end_le s hs
      · obtain rfl := List.mem_singleton.mp hs
        omega
    · refine List.pairwise_append.mpr ⟨hok.ascending, List.pairwise_singleton _ _, ?_⟩
      intro s hs t ht
      obtain rfl := List.mem_singleton.mp ht
      exact (hbefore s hs).trans hlo
    · intro s hs
      rcases List.mem_append.mp hs with hs | hs
      · exact (hbefore s hs).trans (Nat.le_add_right _ _)
      · obtain rfl := List.mem_singleton.mp hs
        exact hhi

/-- Feeding the entries to `add_region` keeps the regions ascending: every
region built so far ends where the entries still to come begin.  It keeps
whatever else a single call keeps. -/
theorem addRegion_foldl_ok (hl : limit + pageSize < modulus) {I : Pmm → Prop}
    (hI : ∀ p base len, base + len ≤ limit → I p →
      RegionsOk limit (addRegion p base len).regions → I (addRegion p base len)) :
    ∀ (es : List MemoryEntry) (p : Pmm),
      es.Pairwise (fun e f => e.base + e.length ≤ f.base) →
      (∀ e ∈ es, e.base + e.length ≤ limit) →
      RegionsOk limit p.regions → I p →
      (∀ r ∈ p.regions, ∀ e ∈ es, r.end_ ≤ e.base) →
      let q := es.foldl (fun p e => addRegion p e.base e.length) p
      RegionsOk limit q.regions ∧ I q := by
  intro es
  induction es with
  | nil => exact fun p _ _ hok hp _ => ⟨hok, hp⟩
  | cons e es ih =>
      intro p hasc hbound hok hp hlater
      have hasc' := List.pairwise_cons.mp hasc
      have hend := hbound e List.mem_cons_self
      obtain ⟨hok', hlast⟩ := addRegion_ok hl hend hok (fun r hr => hlater r hr e List.mem_cons_self)
      rw [List.foldl_cons]
      refine ih _ hasc'.2 (fun f hf => hbound f (List.mem_cons_of_mem _ hf)) hok'
        (hI p _ _ hend hp hok') ?_
      exact fun r hr f hf => (hlast r hr).trans (hasc'.1 f hf)

/-- Ascending regions and an aligned `next` make ascending ranges that start on
pages. -/
theorem RegionsOk.separated {p : Pmm} (h : RegionsOk limit p.regions)
    (hnext : pageSize ∣ p.next) (hfree : p.freeList = []) :
    Separated pageSize limit ([] ++ p.freeList) (unbumped p) := by
  have hrest : ∀ s ∈ (p.regions.drop (p.cur + 1)).map Region.range, pageSize ∣ s.lo := by
    intro s hs
    obtain ⟨r, hr, rfl⟩ := List.mem_map.mp hs
    exact h.aligned r (List.mem_of_mem_drop hr)
  have hlast : ∀ s ∈ (p.regions.drop (p.cur + 1)).map Region.range, s.hi ≤ limit := by
    intro s hs
    obtain ⟨r, hr, rfl⟩ := List.mem_map.mp hs
    exact h.end_le r (List.mem_of_mem_drop hr)
  refine ⟨by simp [hfree], by simp [hfree], by simp [hfree], by simp [hfree], ?_, ?_, ?_⟩
  · unfold unbumped
    split
    · simp
    · intro s hs
      rcases List.mem_cons.mp hs with rfl | hs
      · exact hnext
      · exact hrest s hs
  · unfold unbumped
    split
    · simp
    next r hr =>
      intro s hs
      rcases List.mem_cons.mp hs with rfl | hs
      · exact h.end_le r (List.mem_of_getElem? hr)
      · exact hlast s hs
  · unfold unbumped
    split
    next => exact List.Pairwise.nil
    next r hr =>
      obtain ⟨hlt, hget⟩ := List.getElem?_eq_some_iff.mp hr
      have hdrop : (p.regions.drop p.cur).Pairwise (fun r s => r.end_ ≤ s.base) :=
        h.ascending.sublist (List.drop_sublist _ _)
      rw [List.drop_eq_getElem_cons hlt, hget] at hdrop
      have hsplit := List.pairwise_cons.mp hdrop
      refine List.pairwise_cons.mpr ⟨?_, List.pairwise_map.mpr hsplit.2⟩
      intro s hs
      obtain ⟨q, hq, rfl⟩ := List.mem_map.mp hs
      exact hsplit.1 q hq

/-- `init` starts on a page, at most at `limit`. -/
theorem init_next {p : Pmm} (hok : RegionsOk limit p.regions) (hl : 0x300000 ≤ limit)
    (hnext : p.next = 0) : pageSize ∣ (init p).next ∧ (init p).next ≤ limit := by
  unfold init
  split
  next i hi =>
    have hlt := (List.findIdx?_eq_some_iff_getElem.mp hi).1
    have hmem : p.regions[i] ∈ p.regions := List.getElem_mem hlt
    have halign := hok.aligned _ hmem
    have hle := hok.base_le _ hmem
    simp only [List.getElem?_eq_getElem hlt, Option.elim_some]
    rcases Nat.le_total p.regions[i].base 0x300000 with h | h
    · rw [max_eq_right h]
      exact ⟨by decide, hl⟩
    · rw [max_eq_left h]
      exact ⟨halign, hle⟩
  next => simp [hnext]

/-- `init` picks a region and changes none. -/
theorem init_regions (p : Pmm) : (init p).regions = p.regions := by
  unfold init; split <;> rfl

/-- `init` frees nothing. -/
theorem init_freeList (p : Pmm) : (init p).freeList = p.freeList := by
  unfold init; split <;> rfl

/-- There are no regions before the first entry. -/
theorem regionsOk_empty : RegionsOk limit Pmm.empty.regions := by
  constructor <;> simp [Pmm.empty]

/-- **Boot establishes the allocator invariant** with no frame held. -/
theorem bootPmm_sound (hl : limit + pageSize < modulus) (hlow : 0x300000 ≤ limit)
    (m : MemoryMap limit) : Sound limit (bootPmm m) [] := by
  obtain ⟨hok, hnext, hfree⟩ := addRegion_foldl_ok hl
    (I := fun p => p.next = 0 ∧ p.freeList = [])
    (fun p base len _ hp _ => ⟨(addRegion_rest p base len).2.1.trans hp.1,
      (addRegion_rest p base len).2.2.trans hp.2⟩)
    m.entries Pmm.empty m.ascending m.bounded regionsOk_empty ⟨rfl, rfl⟩ (by simp [Pmm.empty])
  obtain ⟨halign, hle⟩ := init_next hok hlow hnext
  have hregions : (bootPmm m).regions = _ := init_regions _
  rw [← hregions] at hok
  exact ⟨hok.separated halign ((init_freeList _).trans hfree), hle, hok.base_le, hok.end_le⟩

end

/-- The allocator and, for each live allocation, its frames not freed so far. -/
structure World where
  pmm : Pmm
  live : List (List Nat)

/-- The calls of the allocator; a frame is freed by one of the owners. -/
inductive Op
  | allocFrame
  | allocContiguousFrames (n : Nat)
  | freeFrame (owner addr : Nat)
deriving DecidableEq

/-- One call by a caller that keeps to the contract: a block is at most `2 ^ 20`
frames, and only a frame of a live allocation is freed.  `none` for a call
outside the contract, and for the double-free panic. -/
def World.next (w : World) : Op → Option World
  | .allocFrame =>
      match allocFrame w.pmm with
      | (some addr, p) => some ⟨p, [addr] :: w.live⟩
      | (none, p) => some ⟨p, w.live⟩
  | .allocContiguousFrames n =>
      if n ≤ 2 ^ 20 then
        match allocContiguousFrames w.pmm n with
        | (some addr, p) => some ⟨p, units pageSize addr n :: w.live⟩
        | (none, p) => some ⟨p, w.live⟩
      else none
  | .freeFrame owner addr =>
      if addr ∈ w.live.getD owner [] then
        (freeFrame w.pmm addr).map (fun p => ⟨p, w.live.modify owner (·.erase addr)⟩)
      else none

/-- Runs of the allocator from a memory map. -/
def frameSystem {limit : Nat} (m : MemoryMap limit) : TransitionSystem World Op where
  boot := fun w => w = ⟨bootPmm m, []⟩
  next := World.next

/-- The bytes of the frame at `f`. -/
def frameBytes (f : Nat) : Set Nat := Set.Ico f (f + pageSize)

/-- The bytes from `next` to the end of region `cur` and of all later regions. -/
def unbumpedBytes (p : Pmm) : Set Nat :=
  {x | (∃ r, p.regions[p.cur]? = some r ∧ p.next ≤ x ∧ x < r.end_) ∨
    ∃ j r, p.cur < j ∧ p.regions[j]? = some r ∧ r.base ≤ x ∧ x < r.end_}

/-- Live frames, freed frames and unbumped memory are pairwise disjoint, and no
frame is live twice or freed twice. -/
structure OneOwner (w : World) : Prop where
  live_nodup : w.live.flatten.Nodup
  live_apart : ∀ f ∈ w.live.flatten, ∀ g ∈ w.live.flatten, f ≠ g →
    Disjoint (frameBytes f) (frameBytes g)
  free_nodup : w.pmm.freeList.Nodup
  free_apart : ∀ f ∈ w.pmm.freeList, ∀ g ∈ w.pmm.freeList, f ≠ g →
    Disjoint (frameBytes f) (frameBytes g)
  live_free : ∀ f ∈ w.live.flatten, ∀ g ∈ w.pmm.freeList,
    Disjoint (frameBytes f) (frameBytes g)
  live_unbumped : ∀ f ∈ w.live.flatten, Disjoint (frameBytes f) (unbumpedBytes w.pmm)
  free_unbumped : ∀ f ∈ w.pmm.freeList, Disjoint (frameBytes f) (unbumpedBytes w.pmm)

/-- `unbumped` lists exactly the unbumped bytes. -/
theorem space_unbumped (p : Pmm) : space (unbumped p) = unbumpedBytes p := by
  ext x
  cases hr : p.regions[p.cur]? with
  | none =>
      have hlen := List.getElem?_eq_none_iff.mp hr
      simp only [unbumped, hr, space, unbumpedBytes, Set.mem_ofPred_eq]
      constructor
      · rintro ⟨r, hr, _⟩; cases hr
      · rintro (⟨r, h, _⟩ | ⟨j, r, hj, h, _⟩)
        · cases h
        · have := (List.getElem?_eq_some_iff.mp h).1
          omega
  | some r =>
      simp only [unbumped, hr, space, unbumpedBytes, Set.mem_ofPred_eq, List.mem_cons,
        List.mem_map, Option.some.injEq]
      constructor
      · rintro ⟨s, rfl | ⟨q, hq, rfl⟩, hlo, hhi⟩
        · exact Or.inl ⟨r, rfl, hlo, hhi⟩
        · obtain ⟨i, hi⟩ := List.mem_iff_getElem?.mp hq
          rw [List.getElem?_drop] at hi
          exact Or.inr ⟨_, q, by omega, hi, hlo, hhi⟩
      · rintro (⟨s, rfl, hlo, hhi⟩ | ⟨j, q, hj, hq, hlo, hhi⟩)
        · exact ⟨_, Or.inl rfl, hlo, hhi⟩
        · refine ⟨_, Or.inr ⟨q, List.mem_iff_getElem?.mpr ⟨j - (p.cur + 1), ?_⟩, rfl⟩, hlo, hhi⟩
          rw [List.getElem?_drop]
          rwa [Nat.add_sub_cancel' hj]

/-- What the allocator invariant says about owners. -/
theorem Sound.oneOwner {limit : Nat} {w : World} (h : Sound limit w.pmm w.live.flatten) :
    OneOwner w := by
  have hsep := h.separated
  have hnd := List.nodup_append'.mp hsep.nodup
  have hlive : ∀ f ∈ w.live.flatten, f ∈ w.live.flatten ++ w.pmm.freeList :=
    fun f hf => List.mem_append_left _ hf
  have hfree : ∀ f ∈ w.pmm.freeList, f ∈ w.live.flatten ++ w.pmm.freeList :=
    fun f hf => List.mem_append_right _ hf
  refine ⟨hnd.1, ?_, hnd.2.1, ?_, ?_, ?_, ?_⟩
  · exact fun f hf g hg hne => hsep.apart (hlive f hf) (hlive g hg) hne
  · exact fun f hf g hg hne => hsep.apart (hfree f hf) (hfree g hg) hne
  · exact fun f hf g hg => hsep.apart (hlive f hf) (hfree g hg)
      (fun heq => hnd.2.2 hf (heq ▸ hg))
  · exact fun f hf => space_unbumped w.pmm ▸ hsep.outside f (hlive f hf)
  · exact fun f hf => space_unbumped w.pmm ▸ hsep.outside f (hfree f hf)

/-- The frame at `f` is memory that the allocator cannot hand out. -/
structure InUse (limit : Nat) (p : Pmm) (f : Nat) : Prop where
  inside : f + pageSize ≤ limit
  not_free : f ∉ p.freeList
  not_unbumped : Disjoint (frameBytes f) (unbumpedBytes p)

/-- One more frame is held. -/
theorem Sound.cons {limit : Nat} {p : Pmm} {held : List Nat} (h : Sound limit p held) {f : Nat}
    (haligned : pageSize ∣ f) (hf : InUse limit p f) (hmem : f ∉ held) :
    Sound limit p (f :: held) := by
  have hnew : f ∉ held ++ p.freeList := fun hf' =>
    (List.mem_append.mp hf').elim hmem hf.not_free
  have hout : Disjoint (Set.Ico f (f + pageSize)) (space (unbumped p)) :=
    (space_unbumped p).symm ▸ hf.not_unbumped
  exact ⟨
    { nodup := List.nodup_cons.mpr ⟨hnew, h.separated.nodup⟩
      aligned := List.forall_mem_cons.mpr ⟨haligned, h.separated.aligned⟩
      inside := List.forall_mem_cons.mpr ⟨hf.inside, h.separated.inside⟩
      outside := List.forall_mem_cons.mpr ⟨hout, h.separated.outside⟩
      starts := h.separated.starts
      ends := h.separated.ends
      ascending := h.separated.ascending }, h.bounded⟩

/-- A frame in use can be counted among the held ones. -/
theorem Sound.hold {limit : Nat} {p : Pmm} {held : List Nat} (h : Sound limit p held) {f : Nat}
    (haligned : pageSize ∣ f) (hf : InUse limit p f) :
    ∃ held', f ∈ held' ∧ Sound limit p held' := by
  by_cases hmem : f ∈ held
  · exact ⟨held, hmem, h⟩
  · exact ⟨f :: held, List.mem_cons_self, h.cons haligned hf hmem⟩

/-- An owner of a frame is a live allocation. -/
theorem owner_lt {live : List (List Nat)} {owner addr : Nat}
    (h : addr ∈ live.getD owner []) : owner < live.length := by
  by_contra hge
  rw [List.getD_eq_default _ _ (Nat.le_of_not_lt hge)] at h
  cases h

/-- The frames of one owner are among those of all. -/
theorem mem_flatten_of_owner {live : List (List Nat)} {owner addr : Nat}
    (h : addr ∈ live.getD owner []) : addr ∈ live.flatten := by
  have hlt := owner_lt h
  rw [List.getD_eq_getElem _ _ hlt] at h
  exact List.mem_flatten.mpr ⟨_, List.getElem_mem hlt, h⟩

/-- Freeing a frame takes it out of the live frames. -/
theorem flatten_modify_erase (live : List (List Nat)) {owner addr : Nat}
    (h : addr ∈ live.getD owner []) :
    (live.flatten.erase addr).Perm (live.modify owner (·.erase addr)).flatten := by
  have hlt := owner_lt h
  rw [List.getD_eq_getElem _ _ hlt] at h
  have hsplit : live = live.take owner ++ live[owner] :: live.drop (owner + 1) := by
    rw [← List.drop_eq_getElem_cons hlt, List.take_append_drop]
  have hperm : live.flatten.Perm (addr :: (live.modify owner (·.erase addr)).flatten) := by
    rw [List.modify_eq_take_cons_drop hlt]
    conv_lhs => rw [hsplit]
    simp only [List.flatten_append, List.flatten_cons]
    refine (((List.perm_cons_erase h).append_right _).append_left _).trans ?_
    simp
  have herase := hperm.erase addr
  rwa [List.erase_cons_head] at herase

/-- **One operation keeps the allocator invariant.** -/
theorem world_step_sound {limit : Nat} (hl : limit + 2 ^ 20 * pageSize < modulus)
    {w w' : World} {op : Op} (h : Sound limit w.pmm w.live.flatten)
    (hnext : w.next op = some w') : Sound limit w'.pmm w'.live.flatten := by
  have hone : limit + pageSize < modulus := by
    unfold pageSize at hl ⊢; omega
  cases op with
  | allocFrame =>
      simp only [World.next] at hnext
      split at hnext
      next addr p heq =>
        obtain rfl := Option.some.inj hnext
        exact h.allocFrame hone heq
      next p heq =>
        obtain rfl := Option.some.inj hnext
        exact h.allocFrame_none hone heq
  | allocContiguousFrames n =>
      simp only [World.next] at hnext
      split at hnext
      next hn =>
        have hblock : limit + n * pageSize < modulus := by
          have := Nat.mul_le_mul_right pageSize hn
          omega
        split at hnext
        next addr p heq =>
          obtain rfl := Option.some.inj hnext
          exact h.allocContiguousFrames hblock heq
        next p heq =>
          obtain rfl := Option.some.inj hnext
          exact h.allocContiguousFrames_none hblock heq
      next => cases hnext
  | freeFrame owner addr =>
      simp only [World.next] at hnext
      split at hnext
      next howned =>
        have hperm := flatten_modify_erase w.live howned
        obtain ⟨p, hfree, hsound⟩ := h.freeFrame (mem_flatten_of_owner howned)
        rw [hfree] at hnext
        obtain rfl := Option.some.inj hnext
        exact hsound.perm hperm
      next => cases hnext

/-- The allocator invariant holds in every reachable world. -/
theorem reach_sound {limit : Nat} (hl : limit + 2 ^ 20 * pageSize < modulus)
    (hlow : 0x300000 ≤ limit) (m : MemoryMap limit) {w : World}
    (hw : (frameSystem m).Reach w) : Sound limit w.pmm w.live.flatten := by
  have hone : limit + pageSize < modulus := by
    unfold pageSize at hl ⊢; omega
  refine TransitionSystem.Reach.invariant (I := fun w => Sound limit w.pmm w.live.flatten)
    ?_ (fun _ _ _ hs hnext => world_step_sound hl hs hnext) hw
  rintro w rfl
  exact bootPmm_sound hone hlow m

/-- **No frame ever has two owners.**  In every run over a memory map below
`2 ^ 52` the live frames, the free list and the unbumped range stay pairwise
disjoint, and freeing an owned frame never reaches the double-free panic. -/
theorem frames_have_one_owner (m : MemoryMap (2 ^ 52)) {w : World}
    (hw : (frameSystem m).Reach w) :
    OneOwner w ∧
      ∀ owner addr, addr ∈ w.live.getD owner [] → freeFrame w.pmm addr ≠ none := by
  have hsound := reach_sound (by decide) (by decide) m hw
  refine ⟨hsound.oneOwner, ?_⟩
  intro owner addr howned
  obtain ⟨p, hp, _⟩ := hsound.freeFrame (mem_flatten_of_owner howned)
  simp [hp]

/-- Two regions, of which the first ends below the kernel image. -/
def sampleMap : MemoryMap (2 ^ 52) where
  entries := [⟨0x100000, 0x3000⟩, ⟨0x400000, 0x6000⟩]
  ascending := by decide
  bounded := by decide

/-- A run over `sampleMap`: a frame, a block of four, and the block's first
frame freed. -/
theorem sample_frames_have_one_owner :
    ∃ w, (frameSystem sampleMap).exec ⟨bootPmm sampleMap, []⟩
        [.allocFrame, .allocContiguousFrames 4, .freeFrame 0 0x401000] = some w ∧
      w.live = [[0x402000, 0x403000, 0x404000], [0x400000]] ∧
      w.pmm.freeList = [0x401000] ∧ OneOwner w := by
  have hrun : ((frameSystem sampleMap).exec ⟨bootPmm sampleMap, []⟩
      [.allocFrame, .allocContiguousFrames 4, .freeFrame 0 0x401000]).map
        (fun w => (w.live, w.pmm.freeList)) =
      some ([[0x402000, 0x403000, 0x404000], [0x400000]], [0x401000]) := by
    decide +kernel
  obtain ⟨w, hw, heq⟩ := Option.map_eq_some_iff.mp hrun
  have hreach := TransitionSystem.Reach.exec (TransitionSystem.Run.boot rfl) hw
  exact ⟨w, hw, congrArg Prod.fst heq, congrArg Prod.snd heq,
    (frames_have_one_owner sampleMap hreach).1⟩

end FrameAllocator
