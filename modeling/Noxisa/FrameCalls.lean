import Noxisa.FrameOwnership

/-!
# Calls of the allocator, of any size

`World.call` is a call of the allocator by an owner, with blocks of any size;
`Fits` says that no address sum of a call wraps.  `Called` has one case for each
way a call can go, and is what the invariants of runs are proved from.

The first of them is where frames come from.  `init` leaves the area of the
kernel image out of the region that it starts in, and of no other region:
`frames_above_image_iff` says for which memory maps that is enough.
-/

namespace FrameAllocator

open MachineWord RangePool

/-- One call, of which callers ask nothing but that a freed frame is owned.
`none` for a call outside the contract, and for the double-free panic. -/
def World.call (w : World) : Op → Option World
  | .allocFrame =>
      match allocFrame w.pmm with
      | (some addr, p) => some ⟨p, [addr] :: w.live⟩
      | (none, p) => some ⟨p, w.live⟩
  | .allocContiguousFrames n =>
      match allocContiguousFrames w.pmm n with
      | (some addr, p) => some ⟨p, units pageSize addr n :: w.live⟩
      | (none, p) => some ⟨p, w.live⟩
  | .freeFrame owner addr =>
      if addr ∈ w.live.getD owner [] then
        (freeFrame w.pmm addr).map (fun p => ⟨p, w.live.modify owner (·.erase addr)⟩)
      else none

/-- Runs of the allocator from a memory map, with blocks of any size. -/
def callSystem {limit : Nat} (m : MemoryMap limit) : TransitionSystem World Op where
  boot := fun w => w = ⟨bootPmm m, []⟩
  next := World.call

/-- No address sum of the call wraps. -/
def Fits (limit : Nat) (_ : World) : Op → Prop
  | .allocContiguousFrames n => limit + n * pageSize < modulus
  | _ => True

instance (limit : Nat) (w : World) (op : Op) : Decidable (Fits limit w op) :=
  match op with
  | .allocFrame => isTrue trivial
  | .allocContiguousFrames n => inferInstanceAs (Decidable (limit + n * pageSize < modulus))
  | .freeFrame _ _ => isTrue trivial

/-- How a call goes. -/
inductive Called (w : World) : Op → World → Prop
  | frame {a : Nat} {p : Pmm} (h : allocFrame w.pmm = (some a, p)) :
      Called w .allocFrame ⟨p, [a] :: w.live⟩
  | noFrame {p : Pmm} (h : allocFrame w.pmm = (none, p)) : Called w .allocFrame ⟨p, w.live⟩
  | block {n a : Nat} {p : Pmm} (h : allocContiguousFrames w.pmm n = (some a, p)) :
      Called w (.allocContiguousFrames n) ⟨p, units pageSize a n :: w.live⟩
  | noBlock {n : Nat} {p : Pmm} (h : allocContiguousFrames w.pmm n = (none, p)) :
      Called w (.allocContiguousFrames n) ⟨p, w.live⟩
  | freed {owner a : Nat} {p : Pmm} (howned : a ∈ w.live.getD owner [])
      (h : freeFrame w.pmm a = some p) :
      Called w (.freeFrame owner a) ⟨p, w.live.modify owner (·.erase a)⟩

section

variable {limit : Nat} {m : MemoryMap limit} {w w' : World} {op : Op}

/-- A call that returned did one of the things `Called` lists. -/
theorem World.called (h : w.call op = some w') : Called w op w' := by
  cases op with
  | allocFrame =>
      simp only [World.call] at h
      split at h
      next a p heq => exact Option.some.inj h ▸ Called.frame heq
      next p heq => exact Option.some.inj h ▸ Called.noFrame heq
  | allocContiguousFrames n =>
      simp only [World.call] at h
      split at h
      next a p heq => exact Option.some.inj h ▸ Called.block heq
      next p heq => exact Option.some.inj h ▸ Called.noBlock heq
  | freeFrame owner a =>
      simp only [World.call] at h
      split at h
      next howned =>
        obtain ⟨p, hp, rfl⟩ := Option.map_eq_some_iff.mp h
        exact Called.freed howned hp
      next => cases h

/-- **A call that fits keeps the allocator invariant.** -/
theorem Called.sound (hl : limit + pageSize < modulus) (hfits : Fits limit w op)
    (h : Called w op w') (hs : Sound limit w.pmm w.live.flatten) :
    Sound limit w'.pmm w'.live.flatten := by
  cases h with
  | frame ha => exact hs.allocFrame hl ha
  | noFrame ha => exact hs.allocFrame_none hl ha
  | block ha => exact hs.allocContiguousFrames hfits ha
  | noBlock ha => exact hs.allocContiguousFrames_none hfits ha
  | freed howned hf =>
      obtain ⟨p, hp, hsound⟩ := hs.freeFrame (mem_flatten_of_owner howned)
      obtain rfl := Option.some.inj (hf.symm.trans hp)
      exact hsound.perm (flatten_modify_erase w.live howned)

/-- Every run of fitting calls keeps the allocator sound. -/
theorem call_sound (hl : limit + pageSize < modulus) (hlow : 0x300000 ≤ limit)
    (h : (callSystem m).Run (Fits limit) w) : Sound limit w.pmm w.live.flatten := by
  refine TransitionSystem.Run.invariant (I := fun w => Sound limit w.pmm w.live.flatten)
    (fun w hw => ?_) (fun w op w' hs hfits hnext => ?_) h
  · obtain rfl : w = ⟨bootPmm m, []⟩ := hw
    exact bootPmm_sound hl hlow m
  · exact (World.called hnext).sound hl hfits hs

/-- Freeing takes nothing from the live frames but the freed one. -/
private theorem mem_flatten_of_erase {live : List (List Nat)} {owner a f : Nat}
    (ha : a ∈ live.getD owner []) (h : f ∈ (live.modify owner (·.erase a)).flatten) :
    f ∈ live.flatten :=
  List.mem_of_mem_erase ((flatten_modify_erase live ha).symm.subset h)

end

section

variable {limit : Nat} {m : MemoryMap limit} {w : World}

/-- A frame inside an entry of the map, above the area of the kernel image. -/
def MemoryMap.Usable (m : MemoryMap limit) (f : Nat) : Prop :=
  0x300000 ≤ f ∧ ∃ e ∈ m.entries, e.base ≤ f ∧ f + pageSize ≤ e.base + e.length

/-- The regions that `add_region` has kept of the map. -/
def MemoryMap.regions (m : MemoryMap limit) : List Region := (bootPmm m).regions

/-- Behind the region that `init` starts in, regions begin above the kernel image;
if it finds none to start in, there is none at all. -/
def MemoryMap.ClearOfImage (m : MemoryMap limit) : Prop :=
  match m.regions.findIdx? (fun r => r.end_ > 0x100000) with
  | none => m.regions = []
  | some i => ∀ r ∈ m.regions.drop (i + 1), 0x300000 ≤ r.base

instance (m : MemoryMap limit) : Decidable m.ClearOfImage := by
  unfold MemoryMap.ClearOfImage
  split <;> infer_instance

/-- A range of memory inside an entry, above the kernel image. -/
def MemoryMap.UsableRange (m : MemoryMap limit) (r : Range) : Prop :=
  0x300000 ≤ r.lo ∧ ∃ e ∈ m.entries, e.base ≤ r.lo ∧ r.hi ≤ e.base + e.length

/-- The invariant: what is held, freed or left comes out of the usable memory. -/
structure FromMap (m : MemoryMap limit) (w : World) : Prop where
  frames : ∀ f ∈ w.live.flatten ++ w.pmm.freeList, m.Usable f
  left : ∀ r ∈ unbumped w.pmm, m.UsableRange r

/-- The end of a usable range is usable. -/
theorem MemoryMap.UsableRange.later {r : Range} (h : m.UsableRange r) (n : Nat) :
    m.UsableRange ⟨r.lo + n, r.hi⟩ := by
  obtain ⟨hlow, e, he, hbase, hend⟩ := h
  exact ⟨by dsimp only; omega, e, he, by dsimp only; omega, hend⟩

/-- What `carve` leaves of usable ranges is usable. -/
theorem carve_usable {need : Nat} {rs : List Range} (h : ∀ r ∈ rs, m.UsableRange r) :
    ∀ r ∈ (carve need rs).2, m.UsableRange r := by
  intro r hr
  rcases mem_carve hr with hr | ⟨s, hs, rfl, -⟩
  · exact h r hr
  · exact (h s hs).later need

/-- The frames of a block that has been carved. -/
theorem units_usable {n a : Nat} {rs : List Range} (h : ∀ r ∈ rs, m.UsableRange r)
    (ha : (carve (n * pageSize) rs).1 = some a) : ∀ f ∈ units pageSize a n, m.Usable f := by
  obtain ⟨r, hr, rfl, hfit⟩ := carve_start_fits ha
  obtain ⟨hlow, e, he, hbase, hend⟩ := h r hr
  intro f hf
  obtain ⟨i, hi, rfl⟩ := mem_units.mp hf
  have hle : (i + 1) * pageSize ≤ n * pageSize := Nat.mul_le_mul_right pageSize hi
  rw [Nat.add_mul, Nat.one_mul] at hle
  exact ⟨by omega, e, he, by omega, by omega⟩

/-- A call hands out and keeps only frames of the memory map's usable ranges. -/
theorem Called.fromMap {w' : World} {op : Op} (hl : limit + pageSize < modulus)
    (hfits : Fits limit w op) (hb : Bounded limit w.pmm) (h : Called w op w')
    (hm : FromMap m w) : FromMap m w' := by
  cases h with
  | @frame a p ha =>
      rcases allocFrame_cases hl hb with ⟨addr, rest, hfree, heq⟩ | ⟨hfree, hfree', hcarve, -⟩
      · obtain ⟨rfl, rfl⟩ : addr = a ∧ _ = p := by simpa [heq] using ha
        have hsame : unbumped { w.pmm with freeList := rest, free := sub w.pmm.free 1 } =
            unbumped w.pmm := unbumped_congr rfl rfl rfl
        refine ⟨fun f hf => hm.frames f ?_, ?_⟩
        · rw [hfree]
          exact (List.perm_middle (a := addr)).mem_iff.mpr hf
        · rw [hsame]
          exact hm.left
      · rw [ha] at hfree' hcarve
        obtain ⟨hstart, hleft⟩ := Prod.mk.inj hcarve
        have hunit : (carve (1 * pageSize) (unbumped w.pmm)).1 = some a := by
          rw [Nat.one_mul, ← hstart]
        refine ⟨fun f hf => ?_, ?_⟩
        · dsimp only at hf hfree'
          rw [hfree', List.append_nil, List.flatten_cons] at hf
          rcases List.mem_append.mp hf with hf | hf
          · exact units_usable hm.left hunit f (by rwa [units_one])
          · exact hm.frames f (List.mem_append_left _ hf)
        · dsimp only at hleft ⊢
          rw [hleft]
          exact carve_usable hm.left
  | @noFrame p ha =>
      rcases allocFrame_cases hl hb with ⟨addr, rest, -, heq⟩ | ⟨hfree, hfree', hcarve, -⟩
      · simp [heq] at ha
      · rw [ha] at hfree' hcarve
        dsimp only at hfree' hcarve
        refine ⟨fun f hf => hm.frames f ?_, ?_⟩
        · dsimp only at hf
          rwa [hfree', ← hfree] at hf
        · dsimp only
          rw [(Prod.mk.inj hcarve).2]
          exact carve_usable hm.left
  | @block n a p ha =>
      have hneed : limit + n * pageSize < modulus := hfits
      obtain ⟨hcarve, hfree, -⟩ := allocContiguousFrames_carve hneed hb
      rw [ha] at hcarve hfree
      obtain ⟨hstart, hleft⟩ := Prod.mk.inj hcarve
      refine ⟨fun f hf => ?_, ?_⟩
      · dsimp only at hf hfree
        rw [hfree, List.flatten_cons, List.append_assoc] at hf
        rcases List.mem_append.mp hf with hf | hf
        · exact units_usable hm.left hstart.symm f hf
        · exact hm.frames f hf
      · dsimp only at hleft ⊢
        rw [hleft]
        exact carve_usable hm.left
  | @noBlock n p ha =>
      have hneed : limit + n * pageSize < modulus := hfits
      obtain ⟨hcarve, hfree, -⟩ := allocContiguousFrames_carve hneed hb
      rw [ha] at hcarve hfree
      dsimp only at hcarve hfree
      refine ⟨fun f hf => hm.frames f ?_, ?_⟩
      · dsimp only at hf
        rwa [hfree] at hf
      · dsimp only
        rw [(Prod.mk.inj hcarve).2]
        exact carve_usable hm.left
  | @freed owner a p howned hf =>
      unfold freeFrame at hf
      split at hf
      next => cases hf
      next =>
        obtain rfl := Option.some.inj hf
        have hsame : unbumped { w.pmm with
            freeList := a :: w.pmm.freeList, free := add w.pmm.free 1 } = unbumped w.pmm :=
          unbumped_congr rfl rfl rfl
        refine ⟨fun f hf => hm.frames f ?_, ?_⟩
        · have ha := mem_flatten_of_owner howned
          simp only [List.mem_append, List.mem_cons] at hf ⊢
          rcases hf with hf | rfl | hf
          · exact Or.inl (mem_flatten_of_erase howned hf)
          · exact Or.inl ha
          · exact Or.inr hf
        · rw [hsame]
          exact hm.left

/-- The regions that the boot entries give lie within the entries they come from. -/
theorem addRegion_foldl_kept (hl : limit + pageSize < modulus) :
    ∀ (es : List MemoryEntry) (p : Pmm), (∀ e ∈ es, e.base + e.length ≤ limit) →
      ∀ r ∈ (es.foldl (fun p e => addRegion p e.base e.length) p).regions,
        r ∈ p.regions ∨ r.base + pageSize ≤ r.end_ ∧
          ∃ e ∈ es, e.base ≤ r.base ∧ r.end_ ≤ e.base + e.length := by
  intro es
  induction es with
  | nil => exact fun p _ r hr => Or.inl hr
  | cons e es ih =>
      intro p hbound r hr
      rw [List.foldl_cons] at hr
      rcases ih _ (fun f hf => hbound f (List.mem_cons_of_mem e hf)) r hr with
        hold | ⟨hsize, f, hf, hin⟩
      · rcases addRegion_cases hl p (hbound e List.mem_cons_self) with
          heq | ⟨s, heq, -, hbase, hsize, hend⟩
        · rw [heq] at hold
          exact Or.inl hold
        · rw [heq] at hold
          rcases List.mem_append.mp hold with hold | hnew
          · exact Or.inl hold
          · obtain rfl := List.mem_singleton.mp hnew
            exact Or.inr ⟨hsize, e, List.mem_cons_self, hbase, hend⟩
      · exact Or.inr ⟨hsize, f, List.mem_cons_of_mem e hf, hin⟩

/-- A kept region holds a page, and is inside an entry. -/
theorem MemoryMap.mem_regions (hl : limit + pageSize < modulus) {r : Region}
    (hr : r ∈ m.regions) : r.base + pageSize ≤ r.end_ ∧
      ∃ e ∈ m.entries, e.base ≤ r.base ∧ r.end_ ≤ e.base + e.length := by
  rw [MemoryMap.regions, bootPmm, init_regions] at hr
  rcases addRegion_foldl_kept hl m.entries Pmm.empty m.bounded r hr with hnone | hin
  · cases hnone
  · exact hin

/-- Before `init` the pointers stand where they are initialised. -/
theorem addRegion_foldl_rest (es : List MemoryEntry) (p : Pmm) :
    (es.foldl (fun p e => addRegion p e.base e.length) p).cur = p.cur ∧
      (es.foldl (fun p e => addRegion p e.base e.length) p).next = p.next ∧
      (es.foldl (fun p e => addRegion p e.base e.length) p).freeList = p.freeList := by
  induction es generalizing p with
  | nil => exact ⟨rfl, rfl, rfl⟩
  | cons e es ih =>
      obtain ⟨hcur, hnext, hfree⟩ := ih (addRegion p e.base e.length)
      obtain ⟨hcur', hnext', hfree'⟩ := addRegion_rest p e.base e.length
      exact ⟨hcur.trans hcur', hnext.trans hnext', hfree.trans hfree'⟩

/-- The allocator starts with an empty free list. -/
theorem bootPmm_freeList (m : MemoryMap limit) : (bootPmm m).freeList = [] := by
  rw [bootPmm, init_freeList]
  exact (addRegion_foldl_rest m.entries Pmm.empty).2.2

/-- What is left at boot if `init` finds a region to start in. -/
theorem unbumped_boot_some {i : Nat}
    (hi : m.regions.findIdx? (fun r => r.end_ > 0x100000) = some i) :
    ∃ r, m.regions[i]? = some r ∧ unbumped (bootPmm m) =
      ⟨max r.base 0x300000, r.end_⟩ :: (m.regions.drop (i + 1)).map Region.range := by
  have hlt := (List.findIdx?_eq_some_iff_getElem.mp hi).1
  obtain ⟨r, hget⟩ : ∃ r, m.regions[i]? = some r := ⟨_, List.getElem?_eq_getElem hlt⟩
  refine ⟨r, hget, ?_⟩
  rw [MemoryMap.regions, bootPmm, init_regions] at hi hget
  unfold MemoryMap.regions
  rw [bootPmm, init_regions]
  unfold init
  rw [hi]
  simp only [unbumped, hget, Option.elim_some]

/-- If it finds none, the pointer starts at zero. -/
theorem unbumped_boot_none (hi : m.regions.findIdx? (fun r => r.end_ > 0x100000) = none) :
    unbumped (bootPmm m) =
      match m.regions with
      | [] => []
      | r :: rs => ⟨0, r.end_⟩ :: rs.map Region.range := by
  obtain ⟨hcur, hnext, -⟩ := addRegion_foldl_rest m.entries Pmm.empty
  rw [MemoryMap.regions, bootPmm, init_regions] at hi
  unfold MemoryMap.regions
  rw [bootPmm, init_regions]
  unfold init
  rw [hi]
  unfold unbumped
  rw [hcur, hnext]
  cases (m.entries.foldl (fun p e => addRegion p e.base e.length) Pmm.empty).regions with
  | nil => rfl
  | cons r rs => rfl

/-- At boot every frame the allocator may hand out is of the map's usable ranges. -/
theorem boot_fromMap (hl : limit + pageSize < modulus) (hm : m.ClearOfImage) :
    FromMap m ⟨bootPmm m, []⟩ := by
  refine ⟨fun f hf => ?_, fun s hs => ?_⟩
  · rw [bootPmm_freeList] at hf
    cases hf
  · unfold MemoryMap.ClearOfImage at hm
    cases hi : m.regions.findIdx? (fun r => r.end_ > 0x100000) with
    | none =>
        rw [hi] at hm
        dsimp only at hs hm
        rw [unbumped_boot_none hi, hm] at hs
        cases hs
    | some i =>
        rw [hi] at hm
        obtain ⟨r, hr, hleft⟩ := unbumped_boot_some hi
        dsimp only at hs hm
        rw [hleft] at hs
        rcases List.mem_cons.mp hs with rfl | hs
        · obtain ⟨-, e, he, hbase, hend⟩ := m.mem_regions hl (List.mem_of_getElem? hr)
          exact ⟨by dsimp only; omega, e, he, by dsimp only; omega, hend⟩
        · obtain ⟨q, hq, rfl⟩ := List.mem_map.mp hs
          obtain ⟨-, e, he, hbase, hend⟩ := m.mem_regions hl (List.mem_of_mem_drop hq)
          exact ⟨hm q hq, e, he, hbase, hend⟩

/-- Otherwise a page below the kernel image's end, or below the map, is left. -/
theorem unit_below_image (hl : limit + pageSize < modulus) (hm : ¬m.ClearOfImage) :
    ∃ f ∈ unitsIn pageSize (unbumped (bootPmm m)), f < 0x300000 := by
  unfold MemoryMap.ClearOfImage at hm
  cases hi : m.regions.findIdx? (fun r => r.end_ > 0x100000) with
  | none =>
      rw [hi] at hm
      rw [unbumped_boot_none hi]
      cases hregions : m.regions with
      | nil => exact absurd hregions hm
      | cons r rs =>
          have hsize := (m.mem_regions hl (r := r) (by simp [hregions])).1
          exact ⟨0, ⟨_, List.mem_cons_self, 0, by simp, by dsimp only; omega⟩, by decide⟩
  | some i =>
      rw [hi] at hm
      obtain ⟨r, -, hleft⟩ := unbumped_boot_some hi
      rw [hleft]
      dsimp only at hm
      push Not at hm
      obtain ⟨q, hq, hlow⟩ := hm
      have hsize := (m.mem_regions hl (List.mem_of_mem_drop hq)).1
      have hmem : q.range ∈ (m.regions.drop (i + 1)).map Region.range := List.mem_map_of_mem hq
      exact ⟨q.base, ⟨_, List.mem_cons_of_mem _ hmem, 0, by simp [Region.range], hsize⟩, hlow⟩

/-- **Every page that is left gets handed out**, if one asks for long enough. -/
theorem unit_handed_out (hl : limit + pageSize < modulus) (hlow : 0x300000 ≤ limit)
    {f c : Nat} (hw : (callSystem m).Run (Fits limit) w) (hfree : w.pmm.freeList = [])
    (hc : capacity pageSize (unbumped w.pmm) = c) (hf : f ∈ unitsIn pageSize (unbumped w.pmm)) :
    ∃ w', (callSystem m).Run (Fits limit) w' ∧ f ∈ w'.live.flatten := by
  induction c generalizing w with
  | zero =>
      have hnone : (carve pageSize (unbumped w.pmm)).1 = none := by
        by_contra hne
        have hpos := (carve_unit_isSome_iff (u := pageSize) (by decide) (unbumped w.pmm)).mp
          (Option.isSome_iff_ne_none.mpr hne)
        omega
      rw [unitsIn_eq_empty hnone] at hf
      cases hf
  | succ c ih =>
      have hb := (call_sound hl hlow hw).bounded
      rcases allocFrame_cases hl hb with ⟨a, rest, hlist, -⟩ | ⟨-, hfree', hcarve, -⟩
      · rw [hfree] at hlist
        cases hlist
      · cases ha : allocFrame w.pmm with
        | mk o p =>
            rw [ha] at hfree' hcarve
            obtain ⟨hstart, hleft⟩ := Prod.mk.inj hcarve
            dsimp only at hfree' hleft
            have hcap := carve_unit_capacity (u := pageSize) (by decide) (unbumped w.pmm)
            rw [← hstart, ← hleft, hc] at hcap
            cases o with
            | none =>
                rw [unitsIn_eq_empty hstart.symm] at hf
                cases hf
            | some a =>
                have hcall : w.call .allocFrame = some ⟨p, [a] :: w.live⟩ := by
                  simp only [World.call, ha]
                have hfits : Fits limit w .allocFrame := trivial
                have hw' := TransitionSystem.Run.step hw hfits hcall
                rcases unitsIn_carve hf with hsame | hrest
                · obtain rfl : a = f := Option.some.inj (hstart.trans hsame)
                  exact ⟨_, hw', by simp⟩
                · rw [← hleft] at hrest
                  simp only [Option.isSome_some, if_true] at hcap
                  exact ih hw' hfree' (by dsimp only; omega) hrest

/-- **Frames come from the map, above the kernel image**, exactly if no region
behind the one that `init` starts in begins below the end of the image. -/
theorem frames_above_image_iff (hl : limit + pageSize < modulus) (hlow : 0x300000 ≤ limit)
    (m : MemoryMap limit) :
    (∀ w, (callSystem m).Run (Fits limit) w → ∀ f ∈ w.live.flatten, m.Usable f) ↔
      m.ClearOfImage := by
  constructor
  · intro h
    by_contra hm
    obtain ⟨f, hf, hbelow⟩ := unit_below_image hl hm
    have hboot : (callSystem m).Run (Fits limit) ⟨bootPmm m, []⟩ := .boot rfl
    obtain ⟨w, hw, hlive⟩ := unit_handed_out hl hlow hboot (bootPmm_freeList m) rfl hf
    have := (h w hw f hlive).1
    omega
  · intro hm w hw f hf
    have hinv : Sound limit w.pmm w.live.flatten ∧ FromMap m w := by
      refine TransitionSystem.Run.invariant
        (I := fun w => Sound limit w.pmm w.live.flatten ∧ FromMap m w)
        (fun w hw => ?_) (fun w op w' hs hfits hnext => ?_) hw
      · obtain rfl : w = ⟨bootPmm m, []⟩ := hw
        exact ⟨bootPmm_sound hl hlow m, boot_fromMap hl hm⟩
      · have hcalled := World.called hnext
        exact ⟨hcalled.sound hl hfits hs.1, hcalled.fromMap hl hfits hs.1.bounded hs.2⟩
    exact hinv.2.frames f (List.mem_append_left _ hf)

end

/-- Two regions below the end of the kernel image. -/
def imageMap : MemoryMap (2 ^ 52) where
  entries := [⟨0x100000, 0x80000⟩, ⟨0x200000, 0x80000⟩]
  ascending := by decide
  bounded := by decide

/-- The hypotheses are met by a map with one usable entry above the image. -/
theorem sample_frames_above_image :
    sampleMap.ClearOfImage ∧ ∀ w, (callSystem sampleMap).Run (Fits (2 ^ 52)) w →
      ∀ f ∈ w.live.flatten, sampleMap.Usable f := by
  have hclear : sampleMap.ClearOfImage := by decide +kernel
  exact ⟨hclear, (frames_above_image_iff (by decide) (by decide) sampleMap).mpr hclear⟩

/-- The area of the kernel image is handed out. -/
theorem image_frame_handed_out :
    ¬ ∀ w, (callSystem imageMap).Reach w → ∀ f ∈ w.live.flatten, imageMap.Usable f := by
  intro h
  have hrun : ((callSystem imageMap).exec ⟨bootPmm imageMap, []⟩ [.allocFrame]).map World.live =
      some [[0x200000]] := by decide +kernel
  obtain ⟨w, hw, hlive⟩ := Option.map_eq_some_iff.mp hrun
  have hboot : (callSystem imageMap).Reach ⟨bootPmm imageMap, []⟩ := .boot rfl
  have hbad := h w (hboot.exec hw) 0x200000 (by simp [hlive])
  exact absurd hbad.1 (by decide)

end FrameAllocator
