import Noxisa.FrameCalls
import Noxisa.FrameCount

/-!
# What the free count is worth

`free_frames` is what the kernel reports as free memory.  Three questions are
asked of it here.  Does a call change it by the frames that it moves?  It does
from every boot that has found a region to start in (`calls_count_frames`).  Is
it the number of frames that can still be had?  It is as long as nobody passes
over a page: `init` does so below the kernel image, and a contiguous request
does so in every region that is too small for it (`free_frames_exact`).  And is
a request that fails without effect?  It never is while anything is left to bump
(`failed_block_iff`).
-/

namespace FrameAllocator

open MachineWord RangePool

/-- `n` calls of `alloc_frame` in a row all return a frame. -/
def serves : Nat → Pmm → Bool
  | 0, _ => true
  | n + 1, p =>
      match allocFrame p with
      | (some _, p') => serves n p'
      | (none, _) => false

section

variable {limit total : Nat} {p : Pmm} {w w' : World} {op : Op}

/-- Bounds are about the regions and where the bump is. -/
theorem Bounded.congr {q : Pmm} (hr : q.regions = p.regions) (hn : q.next = p.next)
    (hb : Bounded limit p) : Bounded limit q := by
  refine ⟨?_, ?_, ?_⟩
  · rw [hn]
    exact hb.next_le
  · rw [hr]
    exact hb.base_le
  · rw [hr]
    exact hb.end_le

/-- An allocation keeps them. -/
theorem Bounded.allocFrame (hl : limit + pageSize < modulus) (hb : Bounded limit p) :
    Bounded limit (FrameAllocator.allocFrame p).2 := by
  rcases allocFrame_cases hl hb with ⟨addr, rest, -, heq⟩ | ⟨-, -, -, hb'⟩
  · rw [heq]
    have hsame : Bounded limit { p with freeList := rest, free := sub p.free 1 } :=
      Bounded.congr (p := p) rfl rfl hb
    exact hsame
  · exact hb'

/-- The available frames are those that can be had one after another. -/
theorem serves_iff (hl : limit + pageSize < modulus) (hb : Bounded limit p) (n : Nat) :
    serves n p = true ↔ n ≤ available p := by
  induction n generalizing p with
  | zero => simp [serves]
  | succ n ih =>
      have havail := allocFrame_available hl hb
      have hb' := hb.allocFrame hl
      unfold serves
      cases ha : FrameAllocator.allocFrame p with
      | mk o p' =>
          rw [ha] at havail hb'
          cases o with
          | none =>
              have hzero := available_of_none hl hb ha
              simp [hzero]
          | some a =>
              have hdown : available p = available p' + 1 := by simpa using havail
              have hrest : serves n p' = true ↔ n ≤ available p' := ih hb'
              rw [hdown]
              exact hrest.trans Nat.succ_le_succ_iff.symm

/-- **A call keeps the balance.** -/
theorem Called.counted (hl : limit + pageSize < modulus) (ht : total < modulus)
    (hfits : Fits limit w op) (hb : Bounded limit w.pmm) (h : Called w op w')
    (hc : Counted total w.pmm w.live.flatten) : Counted total w'.pmm w'.live.flatten := by
  cases h with
  | frame ha => exact hc.allocFrame hl ht hb ha
  | noFrame ha => exact hc.allocFrame_none hl hb ha
  | @block n a p ha =>
      have hneed : limit + n * pageSize < modulus := hfits
      exact hc.allocContiguousFrames hneed hb ha
  | @noBlock n p ha =>
      have hneed : limit + n * pageSize < modulus := hfits
      exact hc.allocContiguousFrames_none hneed hb ha
  | freed howned hf =>
      exact (hc.freeFrame ht (mem_flatten_of_owner howned) hf).perm
        (flatten_modify_erase w.live howned)

/-- The pages that a call passes over. -/
def skipped (w : World) : Op → Nat
  | .allocContiguousFrames n => capacity pageSize (passed (n * pageSize) (unbumped w.pmm))
  | _ => 0

/-- What a call does to the available frames. -/
theorem Called.available (hl : limit + pageSize < modulus) (hfits : Fits limit w op)
    (hb : Bounded limit w.pmm) (h : Called w op w') :
    FrameAllocator.available w.pmm + w.live.flatten.length =
      FrameAllocator.available w'.pmm + w'.live.flatten.length + skipped w op := by
  cases h with
  | frame ha =>
      have havail := allocFrame_available hl hb
      rw [ha] at havail
      simp only [Option.isSome_some, if_true] at havail
      simp only [skipped, List.flatten_cons, List.length_append, List.length_singleton]
      omega
  | noFrame ha =>
      have havail := allocFrame_available hl hb
      rw [ha] at havail
      simp only [Option.isSome_none, Bool.false_eq_true, if_false] at havail
      simp only [skipped]
      omega
  | @block n a p ha =>
      have hneed : limit + n * pageSize < modulus := hfits
      obtain ⟨hcarve, hfree, -⟩ := allocContiguousFrames_carve hneed hb
      have hcap := carve_passed_capacity (u := pageSize) (by decide) n (unbumped w.pmm)
      rw [← hcarve, ha] at hcap
      rw [ha] at hfree
      dsimp only at hfree
      have hlen : (units pageSize a n).length = n := by simp [units]
      simp only [Option.isSome_some, if_true] at hcap
      simp only [FrameAllocator.available, skipped, hfree, List.flatten_cons, List.length_append,
        hlen]
      omega
  | @noBlock n p ha =>
      have hneed : limit + n * pageSize < modulus := hfits
      obtain ⟨hcarve, hfree, -⟩ := allocContiguousFrames_carve hneed hb
      have hcap := carve_passed_capacity (u := pageSize) (by decide) n (unbumped w.pmm)
      rw [← hcarve, ha] at hcap
      rw [ha] at hfree
      dsimp only at hfree
      simp only [Option.isSome_none, Bool.false_eq_true, if_false] at hcap
      simp only [FrameAllocator.available, skipped, hfree]
      omega
  | @freed owner a p howned hf =>
      have hlen := (flatten_modify_erase w.live howned).length_eq
      have hmem := mem_flatten_of_owner howned
      have hpos := List.length_pos_of_mem hmem
      rw [List.length_erase_of_mem hmem] at hlen
      unfold FrameAllocator.freeFrame at hf
      split at hf
      next => cases hf
      next =>
        obtain rfl := Option.some.inj hf
        have hspace : unbumped { w.pmm with
            freeList := a :: w.pmm.freeList, free := add w.pmm.free 1 } = unbumped w.pmm :=
          unbumped_congr rfl rfl rfl
        simp only [FrameAllocator.available, skipped, hspace, List.length_cons]
        omega

/-- A call keeps the count exact if and only if it passes over nothing. -/
theorem Called.exact_iff (hl : limit + pageSize < modulus) (ht : total < modulus)
    (hfits : Fits limit w op) (hb : Bounded limit w.pmm)
    (hc : Counted total w.pmm w.live.flatten)
    (hexact : w.pmm.free = FrameAllocator.available w.pmm) (h : Called w op w') :
    w'.pmm.free = FrameAllocator.available w'.pmm ↔ skipped w op = 0 := by
  have havail := h.available hl hfits hb
  have hbalance := hc.balance
  have hbalance' := (h.counted hl ht hfits hb hc).balance
  omega

end

section

variable {limit : Nat} {m : MemoryMap limit}

/-- `init` leaves nothing of the counted memory out: it starts at the front of
the first region, which is above the kernel image, or it finds no region to
start in and the first one begins at zero, where the pointer is. -/
def MemoryMap.Counts (m : MemoryMap limit) : Prop :=
  match m.regions with
  | [] => True
  | r :: _ => 0x300000 ≤ r.base ∨ r.base = 0 ∧ ∀ s ∈ m.regions, s.end_ ≤ 0x100000

instance (m : MemoryMap limit) : Decidable m.Counts := by
  unfold MemoryMap.Counts
  split <;> infer_instance

/-- At boot the count is what is in the regions. -/
private theorem bootPmm_free (hl : limit + pageSize < modulus) (m : MemoryMap limit) :
    (bootPmm m).free = capacity pageSize (m.regions.map Region.range) := by
  obtain ⟨p, hp, -, hcounted, -⟩ := bootPmm_regions hl m
  rw [MemoryMap.regions, hp, init_free, init_regions]
  exact hcounted.count

/-- The regions of a memory map are in order. -/
theorem MemoryMap.regionsOk (hl : limit + pageSize < modulus) (m : MemoryMap limit) :
    RegionsOk limit m.regions := by
  obtain ⟨p, hp, hok, -⟩ := bootPmm_regions hl m
  rw [MemoryMap.regions, hp, init_regions]
  exact hok

/-- What some of the regions hold, and the others. -/
private theorem capacity_drop (n : Nat) (rs : List Range) :
    capacity pageSize rs = capacity pageSize (rs.take n) + capacity pageSize (rs.drop n) := by
  rw [← capacity_append, List.take_append_drop]

/-- The free count is exact at boot if and only if nothing is left out. -/
theorem boot_exact_iff (hl : limit + pageSize < modulus) (m : MemoryMap limit) :
    (bootPmm m).free = available (bootPmm m) ↔ m.Counts := by
  have hok := m.regionsOk hl
  have hsize : ∀ r ∈ m.regions, r.base + pageSize ≤ r.end_ :=
    fun r hr => (m.mem_regions hl hr).1
  rw [bootPmm_free hl, available, bootPmm_freeList]
  unfold MemoryMap.Counts
  cases hi : m.regions.findIdx? (fun r => r.end_ > 0x100000) with
  | none =>
      have hlow : ∀ r ∈ m.regions, r.end_ ≤ 0x100000 := by
        intro r hr
        have hnot := List.findIdx?_eq_none_iff.mp hi r hr
        simpa using hnot
      rw [unbumped_boot_none hi]
      cases hregions : m.regions with
      | nil => simp [capacity]
      | cons r rs =>
          rw [hregions] at hok hsize hlow
          have hr := hsize r List.mem_cons_self
          have hend := hlow r List.mem_cons_self
          have halign := hok.aligned r List.mem_cons_self
          have hcounts : (0x300000 ≤ r.base ∨ r.base = 0 ∧ ∀ s ∈ r :: rs, s.end_ ≤ 0x100000) ↔
              r.base = 0 := by
            constructor
            · rintro (hhigh | ⟨hzero, -⟩)
              · omega
              · exact hzero
            · exact fun hzero => Or.inr ⟨hzero, hlow⟩
          dsimp only
          rw [hcounts]
          simp only [List.map_cons, capacity, Region.range, List.length_nil]
          unfold pageSize at *
          omega
  | some i =>
      obtain ⟨q, hq, hleft⟩ := unbumped_boot_some hi
      obtain ⟨hlt, habove, hbefore⟩ := List.findIdx?_eq_some_iff_getElem.mp hi
      rw [hleft]
      cases hregions : m.regions with
      | nil => simp [hregions] at hlt
      | cons r rs =>
          rw [hregions] at hok hsize hq hlt
          have hr := hsize r List.mem_cons_self
          have halign := hok.aligned r List.mem_cons_self
          have hqmem : q ∈ r :: rs := List.mem_of_getElem? hq
          have hqsize := hsize q hqmem
          have hqend : 0x100000 < q.end_ := by
            have hget := List.getElem?_eq_getElem hlt
            simp only [hregions] at habove
            rw [hq] at hget
            rw [Option.some.inj hget]
            simpa using habove
          have hcounts : (0x300000 ≤ r.base ∨ r.base = 0 ∧ ∀ s ∈ r :: rs, s.end_ ≤ 0x100000) ↔
              0x300000 ≤ r.base := by
            constructor
            · rintro (hhigh | ⟨-, hlow⟩)
              · exact hhigh
              · have := hlow q hqmem
                omega
            · exact Or.inl
          dsimp only
          rw [hcounts]
          cases i with
          | zero =>
              obtain rfl : r = q := by simpa using hq
              simp only [List.map_cons, capacity, Region.range, List.length_nil, Nat.zero_add,
                List.drop_succ_cons, List.drop_zero]
              unfold pageSize at *
              omega
          | succ j =>
              have hfirst : r.end_ ≤ 0x100000 := by
                have hnot := hbefore 0 (Nat.succ_pos j)
                simpa [hregions] using hnot
              have hdrop := capacity_drop j (rs.map Region.range)
              have hj : rs[j]? = some q := by simpa using hq
              obtain ⟨hjlt, hjq⟩ := List.getElem?_eq_some_iff.mp hj
              rw [← List.map_drop, ← List.map_take, List.drop_eq_getElem_cons hjlt, hjq] at hdrop
              simp only [List.map_cons, capacity, Region.range, List.length_nil,
                List.drop_succ_cons] at hdrop ⊢
              unfold pageSize at *
              omega

/-- As many frames can be had as `free_frames` says. -/
def Exact (p : Pmm) : Prop :=
  ∀ n, serves n p = true ↔ n ≤ freeFrames p

/-- The count is exact if it is what can be handed out. -/
theorem exact_iff {p : Pmm} (hl : limit + pageSize < modulus) (hb : Bounded limit p) :
    Exact p ↔ p.free = available p := by
  constructor
  · intro h
    have hserved := (serves_iff hl hb p.free).mp ((h p.free).mpr (Nat.le_refl _))
    have hcounted := (h (available p)).mp ((serves_iff hl hb _).mpr (Nat.le_refl _))
    exact Nat.le_antisymm hserved hcounted
  · intro h n
    rw [serves_iff hl hb, freeFrames, h]

/-- A call that fits and passes over no page. -/
def PassesNothing (limit : Nat) (w : World) (op : Op) : Prop :=
  Fits limit w op ∧ skipped w op = 0

instance (limit : Nat) (w : World) (op : Op) : Decidable (PassesNothing limit w op) :=
  inferInstanceAs (Decidable (Fits limit w op ∧ skipped w op = 0))

/-- The invariant of runs that pass over nothing. -/
structure InStep (limit total : Nat) (w : World) : Prop where
  sound : Sound limit w.pmm w.live.flatten
  counted : Counted total w.pmm w.live.flatten
  exact_ : w.pmm.free = available w.pmm

/-- At boot it is. -/
private theorem boot_inStep (hl : limit + pageSize < modulus) (hlow : 0x300000 ≤ limit)
    (hm : m.Counts) : InStep limit (bootPmm m).free ⟨bootPmm m, []⟩ := by
  have hexact := (boot_exact_iff hl m).mpr hm
  exact ⟨bootPmm_sound hl hlow m, ⟨rfl, hexact.ge⟩, hexact⟩

/-- **One call** that passes nothing keeps it so. -/
theorem InStep.call {total : Nat} {w w' : World} {op : Op} (hl : limit + pageSize < modulus)
    (ht : total < modulus) (h : InStep limit total w) (hguard : PassesNothing limit w op)
    (hcall : w.call op = some w') : InStep limit total w' := by
  have hcalled := World.called hcall
  obtain ⟨hfits, hskip⟩ := hguard
  exact ⟨hcalled.sound hl hfits h.sound, hcalled.counted hl ht hfits h.sound.bounded h.counted,
    (hcalled.exact_iff hl ht hfits h.sound.bounded h.counted h.exact_).mpr hskip⟩

/-- **Every run** of such calls does. -/
theorem run_inStep (hl : limit + pageSize < modulus) (hlow : 0x300000 ≤ limit) (hm : m.Counts)
    {w : World} (hw : (callSystem m).Run (PassesNothing limit) w) :
    InStep limit (bootPmm m).free w := by
  have hfree := bootPmm_free_le hl m
  apply TransitionSystem.Run.invariant (I := InStep limit (bootPmm m).free) _ _ hw
  · intro w hw
    obtain rfl : w = ⟨bootPmm m, []⟩ := hw
    exact boot_inStep hl hlow hm
  · intro w op w' h hguard hnext
    exact h.call hl (by omega) hguard hnext

/-- **The free count is exact** in every run that passes over no page if and only
if it is at boot, and the first call that passes over a page ends that. -/
theorem free_frames_exact (hl : limit + pageSize < modulus) (hlow : 0x300000 ≤ limit)
    (m : MemoryMap limit) :
    ((∀ w, (callSystem m).Run (PassesNothing limit) w → Exact w.pmm) ↔ m.Counts) ∧
      ∀ w op w', m.Counts → (callSystem m).Run (PassesNothing limit) w → Fits limit w op →
        w.call op = some w' → (Exact w'.pmm ↔ skipped w op = 0) := by
  have hfree := bootPmm_free_le hl m
  refine ⟨⟨?_, ?_⟩, ?_⟩
  · intro h
    have hboot := h ⟨bootPmm m, []⟩ (.boot rfl)
    exact (boot_exact_iff hl m).mp
      ((exact_iff hl (bootPmm_sound hl hlow m).bounded).mp hboot)
  · intro hm w hw
    have h := run_inStep hl hlow hm hw
    exact (exact_iff hl h.sound.bounded).mpr h.exact_
  · intro w op w' hm hw hfits hcall
    have h := run_inStep hl hlow hm hw
    have hcalled := World.called hcall
    rw [exact_iff hl (hcalled.sound hl hfits h.sound).bounded]
    exact hcalled.exact_iff hl (by omega) hfits h.sound.bounded h.counted h.exact_

end

/-- Memory above the area of the kernel image, in two regions. -/
def highMap : MemoryMap (2 ^ 52) where
  entries := [⟨0x300000, 0x4000⟩, ⟨0x400000, 0x100000⟩]
  ascending := by decide
  bounded := by decide

/-- A block of two pages, and a block of three that does not fit behind it. -/
theorem high_free_frames_exact :
    (∀ w, (callSystem highMap).Run (PassesNothing (2 ^ 52)) w → Exact w.pmm) ∧
      ∃ w, (callSystem highMap).Run (PassesNothing (2 ^ 52)) w ∧
        ∀ w', w.call (.allocContiguousFrames 3) = some w' → ¬Exact w'.pmm := by
  have hcounts : highMap.Counts := by decide +kernel
  have hexact := free_frames_exact (by decide) (by decide) highMap
  have hrun : ((callSystem highMap).execIf (PassesNothing (2 ^ 52)) ⟨bootPmm highMap, []⟩
      [.allocContiguousFrames 2]).map (fun w => skipped w (.allocContiguousFrames 3)) =
        some 2 := by decide +kernel
  obtain ⟨w, hw, hskip⟩ := Option.map_eq_some_iff.mp hrun
  have hreached : (callSystem highMap).Run (PassesNothing (2 ^ 52)) w :=
    TransitionSystem.Run.execIf (.boot rfl) hw
  refine ⟨hexact.1.mpr hcounts, w, hreached, ?_⟩
  intro w' hcall hbad
  have hfits : Fits (2 ^ 52) w (.allocContiguousFrames 3) := by
    show 2 ^ 52 + 3 * pageSize < modulus
    decide
  have hnone := (hexact.2 w _ w' hcounts hreached hfits hcall).mp hbad
  rw [hskip] at hnone
  cases hnone

/-- One region, of which `init` leaves out the first page. -/
def skippedMap : MemoryMap (2 ^ 52) where
  entries := [⟨0x2ff000, 0x2000⟩]
  ascending := by decide
  bounded := by decide

/-- Blocks that do not fit at the end of a region are passed and still counted. -/
theorem skipped_not_exact :
    ¬ ∀ (m : MemoryMap (2 ^ 52)) w, (callSystem m).Run (Fits (2 ^ 52)) w → Exact w.pmm := by
  intro h
  have hcount : freeFrames (bootPmm skippedMap) = 2 ∧ serves 2 (bootPmm skippedMap) = false := by
    decide +kernel
  have hbad := (h skippedMap _ (.boot rfl) 2).mpr hcount.1.ge
  rw [hcount.2] at hbad
  cases hbad

/-- What a call changes of the free count. -/
structure MovesCounted (limit : Nat) (w : World) : Prop where
  frame : ∀ {a p}, allocFrame w.pmm = (some a, p) → freeFrames p + 1 = freeFrames w.pmm
  block : ∀ {n a p}, Fits limit w (.allocContiguousFrames n) →
    allocContiguousFrames w.pmm n = (some a, p) → freeFrames p + n = freeFrames w.pmm
  freed : ∀ {f p}, f ∈ w.live.flatten → freeFrame w.pmm f = some p →
    freeFrames p = freeFrames w.pmm + 1
  /-- A frame that is popped has been counted. -/
  popped : w.pmm.freeList ≠ [] → 0 < freeFrames w.pmm

section

variable {limit total : Nat} {m : MemoryMap limit} {w : World}

/-- A state that counts moves as the calls say. -/
theorem Counted.moves (hl : limit + pageSize < modulus) (ht : total < modulus)
    (hb : Bounded limit w.pmm) (h : Counted total w.pmm w.live.flatten) :
    MovesCounted limit w := by
  have hbalance := h.balance
  refine ⟨?_, ?_, ?_, ?_⟩
  · intro a p ha
    have hafter := (h.allocFrame hl ht hb ha).balance
    rw [List.length_cons] at hafter
    unfold freeFrames
    omega
  · intro n a p hfits ha
    have hneed : limit + n * pageSize < modulus := hfits
    have hafter := (h.allocContiguousFrames hneed hb ha).balance
    have hlen : (units pageSize a n).length = n := by simp [units]
    rw [List.length_append, hlen] at hafter
    unfold freeFrames
    omega
  · intro f p hf hfree
    have hafter := (h.freeFrame ht hf hfree).balance
    have hpos := List.length_pos_of_mem hf
    rw [List.length_erase_of_mem hf] at hafter
    unfold freeFrames
    omega
  · intro hlist
    have hroom := h.room
    have hpos := List.length_pos_iff.mpr hlist
    unfold available at hroom
    unfold freeFrames
    omega

/-- **The free count moves with the frames**, from every boot that has found a
region to start in: a difference of two counts is a difference of held frames. -/
theorem calls_count_frames (hl : limit + pageSize < modulus) (hlow : 0x300000 ≤ limit)
    (hm : m.Starts) (hw : (callSystem m).Run (Fits limit) w) :
    MovesCounted limit w ∧
      freeFrames w.pmm + w.live.flatten.length = freeFrames (bootPmm m) := by
  have hfree := bootPmm_free_le hl m
  have hinv : Sound limit w.pmm w.live.flatten ∧
      Counted (bootPmm m).free w.pmm w.live.flatten := by
    apply TransitionSystem.Run.invariant (I := fun w => Sound limit w.pmm w.live.flatten ∧
      Counted (bootPmm m).free w.pmm w.live.flatten) _ _ hw
    · intro w hw
      obtain rfl : w = ⟨bootPmm m, []⟩ := hw
      exact ⟨bootPmm_sound hl hlow m, bootPmm_counted hl m hm⟩
    · intro w op w' h hfits hnext
      have hcalled := World.called hnext
      exact ⟨hcalled.sound hl hfits h.1, hcalled.counted hl (by omega) hfits h.1.bounded h.2⟩
  exact ⟨hinv.2.moves hl (by omega) hinv.1.bounded, hinv.2.balance⟩

end

/-- A frame and a block have been taken. -/
theorem sample_calls_count_frames :
    ∃ w, (callSystem sampleMap).Run (Fits (2 ^ 52)) w ∧ w.live.length = 2 ∧
      MovesCounted (2 ^ 52) w ∧
        freeFrames w.pmm + w.live.flatten.length = freeFrames (bootPmm sampleMap) := by
  have hrun : ((callSystem sampleMap).execIf (Fits (2 ^ 52)) ⟨bootPmm sampleMap, []⟩
      [.allocFrame, .allocContiguousFrames 4]).map (fun w => w.live.length) = some 2 := by
    decide +kernel
  obtain ⟨w, hw, hlive⟩ := Option.map_eq_some_iff.mp hrun
  have hreached : (callSystem sampleMap).Run (Fits (2 ^ 52)) w :=
    TransitionSystem.Run.execIf (.boot rfl) hw
  have hstarts : sampleMap.Starts := by
    unfold MemoryMap.Starts
    decide +kernel
  exact ⟨w, hreached, hlive, calls_count_frames (by decide) (by decide) hstarts hreached⟩

/-- A map that reaches above 1 MiB with less than a page. -/
def shortMap : MemoryMap (2 ^ 52) where
  entries := [⟨0x1000, 0x1000⟩, ⟨0xff800, 0x1000⟩]
  ascending := by decide
  bounded := by decide

/-- Two frames are handed out, of which only one has been counted. -/
theorem short_map_not_counted :
    ¬ ∀ (m : MemoryMap (2 ^ 52)), (∃ e ∈ m.entries, 0x100000 < e.base + e.length) →
      ∀ w, (callSystem m).Run (Fits (2 ^ 52)) w → MovesCounted (2 ^ 52) w := by
  intro h
  have hrun : ((callSystem shortMap).execIf (Fits (2 ^ 52)) ⟨bootPmm shortMap, []⟩
      [.allocFrame]).map (fun w => (freeFrames w.pmm, (allocFrame w.pmm).1)) =
        some (0, some 0x1000) := by decide +kernel
  obtain ⟨w, hw, hcount⟩ := Option.map_eq_some_iff.mp hrun
  obtain ⟨hzero, hsome⟩ := Prod.mk.inj hcount
  have hreached : (callSystem shortMap).Run (Fits (2 ^ 52)) w :=
    TransitionSystem.Run.execIf (.boot rfl) hw
  have hmoves := h shortMap (by decide) w hreached
  have hdown := hmoves.frame (Prod.ext hsome rfl)
  rw [hzero] at hdown
  cases hdown

/-- A request, and what the allocator answers. -/
inductive Request
  | frame
  | block (n : Nat)

/-- An allocation of either kind. -/
def request (p : Pmm) : Request → Option Nat × Pmm
  | .frame => allocFrame p
  | .block n => allocContiguousFrames p n

/-- Which of the requests are granted, one after another. -/
def granted (p : Pmm) : List Request → List Bool
  | [] => []
  | r :: rs => (request p r).1.isSome :: granted (request p r).2 rs

/-- A request for at least one frame, whose address sums do not wrap. -/
def Request.Fits (limit : Nat) : Request → Prop
  | .frame => True
  | .block n => 0 < n ∧ limit + n * pageSize < modulus

section

variable {limit : Nat} {m : MemoryMap limit} {p p' q : Pmm} {w : World} {n : Nat}

/-- A loop that fails has gone through all regions. -/
theorem bumpLoop_none {need : Nat} {d : Nat → Nat} :
    ∀ fuel p, p.regions.length - p.cur < fuel → (bumpLoop need d fuel p).1 = none →
      let p' := (bumpLoop need d fuel p).2
      p'.regions.length ≤ p'.cur ∧ p'.freeList = p.freeList ∧
        (Bounded limit p → Bounded limit p') ∧ (p.regions.length ≤ p.cur → p' = p) := by
  intro fuel
  induction fuel with
  | zero => intro p hfuel; omega
  | succ fuel ih =>
      intro p hfuel
      unfold bumpLoop
      cases hr : p.regions[p.cur]? with
      | none =>
          intro _
          exact ⟨List.getElem?_eq_none_iff.mp hr, rfl, id, fun _ => rfl⟩
      | some r =>
          have hlt : p.cur < p.regions.length := (List.getElem?_eq_some_iff.mp hr).1
          dsimp only
          by_cases hfit : add p.next need ≤ r.end_
          · rw [if_pos hfit]
            intro hnone
            cases hnone
          · rw [if_neg hfit]
            intro hnone
            have hcur : p.hop.regions.length - p.hop.cur < fuel := by simp; omega
            obtain ⟨hdone, hlist, hbound, -⟩ := ih p.hop hcur hnone
            rw [hop_freeList] at hlist
            exact ⟨hdone, hlist, fun hb => hbound hb.hop, fun hle => by omega⟩

/-- What a failed request for a block leaves, whatever its size. -/
structure Emptied (limit : Nat) (p p' : Pmm) : Prop where
  list : p'.freeList = p.freeList
  nothing : unbumped p' = []
  bounded : Bounded limit p'
  done : p'.regions.length ≤ p'.cur
  same : p.regions.length ≤ p.cur → p' = p

/-- A block that is not to be had has used up the bump. -/
theorem allocContiguousFrames_none (hb : Bounded limit p)
    (ha : allocContiguousFrames p n = (none, p')) : Emptied limit p p' := by
  have hloop := @bumpLoop_none limit (mul n pageSize)
    (fun free => if free ≥ n then free - n else 0) p.fuel p (Nat.lt_succ_self _)
  unfold allocContiguousFrames at ha
  rw [ha] at hloop
  obtain ⟨hdone, hlist, hbound, hsame⟩ := hloop rfl
  have hnone : p'.regions[p'.cur]? = none := List.getElem?_eq_none_iff.mpr hdone
  exact ⟨hlist, by rw [unbumped, hnone], hbound hb, hdone, hsame⟩

/-- No whole page is left to bump. -/
structure Dry (limit : Nat) (p : Pmm) : Prop where
  bounded : Bounded limit p
  empty : capacity pageSize (unbumped p) = 0

/-- A request that no page is left for is answered from the free list. -/
theorem Dry.request (hl : limit + pageSize < modulus) (h : Dry limit p) {r : Request}
    (hr : r.Fits limit) :
    Dry limit (FrameAllocator.request p r).2 ∧
      match r with
      | .frame => (FrameAllocator.request p r).1 = p.freeList.head? ∧
          (FrameAllocator.request p r).2.freeList = p.freeList.tail
      | .block _ => (FrameAllocator.request p r).1 = none ∧
          (FrameAllocator.request p r).2.freeList = p.freeList := by
  cases r with
  | frame =>
      dsimp only [FrameAllocator.request]
      rcases allocFrame_cases hl h.bounded with
        ⟨a, rest, hfree, heq⟩ | ⟨hfree, hfree', hcarve, hb⟩
      · have hspace : unbumped { p with freeList := rest, free := sub p.free 1 } = unbumped p :=
          unbumped_congr rfl rfl rfl
        have hbound : Bounded limit { p with freeList := rest, free := sub p.free 1 } :=
          Bounded.congr (p := p) rfl rfl h.bounded
        rw [heq, hfree]
        dsimp only
        exact ⟨⟨hbound, by rw [hspace, h.empty]⟩, rfl, rfl⟩
      · have hcap := carve_unit_capacity (u := pageSize) (by decide) (unbumped p)
        rw [← hcarve, h.empty] at hcap
        cases ha : (allocFrame p).1 with
        | some a =>
            simp only [ha, Option.isSome_some, if_true] at hcap
            omega
        | none =>
            rw [hfree]
            exact ⟨⟨hb, by dsimp only at hcap; omega⟩, rfl, hfree'⟩
  | block n =>
      obtain ⟨hpos, hneed⟩ := hr
      dsimp only [FrameAllocator.request]
      obtain ⟨hcarve, hfree, hb⟩ := allocContiguousFrames_carve hneed h.bounded
      have hcap := carve_units_capacity (u := pageSize) (by decide) n (unbumped p)
      rw [← hcarve, h.empty] at hcap
      cases ha : (allocContiguousFrames p n).1 with
      | some a =>
          simp only [ha, Option.isSome_some, if_true] at hcap
          omega
      | none => exact ⟨⟨hb, by dsimp only at hcap; omega⟩, rfl, hfree⟩

/-- Then the free list decides what is granted. -/
theorem Dry.granted_eq (hl : limit + pageSize < modulus) {rs : List Request}
    (hrs : ∀ r ∈ rs, r.Fits limit) (hp : Dry limit p) (hq : Dry limit q)
    (hlist : p.freeList = q.freeList) : granted p rs = granted q rs := by
  induction rs generalizing p q with
  | nil => rfl
  | cons r rs ih =>
      have hr := hrs r List.mem_cons_self
      obtain ⟨hp', hanswer⟩ := hp.request hl hr
      obtain ⟨hq', hanswer'⟩ := hq.request hl hr
      unfold granted
      cases r with
      | frame =>
          rw [hanswer.1, hanswer'.1, hlist]
          exact congrArg _ (ih (fun r hr => hrs r (List.mem_cons_of_mem _ hr)) hp' hq'
            (by rw [hanswer.2, hanswer'.2, hlist]))
      | block n =>
          rw [hanswer.1, hanswer'.1]
          exact congrArg _ (ih (fun r hr => hrs r (List.mem_cons_of_mem _ hr)) hp' hq'
            (by rw [hanswer.2, hanswer'.2, hlist]))

/-- Frames that are all granted. -/
theorem granted_frames (n : Nat) (p : Pmm) :
    granted p (List.replicate n .frame) = List.replicate n true ↔ serves n p = true := by
  induction n generalizing p with
  | zero => simp [granted, serves]
  | succ n ih =>
      rw [List.replicate_succ, List.replicate_succ, granted, serves]
      dsimp only [request]
      cases allocFrame p with
      | mk o p' =>
          cases o with
          | none => simp
          | some a => simpa using ih p'

/-- The block that wraps around to address zero. -/
private theorem wrap_to_zero {next : Nat} (hlt : next < modulus) (halign : pageSize ∣ next) :
    add next (mul ((modulus - next) / pageSize) pageSize) = 0 := by
  have hpages : pageSize ∣ modulus := by decide
  have hwhole : (modulus - next) / pageSize * pageSize = modulus - next :=
    Nat.div_mul_cancel (Nat.dvd_sub hpages halign)
  have hsum : next + (modulus - next) = modulus := Nat.add_sub_cancel' hlt.le
  unfold add mul
  rw [hwhole, Nat.add_mod_mod, hsum, Nat.mod_self]

/-- What can be had before and after a request for a block that failed. -/
theorem failed_block_iff (hl : limit + pageSize < modulus) (hlow : 0x300000 ≤ limit)
    (hw : (callSystem m).Run (Fits limit) w) (ha : allocContiguousFrames w.pmm n = (none, p')) :
    ((∀ rs, (∀ r ∈ rs, r.Fits limit) → granted w.pmm rs = granted p' rs) ↔
        capacity pageSize (unbumped w.pmm) = 0) ∧
      ((∀ k, serves k w.pmm = serves k p') ↔ capacity pageSize (unbumped w.pmm) = 0) ∧
      ((∀ rs, granted w.pmm rs = granted p' rs) ↔ w.pmm.regions.length ≤ w.pmm.cur) := by
  have hsound := call_sound hl hlow hw
  have hb := hsound.bounded
  have hafter := allocContiguousFrames_none hb ha
  have hrest : available p' = w.pmm.freeList.length := by
    rw [available, hafter.nothing, hafter.list]
    rfl
  -- all available frames are granted before, and only those on the list afterwards
  have hlost : serves (available w.pmm) p' = true → capacity pageSize (unbumped w.pmm) = 0 := by
    intro hserved
    have hle := (serves_iff hl hafter.bounded _).mp hserved
    rw [hrest] at hle
    unfold available at hle
    omega
  have hfull : serves (available w.pmm) w.pmm = true := (serves_iff hl hb _).mpr (Nat.le_refl _)
  have hdry : capacity pageSize (unbumped w.pmm) = 0 → Dry limit w.pmm ∧ Dry limit p' :=
    fun hempty => ⟨⟨hb, hempty⟩, ⟨hafter.bounded, by rw [hafter.nothing]; rfl⟩⟩
  refine ⟨⟨?_, ?_⟩, ⟨?_, ?_⟩, ⟨?_, ?_⟩⟩
  · intro h
    have hframes : ∀ r ∈ List.replicate (available w.pmm) Request.frame, r.Fits limit := by
      intro r hr
      rw [List.eq_of_mem_replicate hr]
      trivial
    have hsame := h _ hframes
    rw [(granted_frames _ _).mpr hfull] at hsame
    exact hlost ((granted_frames _ _).mp hsame.symm)
  · intro hempty rs hrs
    obtain ⟨hp, hq⟩ := hdry hempty
    exact hp.granted_eq hl hrs hq hafter.list.symm
  · intro h
    exact hlost ((h _).symm.trans hfull)
  · intro hempty k
    have hsame : available w.pmm = available p' := by
      rw [hrest, available, hempty, Nat.add_zero]
    rw [Bool.eq_iff_iff, serves_iff hl hb, serves_iff hl hafter.bounded, hsame]
  · intro h
    by_contra hcur
    have hlt : w.pmm.cur < w.pmm.regions.length := Nat.lt_of_not_le hcur
    have hget := List.getElem?_eq_getElem hlt
    have hnext : w.pmm.next < modulus := lt_of_le_of_lt hb.next_le (by omega)
    have halign : pageSize ∣ w.pmm.next := by
      apply hsound.separated.starts ⟨w.pmm.next, _⟩
      rw [unbumped, hget]
      exact List.mem_cons_self
    have hzero := wrap_to_zero hnext halign
    have hbad := h [.block ((modulus - w.pmm.next) / pageSize)]
    have hnone : p'.regions[p'.cur]? = none := List.getElem?_eq_none_iff.mpr hafter.done
    simp [granted, request, allocContiguousFrames, bumpLoop, Pmm.fuel, hget, hnone, hzero] at hbad
  · intro hcur rs
    rw [hafter.same hcur]

end

/-- All pages of the map are held: a request that fails leaves things as they are. -/
theorem sample_failed_block :
    ∃ w p', (callSystem sampleMap).Run (Fits (2 ^ 52)) w ∧
      allocContiguousFrames w.pmm 1 = (none, p') ∧
        ∀ rs, (∀ r ∈ rs, r.Fits (2 ^ 52)) → granted w.pmm rs = granted p' rs := by
  have hrun : ((callSystem sampleMap).execIf (Fits (2 ^ 52)) ⟨bootPmm sampleMap, []⟩
      [.allocContiguousFrames 6]).map (fun w =>
        ((allocContiguousFrames w.pmm 1).1, capacity pageSize (unbumped w.pmm))) =
          some (none, 0) := by decide +kernel
  obtain ⟨w, hw, hcount⟩ := Option.map_eq_some_iff.mp hrun
  obtain ⟨hnone, hempty⟩ := Prod.mk.inj hcount
  have hreached : (callSystem sampleMap).Run (Fits (2 ^ 52)) w :=
    TransitionSystem.Run.execIf (.boot rfl) hw
  have hfail : allocContiguousFrames w.pmm 1 = (none, (allocContiguousFrames w.pmm 1).2) :=
    Prod.ext hnone rfl
  exact ⟨w, _, hreached, hfail,
    (failed_block_iff (by decide) (by decide) hreached hfail).1.mpr hempty⟩

/-- A block that is too large costs all the frames that were left. -/
theorem failed_block_drops_frames :
    ¬ ∀ w n p', (callSystem sampleMap).Run (Fits (2 ^ 52)) w →
      allocContiguousFrames w.pmm n = (none, p') →
        ∀ k, serves k w.pmm = serves k p' := by
  intro h
  have hcount : (allocContiguousFrames (bootPmm sampleMap) 7).1 = none ∧
      serves 1 (bootPmm sampleMap) = true ∧
      serves 1 (allocContiguousFrames (bootPmm sampleMap) 7).2 = false := by decide +kernel
  have hsame := h ⟨bootPmm sampleMap, []⟩ 7 _ (.boot rfl) (Prod.ext hcount.1 rfl) 1
  rw [hcount.2.1] at hsame
  exact absurd (hsame.trans hcount.2.2) (by decide)

end FrameAllocator
