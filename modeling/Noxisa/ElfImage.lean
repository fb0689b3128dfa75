import Noxisa.ElfLoaderSafety
import Noxisa.FrameCalls

/-!
# The image that the ELF loader leaves

`Slice.image` is the byte that the segments before a header give to an address:
the one of the last segment whose contents reach it, and zero where none does.
`load_fresh` leaves exactly this in the frames of its pages, whatever the
segments are (`loadFresh_outcome`, which also says at which header a load ends
that does not succeed): a frame is zeroed once, when it is new, and afterwards
only written by copying.

For segments that are disjoint the image is what the format asks for.  A segment
that reaches into the last page of the address space gets no pages, since the
rounded end of it wraps around to zero; `loaded_image_iff` says that this is the
only exception.
-/

namespace ElfLoader

open ByteMemory FrameAllocator MachineWord PhysicalMemory

/-- The byte at address `a` after the headers before `n`. -/
def Slice.image (d : Slice) : Nat → Nat → UInt8
  | 0, _ => 0
  | i + 1, a =>
      if d.pType i = ptLoad ∧ sub a (d.pVaddr i) < d.pFilesz i then
        d.mem (add (d.pOffset i) (sub a (d.pVaddr i)))
      else d.image i a

/-- The image while a segment is copied. -/
def Slice.partImage (d : Slice) (fileOff vaddr copied : Nat) (img : Nat → UInt8) : Nat → UInt8 :=
  fun a => if sub a vaddr < copied then d.mem (add fileOff (sub a vaddr)) else img a

/-- A bounds check fails at header `i`. -/
def Slice.Stops (d : Slice) (i : Nat) : Prop :=
  ¬add (d.phOff i) d.phentsize ≤ d.len ∨
    d.pType i = ptLoad ∧ ¬add (d.pOffset i) (d.pFilesz i) ≤ d.len

/-- A segment has its place: the heap has room for the list of pages, and the
contents are on pages of the list. -/
def Slice.Placed (d : Slice) (room i : Nat) : Prop :=
  d.pType i = ptLoad → (d.pagesUpTo (i + 1)).card ≤ room ∧
    ∀ c < d.pFilesz i, pageMask (add (d.pVaddr i) c) ∈ d.pagesUpTo (i + 1)

/-- **The list of pages and the memory**: the pages `P`, each with a frame that
holds `img` there. -/
structure Imaged (env : Env) (d : Slice) (frames room : Nat) (P : Finset Nat) (img : Nat → UInt8)
    (pages : List Page) (m : Memory) : Prop where
  loading : Loading env False d frames room P pages m
  taken_eq : m.trace.taken = (pages.map Page.frame).reverse
  paged : ∀ v ∈ P, pageSize ∣ v ∧ v < modulus
  bytes : ∀ p ∈ pages, ∀ k < pageSize, m.ram (p.frame + k) = img (p.vaddr + k)
  blank : ∀ a < modulus, pageMask a ∉ P → img a = 0

section

variable {a v k : Nat}

/-- The addresses of a page. -/
theorem page_address (hv : pageSize ∣ v) (hlt : v < modulus) (hk : k < pageSize) :
    v + k < modulus ∧ pageMask (v + k) = v := by
  have hroom : v + k < modulus := by
    unfold pageSize at hv hk
    unfold modulus at hlt ⊢
    omega
  refine ⟨hroom, ?_⟩
  rw [pageMask_eq hroom]
  unfold pageSize at hv hk
  omega

/-- Differences of addresses. -/
theorem sub_cases {b : Nat} (ha : a < modulus) (hb : b < modulus) :
    b ≤ a ∧ sub a b = a - b ∨ a < b ∧ sub a b = a + modulus - b := by
  by_cases hle : b ≤ a
  · exact Or.inl ⟨hle, sub_eq ha hle⟩
  · right
    refine ⟨by omega, ?_⟩
    unfold sub
    rw [Nat.mod_eq_of_lt (by omega)]
    omega

/-- A sum of two words wraps at most once. -/
theorem add_cases {b : Nat} (ha : a < modulus) (hb : b < modulus) :
    a + b < modulus ∧ add a b = a + b ∨ modulus ≤ a + b ∧ add a b = a + b - modulus := by
  by_cases hlt : a + b < modulus
  · exact Or.inl ⟨hlt, add_eq hlt⟩
  · right
    refine ⟨by omega, ?_⟩
    unfold add
    rw [Nat.mod_eq_sub_mod (by omega), Nat.mod_eq_of_lt (by omega)]

/-- The bytes of a chunk are those that come next. -/
theorem mem_chunk {vaddr copied chunk : Nat} (ha : a < modulus) (hv : vaddr < modulus)
    (hc : copied + chunk < modulus) (hend : add vaddr copied + chunk ≤ modulus) :
    (sub a vaddr < copied + chunk ∧ ¬sub a vaddr < copied ↔
        add vaddr copied ≤ a ∧ a < add vaddr copied + chunk) ∧
      (add vaddr copied ≤ a → a < add vaddr copied + chunk →
        sub a vaddr = copied + (a - add vaddr copied)) := by
  have hsub := sub_cases ha hv
  have hadd := add_cases (a := vaddr) (b := copied) hv (by omega)
  rcases hadd with ⟨hsum, hadd⟩ | ⟨hsum, hadd⟩
  · rw [hadd] at hend ⊢
    rcases hsub with ⟨hle, hsub⟩ | ⟨hlt, hsub⟩ <;> rw [hsub] <;> omega
  · rw [hadd] at hend ⊢
    rcases hsub with ⟨hle, hsub⟩ | ⟨hlt, hsub⟩ <;> rw [hsub] <;> omega

end

/-- A byte of the slice, at an offset that wraps before it is added to or after. -/
private theorem mem_add (d : Slice) (off copied k : Nat) :
    d.mem (add off copied + k) = d.mem (add off (copied + k)) := by
  unfold Slice.mem add
  rw [Nat.mod_mod, Nat.mod_add_mod, Nat.add_assoc]

/-- So is a byte at one offset. -/
theorem mem_word (d : Slice) (off k : Nat) : d.mem (add off k) = d.mem (off + k) := by
  unfold Slice.mem add
  rw [Nat.mod_mod]

section

variable {env : Env} {d : Slice} {frames room : Nat} {P : Finset Nat} {img img' : Nat → UInt8}
  {pages : List Page} {m m' : Memory} {page q : Page}

/-- All frames of the list are different. -/
theorem Imaged.frames_nodup (h : Imaged env d frames room P img pages m) :
    (pages.map Page.frame).Nodup := by
  have hnodup := (List.nodup_append'.mp h.loading.call.sound.separated.nodup).1
  have htaken := (List.nodup_append'.mp hnodup).1
  rw [h.taken_eq] at htaken
  exact List.nodup_reverse.mp htaken

/-- A page of the list is at one of the addresses. -/
theorem Imaged.page_mem (h : Imaged env d frames room P img pages m) (hp : page ∈ pages) :
    page.vaddr ∈ P :=
  h.loading.mem.mpr ⟨page, hp, rfl⟩

/-- There is one page at an address. -/
theorem Imaged.page_eq (h : Imaged env d frames room P img pages m) (hp : page ∈ pages)
    (hq : q ∈ pages) (heq : page.vaddr = q.vaddr) : page = q :=
  List.inj_on_of_nodup_map h.loading.nodup hp hq heq

/-- Frames of two pages share no byte. -/
theorem Imaged.frames_apart (h : Imaged env d frames room P img pages m) (hp : page ∈ pages)
    (hq : q ∈ pages) (hne : page ≠ q) :
    page.frame + pageSize ≤ q.frame ∨ q.frame + pageSize ≤ page.frame := by
  have hframe : page.frame ≠ q.frame :=
    fun heq => hne (List.inj_on_of_nodup_map h.frames_nodup hp hq heq)
  have halign := h.loading.call.aligned (h.loading.taken page hp)
  have halign' := h.loading.call.aligned (h.loading.taken q hq)
  unfold pageSize at *
  omega

/-- Before the first header. -/
theorem imaged_start (hcall : CallSound env m) (htaken : m.trace.taken = []) :
    Imaged env d (available m.pmm) room ∅ (d.image 0) [] m := by
  refine ⟨loading_start hcall False.elim, ?_, ?_, ?_, ?_⟩
  · rw [htaken]
    rfl
  · intro v hv
    cases hv
  · intro p hp
    cases hp
  · intro a _ _
    rfl

/-- What only notes something keeps the image. -/
theorem Imaged.read (h : Imaged env d frames room P img pages m) (off len : Nat) :
    Imaged env d frames room P img pages
      { m with trace := { m.trace with reads := (off, len) :: m.trace.reads } } :=
  ⟨h.loading.read off len False.elim, h.taken_eq, h.paged, h.bytes, h.blank⟩

/-- A check leaves the image alone. -/
theorem Imaged.check (h : Imaged env d frames room P img pages m) (sum : Nat) :
    Imaged env d frames room P img pages
      { m with trace := { m.trace with checks := sum :: m.trace.checks } } :=
  ⟨h.loading.check False.elim, h.taken_eq, h.paged, h.bytes, h.blank⟩

/-- A new page is zero, and so is the image there. -/
theorem Imaged.push (hl : env.limit + pageSize < modulus)
    (h : Imaged env d frames room P img pages m) {v f : Nat} {w x : Bool}
    (hv : v ∉ P) (halign : pageSize ∣ v) (hlt : v < modulus)
    (ha : m.allocFrame = (some f, m')) (hroom : pages.length < room) :
    Imaged env d frames room (insert v P) img (pages ++ [⟨v, f, w, x⟩]) (m'.zeroFrame f) := by
  have hfresh := h.loading.call.fresh hl ha
  have hloading := h.loading.push hl (w := w) (x := x) hv ha hroom
  have halignf := hloading.call.aligned (f := f) (hloading.taken ⟨v, f, w, x⟩ (by simp))
  obtain ⟨p, hp, rfl⟩ := allocFrame_some ha
  refine ⟨hloading, ?_, ?_, ?_, ?_⟩
  · rw [zeroFrame_taken, List.map_append, List.reverse_append, ← h.taken_eq]
    rfl
  · intro u hu
    rcases Finset.mem_insert.mp hu with rfl | hu
    · exact ⟨halign, hlt⟩
    · exact h.paged u hu
  · intro q hq k hk
    dsimp only [Memory.zeroFrame, Memory.written]
    rcases List.mem_append.mp hq with hq | hq
    · have hmem := h.loading.taken q hq
      have hne : q.frame ≠ f := fun heq => hfresh (List.mem_append_left _ (heq ▸ hmem))
      have halignq := h.loading.call.aligned hmem
      rw [fill_outside m.ram 0 (by unfold pageSize at *; omega)]
      exact h.bytes q hq k hk
    · obtain rfl := List.mem_singleton.mp hq
      obtain ⟨hroom', hpage⟩ := page_address halign hlt hk
      rw [fill_inside m.ram 0 (by dsimp only; omega) (by dsimp only; omega)]
      exact (h.blank _ hroom' (by rwa [hpage])).symm
  · intro a hlta hnot
    exact h.blank a hlta (fun hin => hnot (Finset.mem_insert_of_mem hin))

/-- Copying into a page changes the image there. -/
theorem Imaged.copy (h : Imaged env d frames room P img pages m) (hpage : page ∈ pages)
    (off len : Nat) (hin : off + len ≤ pageSize) (src : Nat → UInt8)
    (himg : ∀ a < modulus, img' a =
      if page.vaddr + off ≤ a ∧ a < page.vaddr + off + len then src (a - (page.vaddr + off))
      else img a) :
    Imaged env d frames room P img' pages (m.copyTo (page.frame + off) len src) := by
  obtain ⟨halign, hlt⟩ := h.paged _ (h.page_mem hpage)
  refine ⟨h.loading.copy hpage off len hin src, h.taken_eq, h.paged, ?_, ?_⟩
  · intro q hq k hk
    obtain ⟨halignq, hltq⟩ := h.paged _ (h.page_mem hq)
    obtain ⟨hroom, -⟩ := page_address halignq hltq hk
    dsimp only [Memory.copyTo, Memory.written]
    rw [himg _ hroom]
    by_cases heq : page = q
    · subst heq
      by_cases hhit : off ≤ k ∧ k < off + len
      · rw [if_pos (by omega), ByteMemory.copy, if_pos (by omega)]
        congr 1
        omega
      · rw [if_neg (by omega), copy_outside m.ram src (by omega)]
        exact h.bytes page hq k hk
    · have hapart := h.frames_apart hpage hq heq
      have hne : page.vaddr ≠ q.vaddr := fun hv => heq (h.page_eq hpage hq hv)
      rw [copy_outside m.ram src (by omega), if_neg]
      · exact h.bytes q hq k hk
      · unfold pageSize at *
        omega
  · intro a hlta hnot
    rw [himg a hlta, if_neg]
    · exact h.blank a hlta hnot
    · intro hhit
      have hk : a - page.vaddr < pageSize := by omega
      have hpageof := (page_address halign hlt hk).2
      rw [Nat.add_sub_cancel' (by omega)] at hpageof
      exact hnot (hpageof ▸ h.page_mem hpage)

/-- The same bytes at all addresses. -/
theorem Imaged.congr (h : Imaged env d frames room P img pages m)
    (himg : ∀ a < modulus, img' a = img a) : Imaged env d frames room P img' pages m := by
  refine ⟨h.loading, h.taken_eq, h.paged, ?_, ?_⟩
  · intro p hp k hk
    obtain ⟨halign, hlt⟩ := h.paged _ (h.page_mem hp)
    rw [himg _ (page_address halign hlt hk).1]
    exact h.bytes p hp k hk
  · intro a hlt hnot
    rw [himg a hlt]
    exact h.blank a hlt hnot

/-- **The page loop** keeps the image; it ends with an error when no frame is
left. -/
theorem pageLoop_image (hl : env.limit + pageSize < modulus) {segEnd : Nat}
    (hend : pageSize ∣ segEnd) (hlt : segEnd < modulus) (w x : Bool) :
    ∀ fuel v P pages, pageSize ∣ v → (segEnd - v) / pageSize ≤ fuel →
      Command.Spec (Imaged env d frames room P img pages)
        (pageLoop room segEnd w x fuel v pages)
        (fun o m =>
          match o with
          | .ok pages' => Imaged env d frames room (P ∪ segmentPages v segEnd) img pages' m
          | .err _ => available m.pmm = 0
          | .panic _ => True) := by
  intro fuel
  induction fuel with
  | zero =>
      intro v P pages hv hfuel m h
      have hdone : segEnd ≤ v := by
        unfold pageSize at hend hv hfuel
        omega
      simpa [pageLoop, segmentPages_empty hdone] using h
  | succ fuel ih =>
      intro v P pages hv hfuel m h
      by_cases hmore : v < segEnd
      · have hnext : add v pageSize = v + pageSize := add_eq (by
          unfold pageSize at hend hv ⊢
          omega)
        have hv' : pageSize ∣ v + pageSize := Dvd.dvd.add hv (Nat.dvd_refl _)
        have hfuel' : (segEnd - (v + pageSize)) / pageSize ≤ fuel := by
          unfold pageSize at hend hv hfuel ⊢
          omega
        have hsplit : P ∪ segmentPages v segEnd =
            insert v P ∪ segmentPages (v + pageSize) segEnd := by
          rw [segmentPages_step hmore hv hend, Finset.union_insert, Finset.insert_union]
        rw [hsplit]
        by_cases hin : v ∈ P
        · have hany := h.loading.any_iff.mpr hin
          rw [Finset.insert_eq_of_mem hin, pageLoop, if_pos hmore, if_pos hany, hnext]
          exact ih _ _ _ hv' hfuel' m h
        · have hany : ¬pages.any (fun p => p.vaddr == v) = true :=
            fun hp => hin (h.loading.any_iff.mp hp)
          rw [pageLoop_fresh hmore hany, hnext]
          cases ha : m.allocFrame with
          | mk o m' =>
              cases o with
              | none =>
                  obtain ⟨p, hp, rfl⟩ := PhysicalMemory.allocFrame_none ha
                  have hbefore := available_of_none hl h.loading.call.sound.bounded hp
                  have hafter := allocFrame_available hl h.loading.call.sound.bounded
                  rw [hp] at hafter
                  dsimp only at hafter ⊢
                  omega
              | some f =>
                  by_cases hroom : pages.length < room
                  · simp only [hroom, if_true]
                    exact ih _ _ _ hv' hfuel' _ (h.push hl hin hv (by omega) ha hroom)
                  · simp only [hroom, if_false]
      · have hdone : segEnd ≤ v := by omega
        rw [pageLoop, if_neg hmore, segmentPages_empty hdone, Finset.union_empty]
        exact h

/-- **The copy loop** puts the contents into the image, chunk by chunk. -/
theorem copyLoop_image {fileOff filesz vaddr : Nat} (hsize : filesz < modulus)
    (hv : vaddr < modulus) :
    ∀ fuel copied, filesz - copied ≤ fuel → copied ≤ filesz →
      Command.Spec (Imaged env d frames room P (d.partImage fileOff vaddr copied img) pages)
        (copyLoop d fileOff filesz vaddr pages fuel copied)
        (fun o m =>
          match o with
          | .ok _ => Imaged env d frames room P (d.partImage fileOff vaddr filesz img) pages m
          | .err _ => True
          | .panic _ => True) := by
  intro fuel
  induction fuel with
  | zero =>
      intro copied hfuel hle m h
      obtain rfl : copied = filesz := by omega
      exact h
  | succ fuel ih =>
      intro copied hfuel hle m h
      by_cases hmore : copied < filesz
      · have hcur := add_lt vaddr copied
        have hbase := pageMask_le hcur
        have hoff : sub (add vaddr copied) (pageMask (add vaddr copied)) =
            add vaddr copied - pageMask (add vaddr copied) := sub_eq hcur hbase
        rw [copyLoop, if_pos hmore]
        simp only [hoff]
        cases hfind : pages.find? (fun p => p.vaddr == pageMask (add vaddr copied)) with
        | none => trivial
        | some page =>
            have hmem := List.mem_of_find?_eq_some hfind
            have hpage : page.vaddr = pageMask (add vaddr copied) := by
              simpa using List.find?_some hfind
            have hlow : add vaddr copied - pageMask (add vaddr copied) < pageSize := by
              rw [pageMask_eq hcur]
              unfold pageSize
              omega
            generalize hchunk : min (filesz - copied)
              (pageSize - (add vaddr copied - pageMask (add vaddr copied))) = chunk
            have hplace := (h.paged _ (h.page_mem hmem)).2
            have hroom : pageMask (add vaddr copied) + pageSize ≤ modulus := by
              have hlast := (page_address (h.paged _ (h.page_mem hmem)).1 hplace
                (k := pageSize - 1) (by decide)).1
              rw [hpage] at hlast
              unfold pageSize at hlast ⊢
              omega
            have hcopy := @Imaged.copy _ _ _ _ _ _ (d.partImage fileOff vaddr (copied + chunk) img)
              _ _ _ (h.read (add fileOff copied) chunk) hmem
              (add vaddr copied - pageMask (add vaddr copied)) chunk (by omega)
              (fun k => d.mem (add fileOff copied + k)) (by
                intro a ha
                have hend : copied + chunk < modulus ∧ add vaddr copied + chunk ≤ modulus := by
                  omega
                have hnext := mem_chunk ha hv hend.1 hend.2
                rw [hpage, Nat.add_sub_cancel' hbase]
                unfold Slice.partImage
                by_cases hhit : add vaddr copied ≤ a ∧ a < add vaddr copied + chunk
                · have hdist := hnext.2 hhit.1 hhit.2
                  rw [if_pos hhit, if_pos (hnext.1.mpr hhit).1, mem_add, hdist]
                · rw [if_neg hhit]
                  by_cases hold : sub a vaddr < copied
                  · rw [if_pos hold, if_pos (by omega)]
                  · rw [if_neg hold, if_neg (fun hnew => hhit (hnext.1.mp ⟨hnew, hold⟩))])
            simp only [readInput, Command.modify_bind]
            exact ih (copied + chunk) (by omega) (by omega) _ hcopy
      · obtain rfl : copied = filesz := by omega
        rw [copyLoop, if_neg hmore]
        exact h

end

/-- The list and the memory in front of header `i`. -/
def ImagedUpTo (env : Env) (d : Slice) (frames room i : Nat) (pages : List Page) (m : Memory) :
    Prop :=
  Imaged env d frames room (d.pagesUpTo i) (d.image i) pages m

/-- The loop gets to header `i`, if the frames last. -/
def Slice.Reaches (d : Slice) (room i : Nat) : Prop :=
  ∀ j < i, ¬d.Stops j ∧ d.Placed room j

/-- No frame is left for a page of segment `i`. -/
structure RunsOut (d : Slice) (frames room i : Nat) (m : Memory) : Prop where
  reads : ¬d.Stops i
  loads : d.pType i = ptLoad
  few : frames < (d.pagesUpTo (i + 1)).card
  fits : frames ≤ room
  none_left : available m.pmm = 0

/-- How the body for header `i` ends. -/
def BodyEnd (env : Env) (d : Slice) (frames room i : Nat) (o : Outcome ElfError (List Page))
    (m : Memory) : Prop :=
  match o with
  | .ok pages => (¬d.Stops i ∧ d.Placed room i) ∧ ImagedUpTo env d frames room (i + 1) pages m
  | .err _ => d.Stops i ∧ (∃ pages, ImagedUpTo env d frames room i pages m) ∨
      RunsOut d frames room i m
  | .panic _ => ¬d.Stops i ∧ ¬d.Placed room i ∧
      (frames < (d.pagesUpTo (i + 1)).card → room < frames)

/-- How the loop ends that is to go through `n` headers: behind all of them, or at
header `k`. -/
def LoopEnd (env : Env) (d : Slice) (frames room n : Nat) (o : Outcome ElfError (List Page))
    (m : Memory) : Prop :=
  match o with
  | .ok pages => d.Reaches room n ∧ ImagedUpTo env d frames room n pages m
  | .err _ => ∃ k < n, d.Reaches room k ∧
      (d.Stops k ∧ (∃ pages, ImagedUpTo env d frames room k pages m) ∨
        RunsOut d frames room k m)
  | .panic _ => ∃ k < n, d.Reaches room k ∧ ¬d.Stops k ∧ ¬d.Placed room k ∧
      (frames < (d.pagesUpTo (k + 1)).card → room < frames)

section

variable {env : Env} {d : Slice} {frames room i : Nat} {pages : List Page} {m : Memory}

/-- **How a segment's contents end.** -/
theorem loadContents_end (hl : env.limit + pageSize < modulus) (hload : d.pType i = ptLoad)
    (htable : add (d.phOff i) d.phentsize ≤ d.len) :
    Command.Spec (ImagedUpTo env d frames room i pages) (loadContents d room i pages)
      (BodyEnd env d frames room i) := by
  have hpages : d.pagesUpTo (i + 1) =
      d.pagesUpTo i ∪ segmentPages (d.segStart i) (d.segEnd i) := by
    rw [Slice.pagesUpTo, if_pos hload]
  unfold loadContents
  by_cases hcheck : add (d.pOffset i) (d.pFilesz i) ≤ d.len
  · have hgo : ¬d.Stops i := by
      rintro (hbad | ⟨-, hbad⟩)
      · exact hbad htable
      · exact hbad hcheck
    rw [checkBounds_pass _ hcheck]
    refine Command.Spec.bind (R := fun _ => ImagedUpTo env d frames room i pages)
      (fun m h => Imaged.check h _) (fun _ => ?_)
    refine Command.Spec.bind (R := Imaged env d frames room (d.pagesUpTo (i + 1)) (d.image i))
      (fun m h => ?_) (fun pages' => ?_)
    · have hdone := pageLoop_spec hl (segEnd_dvd d i) (segEnd_lt d i) (d.pFlags i &&& 2 != 0)
        (d.pFlags i &&& 1 != 0) ((d.segEnd i - d.segStart i) / pageSize) (d.segStart i)
        (d.pagesUpTo i) pages (segStart_dvd d i) (Nat.le_refl _) m h.loading
      have himage := pageLoop_image hl (segEnd_dvd d i) (segEnd_lt d i) (d.pFlags i &&& 2 != 0)
        (d.pFlags i &&& 1 != 0) ((d.segEnd i - d.segStart i) / pageSize) (d.segStart i)
        (d.pagesUpTo i) pages (segStart_dvd d i) (Nat.le_refl _) m h
      rw [← hpages] at hdone himage
      generalize pageLoop room (d.segEnd i) _ _ _ _ pages m = out at hdone himage ⊢
      obtain ⟨o, m1⟩ := out
      cases o with
      | ok pages' => exact himage
      | err e =>
          obtain ⟨-, -, hfew, hfits⟩ := hdone
          exact Or.inr ⟨hgo, hload, hfew, hfits, himage⟩
      | panic message =>
          obtain ⟨-, hcard, hfew⟩ := hdone
          refine ⟨hgo, fun hplaced => ?_, fun _ => hfew⟩
          have := (hplaced hload).1
          omega
    · refine Command.Spec.bind (R := fun _ m =>
        d.Placed room i ∧ ImagedUpTo env d frames room (i + 1) pages' m) (fun m h => ?_)
          (fun _ m h => ⟨⟨hgo, h.1⟩, h.2⟩)
      have hsize : d.pFilesz i < modulus := readLE_word _ _
      have hv : d.pVaddr i < modulus := readLE_word _ _
      have hspec : Command.Spec (Loading env False d frames room (d.pagesUpTo (i + 1)) pages')
          (copyLoop d (d.pOffset i) (d.pFilesz i) (d.pVaddr i) pages' (d.pFilesz i) 0)
          (CopyDone env False d frames room (d.pagesUpTo (i + 1)) pages' (d.pVaddr i)
            (d.pFilesz i) 0) :=
        copyLoop_spec (d.pVaddr i) False.elim (d.pFilesz i) 0 (Nat.sub_le _ _)
      have hplaced := hspec m h.loading
      have hstart : Imaged env d frames room (d.pagesUpTo (i + 1))
          (d.partImage (d.pOffset i) (d.pVaddr i) 0 (d.image i)) pages' m := by
        apply h.congr
        intro a _
        rw [Slice.partImage, if_neg (Nat.not_lt_zero _)]
      have hfull := copyLoop_image hsize hv (d.pFilesz i) 0 (Nat.sub_le _ _) (Nat.zero_le _)
        m hstart
      generalize copyLoop d (d.pOffset i) (d.pFilesz i) (d.pVaddr i) pages' (d.pFilesz i) 0 m =
        out at hplaced hfull ⊢
      obtain ⟨o, m2⟩ := out
      cases o with
      | err e => exact absurd hplaced id
      | panic message =>
          obtain ⟨-, c, hc, hmissing⟩ := hplaced
          have hcard := h.loading.card
          have hcount := h.loading.count
          exact ⟨hgo, fun hall => hmissing ((hall hload).2 c hc), fun hfew => by omega⟩
      | ok _ =>
          refine ⟨fun _ => ⟨?_, fun c hc => hplaced.2 c (Nat.zero_le _) hc⟩, ?_⟩
          · have hcard := h.loading.card
            have hheap := h.loading.heap
            omega
          · apply Imaged.congr hfull
            intro a _
            unfold Slice.partImage
            rw [Slice.image]
            by_cases hin : sub a (d.pVaddr i) < d.pFilesz i
            · rw [if_pos ⟨hload, hin⟩, if_pos hin]
            · rw [if_neg (fun hboth => hin hboth.2), if_neg hin]
  · rw [checkBounds_fail _ hcheck]
    intro m h
    exact Or.inl ⟨Or.inr ⟨hload, hcheck⟩, pages, h⟩

/-- **How a segment ends**, with its pages. -/
theorem loadSegment_end (hl : env.limit + pageSize < modulus) :
    Command.Spec (ImagedUpTo env d frames room i pages) (loadSegment d room i pages)
      (BodyEnd env d frames room i) := by
  unfold loadSegment
  by_cases hcheck : add (d.phOff i) d.phentsize ≤ d.len
  · rw [checkBounds_pass _ hcheck]
    refine Command.Spec.bind (R := fun _ => ImagedUpTo env d frames room i pages)
      (fun m h => Imaged.check h _) (fun _ => ?_)
    refine Command.Spec.bind (R := fun _ => ImagedUpTo env d frames room i pages)
      (fun m h => Imaged.read h _ _) (fun _ => ?_)
    by_cases hload : d.pType i = ptLoad
    · rw [if_neg (not_not.mpr hload)]
      exact loadContents_end hl hload hcheck
    · rw [if_pos hload]
      intro m h
      have hgo : ¬d.Stops i := by
        rintro (hbad | ⟨hpt, -⟩)
        · exact hbad hcheck
        · exact hload hpt
      refine ⟨⟨hgo, fun hpt => absurd hpt hload⟩, ?_⟩
      unfold ImagedUpTo
      rw [Slice.pagesUpTo, if_neg hload]
      apply Imaged.congr h
      intro a _
      rw [Slice.image, if_neg (fun hboth => hload hboth.1)]
  · rw [checkBounds_fail _ hcheck]
    intro m h
    exact Or.inl ⟨Or.inl hcheck, pages, h⟩

/-- **How the loop over the program headers ends.** -/
theorem headerLoop_end (hl : env.limit + pageSize < modulus) :
    ∀ n i pages, d.Reaches room i →
      Command.Spec (ImagedUpTo env d frames room i pages) (headerLoop d room n i pages)
        (LoopEnd env d frames room (i + n)) := by
  intro n
  induction n with
  | zero => exact fun i pages hreach m h => ⟨hreach, h⟩
  | succ n ih =>
      intro i pages hreach m h
      rw [headerLoop, Command.bind_apply]
      have hbody := @loadSegment_end env d frames room i pages hl m h
      generalize loadSegment d room i pages m = out at hbody ⊢
      obtain ⟨o, m'⟩ := out
      have hshift : i + (n + 1) = i + 1 + n := by omega
      cases o with
      | ok pages' =>
          rw [hshift]
          have hreach' : d.Reaches room (i + 1) := by
            intro j hj
            by_cases hlast : j = i
            · rw [hlast]
              exact hbody.1
            · exact hreach j (by omega)
          exact ih (i + 1) pages' hreach' m' hbody.2
      | err e => exact ⟨i, by omega, hreach, hbody⟩
      | panic message => exact ⟨i, by omega, hreach, hbody⟩

/-- **How `load_fresh` ends.** -/
def LoadEnd (env : Env) (d : Slice) (room : Nat) (m : Memory)
    (o : Outcome ElfError (Nat × List Page)) (m' : Memory) : Prop :=
  if d.len < 64 ∨ d.headerError ≠ none then
    (∃ e, o = .err e) ∧ m'.pmm = m.pmm ∧ m'.trace.taken = []
  else
    match o with
    | .ok (entry, pages) => entry = d.entry ∧
        LoopEnd env d (available m.pmm) room d.phnum (.ok pages) m'
    | .err e => LoopEnd env d (available m.pmm) room d.phnum (.err e) m'
    | .panic s => LoopEnd env d (available m.pmm) room d.phnum (.panic s) m'

/-- **How a load ends**: with the image of the file, or at the first thing that is wrong
with it. -/
theorem loadFresh_end (hl : env.limit + pageSize < modulus) (hcall : CallSound env m)
    (htaken : m.trace.taken = []) :
    LoadEnd env d room m (loadFresh d room m).1 (loadFresh d room m).2 := by
  unfold LoadEnd loadFresh
  by_cases hsize : d.len < 64
  · rw [if_pos hsize, if_pos (Or.inl hsize)]
    exact ⟨⟨_, rfl⟩, rfl, htaken⟩
  · rw [if_neg hsize, readInput, Command.modify_bind]
    cases herr : d.headerError with
    | some e =>
        rw [if_pos (Or.inr (Option.some_ne_none e))]
        exact ⟨⟨_, rfl⟩, rfl, htaken⟩
    | none =>
        rw [if_neg (by simp [hsize])]
        have hstart := (@imaged_start env d room _ hcall htaken).read 0 64
        have hloop := headerLoop_end hl d.phnum 0 [] (fun j hj => absurd hj (Nat.not_lt_zero j))
          _ hstart
        rw [Nat.zero_add] at hloop
        dsimp only
        rw [Command.bind_apply]
        generalize headerLoop d room d.phnum 0 [] _ = out at hloop ⊢
        obtain ⟨o, m'⟩ := out
        cases o with
        | ok pages => exact ⟨rfl, hloop⟩
        | err e => exact hloop
        | panic message => exact hloop

end

/-- The rules of the format: no contents beyond the segment, and address ranges that
do not wrap around and are disjoint. -/
structure Slice.Regular (d : Slice) : Prop where
  filesz_le : ∀ i < d.phnum, d.pType i = ptLoad → d.pFilesz i ≤ d.pMemsz i
  no_wrap : ∀ i < d.phnum, d.pType i = ptLoad → d.pVaddr i + d.pMemsz i ≤ modulus
  disjoint : ∀ i < d.phnum, ∀ j < d.phnum, i ≠ j → d.pType i = ptLoad → d.pType j = ptLoad →
    Disjoint (Set.Ico (d.pVaddr i) (d.pVaddr i + d.pMemsz i))
      (Set.Ico (d.pVaddr j) (d.pVaddr j + d.pMemsz j))

/-- Every byte of every segment is on one page of the list, and in its frame. -/
structure LoadedImage (d : Slice) (pages : List Page) (m : Memory) : Prop where
  frames_nodup : (pages.map Page.frame).Nodup
  one_page : ∀ i < d.phnum, d.pType i = ptLoad → ∀ j < d.pMemsz i,
    (pages.map Page.vaddr).count (pageMask (d.pVaddr i + j)) = 1
  bytes : ∀ i < d.phnum, d.pType i = ptLoad → ∀ j < d.pMemsz i,
    ∀ p ∈ pages, p.vaddr = pageMask (d.pVaddr i + j) →
      m.ram (p.frame + (d.pVaddr i + j) % pageSize) =
        if j < d.pFilesz i then d.mem (d.pOffset i + j) else 0

section

variable {d : Slice}

/-- The pages of an area are those between its ends. -/
theorem mem_segmentPages {start stop v : Nat} (hstart : pageSize ∣ start)
    (hstop : pageSize ∣ stop) :
    v ∈ segmentPages start stop ↔ pageSize ∣ v ∧ start ≤ v ∧ v < stop := by
  rw [segmentPages, Finset.mem_image]
  constructor
  · rintro ⟨k, hk, rfl⟩
    rw [Finset.mem_range] at hk
    refine ⟨Dvd.dvd.add hstart (Dvd.intro_left k rfl), Nat.le_add_right _ _, ?_⟩
    unfold pageSize at *
    omega
  · rintro ⟨hv, hlo, hhi⟩
    refine ⟨(v - start) / pageSize, ?_, ?_⟩
    · rw [Finset.mem_range]
      unfold pageSize at *
      omega
    · unfold pageSize at *
      omega

/-- The pages of the first `n` segments. -/
theorem mem_pagesUpTo {n v : Nat} :
    v ∈ d.pagesUpTo n ↔
      ∃ i < n, d.pType i = ptLoad ∧ pageSize ∣ v ∧ d.segStart i ≤ v ∧ v < d.segEnd i := by
  induction n with
  | zero => simp [Slice.pagesUpTo]
  | succ n ih =>
      have hlast := mem_segmentPages (v := v) (segStart_dvd d n) (segEnd_dvd d n)
      rw [Slice.pagesUpTo]
      by_cases hload : d.pType n = ptLoad
      · rw [if_pos hload, Finset.mem_union, ih, hlast]
        constructor
        · rintro (⟨i, hi, h⟩ | h)
          · exact ⟨i, by omega, h⟩
          · exact ⟨n, by omega, hload, h⟩
        · rintro ⟨i, hi, h⟩
          by_cases heq : i = n
          · subst heq
            exact Or.inr h.2
          · exact Or.inl ⟨i, by omega, h⟩
      · rw [if_neg hload, ih]
        constructor
        · rintro ⟨i, hi, h⟩
          exact ⟨i, by omega, h⟩
        · rintro ⟨i, hi, h⟩
          have hne : i ≠ n := fun heq => hload (heq ▸ h.1)
          exact ⟨i, by omega, h⟩

/-- The last page of the address space is on no list. -/
private theorem lastPage_notMem (n v : Nat) (hv : modulus - pageSize ≤ v) : v ∉ d.pagesUpTo n := by
  rw [mem_pagesUpTo]
  rintro ⟨i, -, -, -, -, hlt⟩
  have hend := segEnd_lt d i
  have halign := segEnd_dvd d i
  unfold pageSize modulus at *
  omega

/-- A segment ends at the end of its last page, if the sum does not wrap. -/
theorem segEnd_eq {i : Nat} (h : d.pVaddr i + d.pMemsz i ≤ modulus - pageSize) :
    d.segEnd i = (d.pVaddr i + d.pMemsz i + 4095) / 4096 * 4096 := by
  have hroom : d.pVaddr i + d.pMemsz i + 4096 ≤ modulus := by
    unfold pageSize modulus at *
    omega
  rw [Slice.segEnd, add_eq (a := d.pVaddr i) (b := d.pMemsz i) (by omega)]
  by_cases hfull : d.pVaddr i + d.pMemsz i + pageSize < modulus
  · rw [add_eq hfull, sub_eq hfull (by unfold pageSize; omega)]
    rw [pageMask_eq (by omega)]
    rfl
  · -- the sum wraps to zero, and the difference back
    have hsum : d.pVaddr i + d.pMemsz i + pageSize = modulus := by
      unfold pageSize at hfull ⊢
      omega
    have hzero : add (d.pVaddr i + d.pMemsz i) pageSize = 0 := by
      unfold add
      rw [hsum, Nat.mod_self]
    have hback : sub 0 1 = d.pVaddr i + d.pMemsz i + 4095 := by
      rcases sub_cases (a := 0) (b := 1) (by decide) (by decide) with ⟨hle, -⟩ | ⟨-, hsub⟩
      · omega
      · rw [hsub]
        unfold pageSize at hsum
        omega
    rw [hzero, hback, pageMask_eq (by unfold pageSize at hsum; omega)]

/-- Two segments of a regular file have no address in common. -/
theorem Slice.Regular.same (h : d.Regular) {i j a : Nat} (hi : i < d.phnum) (hj : j < d.phnum)
    (hli : d.pType i = ptLoad) (hlj : d.pType j = ptLoad) (ha : d.pVaddr i ≤ a)
    (ha' : a < d.pVaddr i + d.pMemsz i) (hin : sub a (d.pVaddr j) < d.pFilesz j) : j = i := by
  by_contra hne
  have hwrap := h.no_wrap j hj hlj
  have hsize := h.filesz_le j hj hlj
  have hlt : a < modulus := lt_of_lt_of_le ha' (h.no_wrap i hi hli)
  have hv : d.pVaddr j < modulus := readLE_word _ _
  rcases sub_cases hlt hv with ⟨hle, hsub⟩ | ⟨-, hsub⟩
  · rw [hsub] at hin
    exact Set.disjoint_left.mp (h.disjoint j hj i hi hne hlj hli) ⟨hle, by omega⟩ ⟨ha, ha'⟩
  · omega

/-- **The image of a regular file.** -/
theorem Slice.Regular.image_eq (h : d.Regular) {i j : Nat} (hi : i < d.phnum)
    (hload : d.pType i = ptLoad) (hj : j < d.pMemsz i) :
    ∀ n ≤ d.phnum, d.image n (d.pVaddr i + j) =
      if i < n ∧ j < d.pFilesz i then d.mem (d.pOffset i + j) else 0 := by
  intro n
  induction n with
  | zero => intro _; rfl
  | succ n ih =>
      intro hn
      have hlt : d.pVaddr i + j < modulus :=
        lt_of_lt_of_le (Nat.add_lt_add_left hj _) (h.no_wrap i hi hload)
      have hdist : sub (d.pVaddr i + j) (d.pVaddr i) = j := by
        rw [sub_eq hlt (Nat.le_add_right _ _), Nat.add_sub_cancel_left]
      rw [Slice.image]
      by_cases hhit : d.pType n = ptLoad ∧ sub (d.pVaddr i + j) (d.pVaddr n) < d.pFilesz n
      · obtain rfl := h.same hi (by omega) hload hhit.1 (Nat.le_add_right _ _) (by omega) hhit.2
        rw [hdist] at hhit
        rw [if_pos (by rw [hdist]; exact hhit), hdist, if_pos ⟨Nat.lt_succ_self n, hhit.2⟩]
        exact mem_word d (d.pOffset n) j
      · rw [if_neg hhit, ih (by omega)]
        by_cases heq : i = n
        · subst heq
          rw [hdist] at hhit
          rw [if_neg (fun hbad => Nat.lt_irrefl i hbad.1),
            if_neg (fun hbad => hhit ⟨hload, hbad.2⟩)]
        · have hiff : i < n + 1 ↔ i < n := by omega
          simp only [hiff]

/-- A page of the list, for an address of a segment that ends below the last page. -/
theorem Slice.page_listed {n i j : Nat} (hi : i < n) (hload : d.pType i = ptLoad)
    (hj : j < d.pMemsz i) (hend : d.pVaddr i + d.pMemsz i ≤ modulus - pageSize) :
    pageMask (d.pVaddr i + j) ∈ d.pagesUpTo n := by
  have hstop := segEnd_eq hend
  have hv : d.pVaddr i < modulus := readLE_word _ _
  have hlt : d.pVaddr i + j < modulus := by omega
  rw [mem_pagesUpTo]
  refine ⟨i, hi, hload, dvd_pageMask hlt, ?_, ?_⟩
  · rw [Slice.segStart, pageMask_eq hv, pageMask_eq hlt]
    omega
  · rw [hstop, pageMask_eq hlt]
    omega

/-- The list grows. -/
theorem pagesUpTo_mono {i n : Nat} (h : i ≤ n) : d.pagesUpTo i ⊆ d.pagesUpTo n := by
  intro v hv
  rw [mem_pagesUpTo] at hv ⊢
  obtain ⟨j, hj, hin⟩ := hv
  exact ⟨j, by omega, hin⟩

end

section

variable {limit room entry : Nat} {map : MemoryMap limit} {w : World} {d : Slice} {m m' : Memory}
  {pages : List Page}

/-- What `load_fresh` leaves when it succeeds, in every reachable state of the
allocator. -/
theorem loadFresh_image (hl : limit + pageSize < modulus) (hlow : 0x300000 ≤ limit)
    (hw : (callSystem map).Run (Fits limit) w) (hpmm : m.pmm = w.pmm)
    (htrace : m.trace = Trace.empty) (hrun : loadFresh d room m = (.ok (entry, pages), m')) :
    entry = d.entry ∧ d.Reaches room d.phnum ∧
      ImagedUpTo ⟨limit, w.live.flatten, m.ram⟩ d (available m.pmm) room d.phnum pages m' := by
  have hsound := call_sound hl hlow hw
  have hcall : CallSound ⟨limit, w.live.flatten, m.ram⟩ m :=
    callSound_start (hpmm ▸ hsound) htrace
  have hend : LoadEnd _ d room m _ _ := loadFresh_end hl hcall (by rw [htrace]; rfl)
  rw [hrun] at hend
  unfold LoadEnd at hend
  split at hend
  next =>
    obtain ⟨⟨e, he⟩, -⟩ := hend
    cases he
  next => exact hend

/-- **The loaded image.**  For a regular file that `load_fresh` accepts, the list
and the frames are as the segments say, exactly if no segment reaches into the
last page of the address space. -/
theorem loaded_image_iff (hl : limit + pageSize < modulus) (hlow : 0x300000 ≤ limit)
    (hw : (callSystem map).Run (Fits limit) w) (hpmm : m.pmm = w.pmm)
    (htrace : m.trace = Trace.empty) (hregular : d.Regular)
    (hrun : loadFresh d room m = (.ok (entry, pages), m')) :
    LoadedImage d pages m' ↔
      ∀ i < d.phnum, d.pType i = ptLoad → 0 < d.pMemsz i →
        d.pVaddr i + d.pMemsz i ≤ modulus - pageSize := by
  obtain ⟨-, -, h⟩ := loadFresh_image hl hlow hw hpmm htrace hrun
  constructor
  · intro hloaded i hi hload hpos
    by_contra hpast
    have hwrap := hregular.no_wrap i hi hload
    have hcount := hloaded.one_page i hi hload (d.pMemsz i - 1) (by omega)
    have hmem : pageMask (d.pVaddr i + (d.pMemsz i - 1)) ∈ d.pagesUpTo d.phnum := by
      rw [← h.loading.pages_eq, List.mem_toFinset]
      apply List.one_le_count_iff.mp
      omega
    refine lastPage_notMem _ _ ?_ hmem
    rw [pageMask_eq (by omega)]
    unfold pageSize modulus at *
    omega
  · intro hlow
    refine ⟨h.frames_nodup, ?_, ?_⟩
    · intro i hi hload j hj
      have hmem := Slice.page_listed hi hload hj (hlow i hi hload (by omega))
      rw [← h.loading.pages_eq, List.mem_toFinset] at hmem
      exact List.count_eq_one_of_mem h.loading.nodup hmem
    · intro i hi hload j hj p hp hpage
      have hlt : d.pVaddr i + j < modulus :=
        lt_of_lt_of_le (Nat.add_lt_add_left hj _) (hregular.no_wrap i hi hload)
      have hbyte := h.bytes p hp ((d.pVaddr i + j) % pageSize) (Nat.mod_lt _ (by decide))
      have haddr : p.vaddr + (d.pVaddr i + j) % pageSize = d.pVaddr i + j := by
        rw [hpage, pageMask_eq hlt]
        unfold pageSize
        omega
      rw [hbyte, haddr, hregular.image_eq hi hload hj d.phnum (Nat.le_refl _)]
      simp only [hi, true_and]

end

/-- Two segments on one page, the second with room for four bytes more. -/
def sharedPageElf : Slice :=
  Slice.ofList (elfHeader 0x400000 64 56 2 ++ elfPhdr 176 0x400000 4 4 ++
    elfPhdr 180 0x400100 4 8 ++ [0x90, 0x90, 0xEB, 0xFE, 1, 2, 3, 4]) (by decide +kernel)

/-- A hundred bytes in the last page of the address space. -/
def lastPageElf : Slice :=
  Slice.ofList (elfHeader 0x400000 64 56 1 ++ elfPhdr 120 (2 ^ 64 - 4096) 0 100)
    (by decide +kernel)

/-- The segments of the sample: two that share a page. -/
theorem sharedPage_segments : ∀ i < sharedPageElf.phnum,
    i = 0 ∧ sharedPageElf.pVaddr i = 0x400000 ∧ sharedPageElf.pFilesz i = 4 ∧
        sharedPageElf.pMemsz i = 4 ∨
      i = 1 ∧ sharedPageElf.pVaddr i = 0x400100 ∧ sharedPageElf.pFilesz i = 4 ∧
        sharedPageElf.pMemsz i = 8 := by
  decide +kernel

/-- The sample obeys the rules. -/
theorem sharedPage_regular : sharedPageElf.Regular := by
  refine ⟨?_, ?_, ?_⟩
  · intro i hi _
    have := sharedPage_segments i hi
    omega
  · intro i hi _
    have := sharedPage_segments i hi
    unfold modulus
    omega
  · intro i hi j hj hne _ _
    have hi' := sharedPage_segments i hi
    have hj' := sharedPage_segments j hj
    rw [Set.disjoint_left]
    rintro a ⟨hlo, hhi⟩ ⟨hlo', hhi'⟩
    omega

/-- Its segments do not wrap. -/
theorem sharedPage_low : ∀ i < sharedPageElf.phnum, sharedPageElf.pType i = ptLoad →
    0 < sharedPageElf.pMemsz i →
      sharedPageElf.pVaddr i + sharedPageElf.pMemsz i ≤ modulus - pageSize := by
  intro i hi _ _
  have := sharedPage_segments i hi
  unfold modulus pageSize
  omega

/-- It is loaded as it should be. -/
theorem sample_loaded_image :
    ∃ pages m', loadFresh sharedPageElf 100 sampleMemory = (.ok (0x400000, pages), m') ∧
      LoadedImage sharedPageElf pages m' := by
  have hboot : (callSystem sampleMap).Run (Fits (2 ^ 52)) ⟨bootPmm sampleMap, []⟩ := .boot rfl
  have hrun : (loadFresh sharedPageElf 100 sampleMemory).1 =
      .ok (0x400000, [⟨0x400000, 0x400000, false, true⟩]) := by decide +kernel
  have hload := Command.eq_of_fst hrun
  exact ⟨_, _, hload, (loaded_image_iff (by decide) (by decide) hboot rfl rfl sharedPage_regular
    hload).mpr sharedPage_low⟩

/-- The load succeeds, and the segment has no page. -/
theorem last_page_not_loaded :
    ¬ ∀ (d : Slice) pages m', d.Regular → loadFresh d 100 sampleMemory = (.ok (d.entry, pages), m') →
      LoadedImage d pages m' := by
  intro h
  have hrun : (loadFresh lastPageElf 100 sampleMemory).1 = .ok (lastPageElf.entry, []) := by
    decide +kernel
  have hfields : lastPageElf.phnum = 1 ∧ lastPageElf.pType 0 = ptLoad ∧
      lastPageElf.pVaddr 0 = 2 ^ 64 - 4096 ∧ lastPageElf.pFilesz 0 = 0 ∧
      lastPageElf.pMemsz 0 = 100 := by decide +kernel
  obtain ⟨hnum, hload, hv, hf, hm⟩ := hfields
  have hone : ∀ i < lastPageElf.phnum, i = 0 := by
    intro i hi
    omega
  have hregular : lastPageElf.Regular := by
    refine ⟨?_, ?_, ?_⟩
    · intro i hi _
      obtain rfl := hone i hi
      omega
    · intro i hi _
      obtain rfl := hone i hi
      unfold modulus
      omega
    · intro i hi j hj hne _ _
      exact absurd ((hone i hi).trans (hone j hj).symm) hne
  have hloaded := h lastPageElf _ _ hregular (Command.eq_of_fst hrun)
  have hcount := hloaded.one_page 0 (by omega) hload 0 (by omega)
  cases hcount

end ElfLoader
