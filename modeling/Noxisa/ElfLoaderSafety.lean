import Noxisa.ElfLoader

/-!
# When the ELF loader is safe

`Safe` is what a caller of `load_fresh` may expect whatever the file: it
returns, it has read inside the file only, it has written into its own frames
only, and no bounds check has passed by wrap-around.

The loader does not have this for every file.  `Slice.WellBehaved` is the exact
condition, read off the headers that the loop reaches (`loadFresh_safe_iff`).
The three inner pieces are described by the sets of pages they work on:
`pageLoop_spec` and `copyLoop_spec` are inductions on the fuel, and
`loadSegment_spec` puts them together for one program header.
-/

namespace ElfLoader

open ByteMemory FrameAllocator MachineWord PhysicalMemory

/-- Reads were inside the input, and passed checks were true. -/
structure Clean (d : Slice) (t : Trace) : Prop where
  reads : ∀ r ∈ t.reads, r.1 + r.2 ≤ d.len
  checks : ∀ c ∈ t.checks, c ≤ d.len

/-- **A safe call**: it does not panic, it reads what it has checked, and writes to its
own frames. -/
structure Safe (d : Slice) {α : Type} (out : Outcome ElfError α × Memory) : Prop where
  no_panic : ∀ message, out.1 ≠ .panic message
  clean : Clean d out.2.trace
  own : OwnWrites out.2.trace

/-- The pages from `start` up to `stop`. -/
def segmentPages (start stop : Nat) : Finset Nat :=
  (Finset.range ((stop - start) / pageSize)).image (fun k => start + k * pageSize)

/-- The pages of the loadable segments before header `i`. -/
def Slice.pagesUpTo (d : Slice) : Nat → Finset Nat
  | 0 => ∅
  | i + 1 =>
      if d.pType i = ptLoad then d.pagesUpTo i ∪ segmentPages (d.segStart i) (d.segEnd i)
      else d.pagesUpTo i

/-- What the contents of the loadable segment `i` have to satisfy, if their
bounds check passes: they are inside the file, the heap does not run out before
the frames do, and they lie in pages that the segments so far have. -/
def Slice.ContentsOk (d : Slice) (frames room i : Nat) : Prop :=
  add (d.pOffset i) (d.pFilesz i) ≤ d.len →
    d.pOffset i + d.pFilesz i ≤ d.len ∧
    min (d.pagesUpTo (i + 1)).card frames ≤ room ∧
    ((d.pagesUpTo (i + 1)).card ≤ frames →
      ∀ c < d.pFilesz i, pageMask (add (d.pVaddr i) c) ∈ d.pagesUpTo (i + 1))

/-- What header `i` has to satisfy, if its bounds check passes: the header
table up to here is inside the file, with a whole `Elf64Phdr` at its end, and
so are the contents. -/
def Slice.HeaderOk (d : Slice) (frames room i : Nat) : Prop :=
  add (d.phOff i) d.phentsize ≤ d.len →
    d.phoff + i * d.phentsize + max d.phentsize phdrSize ≤ d.len ∧
    (d.pType i = ptLoad → d.ContentsOk frames room i)

/-- The loop goes past header `i`. -/
def Slice.Passes (d : Slice) (frames i : Nat) : Prop :=
  add (d.phOff i) d.phentsize ≤ d.len ∧
  (d.pType i = ptLoad →
    add (d.pOffset i) (d.pFilesz i) ≤ d.len ∧ (d.pagesUpTo (i + 1)).card ≤ frames)

/-- **The condition for a safe load**, with `frames` frames available and heap
room for `room` pages: every header that the loop reaches is in order. -/
def Slice.WellBehaved (d : Slice) (frames room : Nat) : Prop :=
  64 ≤ d.len → d.headerError = none →
    ∀ i < d.phnum, (∀ j < i, d.Passes frames j) → d.HeaderOk frames room i

/-- A segment that ends before it begins has no pages. -/
theorem segmentPages_empty {start stop : Nat} (h : stop ≤ start) : segmentPages start stop = ∅ := by
  have hzero : stop - start = 0 := by omega
  simp [segmentPages, hzero]

/-- The first page, and those behind it. -/
theorem segmentPages_step {start stop : Nat} (h : start < stop) (hstart : pageSize ∣ start)
    (hstop : pageSize ∣ stop) :
    segmentPages start stop = insert start (segmentPages (start + pageSize) stop) := by
  obtain ⟨a, rfl⟩ := hstart
  obtain ⟨b, rfl⟩ := hstop
  have hab : a < b := lt_of_mul_lt_mul_left h (Nat.zero_le _)
  have hone : (pageSize * b - pageSize * a) / pageSize =
      (pageSize * b - (pageSize * a + pageSize)) / pageSize + 1 := by
    unfold pageSize
    omega
  ext x
  simp only [segmentPages, hone, Finset.mem_image, Finset.mem_range, Finset.mem_insert]
  constructor
  · rintro ⟨k, hk, rfl⟩
    cases k with
    | zero => simp
    | succ k =>
        right
        exact ⟨k, Nat.lt_of_succ_lt_succ hk, by ring⟩
  · rintro (rfl | ⟨k, hk, rfl⟩)
    · exact ⟨0, Nat.succ_pos _, by simp⟩
    · exact ⟨k + 1, Nat.succ_lt_succ hk, by ring⟩

/-- **The state between two segments.**  The list has the pages `P`, one entry
and one frame of this call for each.  If `strict`, the loader has kept to the
rules so far; without it, the state is that of a load that may have broken
them. -/
structure Loading (env : Env) (strict : Prop) (d : Slice) (frames room : Nat)
    (P : Finset Nat) (pages : List Page) (m : Memory) : Prop where
  call : CallSound env m
  clean : strict → Clean d m.trace
  count : available m.pmm + pages.length = frames
  heap : pages.length ≤ room
  nodup : (pages.map Page.vaddr).Nodup
  pages_eq : (pages.map Page.vaddr).toFinset = P
  taken : ∀ p ∈ pages, p.frame ∈ m.trace.taken

section

variable {env : Env} {strict : Prop} {d : Slice} {frames room : Nat} {P : Finset Nat}
  {pages : List Page} {m : Memory}

/-- As many addresses as pages. -/
theorem Loading.card (h : Loading env strict d frames room P pages m) : P.card = pages.length := by
  rw [← h.pages_eq, List.toFinset_card_of_nodup h.nodup, List.length_map]

/-- The addresses are those of the pages. -/
theorem Loading.mem (h : Loading env strict d frames room P pages m) {v : Nat} :
    v ∈ P ↔ ∃ p ∈ pages, p.vaddr = v := by
  rw [← h.pages_eq, List.mem_toFinset, List.mem_map]

/-- The `any` test of the page loop. -/
theorem Loading.any_iff (h : Loading env strict d frames room P pages m) {v : Nat} :
    pages.any (fun p => p.vaddr == v) = true ↔ v ∈ P := by
  rw [h.mem, List.any_eq_true]
  simp

/-- A new page with a frame of its own. -/
theorem Loading.push (hl : env.limit + pageSize < modulus)
    (h : Loading env strict d frames room P pages m) {v f : Nat} {m' : Memory} {w x : Bool}
    (hv : v ∉ P) (ha : m.allocFrame = (some f, m')) (hroom : pages.length < room) :
    Loading env strict d frames room (insert v P) (pages ++ [⟨v, f, w, x⟩]) (m'.zeroFrame f) := by
  have hcall := h.call.allocFrame hl ha
  obtain ⟨p, hp, rfl⟩ := allocFrame_some ha
  have havail := allocFrame_available hl h.call.sound.bounded
  rw [hp] at havail
  have hcount := h.count
  refine ⟨hcall.zeroFrame List.mem_cons_self, ?_, ?_, ?_, ?_, ?_, ?_⟩
  · exact fun hs => ⟨(h.clean hs).reads, (h.clean hs).checks⟩
  · simp only [zeroFrame_pmm, List.length_append, List.length_singleton]
    simp only [Option.isSome_some, if_true] at havail
    omega
  · simp only [List.length_append, List.length_singleton]
    omega
  · rw [List.map_append, List.map_singleton]
    refine List.nodup_append'.mpr ⟨h.nodup, List.nodup_singleton _, ?_⟩
    intro y hy hyv
    rw [List.mem_singleton] at hyv
    subst hyv
    rw [← h.pages_eq, List.mem_toFinset] at hv
    exact hv hy
  · rw [← h.pages_eq]
    ext y
    simp
  · intro q hq
    rcases List.mem_append.mp hq with hq | hq
    · exact List.mem_cons_of_mem _ (h.taken q hq)
    · rw [List.mem_singleton] at hq
      subst hq
      exact List.mem_cons_self

/-- Before the first segment. -/
theorem loading_start (hcall : CallSound env m) (hclean : strict → Clean d m.trace) :
    Loading env strict d (available m.pmm) room ∅ [] m :=
  ⟨hcall, hclean, rfl, Nat.zero_le _, List.nodup_nil, rfl, by simp⟩

/-- How the page loop can end, for the pages `T` that the list is to have: with
all of them, out of frames, or out of heap. -/
def PagesDone (env : Env) (strict : Prop) (d : Slice) (frames room : Nat) (T : Finset Nat)
    (o : Outcome ElfError (List Page)) (m : Memory) : Prop :=
  match o with
  | .ok pages => Loading env strict d frames room T pages m
  | .err _ => (strict → Clean d m.trace) ∧ CallSound env m ∧ frames < T.card ∧ frames ≤ room
  | .panic _ => CallSound env m ∧ room < T.card ∧ room < frames

/-- One iteration of the page loop for a page that is not in the list. -/
theorem pageLoop_fresh {segEnd v fuel : Nat} {w x : Bool} (hmore : v < segEnd)
    (hany : ¬pages.any (fun p => p.vaddr == v) = true) :
    pageLoop room segEnd w x (fuel + 1) v pages m =
      match m.allocFrame with
      | (some f, m') =>
          if pages.length < room then
            pageLoop room segEnd w x fuel (add v pageSize) (pages ++ [⟨v, f, w, x⟩])
              (m'.zeroFrame f)
          else (.panic "OOM allocating", m'.zeroFrame f)
      | (none, m') => (.err .segmentOutOfBounds, m') := by
  rw [pageLoop, if_pos hmore, if_neg hany, Command.bind_apply, allocOr]
  cases m.allocFrame with
  | mk o m' =>
      cases o with
      | none => rfl
      | some f =>
          by_cases hroom : pages.length < room
          · simp [pushPage, hroom, Command.bind_apply]
          · simp [pushPage, hroom, Command.bind_apply]

/-- **The page loop** adds the pages from `v` up to the end of the segment, in
so far as frames and heap last. -/
theorem pageLoop_spec (hl : env.limit + pageSize < modulus) {segEnd : Nat} (hend : pageSize ∣ segEnd)
    (hlt : segEnd < modulus) (w x : Bool) :
    ∀ fuel v P pages, pageSize ∣ v → (segEnd - v) / pageSize ≤ fuel →
      Command.Spec (Loading env strict d frames room P pages)
        (pageLoop room segEnd w x fuel v pages)
        (PagesDone env strict d frames room (P ∪ segmentPages v segEnd)) := by
  intro fuel
  induction fuel with
  | zero =>
      intro v P pages hv hfuel m h
      have hpage : pageSize = 4096 := rfl
      have hdone : segEnd ≤ v := by
        rw [hpage] at hend hv hfuel
        omega
      simpa [pageLoop, PagesDone, segmentPages_empty hdone] using h
  | succ fuel ih =>
      intro v P pages hv hfuel m h
      have hpage : pageSize = 4096 := rfl
      by_cases hmore : v < segEnd
      · have hnext : add v pageSize = v + pageSize := add_eq (by
          rw [hpage] at hend hv ⊢
          omega)
        have hv' : pageSize ∣ v + pageSize := Dvd.dvd.add hv (Nat.dvd_refl _)
        have hfuel' : (segEnd - (v + pageSize)) / pageSize ≤ fuel := by
          rw [hpage] at hend hv hfuel ⊢
          omega
        have hsplit : P ∪ segmentPages v segEnd =
            insert v P ∪ segmentPages (v + pageSize) segEnd := by
          rw [segmentPages_step hmore hv hend, Finset.union_insert, Finset.insert_union]
        rw [hsplit]
        by_cases hin : v ∈ P
        · have hany := h.any_iff.mpr hin
          rw [Finset.insert_eq_of_mem hin]
          simp only [pageLoop, hmore, if_true, hany, hnext]
          exact ih _ _ _ hv' hfuel' m h
        · have hany : ¬pages.any (fun p => p.vaddr == v) = true := fun hp => hin (h.any_iff.mp hp)
          have hcard : P.card < (insert v P ∪ segmentPages (v + pageSize) segEnd).card := by
            have hinsert := Finset.card_insert_of_notMem hin
            have hsub : (insert v P).card ≤
                (insert v P ∪ segmentPages (v + pageSize) segEnd).card :=
              Finset.card_le_card Finset.subset_union_left
            omega
          have hPcard := h.card
          have hcount := h.count
          have hheap := h.heap
          rw [pageLoop_fresh hmore hany, hnext]
          cases ha : m.allocFrame with
          | mk o m' =>
              cases o with
              | none =>
                  obtain ⟨p, hp, heq⟩ := PhysicalMemory.allocFrame_none ha
                  subst heq
                  have hnone := available_of_none hl h.call.sound.bounded hp
                  exact ⟨h.clean, h.call.allocFrame_none hl ha, by omega, by omega⟩
              | some f =>
                  obtain ⟨p, hp, -⟩ := allocFrame_some ha
                  have hsome := allocFrame_available hl h.call.sound.bounded
                  rw [hp] at hsome
                  simp only [Option.isSome_some, if_true] at hsome
                  by_cases hroom : pages.length < room
                  · simp only [hroom, if_true]
                    exact ih _ _ _ hv' hfuel' _ (h.push hl hin ha hroom)
                  · simp only [hroom, if_false]
                    exact ⟨h.call.zeroNew hl ha, by omega, by omega⟩
      · have hdone : segEnd ≤ v := by omega
        simpa [pageLoop, PagesDone, segmentPages_empty hdone, hmore] using h

/-- Reading inside the input keeps the loading state. -/
theorem Loading.read (h : Loading env strict d frames room P pages m) (off len : Nat)
    (hin : strict → off + len ≤ d.len) :
    Loading env strict d frames room P pages
      { m with trace := { m.trace with reads := (off, len) :: m.trace.reads } } := by
  refine ⟨⟨h.call.sound, h.call.own, h.call.kept⟩, fun hs => ⟨?_, (h.clean hs).checks⟩, h.count,
    h.heap, h.nodup, h.pages_eq, h.taken⟩
  intro r hr
  rcases List.mem_cons.mp hr with rfl | hr
  · exact hin hs
  · exact (h.clean hs).reads r hr

/-- Noting a check that is true without wrap-around, too. -/
theorem Loading.check (h : Loading env strict d frames room P pages m) {sum : Nat}
    (hsum : strict → sum ≤ d.len) :
    Loading env strict d frames room P pages
      { m with trace := { m.trace with checks := sum :: m.trace.checks } } := by
  refine ⟨⟨h.call.sound, h.call.own, h.call.kept⟩, fun hs => ⟨(h.clean hs).reads, ?_⟩, h.count,
    h.heap, h.nodup, h.pages_eq, h.taken⟩
  intro c hc
  rcases List.mem_cons.mp hc with rfl | hc
  · exact hsum hs
  · exact (h.clean hs).checks c hc

/-- Copying into the frame of a page. -/
theorem Loading.copy (h : Loading env strict d frames room P pages m) {page : Page}
    (hpage : page ∈ pages) (off len : Nat) (hin : off + len ≤ pageSize) (src : Nat → UInt8) :
    Loading env strict d frames room P pages (m.copyTo (page.frame + off) len src) := by
  refine ⟨?_, fun hs => ⟨(h.clean hs).reads, (h.clean hs).checks⟩, h.count, h.heap, h.nodup,
    h.pages_eq, h.taken⟩
  exact h.call.copyTo src (h.taken page hpage) (Nat.le_add_right _ _) (by omega)

/-- How the copy loop can end from `copied` on: with everything copied, if the
pages are there, or at a page that is not. -/
def CopyDone (env : Env) (strict : Prop) (d : Slice) (frames room : Nat) (P : Finset Nat)
    (pages : List Page) (vaddr filesz copied : Nat) (o : Outcome ElfError Unit) (m : Memory) : Prop :=
  match o with
  | .ok _ => Loading env strict d frames room P pages m ∧
      ∀ c, copied ≤ c → c < filesz → pageMask (add vaddr c) ∈ P
  | .err _ => False
  | .panic _ => CallSound env m ∧ ∃ c < filesz, pageMask (add vaddr c) ∉ P

/-- **The copy loop** reads the contents of the segment, page by page, and
stops at the first page that is not in the list. -/
theorem copyLoop_spec {fileOff filesz : Nat} (vaddr : Nat)
    (hfile : strict → fileOff + filesz ≤ d.len) :
    ∀ fuel copied, filesz - copied ≤ fuel →
      Command.Spec (Loading env strict d frames room P pages)
        (copyLoop d fileOff filesz vaddr pages fuel copied)
        (CopyDone env strict d frames room P pages vaddr filesz copied) := by
  intro fuel
  induction fuel with
  | zero =>
      intro copied hfuel m h
      exact ⟨h, fun c hlo hhi => by omega⟩
  | succ fuel ih =>
      intro copied hfuel m h
      by_cases hmore : copied < filesz
      · have hcur := add_lt vaddr copied
        have hle := pageMask_le hcur
        have hoff : sub (add vaddr copied) (pageMask (add vaddr copied)) =
            add vaddr copied - pageMask (add vaddr copied) := sub_eq hcur hle
        rw [copyLoop, if_pos hmore]
        simp only [hoff]
        cases hfind : pages.find? (fun p => p.vaddr == pageMask (add vaddr copied)) with
        | none =>
            refine ⟨h.call, copied, hmore, ?_⟩
            rw [h.mem]
            rintro ⟨p, hp, heq⟩
            have hnone := List.find?_eq_none.mp hfind p hp
            simp [heq] at hnone
        | some page =>
            have hmem := List.mem_of_find?_eq_some hfind
            have hbase : page.vaddr = pageMask (add vaddr copied) := by
              simpa using List.find?_some hfind
            have hlow : add vaddr copied - pageMask (add vaddr copied) < pageSize := by
              rw [pageMask_eq hcur]
              unfold pageSize
              omega
            generalize hchunk : min (filesz - copied)
              (pageSize - (add vaddr copied - pageMask (add vaddr copied))) = chunk
            have hread := h.read (add fileOff copied) chunk (fun hs => by
              have hin := hfile hs
              have hlen := d.len_lt
              rw [add_eq (by unfold modulus; omega)]
              omega)
            have hcopy := hread.copy hmem (add vaddr copied - pageMask (add vaddr copied))
              chunk (by omega) (fun k => d.mem (add fileOff copied + k))
            have hrest := ih (copied + chunk) (by omega) _ hcopy
            simp only [readInput, Command.modify_bind]
            revert hrest
            generalize copyLoop d fileOff filesz vaddr pages fuel (copied + chunk) _ = out
            intro hrest
            unfold CopyDone at hrest ⊢
            split at hrest
            next =>
              refine ⟨hrest.1, fun c hlo hhi => ?_⟩
              by_cases hbefore : copied + chunk ≤ c
              · exact hrest.2 c hbefore hhi
              · have hsplit : c = copied + (c - copied) := by omega
                have hpage := pageMask_add (k := c - copied) hcur (by
                  unfold pageSize at hchunk hlow
                  omega)
                rw [hsplit, add_add hpage.2, hpage.1, h.mem]
                exact ⟨page, hmem, hbase⟩
            next => exact hrest
            next => exact hrest
      · rw [copyLoop, if_neg hmore]
        exact ⟨h, fun c hlo hhi => absurd hhi (by omega)⟩

end

/-- A step that hands out no frame: it writes to memory or notes something. -/
structure Noted (m m' : Memory) : Prop where
  pmm_eq : m'.pmm = m.pmm
  taken_eq : m'.trace.taken = m.trace.taken
  reads : ∀ r ∈ m.trace.reads, r ∈ m'.trace.reads
  checks : ∀ c ∈ m.trace.checks, c ∈ m'.trace.checks

/-- Writing memory is noted and nothing else. -/
private theorem noted_written (m : Memory) (addr len : Nat) (r : Mem) :
    Noted m (m.written addr len r) :=
  ⟨rfl, rfl, fun _ h => h, fun _ h => h⟩

section

variable {I : Memory → Prop}

/-- Reading the file keeps what a note keeps. -/
theorem readInput_keeps (hnote : ∀ m m', I m → Noted m m' → I m') (off len : Nat) :
    Command.Keeps I (readInput off len) :=
  Command.Keeps.modify (fun _ h =>
    hnote _ _ h ⟨rfl, rfl, fun _ hr => List.mem_cons_of_mem _ hr, fun _ hc => hc⟩)

/-- So does checking bounds. -/
theorem checkBounds_keeps (hnote : ∀ m m', I m → Noted m m' → I m') (d : Slice) (a b sum : Nat) :
    Command.Keeps I (checkBounds d a b sum) := by
  unfold checkBounds
  split
  · exact Command.Keeps.fail _
  · exact Command.Keeps.modify (fun _ h =>
      hnote _ _ h ⟨rfl, rfl, fun _ hr => hr, fun _ hc => List.mem_cons_of_mem _ hc⟩)

/-- So does copying bytes. -/
theorem copyLoop_keeps (hnote : ∀ m m', I m → Noted m m' → I m') (d : Slice)
    (fileOff filesz vaddr : Nat) (pages : List Page) :
    ∀ fuel copied, Command.Keeps I (copyLoop d fileOff filesz vaddr pages fuel copied) := by
  intro fuel
  induction fuel with
  | zero => exact fun _ => Command.Keeps.pure _
  | succ fuel ih =>
      intro copied
      rw [copyLoop]
      split
      · dsimp only
        split
        · exact Command.Keeps.panic _
        · refine (readInput_keeps hnote _ _).bind (fun _ => Command.Keeps.bind ?_ (fun _ => ih _))
          exact Command.Keeps.modify (fun m h => hnote _ _ h (noted_written m _ _ _))
      · exact Command.Keeps.pure _

/-- Pushing a page keeps everything. -/
theorem pushPage_keeps (room : Nat) (pages : List Page) (page : Page) :
    Command.Keeps I (pushPage room pages page) := by
  unfold pushPage
  split
  · exact Command.Keeps.pure _
  · exact Command.Keeps.panic _

variable (hnote : ∀ m m', I m → Noted m m' → I m')
  (halloc : ∀ m o m', I m → m.allocFrame = (o, m') → I m')

include halloc in
/-- So does a frame that is drawn, if drawing keeps it. -/
theorem allocOr_keeps {ε : Type} (e : ε) : Command.Keeps I (allocOr e) := by
  intro m h
  unfold allocOr
  cases ha : m.allocFrame with
  | mk o m' =>
      have hkept := halloc m o m' h ha
      cases o <;> exact hkept

include hnote halloc in
/-- The pages of a segment. -/
theorem pageLoop_keeps (room segEnd : Nat) (w x : Bool) :
    ∀ fuel v pages, Command.Keeps I (pageLoop room segEnd w x fuel v pages) := by
  intro fuel
  induction fuel with
  | zero => exact fun _ _ => Command.Keeps.pure _
  | succ fuel ih =>
      intro v pages
      rw [pageLoop]
      split
      · split
        · exact ih _ _
        · refine (allocOr_keeps halloc _).bind (fun f => Command.Keeps.bind ?_
            (fun _ => (pushPage_keeps _ _ _).bind (fun _ => ih _ _)))
          exact Command.Keeps.modify (fun m h => hnote _ _ h (noted_written m _ _ _))
      · exact Command.Keeps.pure _

include hnote halloc in
/-- Its contents. -/
theorem loadContents_keeps (d : Slice) (room i : Nat) (pages : List Page) :
    Command.Keeps I (loadContents d room i pages) :=
  (checkBounds_keeps hnote d _ _ _).bind (fun _ =>
    (pageLoop_keeps hnote halloc _ _ _ _ _ _ _).bind (fun _ =>
      (copyLoop_keeps hnote d _ _ _ _ _ _).bind (fun _ => Command.Keeps.pure _)))

include hnote halloc in
/-- A segment. -/
theorem loadSegment_keeps (d : Slice) (room i : Nat) (pages : List Page) :
    Command.Keeps I (loadSegment d room i pages) := by
  refine (checkBounds_keeps hnote d _ _ _).bind (fun _ =>
    (readInput_keeps hnote _ _).bind (fun _ => ?_))
  split
  · exact Command.Keeps.pure _
  · exact loadContents_keeps hnote halloc d _ _ _

include hnote halloc in
/-- All program headers. -/
theorem headerLoop_keeps (d : Slice) (room : Nat) :
    ∀ n i pages, Command.Keeps I (headerLoop d room n i pages) := by
  intro n
  induction n with
  | zero => exact fun _ _ => Command.Keeps.pure _
  | succ n ih => exact fun i pages => (loadSegment_keeps hnote halloc d _ _ _).bind (fun _ => ih _ _)

include hnote halloc in
/-- **The loader keeps** what its single steps keep. -/
theorem loadFresh_keeps (d : Slice) (room : Nat) : Command.Keeps I (loadFresh d room) := by
  unfold loadFresh
  split
  · exact Command.Keeps.fail _
  · refine (readInput_keeps hnote _ _).bind (fun _ => ?_)
    split
    · exact Command.Keeps.fail _
    · exact (headerLoop_keeps hnote halloc d room _ _ _).bind (fun _ => Command.Keeps.pure _)

end

/-- The trace of reads and checks only grows. -/
def Dirty (d : Slice) (m : Memory) : Prop := ¬Clean d m.trace

section

variable {d : Slice} {m m' : Memory}

/-- What is not clean stays so. -/
theorem Dirty.noted (h : Dirty d m) (hn : Noted m m') : Dirty d m' :=
  fun hclean => h ⟨fun r hin => hclean.reads r (hn.reads r hin),
    fun c hin => hclean.checks c (hn.checks c hin)⟩

/-- Drawing a frame does not undo a read out of bounds. -/
theorem Dirty.alloc {o : Option Nat} (h : Dirty d m) (ha : m.allocFrame = (o, m')) :
    Dirty d m' := by
  cases o with
  | none =>
      obtain ⟨p, -, rfl⟩ := allocFrame_none ha
      exact fun hclean => h ⟨hclean.reads, hclean.checks⟩
  | some f =>
      obtain ⟨p, -, rfl⟩ := allocFrame_some ha
      exact fun hclean => h ⟨hclean.reads, hclean.checks⟩

/-- Loading contents does not either. -/
private theorem loadContents_dirty (d : Slice) (room i : Nat) (pages : List Page) :
    Command.Keeps (Dirty d) (loadContents d room i pages) :=
  loadContents_keeps (fun _ _ => Dirty.noted) (fun _ _ _ => Dirty.alloc) d room i pages

end

/-- A word of the file has 64 bits. -/
theorem readLE_word (m : Mem) (a : Nat) : readLE m a 8 < modulus := readLE_lt m a 8

/-- A segment is loaded from the beginning of a page. -/
theorem segStart_dvd (d : Slice) (i : Nat) : pageSize ∣ d.segStart i :=
  dvd_pageMask (readLE_word _ _)

/-- It ends at one. -/
theorem segEnd_dvd (d : Slice) (i : Nat) : pageSize ∣ d.segEnd i := dvd_pageMask (sub_lt _ _)

/-- The end is an address. -/
theorem segEnd_lt (d : Slice) (i : Nat) : d.segEnd i < modulus :=
  lt_of_le_of_lt (pageMask_le (sub_lt _ _)) (sub_lt _ _)

/-- How a part of the loop body ends when `ok` is what it needs to be safe and
`pass` is when it goes on: not `ok`, and it has broken the rules; or `ok`, and
it goes on with the pages `T` exactly if `pass`. -/
def Verdict (env : Env) (d : Slice) (frames room : Nat) (T : Finset Nat)
    (ok pass : Prop) (o : Outcome ElfError (List Page)) (m : Memory) : Prop :=
  (¬ok ∧ (Dirty d m ∨ ∃ message, o = .panic message)) ∨
  (ok ∧
    match o with
    | .ok pages => pass ∧ Loading env True d frames room T pages m
    | .err _ => ¬pass ∧ Clean d m.trace ∧ OwnWrites m.trace
    | .panic _ => False)

/-- A check that fails. -/
theorem checkBounds_fail {d : Slice} {a b : Nat} (sum : Nat) (h : ¬add a b ≤ d.len) :
    checkBounds d a b sum = Command.fail .segmentOutOfBounds := if_pos (Nat.lt_of_not_le h)

/-- A check that passes is recorded. -/
theorem checkBounds_pass {d : Slice} {a b : Nat} (sum : Nat) (h : add a b ≤ d.len) :
    checkBounds d a b sum = Command.modify (fun m =>
      { m with trace := { m.trace with checks := sum :: m.trace.checks } }) :=
  if_neg (Nat.not_lt.mpr h)

section

variable {env : Env} {d : Slice} {frames room i : Nat} {pages : List Page}

/-- **The contents of a loadable segment.** -/
theorem loadContents_spec (hl : env.limit + pageSize < modulus) (hload : d.pType i = ptLoad) :
    Command.Spec (Loading env True d frames room (d.pagesUpTo i) pages)
      (loadContents d room i pages)
      (Verdict env d frames room (d.pagesUpTo (i + 1)) (d.ContentsOk frames room i)
        (add (d.pOffset i) (d.pFilesz i) ≤ d.len ∧ (d.pagesUpTo (i + 1)).card ≤ frames)) := by
  have hpages : d.pagesUpTo (i + 1) =
      d.pagesUpTo i ∪ segmentPages (d.segStart i) (d.segEnd i) := by
    rw [Slice.pagesUpTo, if_pos hload]
  unfold loadContents
  by_cases hcheck : add (d.pOffset i) (d.pFilesz i) ≤ d.len
  · rw [checkBounds_pass _ hcheck]
    by_cases hfile : d.pOffset i + d.pFilesz i ≤ d.len
    · -- the sum is exact: the page loop, then the copy loop
      refine Command.Spec.bind (R := fun _ => Loading env True d frames room (d.pagesUpTo i) pages)
        (fun m h => h.check (fun _ => hfile)) (fun _ => ?_)
      refine Command.Spec.bind (R := Loading env True d frames room (d.pagesUpTo (i + 1)))
        ?_ (fun pages' => ?_)
      · intro m h
        have hdone := pageLoop_spec hl (segEnd_dvd d i) (segEnd_lt d i) (d.pFlags i &&& 2 != 0)
          (d.pFlags i &&& 1 != 0) ((d.segEnd i - d.segStart i) / pageSize) (d.segStart i)
          (d.pagesUpTo i) pages (segStart_dvd d i) (Nat.le_refl _) m h
        rw [← hpages] at hdone
        generalize pageLoop room (d.segEnd i) _ _ _ _ pages m = out at hdone ⊢
        obtain ⟨o, m'⟩ := out
        cases o with
        | ok pages' => exact hdone
        | err e =>
            obtain ⟨hclean, hcall, hframes, hroom⟩ := hdone
            refine Or.inr ⟨fun _ => ⟨hfile, by omega, fun hfit => absurd hfit (by omega)⟩, ?_,
              hclean trivial, hcall.own⟩
            exact fun hpass => absurd hpass.2 (by omega)
        | panic message =>
            obtain ⟨-, hcard, hframes⟩ := hdone
            refine Or.inl ⟨fun hok => ?_, Or.inr ⟨message, rfl⟩⟩
            have := (hok hcheck).2.1
            omega
      · intro m hdone
        have hcard := hdone.card
        have hcount := hdone.count
        have hheap := hdone.heap
        refine Command.Spec.bind (R := fun _ m' =>
            Loading env True d frames room (d.pagesUpTo (i + 1)) pages' m' ∧
              ∀ c < d.pFilesz i, pageMask (add (d.pVaddr i) c) ∈ d.pagesUpTo (i + 1))
          ((copyLoop_spec (d.pVaddr i) (fun _ => hfile) (d.pFilesz i) 0 (Nat.sub_le _ _)).conseq
            (fun _ h => h) (fun o m' hcopy => ?_)) (fun _ m' h => ?_) m hdone
        · cases o with
          | ok _ => exact ⟨hcopy.1, fun c hc => hcopy.2 c (Nat.zero_le _) hc⟩
          | err _ => exact absurd hcopy id
          | panic message =>
              obtain ⟨-, c, hc, hmissing⟩ := hcopy
              refine Or.inl ⟨fun hok => ?_, Or.inr ⟨message, rfl⟩⟩
              exact hmissing ((hok hcheck).2.2 (by omega) c hc)
        · exact Or.inr ⟨fun _ => ⟨hfile, by omega, fun _ => h.2⟩, ⟨hcheck, by omega⟩, h.1⟩
    · -- the sum has wrapped, and noting it is enough
      refine Command.Spec.bind (R := fun _ => Dirty d)
        (fun m _ hclean => hfile (hclean.checks _ List.mem_cons_self)) (fun _ => ?_)
      have hnote : ∀ m m', Dirty d m → Noted m m' → Dirty d m' := fun _ _ => Dirty.noted
      refine Command.Spec.conseq (Command.Keeps.bind
        (pageLoop_keeps hnote (fun _ _ _ => Dirty.alloc) _ _ _ _ _ _ _) (fun _ =>
          (copyLoop_keeps hnote d _ _ _ _ _ _).bind (fun _ => Command.Keeps.pure _))) (fun _ h => h)
        (fun o m h => Or.inl ⟨fun hok => hfile (hok hcheck).1, Or.inl h⟩)
  · rw [checkBounds_fail _ hcheck]
    intro m h
    refine Or.inr ⟨fun hpass => absurd hpass hcheck, ?_⟩
    exact ⟨fun hpass => hcheck hpass.1, h.clean trivial, h.call.own⟩

/-- **The loop body for one program header.** -/
theorem loadSegment_spec (hl : env.limit + pageSize < modulus) :
    Command.Spec (Loading env True d frames room (d.pagesUpTo i) pages)
      (loadSegment d room i pages)
      (Verdict env d frames room (d.pagesUpTo (i + 1)) (d.HeaderOk frames room i)
        (d.Passes frames i)) := by
  unfold loadSegment
  by_cases hcheck : add (d.phOff i) d.phentsize ≤ d.len
  · rw [checkBounds_pass _ hcheck]
    by_cases htable : d.phoff + i * d.phentsize + max d.phentsize phdrSize ≤ d.len
    · have hlen := d.len_lt
      have hlong := le_max_left d.phentsize phdrSize
      have hwide := le_max_right d.phentsize phdrSize
      have hmul : mul i d.phentsize = i * d.phentsize := mul_eq (by unfold modulus; omega)
      have hoff : d.phOff i = d.phoff + i * d.phentsize := by
        rw [Slice.phOff, hmul]
        exact add_eq (by unfold modulus; omega)
      refine Command.Spec.bind (R := fun _ => Loading env True d frames room (d.pagesUpTo i) pages)
        (fun m h => h.check (fun _ => by omega)) (fun _ => ?_)
      refine Command.Spec.bind (R := fun _ => Loading env True d frames room (d.pagesUpTo i) pages)
        (fun m h => h.read _ _ (fun _ => by omega)) (fun _ => ?_)
      by_cases hload : d.pType i = ptLoad
      · rw [if_neg (not_not.mpr hload)]
        refine (loadContents_spec hl hload).conseq (fun _ h => h) (fun o m hverdict => ?_)
        rcases hverdict with ⟨hbad, hend⟩ | ⟨hgood, hend⟩
        · exact Or.inl ⟨fun hok => hbad ((hok hcheck).2 hload), hend⟩
        · refine Or.inr ⟨fun _ => ⟨htable, fun _ => hgood⟩, ?_⟩
          cases o with
          | ok pages' => exact ⟨⟨hcheck, fun _ => hend.1⟩, hend.2⟩
          | err e => exact ⟨fun hpass => hend.1 (hpass.2 hload), hend.2⟩
          | panic message => exact hend
      · rw [if_pos hload]
        intro m h
        refine Or.inr ⟨fun _ => ⟨htable, fun hp => absurd hp hload⟩,
          ⟨hcheck, fun hp => absurd hp hload⟩, ?_⟩
        rw [Slice.pagesUpTo, if_neg hload]
        exact h
    · -- either the noted sum or the noted read is beyond the end
      refine Command.Spec.bind (R := fun _ m =>
          (d.phoff + i * d.phentsize + d.phentsize) ∈ m.trace.checks)
        (fun m _ => List.mem_cons_self) (fun _ => ?_)
      refine Command.Spec.bind (R := fun _ => Dirty d) (fun m hsum hclean => ?_) (fun _ => ?_)
      · have hexact := hclean.checks _ hsum
        have hread := hclean.reads _ List.mem_cons_self
        have hlen := d.len_lt
        have hmul : mul i d.phentsize = i * d.phentsize := mul_eq (by unfold modulus; omega)
        have hoff : d.phOff i = d.phoff + i * d.phentsize := by
          rw [Slice.phOff, hmul]
          exact add_eq (by unfold modulus; omega)
        simp only [hoff] at hread
        omega
      · refine Command.Spec.conseq (P := Dirty d) (Q := fun _ => Dirty d) ?_ (fun _ h => h)
          (fun o m h => Or.inl ⟨fun hok => htable (hok hcheck).1, Or.inl h⟩)
        split
        · exact Command.Keeps.pure _
        · exact loadContents_dirty d _ _ _
  · rw [checkBounds_fail _ hcheck]
    intro m h
    refine Or.inr ⟨fun hpass => absurd hpass hcheck, ?_⟩
    exact ⟨fun hpass => hcheck hpass.1, h.clean trivial, h.call.own⟩

/-- **The loop over the program headers** is safe exactly if every header it
reaches is in order. -/
theorem headerLoop_safe_iff (hl : env.limit + pageSize < modulus) :
    ∀ n i pages m, Loading env True d frames room (d.pagesUpTo i) pages m →
      (Safe d (headerLoop d room n i pages m) ↔
        ∀ k < n, (∀ j < k, d.Passes frames (i + j)) → d.HeaderOk frames room (i + k)) := by
  intro n
  induction n with
  | zero =>
      intro i pages m h
      refine ⟨fun _ k hk => absurd hk (by omega), fun _ => ⟨?_, h.clean trivial, h.call.own⟩⟩
      intro message hpanic
      cases hpanic
  | succ n ih =>
      intro i pages m h
      rw [headerLoop, Command.bind_apply]
      have hverdict := loadSegment_spec hl m h
      have hdirty := headerLoop_keeps (I := Dirty d) (fun _ _ => Dirty.noted)
        (fun _ _ _ => Dirty.alloc) d room n (i + 1)
      generalize loadSegment d room i pages m = out at hverdict ⊢
      obtain ⟨o, m'⟩ := out
      rcases hverdict with ⟨hbad, hend⟩ | ⟨hgood, hend⟩
      · -- header `i` is not in order, and the loop has shown it
        refine ⟨fun hsafe => absurd ?_ hbad, fun hall => ?_⟩
        · rcases hend with hend | ⟨message, hend⟩
          · cases o with
            | ok pages' => exact absurd hsafe.clean (hdirty pages' m' hend)
            | err e => exact absurd hsafe.clean hend
            | panic message => exact absurd hsafe.clean hend
          · subst hend
            exact absurd rfl (hsafe.no_panic message)
        · exact absurd (hall 0 (Nat.succ_pos n) (fun j hj => absurd hj (Nat.not_lt_zero j))) hbad
      · cases o with
        | ok pages' =>
            refine (ih (i + 1) pages' m' hend.2).trans ⟨fun hall k hk hpass => ?_, ?_⟩
            · cases k with
              | zero => exact hgood
              | succ k =>
                  have hshift : i + (k + 1) = i + 1 + k := by omega
                  rw [hshift]
                  refine hall k (by omega) (fun j hj => ?_)
                  have hj' := hpass (j + 1) (by omega)
                  rwa [show i + (j + 1) = i + 1 + j by omega] at hj'
            · intro hall k hk hpass
              have hshift : i + 1 + k = i + (k + 1) := by omega
              rw [hshift]
              refine hall (k + 1) (by omega) (fun j hj => ?_)
              cases j with
              | zero => exact hend.1
              | succ j =>
                  have hj' := hpass j (by omega)
                  rwa [show i + 1 + j = i + (j + 1) by omega] at hj'
        | err e =>
            refine ⟨fun _ k hk hpass => ?_, fun _ => ⟨?_, hend.2.1, hend.2.2⟩⟩
            · cases k with
              | zero => exact hgood
              | succ k => exact absurd (hpass 0 (Nat.succ_pos k)) hend.1
            · intro message hpanic
              cases hpanic
        | panic message => exact absurd hend id

end

/-- **When a load is safe.**  In every reachable state of the frame allocator,
and for every file, `load_fresh` returns, reads inside the file only, writes
into its own frames only and lets no bounds check pass by wrap-around, exactly
if the headers that its loop reaches are in order. -/
theorem loadFresh_safe_iff {map : MemoryMap (2 ^ 52)} {w : World}
    (hw : (frameSystem map).Reach w) {m : Memory} (hpmm : m.pmm = w.pmm)
    (htrace : m.trace = Trace.empty) (d : Slice) (room : Nat) :
    Safe d (loadFresh d room m) ↔ d.WellBehaved (available m.pmm) room := by
  have hsound := reach_sound (by decide) (by decide) map hw
  have hstart : Loading ⟨2 ^ 52, w.live.flatten, m.ram⟩ True d (available m.pmm) room ∅ [] m := by
    refine loading_start (callSound_start ?_ htrace) (fun _ => ⟨?_, ?_⟩)
    · exact hpmm ▸ hsound
    · simp [htrace, Trace.empty]
    · simp [htrace, Trace.empty]
  unfold loadFresh Slice.WellBehaved
  by_cases hsize : d.len < 64
  · rw [if_pos hsize]
    refine ⟨fun _ hlong => absurd hsize (by omega),
      fun _ => ⟨?_, hstart.clean trivial, hstart.call.own⟩⟩
    intro message hpanic
    cases hpanic
  · have hread := hstart.read 0 64 (fun _ => by omega)
    rw [if_neg hsize, readInput, Command.modify_bind]
    cases herr : d.headerError with
    | some e =>
        refine ⟨fun _ _ hnone => (by cases hnone),
          fun _ => ⟨?_, hread.clean trivial, hread.call.own⟩⟩
        intro message hpanic
        cases hpanic
    | none =>
        have hfits : 2 ^ 52 + pageSize < modulus := by decide
        have hloop := headerLoop_safe_iff hfits d.phnum 0 [] _ hread
        simp only [Nat.zero_add] at hloop
        refine Iff.trans ?_ (hloop.trans ⟨fun hall _ _ => hall, fun hall => hall (by omega) rfl⟩)
        dsimp only
        rw [Command.bind_apply]
        generalize headerLoop d room d.phnum 0 [] _ = out
        obtain ⟨o, m'⟩ := out
        cases o with
        | ok pages =>
            exact ⟨fun h => ⟨fun _ hpanic => (by cases hpanic), h.clean, h.own⟩,
              fun h => ⟨fun _ hpanic => (by cases hpanic), h.clean, h.own⟩⟩
        | err e =>
            exact ⟨fun h => ⟨fun _ hpanic => (by cases hpanic), h.clean, h.own⟩,
              fun h => ⟨fun _ hpanic => (by cases hpanic), h.clean, h.own⟩⟩
        | panic message =>
            exact ⟨fun h => absurd rfl (h.no_panic message),
              fun h => absurd rfl (h.no_panic message)⟩

/-- The pages of the segments before header `i`, if the load got that far. -/
def Loaded (env : Env) (d : Slice) (frames room i : Nat) (o : Outcome ElfError (List Page))
    (m : Memory) : Prop :=
  match o with
  | .ok pages => Loading env False d frames room (d.pagesUpTo i) pages m
  | .err _ => CallSound env m
  | .panic _ => CallSound env m

section

variable {env : Env} {d : Slice} {frames room i : Nat} {pages : List Page}

/-- A check keeps the invariant of loading. -/
theorem checkBounds_loaded (a b sum : Nat) {P : Finset Nat} :
    Command.Spec (Loading env False d frames room P pages) (checkBounds d a b sum)
      (fun o m => match o with
        | .ok _ => Loading env False d frames room P pages m
        | .err _ => CallSound env m
        | .panic _ => CallSound env m) := by
  intro m h
  by_cases hcheck : add a b ≤ d.len
  · rw [checkBounds_pass _ hcheck]
    exact h.check False.elim
  · rw [checkBounds_fail _ hcheck]
    exact h.call

/-- **The contents of a segment** whose pages are there. -/
theorem loadContents_loaded (hl : env.limit + pageSize < modulus) (hload : d.pType i = ptLoad) :
    Command.Spec (Loading env False d frames room (d.pagesUpTo i) pages)
      (loadContents d room i pages) (Loaded env d frames room (i + 1)) := by
  have hpages : d.pagesUpTo (i + 1) =
      d.pagesUpTo i ∪ segmentPages (d.segStart i) (d.segEnd i) := by
    rw [Slice.pagesUpTo, if_pos hload]
  unfold loadContents
  refine Command.Spec.bind (R := fun _ => Loading env False d frames room (d.pagesUpTo i) pages)
    ((checkBounds_loaded _ _ _).conseq (fun _ h => h) (fun o _ h => ?_)) (fun _ => ?_)
  · cases o <;> exact h
  refine Command.Spec.bind (R := Loading env False d frames room (d.pagesUpTo (i + 1)))
    ?_ (fun pages' => ?_)
  · intro m h
    have hdone := pageLoop_spec hl (segEnd_dvd d i) (segEnd_lt d i) (d.pFlags i &&& 2 != 0)
      (d.pFlags i &&& 1 != 0) ((d.segEnd i - d.segStart i) / pageSize) (d.segStart i)
      (d.pagesUpTo i) pages (segStart_dvd d i) (Nat.le_refl _) m h
    rw [← hpages] at hdone
    generalize pageLoop room (d.segEnd i) _ _ _ _ pages m = out at hdone ⊢
    obtain ⟨o, m'⟩ := out
    cases o with
    | ok pages' => exact hdone
    | err e => exact hdone.2.1
    | panic message => exact hdone.1
  · refine Command.Spec.bind
      (R := fun _ => Loading env False d frames room (d.pagesUpTo (i + 1)) pages')
      ((copyLoop_spec (d.pVaddr i) False.elim (d.pFilesz i) 0 (Nat.sub_le _ _)).conseq
        (fun _ h => h) (fun o m hcopy => ?_)) (fun _ m h => h)
    cases o with
    | ok _ => exact hcopy.1
    | err _ => exact absurd hcopy id
    | panic message => exact hcopy.1

/-- **One segment**: its pages and its contents, in either order of failure. -/
theorem loadSegment_loaded (hl : env.limit + pageSize < modulus) :
    Command.Spec (Loading env False d frames room (d.pagesUpTo i) pages)
      (loadSegment d room i pages) (Loaded env d frames room (i + 1)) := by
  unfold loadSegment
  refine Command.Spec.bind (R := fun _ => Loading env False d frames room (d.pagesUpTo i) pages)
    ((checkBounds_loaded _ _ _).conseq (fun _ h => h) (fun o _ h => ?_)) (fun _ => ?_)
  · cases o <;> exact h
  refine Command.Spec.bind (R := fun _ => Loading env False d frames room (d.pagesUpTo i) pages)
    (fun m h => h.read _ _ False.elim) (fun _ => ?_)
  by_cases hload : d.pType i = ptLoad
  · rw [if_neg (not_not.mpr hload)]
    exact loadContents_loaded hl hload
  · rw [if_pos hload]
    intro m h
    have hsame : d.pagesUpTo (i + 1) = d.pagesUpTo i := by rw [Slice.pagesUpTo, if_neg hload]
    simp only [Loaded, hsame]
    exact h

/-- **All segments** from the `i`-th on. -/
theorem headerLoop_loaded (hl : env.limit + pageSize < modulus) :
    ∀ n i pages, Command.Spec (Loading env False d frames room (d.pagesUpTo i) pages)
      (headerLoop d room n i pages) (Loaded env d frames room (i + n)) := by
  intro n
  induction n with
  | zero => exact fun i pages m h => h
  | succ n ih =>
      intro i pages
      have hshift : i + (n + 1) = i + 1 + n := by omega
      rw [headerLoop, hshift]
      refine Command.Spec.bind (R := Loading env False d frames room (d.pagesUpTo (i + 1)))
        ((loadSegment_loaded hl).conseq (fun _ h => h) (fun o _ h => ?_)) (fun pages' => ih _ _)
      cases o <;> exact h

/-- **What `load_fresh` returns**: the entry point of the header, and the pages
of all loadable segments. -/
theorem loadFresh_loaded (hl : env.limit + pageSize < modulus) {m : Memory}
    (h : CallSound env m) :
    match loadFresh d room m with
    | (.ok (entry, pages), m') => entry = d.entry ∧
        Loading env False d (available m.pmm) room (d.pagesUpTo d.phnum) pages m'
    | (.err _, m') => CallSound env m'
    | (.panic _, m') => CallSound env m' := by
  unfold loadFresh
  by_cases hsize : d.len < 64
  · rw [if_pos hsize]
    exact h
  · have hstart : Loading env False d (available m.pmm) room ∅ [] m :=
      loading_start h False.elim
    have hread := hstart.read 0 64 False.elim
    rw [if_neg hsize, readInput, Command.modify_bind]
    cases d.headerError with
    | some e => exact hread.call
    | none =>
        have hloop := headerLoop_loaded hl d.phnum 0 [] _ hread
        rw [Nat.zero_add] at hloop
        dsimp only
        rw [Command.bind_apply]
        generalize headerLoop d room d.phnum 0 [] _ = out at hloop ⊢
        obtain ⟨o, m'⟩ := out
        cases o with
        | ok pages => exact ⟨rfl, hloop⟩
        | err e => exact hloop
        | panic message => exact hloop

end

/-- `n` little-endian bytes. -/
def le (n v : Nat) : List UInt8 := (List.range n).map (fun k => UInt8.ofNat (v / 256 ^ k))

/-- A 64-byte ELF header. -/
def elfHeader (entry phoff phentsize phnum : Nat) : List UInt8 :=
  [0x7F, 0x45, 0x4C, 0x46, 2, 1, 1, 0] ++ le 8 0 ++ le 2 2 ++ le 2 0x3E ++ le 4 1 ++ le 8 entry ++
    le 8 phoff ++ le 8 0 ++ le 4 0 ++ le 2 64 ++ le 2 phentsize ++ le 2 phnum ++ le 6 0

/-- A loadable segment, readable and executable. -/
def elfPhdr (offset vaddr filesz memsz : Nat) : List UInt8 :=
  le 4 1 ++ le 4 5 ++ le 8 offset ++ le 8 vaddr ++ le 8 vaddr ++ le 8 filesz ++ le 8 memsz ++
    le 8 4096

/-- A slice with given bytes. -/
def Slice.ofList (bytes : List UInt8) (h : bytes.length < 2 ^ 63) : Slice :=
  { byte := fun i => bytes.getD i 0, len := bytes.length, len_lt := h }

/-- One segment of four bytes. -/
def goodElf : Slice :=
  Slice.ofList (elfHeader 0x400000 64 56 1 ++ elfPhdr 120 0x400000 4 4 ++ [0x90, 0x90, 0xEB, 0xFE])
    (by decide +kernel)

/-- A header with `phentsize = 0`, and nothing behind it. -/
def overreadElf : Slice := Slice.ofList (elfHeader 0x400000 64 0 1) (by decide +kernel)

/-- Four bytes of contents for a segment with `memsz = 0`. -/
def unmappedElf : Slice :=
  Slice.ofList (elfHeader 0x400000 64 56 1 ++ elfPhdr 120 0x400000 4 0 ++ [0x90, 0x90, 0xEB, 0xFE])
    (by decide +kernel)

/-- A segment whose `p_offset + p_filesz` is `2 ^ 64`. -/
def wrappedElf : Slice :=
  Slice.ofList (elfHeader 0x400000 64 56 1 ++ elfPhdr (2 ^ 64 - 4) 0x400000 4 4)
    (by decide +kernel)

/-- The memory right after boot on `sampleMap`. -/
def sampleMemory : Memory := ⟨bootPmm sampleMap, fun _ => 0, Trace.empty⟩

/-- The condition holds of a well-formed file and fails for one whose header
table is cut off. -/
theorem sample_loadFresh_safe_iff :
    goodElf.WellBehaved (available sampleMemory.pmm) 100 ∧
      ¬overreadElf.WellBehaved (available sampleMemory.pmm) 100 := by
  have hboot : (frameSystem sampleMap).Reach ⟨bootPmm sampleMap, []⟩ :=
    TransitionSystem.Run.boot rfl
  constructor
  · refine (loadFresh_safe_iff hboot rfl rfl goodElf 100).mp ⟨?_, ⟨?_, ?_⟩, ?_⟩
    · intro message hpanic
      have hok : (loadFresh goodElf 100 sampleMemory).1 =
          .ok (0x400000, [⟨0x400000, 0x400000, false, true⟩]) := by decide +kernel
      rw [hok] at hpanic
      cases hpanic
    · decide +kernel
    · decide +kernel
    · unfold OwnWrites
      decide +kernel
  · rw [← loadFresh_safe_iff hboot rfl rfl overreadElf 100]
    intro hsafe
    have hread : (64, 56) ∈ (loadFresh overreadElf 100 sampleMemory).2.trace.reads := by
      decide +kernel
    exact absurd (hsafe.clean.reads _ hread) (by decide)

/-- **The loader is not safe for every file.**  Right after boot a cut-off
header table is read past its end, contents without memory hit the `unwrap`,
and a wrapped sum passes its bounds check. -/
theorem loadFresh_not_safe :
    (frameSystem sampleMap).Reach ⟨sampleMemory.pmm, []⟩ ∧
      ¬Safe overreadElf (loadFresh overreadElf 100 sampleMemory) ∧
      ¬Safe unmappedElf (loadFresh unmappedElf 100 sampleMemory) ∧
      ¬Safe wrappedElf (loadFresh wrappedElf 100 sampleMemory) := by
  refine ⟨TransitionSystem.Run.boot rfl, fun hsafe => ?_, fun hsafe => ?_, fun hsafe => ?_⟩
  · have hread : (64, 56) ∈ (loadFresh overreadElf 100 sampleMemory).2.trace.reads := by
      decide +kernel
    exact absurd (hsafe.clean.reads _ hread) (by decide)
  · have hpanic : (loadFresh unmappedElf 100 sampleMemory).1 =
        .panic "called `Option::unwrap()` on a `None` value" := by decide +kernel
    exact hsafe.no_panic _ hpanic
  · have hcheck : 2 ^ 64 ∈ (loadFresh wrappedElf 100 sampleMemory).2.trace.checks := by
      decide +kernel
    exact absurd (hsafe.clean.checks _ hcheck) (by decide)

end ElfLoader
