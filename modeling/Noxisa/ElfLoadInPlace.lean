import Noxisa.ElfImage

/-!
# The loader that writes in place, and whether the two agree

`load` copies each segment to its own address and zeroes what is behind the
contents; `load_fresh` zeroes a frame once and only copies.  `loaders_agree_iff`
says for which files they do the same.  Three things can go wrong: contents
outside the pages of the segments, which `load` writes and `load_fresh` panics
on; a segment in the last page of the address space; and a segment that is
zeroed over the contents of an earlier one.

The address space is a byte for each 64-bit address.  `load` expects that its
caller has mapped the addresses of the segments, and not onto the file.
-/

namespace ElfLoader

open ByteMemory FrameAllocator MachineWord PhysicalMemory

/-- `len` bytes at `addr` and behind it, around the end of the address space. -/
def putBytes (v : Mem) (addr len : Nat) (src : Nat → UInt8) : Mem := fun a =>
  if sub a addr < len then src (sub a addr) else v a

/-- The body of the loop over the program headers for a `PT_LOAD` header. -/
def copySegment (d : Slice) (i : Nat) : Command Mem ElfError Unit := do
  Command.modify (fun v =>
    putBytes v (d.pVaddr i) (d.pFilesz i) (fun k => d.mem (d.pOffset i + k)))
  if d.pMemsz i > d.pFilesz i then
    Command.modify (fun v =>
      putBytes v (add (d.pVaddr i) (d.pFilesz i)) (d.pMemsz i - d.pFilesz i) (fun _ => 0))
  else pure ()

/-- `for i in 0..phnum`: `n` headers are left, the next is `i`. -/
def copyHeaders (d : Slice) : Nat → Nat → Command Mem ElfError Unit
  | 0, _ => pure ()
  | n + 1, i =>
      if add (d.phOff i) d.phentsize > d.len then Command.fail .segmentOutOfBounds
      else if d.pType i ≠ ptLoad then copyHeaders d n (i + 1)
      else if add (d.pOffset i) (d.pFilesz i) > d.len then Command.fail .segmentOutOfBounds
      else do
        copySegment d i
        copyHeaders d n (i + 1)

/-- `load`: the entry point. -/
def load (d : Slice) : Command Mem ElfError Nat :=
  if d.len < 64 then Command.fail .tooSmall
  else
    match d.headerError with
    | some e => Command.fail e
    | none => do
        copyHeaders d d.phnum 0
        return d.entry

/-- The contents of segment `i` reach address `a`. -/
def Slice.HasFile (d : Slice) (i a : Nat) : Prop :=
  d.pType i = ptLoad ∧ sub a (d.pVaddr i) < d.pFilesz i

/-- Segment `i` is to be zero at address `a`. -/
def Slice.HasZero (d : Slice) (i a : Nat) : Prop :=
  d.pType i = ptLoad ∧ d.pFilesz i ≤ sub a (d.pVaddr i) ∧ sub a (d.pVaddr i) < d.pMemsz i

/-- Segment `i` covers address `a`. -/
def Slice.Covers (d : Slice) (i a : Nat) : Prop :=
  d.pType i = ptLoad ∧ sub a (d.pVaddr i) < d.pMemsz i

/-- The byte of the contents of segment `i` for address `a`. -/
def Slice.fileByte (d : Slice) (i a : Nat) : UInt8 := d.mem (d.pOffset i + sub a (d.pVaddr i))

/-- The loaders end in the same way, and with the same bytes in all segments. -/
@[irreducible] def Agree (d : Slice) (room : Nat) (m : Memory) (v : Mem) : Prop :=
  match load d v, loadFresh d room m with
  | (.ok e, v'), (.ok (e', pages), m') =>
      e = e' ∧ ∀ i < d.phnum, ∀ a < modulus, d.Covers i a →
        ∃ p ∈ pages, p.vaddr = pageMask a ∧ v' a = m'.ram (p.frame + a % pageSize)
  | (.err _, _), (.err _, _) => True
  | _, _ => False

/-- No frame is missing for a header that the loop of `load_fresh` gets to. -/
def Slice.FramesLast (d : Slice) (frames room : Nat) : Prop :=
  64 ≤ d.len → d.headerError = none → ∀ i < d.phnum, d.Reaches room i → ¬d.Stops i →
    d.pType i = ptLoad → frames < (d.pagesUpTo (i + 1)).card → room < frames

/-- **The condition for the loaders to agree** on a file with an ELF header: each
segment that they get to has its place; and if they get through, each covered
address is on a page of the list, and the bytes that a later segment zeroes are
zero anyway, or written once more. -/
structure Slice.Alike (d : Slice) (room : Nat) : Prop where
  placed : ∀ i < d.phnum, (∀ j ≤ i, ¬d.Stops j) → d.Placed room i
  paged : (∀ j < d.phnum, ¬d.Stops j) → ∀ i < d.phnum, ∀ a < modulus, d.Covers i a →
    pageMask a ∈ d.pagesUpTo d.phnum
  kept : (∀ j < d.phnum, ¬d.Stops j) → ∀ h i, h < i → i < d.phnum → ∀ a < modulus,
    d.HasFile h a → (∀ k, h < k → k < d.phnum → ¬d.HasFile k a) → d.HasZero i a →
      d.fileByte h a = 0

section

variable {d : Slice} {a i n : Nat} {v : Mem}

/-- The byte of a segment that has contents there. -/
theorem image_hit (h : d.HasFile i a) : d.image (i + 1) a = d.fileByte i a := by
  have hbyte := mem_word d (d.pOffset i) (sub a (d.pVaddr i))
  rw [Slice.image, if_pos ⟨h.1, h.2⟩, hbyte, Slice.fileByte]

/-- A segment without contents there leaves the byte as it is. -/
theorem image_skip (h : ¬d.HasFile i a) : d.image (i + 1) a = d.image i a := by
  rw [Slice.image]
  exact if_neg h

/-- The image has the byte of the last segment whose contents are there. -/
theorem image_last {h : Nat} (hfile : d.HasFile h a) (hn : h < n)
    (hlast : ∀ k, h < k → k < n → ¬d.HasFile k a) : d.image n a = d.fileByte h a := by
  induction n with
  | zero => cases hn
  | succ n ih =>
      by_cases heq : h = n
      · subst heq
        exact image_hit hfile
      · rw [image_skip (hlast n (by omega) (Nat.lt_succ_self n))]
        exact ih (by omega) (fun k hlo hhi => hlast k hlo (by omega))

/-- There is such a segment, or the image is zero. -/
theorem image_cases (d : Slice) (n a : Nat) :
    (∀ k < n, ¬d.HasFile k a) ∧ d.image n a = 0 ∨
      ∃ h < n, d.HasFile h a ∧ (∀ k, h < k → k < n → ¬d.HasFile k a) ∧
        d.image n a = d.fileByte h a := by
  induction n with
  | zero => exact Or.inl ⟨fun k hk => absurd hk (Nat.not_lt_zero k), rfl⟩
  | succ n ih =>
      by_cases hfile : d.HasFile n a
      · right
        exact ⟨n, Nat.lt_succ_self n, hfile, fun k hlo hhi => by omega, image_hit hfile⟩
      · have hskip := image_skip hfile
        rcases ih with ⟨hnone, hzero⟩ | ⟨h, hh, hin, hlast, hbyte⟩
        · left
          refine ⟨fun k hk => ?_, hskip.trans hzero⟩
          by_cases heq : k = n
          · exact heq ▸ hfile
          · exact hnone k (by omega)
        · right
          refine ⟨h, by omega, hin, fun k hlo hhi => ?_, hskip.trans hbyte⟩
          by_cases heq : k = n
          · exact heq ▸ hfile
          · exact hlast k hlo (by omega)

/-- The byte at address `a` after the headers before `n`, from the contents `v`
of memory. -/
def Slice.inPlace (d : Slice) (v : Mem) : Nat → Nat → UInt8
  | 0, a => v a
  | i + 1, a =>
      if d.pType i = ptLoad then
        if sub a (d.pVaddr i) < d.pFilesz i then d.mem (d.pOffset i + sub a (d.pVaddr i))
        else if sub a (d.pVaddr i) < d.pMemsz i then 0
        else d.inPlace v i a
      else d.inPlace v i a

/-- Contents of a segment are copied over what was there. -/
theorem inPlace_hit (h : d.HasFile i a) : d.inPlace v (i + 1) a = d.fileByte i a := by
  rw [Slice.inPlace, if_pos h.1, if_pos h.2, Slice.fileByte]

/-- The rest of a segment is zeroed. -/
theorem inPlace_zero (h : d.HasZero i a) : d.inPlace v (i + 1) a = 0 := by
  rw [Slice.inPlace, if_pos h.1, if_neg (Nat.not_lt.mpr h.2.1), if_pos h.2.2]

/-- A segment leaves the bytes outside as they are. -/
theorem inPlace_skip (hfile : ¬d.HasFile i a) (hzero : ¬d.HasZero i a) :
    d.inPlace v (i + 1) a = d.inPlace v i a := by
  rw [Slice.inPlace]
  by_cases hload : d.pType i = ptLoad
  · have hlow : ¬sub a (d.pVaddr i) < d.pFilesz i := fun hin => hfile ⟨hload, hin⟩
    have hhigh : ¬sub a (d.pVaddr i) < d.pMemsz i :=
      fun hin => hzero ⟨hload, Nat.le_of_not_lt hlow, hin⟩
    rw [if_pos hload, if_neg hlow, if_neg hhigh]
  · rw [if_neg hload]

/-- What a segment has zeroed stays zero until contents are written there. -/
theorem inPlace_zeroed (h : d.HasZero i a) (hn : i < n)
    (hlast : ∀ k, i < k → k < n → ¬d.HasFile k a) : d.inPlace v n a = 0 := by
  induction n with
  | zero => cases hn
  | succ n ih =>
      by_cases heq : i = n
      · subst heq
        exact inPlace_zero h
      · by_cases hzero : d.HasZero n a
        · exact inPlace_zero hzero
        · rw [inPlace_skip (hlast n (by omega) (Nat.lt_succ_self n)) hzero]
          exact ih (by omega) (fun k hlo hhi => hlast k hlo (by omega))

/-- The two images at an address: it is not covered so far, or they are the same,
or contents were zeroed afterwards. -/
theorem inPlace_cases (d : Slice) (v : Mem) (n a : Nat) :
    (∀ k < n, ¬d.Covers k a) ∨ d.inPlace v n a = d.image n a ∨
      ∃ h i, h < i ∧ i < n ∧ d.HasFile h a ∧ (∀ k, h < k → k < n → ¬d.HasFile k a) ∧
        d.HasZero i a := by
  induction n with
  | zero => exact Or.inl (fun k hk => absurd hk (Nat.not_lt_zero k))
  | succ n ih =>
      by_cases hfile : d.HasFile n a
      · exact Or.inr (Or.inl ((inPlace_hit hfile).trans (image_hit hfile).symm))
      · have himage := image_skip hfile
        by_cases hzero : d.HasZero n a
        · right
          rcases image_cases d n a with ⟨-, hnone⟩ | ⟨h, hh, hin, hlast, -⟩
          · left
            rw [inPlace_zero hzero, himage, hnone]
          · right
            refine ⟨h, n, hh, Nat.lt_succ_self n, hin, fun k hlo hhi => ?_, hzero⟩
            by_cases heq : k = n
            · exact heq ▸ hfile
            · exact hlast k hlo (by omega)
        · have hsame := inPlace_skip (v := v) hfile hzero
          rcases ih with hnone | heq | ⟨h, i, hhi, hi, hin, hlast, hz⟩
          · left
            intro k hk
            by_cases heq : k = n
            · subst heq
              rintro ⟨hload, hin⟩
              by_cases hlow : sub a (d.pVaddr k) < d.pFilesz k
              · exact hfile ⟨hload, hlow⟩
              · exact hzero ⟨hload, Nat.le_of_not_lt hlow, hin⟩
            · exact hnone k (by omega)
          · right
            left
            rw [hsame, himage, heq]
          · right
            right
            refine ⟨h, i, hhi, by omega, hin, fun k hlo hk => ?_, hz⟩
            by_cases heq : k = n
            · exact heq ▸ hfile
            · exact hlast k hlo (by omega)

/-- The bytes behind the contents, counted from the start of the segment. -/
theorem behind_contents {vaddr filesz memsz : Nat} (ha : a < modulus) (hv : vaddr < modulus)
    (hm : memsz < modulus) (hsize : filesz < memsz) :
    sub a (add vaddr filesz) < memsz - filesz ↔ filesz ≤ sub a vaddr ∧ sub a vaddr < memsz := by
  have hsub := sub_cases ha hv
  have hadd := add_cases (a := vaddr) (b := filesz) hv (by omega)
  have hfar := sub_cases (b := add vaddr filesz) ha (add_lt _ _)
  rcases hadd with ⟨hsum, hadd⟩ | ⟨hsum, hadd⟩
  · rw [hadd] at hfar ⊢
    rcases hsub with ⟨hle, hsub⟩ | ⟨hlt, hsub⟩ <;>
      rcases hfar with ⟨hle', hfar⟩ | ⟨hlt', hfar⟩ <;> rw [hsub, hfar] <;> omega
  · rw [hadd] at hfar ⊢
    rcases hsub with ⟨hle, hsub⟩ | ⟨hlt, hsub⟩ <;>
      rcases hfar with ⟨hle', hfar⟩ | ⟨hlt', hfar⟩ <;> rw [hsub, hfar] <;> omega

/-- **One segment copied** goes one header on. -/
theorem copySegment_run {v₀ : Mem} (hload : d.pType i = ptLoad)
    (hv : ∀ a < modulus, v a = d.inPlace v₀ i a) :
    ∃ v', copySegment d i v = (.ok (), v') ∧ ∀ a < modulus, v' a = d.inPlace v₀ (i + 1) a := by
  have hvaddr : d.pVaddr i < modulus := readLE_word _ _
  have hmemsz : d.pMemsz i < modulus := readLE_word _ _
  unfold copySegment
  rw [Command.modify_bind]
  by_cases hmore : d.pMemsz i > d.pFilesz i
  · rw [if_pos hmore]
    refine ⟨_, rfl, fun a ha => ?_⟩
    have hbehind := behind_contents ha hvaddr hmemsz hmore
    rw [Slice.inPlace, if_pos hload]
    unfold putBytes
    dsimp only
    by_cases hin : sub a (d.pVaddr i) < d.pFilesz i
    · rw [if_neg (fun hzero => absurd (hbehind.mp hzero).1 (by omega)), if_pos hin, if_pos hin]
    · by_cases hzero : sub a (d.pVaddr i) < d.pMemsz i
      · rw [if_pos (hbehind.mpr ⟨by omega, hzero⟩), if_neg hin, if_pos hzero]
      · rw [if_neg (fun h => hzero (hbehind.mp h).2), if_neg hin, if_neg hin, if_neg hzero]
        exact hv a ha
  · rw [if_neg hmore]
    refine ⟨_, rfl, fun a ha => ?_⟩
    rw [Slice.inPlace, if_pos hload]
    unfold putBytes
    dsimp only
    by_cases hin : sub a (d.pVaddr i) < d.pFilesz i
    · rw [if_pos hin, if_pos hin]
    · rw [if_neg hin, if_neg hin, if_neg (by omega)]
      exact hv a ha

/-- The loop stops at a header that fails a bounds check, and otherwise leaves the
image. -/
theorem copyHeaders_run {v₀ : Mem} :
    ∀ n i v, (∀ a < modulus, v a = d.inPlace v₀ i a) →
      match copyHeaders d n i v with
      | (.ok _, v') => (∀ j, i ≤ j → j < i + n → ¬d.Stops j) ∧
          ∀ a < modulus, v' a = d.inPlace v₀ (i + n) a
      | (.err _, _) => ∃ j < i + n, d.Stops j
      | (.panic _, _) => False := by
  intro n
  induction n with
  | zero => exact fun i v hv => ⟨fun j hlo hhi => by omega, hv⟩
  | succ n ih =>
      intro i v hv
      have hshift : i + (n + 1) = i + 1 + n := by omega
      rw [copyHeaders]
      by_cases hheader : add (d.phOff i) d.phentsize > d.len
      · rw [if_pos hheader]
        exact ⟨i, by omega, Or.inl (Nat.not_le.mpr hheader)⟩
      · -- the rest of the loop, once it is clear that this header is passed
        have hrest : ∀ v', ¬d.Stops i → (∀ a < modulus, v' a = d.inPlace v₀ (i + 1) a) →
            match copyHeaders d n (i + 1) v' with
            | (.ok _, v') => (∀ j, i ≤ j → j < i + (n + 1) → ¬d.Stops j) ∧
                ∀ a < modulus, v' a = d.inPlace v₀ (i + (n + 1)) a
            | (.err _, _) => ∃ j < i + (n + 1), d.Stops j
            | (.panic _, _) => False := by
          intro v' hgo hv'
          have hloop := ih (i + 1) v' hv'
          generalize copyHeaders d n (i + 1) v' = out at hloop ⊢
          obtain ⟨o, v''⟩ := out
          cases o with
          | ok _ =>
              refine ⟨fun j hlo hhi => ?_, hshift ▸ hloop.2⟩
              by_cases heq : j = i
              · exact heq ▸ hgo
              · exact hloop.1 j (by omega) (by omega)
          | err e =>
              obtain ⟨j, hj, hstop⟩ := hloop
              exact ⟨j, by omega, hstop⟩
          | panic message => exact hloop
        rw [if_neg hheader]
        by_cases hload : d.pType i = ptLoad
        · rw [if_neg (not_not.mpr hload)]
          by_cases hfile : add (d.pOffset i) (d.pFilesz i) > d.len
          · rw [if_pos hfile]
            exact ⟨i, by omega, Or.inr ⟨hload, Nat.not_le.mpr hfile⟩⟩
          · have hgo : ¬d.Stops i := by
              rintro (hbad | ⟨-, hbad⟩)
              · exact hheader (Nat.not_le.mp hbad)
              · exact hfile (Nat.not_le.mp hbad)
            obtain ⟨v', hrun, hv'⟩ := copySegment_run hload hv
            rw [if_neg hfile, Command.bind_apply, hrun]
            exact hrest v' hgo hv'
        · have hgo : ¬d.Stops i := by
            rintro (hbad | ⟨hpt, -⟩)
            · exact hheader (Nat.not_le.mp hbad)
            · exact hload hpt
          rw [if_pos hload]
          apply hrest v hgo
          intro a ha
          rw [Slice.inPlace, if_neg hload]
          exact hv a ha

/-- **How `load` ends.** -/
theorem load_end (d : Slice) (v : Mem) :
    match load d v with
    | (.ok e, v') => 64 ≤ d.len ∧ d.headerError = none ∧ e = d.entry ∧
        (∀ j < d.phnum, ¬d.Stops j) ∧ ∀ a < modulus, v' a = d.inPlace v d.phnum a
    | (.err _, _) => d.len < 64 ∨ d.headerError ≠ none ∨ ∃ j < d.phnum, d.Stops j
    | (.panic _, _) => False := by
  unfold load
  by_cases hsize : d.len < 64
  · rw [if_pos hsize]
    exact Or.inl hsize
  · rw [if_neg hsize]
    cases herr : d.headerError with
    | some e => exact Or.inr (Or.inl (Option.some_ne_none e))
    | none =>
        have hloop := @copyHeaders_run d v d.phnum 0 v (fun a _ => rfl)
        rw [Nat.zero_add] at hloop
        dsimp only
        rw [Command.bind_apply]
        generalize copyHeaders d d.phnum 0 v = out at hloop ⊢
        obtain ⟨o, v'⟩ := out
        cases o with
        | ok _ =>
            exact ⟨by omega, rfl, rfl, fun j hj => hloop.1 j (Nat.zero_le j) hj, hloop.2⟩
        | err e => exact Or.inr (Or.inr hloop)
        | panic message => exact hloop

end

section

variable {env : Env} {d : Slice} {room : Nat} {m : Memory} {v : Mem}

/-- `FramesLast` fails exactly if `load_fresh` ends because no frame is left. -/
theorem framesLast_iff (hl : env.limit + pageSize < modulus) (hcall : CallSound env m)
    (htaken : m.trace.taken = []) (hsize : 64 ≤ d.len) (hheader : d.headerError = none) :
    ¬d.FramesLast (available m.pmm) room ↔
      (∃ e, (loadFresh d room m).1 = .err e) ∧
        ∃ k < d.phnum, d.Reaches room k ∧
          RunsOut d (available m.pmm) room k (loadFresh d room m).2 := by
  have hend : LoadEnd _ d room m _ _ := loadFresh_end hl hcall htaken
  unfold LoadEnd at hend
  rw [if_neg (by simp [hheader, Nat.not_lt.mpr hsize])] at hend
  generalize loadFresh d room m = out at hend ⊢
  obtain ⟨o, m'⟩ := out
  constructor
  · intro hfails
    unfold Slice.FramesLast at hfails
    push Not at hfails
    obtain ⟨-, -, i, hi, hreach, hgo, hload, hfew, hfits⟩ := hfails
    cases o with
    | ok out =>
        obtain ⟨-, -, himage⟩ := hend
        have hcard := himage.loading.card
        have hcount := himage.loading.count
        have hmono := Finset.card_le_card (pagesUpTo_mono (d := d) (show i + 1 ≤ d.phnum by omega))
        omega
    | err e =>
        obtain ⟨k, hk, hreachk, ⟨hstop, pages, himage⟩ | hout⟩ := hend
        · by_cases hle : k ≤ i
          · by_cases heq : k = i
            · exact absurd (heq ▸ hstop) hgo
            · exact absurd hstop (hreach k (by omega)).1
          · have hcard := himage.loading.card
            have hcount := himage.loading.count
            have hmono := Finset.card_le_card (pagesUpTo_mono (d := d) (show i + 1 ≤ k by omega))
            omega
        · exact ⟨⟨e, rfl⟩, k, hk, hreachk, hout⟩
    | panic message =>
        obtain ⟨k, hk, hreachk, hgok, hplaced, hroom⟩ := hend
        by_cases hle : k < i
        · exact absurd (hreach k hle).2 hplaced
        · have hmono := Finset.card_le_card
            (pagesUpTo_mono (d := d) (show i + 1 ≤ k + 1 by omega))
          have := hroom (by omega)
          omega
  · rintro ⟨-, k, hk, hreach, hout⟩ hlast
    have hroom := hlast hsize hheader k hk hreach hout.reads hout.loads hout.few
    have hfits := hout.fits
    omega

/-- The frames last if there are as many as pages of the file. -/
theorem framesLast_of_card {frames : Nat} (h : (d.pagesUpTo d.phnum).card ≤ frames) :
    d.FramesLast frames room := by
  intro _ _ i hi _ _ _ hfew
  have hmono := Finset.card_le_card (pagesUpTo_mono (d := d) (show i + 1 ≤ d.phnum by omega))
  omega

/-- **When the two loaders agree.**  In every reachable state of the allocator, on
every file for which the frames last. -/
theorem loaders_agree_iff {limit : Nat} {map : MemoryMap limit} {w : World}
    (hl : limit + pageSize < modulus) (hlow : 0x300000 ≤ limit)
    (hw : (callSystem map).Run (Fits limit) w) (hpmm : m.pmm = w.pmm)
    (htrace : m.trace = Trace.empty) (hframes : d.FramesLast (available m.pmm) room) :
    Agree d room m v ↔ (64 ≤ d.len → d.headerError = none → d.Alike room) := by
  have hcall : CallSound ⟨limit, w.live.flatten, m.ram⟩ m :=
    callSound_start (hpmm ▸ call_sound hl hlow hw) htrace
  have hfresh : LoadEnd _ d room m _ _ := loadFresh_end hl hcall (by rw [htrace]; rfl)
  have hload := load_end d v
  unfold Agree
  generalize load d v = left at hload ⊢
  generalize loadFresh d room m = right at hfresh ⊢
  obtain ⟨o, v'⟩ := left
  obtain ⟨o', m'⟩ := right
  by_cases hbad : d.len < 64 ∨ d.headerError ≠ none
  · -- both reject the header
    unfold LoadEnd at hfresh
    rw [if_pos hbad] at hfresh
    obtain ⟨⟨e', rfl⟩, -⟩ := hfresh
    have hvacuous : 64 ≤ d.len → d.headerError = none → d.Alike room := by
      intro hsize hheader
      rcases hbad with hshort | herr
      · omega
      · exact absurd hheader herr
    cases o with
    | ok e =>
        obtain ⟨hsize, hheader, -⟩ := hload
        rcases hbad with hshort | herr
        · omega
        · exact absurd hheader herr
    | err e => exact iff_of_true trivial hvacuous
    | panic message => exact absurd hload id
  · unfold LoadEnd at hfresh
    rw [if_neg hbad] at hfresh
    have hsize : 64 ≤ d.len := Nat.le_of_not_lt (fun h => hbad (Or.inl h))
    have hheader : d.headerError = none := not_not.mp (fun h => hbad (Or.inr h))
    cases o' with
    | ok out =>
        obtain ⟨e', pages⟩ := out
        obtain ⟨rfl, hreach, himage⟩ := hfresh
        have hgo : ∀ j < d.phnum, ¬d.Stops j := fun j hj => (hreach j hj).1
        cases o with
        | panic message => exact absurd hload id
        | err e =>
            rcases hload with hshort | herr | ⟨j, hj, hstop⟩
            · omega
            · exact absurd hheader herr
            · exact absurd hstop (hgo j hj)
        | ok e =>
            obtain ⟨-, -, rfl, -, hbytes⟩ := hload
            -- the byte in the frame of a page is that of the image
            have hframe : ∀ a < modulus, ∀ p ∈ pages, p.vaddr = pageMask a →
                m'.ram (p.frame + a % pageSize) = d.image d.phnum a := by
              intro a ha p hp hpage
              have haddr : p.vaddr + a % pageSize = a := by
                rw [hpage, pageMask_eq ha]
                unfold pageSize
                omega
              rw [himage.bytes p hp _ (Nat.mod_lt _ (by decide)), haddr]
            constructor
            · rintro ⟨-, hsame⟩ _ _
              refine ⟨fun i hi _ => (hreach i hi).2, ?_, ?_⟩
              · intro _ i hi a ha hcover
                obtain ⟨p, hp, hpage, -⟩ := hsame i hi a ha hcover
                exact hpage ▸ himage.page_mem hp
              · intro _ h i hhi hi a ha hfile hlast hzero
                obtain ⟨p, hp, hpage, hbyte⟩ := hsame i hi a ha ⟨hzero.1, hzero.2.2⟩
                have hzeroed : d.inPlace v d.phnum a = 0 :=
                  inPlace_zeroed hzero hi (fun k hlo hk => hlast k (by omega) hk)
                rw [hbytes a ha, hzeroed, hframe a ha p hp hpage,
                  image_last hfile (by omega) hlast] at hbyte
                exact hbyte.symm
            · intro halike
              have hall := halike hsize hheader
              refine ⟨rfl, fun i hi a ha hcover => ?_⟩
              obtain ⟨p, hp, hpage⟩ :=
                himage.loading.mem.mp (hall.paged hgo i hi a ha hcover)
              refine ⟨p, hp, hpage, ?_⟩
              rw [hbytes a ha, hframe a ha p hp hpage]
              rcases inPlace_cases d v d.phnum a with hnone | heq | ⟨h, j, hhj, hj, hfile, hlast, hz⟩
              · exact absurd hcover (hnone i hi)
              · exact heq
              · have hzeroed : d.inPlace v d.phnum a = 0 :=
                  inPlace_zeroed hz hj (fun k hlo hk => hlast k (by omega) hk)
                rw [hzeroed, image_last hfile (by omega) hlast,
                  hall.kept hgo h j hhj hj a ha hfile hlast hz]
    | err e' =>
        obtain ⟨k, hk, hreach, ⟨hstop, -⟩ | hout⟩ := hfresh
        · have halike : d.Alike room := by
            refine ⟨?_, fun hgo => absurd hstop (hgo k hk), fun hgo => absurd hstop (hgo k hk)⟩
            intro i hi hgo
            by_cases hlt : i < k
            · exact (hreach i hlt).2
            · exact absurd hstop (hgo k (by omega))
          cases o with
          | ok e => exact absurd hstop (hload.2.2.2.1 k hk)
          | err e => exact iff_of_true trivial (fun _ _ => halike)
          | panic message => exact absurd hload id
        · have hroom := hframes hsize hheader k hk hreach hout.reads hout.loads hout.few
          have hfits := hout.fits
          omega
    | panic message =>
        obtain ⟨k, hk, hreach, hgo, hplaced, -⟩ := hfresh
        have hnot : ¬(64 ≤ d.len → d.headerError = none → d.Alike room) := by
          intro halike
          apply hplaced
          apply (halike hsize hheader).placed k hk
          intro j hj
          by_cases heq : j = k
          · exact heq ▸ hgo
          · exact (hreach j (by omega)).1
        cases o with
        | ok e => exact iff_of_false id hnot
        | err e => exact iff_of_false id hnot
        | panic message => exact absurd hload id

/-- **Regular files are loaded alike**, if they stay out of the last page of the
address space and the heap has room for the list of pages. -/
theorem Slice.Regular.alike (h : d.Regular)
    (hend : ∀ i < d.phnum, d.pType i = ptLoad → 0 < d.pMemsz i →
      d.pVaddr i + d.pMemsz i ≤ modulus - pageSize)
    (hroom : (d.pagesUpTo d.phnum).card ≤ room) : d.Alike room := by
  -- a covered address is so many bytes behind the start
  have hoffset : ∀ i < d.phnum, ∀ a < modulus, d.Covers i a →
      ∃ j < d.pMemsz i, a = d.pVaddr i + j := by
    rintro i hi a ha ⟨hload, hin⟩
    have hv : d.pVaddr i < modulus := readLE_word _ _
    have hwrap := h.no_wrap i hi hload
    rcases sub_cases ha hv with ⟨hle, hsub⟩ | ⟨-, hsub⟩
    · rw [hsub] at hin
      exact ⟨a - d.pVaddr i, hin, by omega⟩
    · omega
  refine ⟨?_, ?_, ?_⟩
  · intro i hi _ hload
    have hmono := Finset.card_le_card (pagesUpTo_mono (d := d) (show i + 1 ≤ d.phnum by omega))
    refine ⟨by omega, fun c hc => ?_⟩
    have hsize := h.filesz_le i hi hload
    have hlow := hend i hi hload (by omega)
    rw [add_eq (by unfold modulus pageSize at *; omega)]
    exact Slice.page_listed (Nat.lt_succ_self i) hload (by omega) hlow
  · intro _ i hi a ha hcover
    obtain ⟨j, hj, rfl⟩ := hoffset i hi a ha hcover
    exact Slice.page_listed hi hcover.1 hj (hend i hi hcover.1 (by omega))
  · intro _ k i hki hi a ha hfile _ hzero
    obtain ⟨j, hj, rfl⟩ := hoffset i hi a ha ⟨hzero.1, hzero.2.2⟩
    have heq := h.same hi (by omega) hzero.1 hfile.1 (Nat.le_add_right _ _) (by omega) hfile.2
    omega

end

/-- A segment that is zeroed over the contents of the first. -/
def overlapElf : Slice :=
  Slice.ofList (elfHeader 0x400000 64 56 2 ++ elfPhdr 176 0x400000 4 4 ++
    elfPhdr 180 0x400000 0 8 ++ [0x90, 0x90, 0xEB, 0xFE]) (by decide +kernel)

/-- The hypotheses are met by a file with two segments on one page. -/
theorem sample_loaders_agree : Agree sharedPageElf 100 sampleMemory (fun _ => 0xcc) := by
  have hboot : (callSystem sampleMap).Run (Fits (2 ^ 52)) ⟨bootPmm sampleMap, []⟩ := .boot rfl
  have hcard : (sharedPageElf.pagesUpTo sharedPageElf.phnum).card ≤ 1 ∧
      1 ≤ available sampleMemory.pmm := by decide +kernel
  have hframes : sharedPageElf.FramesLast (available sampleMemory.pmm) 100 :=
    framesLast_of_card (hcard.1.trans hcard.2)
  have hiff := loaders_agree_iff (v := fun _ => 0xcc) (by decide) (by decide) hboot rfl rfl hframes
  have halike : sharedPageElf.Alike 100 :=
    sharedPage_regular.alike sharedPage_low (hcard.1.trans (by decide))
  exact hiff.mpr (fun _ _ => halike)

/-- Both loaders return, but `load` leaves zeroes where `load_fresh` leaves the
contents of the first segment. -/
theorem overlap_loaders_differ :
    ¬ ∀ (d : Slice) v, d.FramesLast (available sampleMemory.pmm) 100 →
      Agree d 100 sampleMemory v := by
  intro h
  have hcard : (overlapElf.pagesUpTo overlapElf.phnum).card ≤ 1 ∧
      1 ≤ available sampleMemory.pmm := by decide +kernel
  have hframes : overlapElf.FramesLast (available sampleMemory.pmm) 100 :=
    framesLast_of_card (hcard.1.trans hcard.2)
  have hagree := h overlapElf (fun _ => 0) hframes
  have hleft : (load overlapElf (fun _ => 0)).1 = .ok 0x400000 := by decide +kernel
  have hright : (loadFresh overlapElf 100 sampleMemory).1 =
      .ok (0x400000, [⟨0x400000, 0x400000, false, true⟩]) := by decide +kernel
  have hbytes : (load overlapElf (fun _ => 0)).2 0x400000 = 0 ∧
      (loadFresh overlapElf 100 sampleMemory).2.ram 0x400000 = 0x90 := by decide +kernel
  have hcover : 1 < overlapElf.phnum ∧ overlapElf.Covers 1 0x400000 := by
    unfold Slice.Covers
    decide +kernel
  unfold Agree at hagree
  rw [Command.eq_of_fst hleft, Command.eq_of_fst hright] at hagree
  have hlt : 0x400000 < modulus := by decide
  obtain ⟨p, hp, -, hsame⟩ := hagree.2 1 hcover.1 0x400000 hlt hcover.2
  rw [List.mem_singleton.mp hp] at hsame
  have haddr : 0x400000 + 0x400000 % pageSize = 0x400000 := by decide
  dsimp only at hsame
  rw [haddr, hbytes.1, hbytes.2] at hsame
  exact absurd hsame (by decide)

end ElfLoader
