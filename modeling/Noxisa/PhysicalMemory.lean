import Noxisa.ByteMemory
import Noxisa.Command
import Noxisa.FrameOwnership

/-!
# Physical memory and the allocator that hands it out

The kernel reaches every frame through the direct map, a fixed bijection of
physical addresses to kernel addresses; the model names a byte by its physical
address and leaves the bijection out.

A `Memory` also carries a `Trace`, which the code does not have: the frames
handed out, the ranges written, and what a loader read and checked.  It is
what statements about "this call" speak about: a call starts with the empty
trace.  `OwnWrites` says that a call has only written into frames that it was
handed itself.
-/

namespace PhysicalMemory

open ByteMemory FrameAllocator MachineWord RangePool

/-- What a call has done so far, latest first. -/
structure Trace where
  /-- frames handed out by the allocator -/
  taken : List Nat
  /-- physical ranges written, as address and length -/
  writes : List (Nat × Nat)
  /-- ranges of the input read, as offset and length -/
  reads : List (Nat × Nat)
  /-- unbounded values of the sums that passed a bounds check -/
  checks : List Nat

/-- Nothing has happened yet. -/
def Trace.empty : Trace := ⟨[], [], [], []⟩

/-- The frame allocator, the bytes of the memory, and what the code has done to them. -/
structure Memory where
  pmm : Pmm
  ram : Mem
  trace : Trace

/-- Write a range: the bytes `ram'` has there are the new contents. -/
def Memory.written (m : Memory) (addr len : Nat) (ram' : Mem) : Memory :=
  { m with ram := ram', trace := { m.trace with writes := (addr, len) :: m.trace.writes } }

/-- `write_bytes(frame, 0, 4096)`. -/
def Memory.zeroFrame (m : Memory) (frame : Nat) : Memory :=
  m.written frame pageSize (fill m.ram frame pageSize 0)

/-- A 64-bit word. -/
def Memory.readWord (m : Memory) (addr : Nat) : Nat := readLE m.ram addr 8

/-- `write_volatile` of a word. -/
def Memory.writeWord (m : Memory) (addr value : Nat) : Memory :=
  m.written addr 8 (writeLE m.ram addr 8 value)

/-- `copy_nonoverlapping` of `len` bytes to `addr`. -/
def Memory.copyTo (m : Memory) (addr len : Nat) (src : Nat → UInt8) : Memory :=
  m.written addr len (copy m.ram addr len src)

/-- `alloc_frame`, recorded. -/
def Memory.allocFrame (m : Memory) : Option Nat × Memory :=
  match FrameAllocator.allocFrame m.pmm with
  | (some f, p) =>
      (some f, { m with pmm := p, trace := { m.trace with taken := f :: m.trace.taken } })
  | (none, p) => (none, { m with pmm := p })

/-- `alloc_contiguous_frames`, recorded: the block is taken frame by frame. -/
def Memory.allocContiguousFrames (m : Memory) (n : Nat) : Option Nat × Memory :=
  match FrameAllocator.allocContiguousFrames m.pmm n with
  | (some a, p) =>
      (some a, { m with
        pmm := p
        trace := { m.trace with taken := units pageSize a n ++ m.trace.taken } })
  | (none, p) => (none, { m with pmm := p })

/-- Scrub the frame, then put it on the free list; `none` is the double-free
panic. -/
def Memory.freeFrame (m : Memory) (frame : Nat) : Option Memory :=
  (FrameAllocator.freeFrame m.pmm frame).map (fun p => { m.zeroFrame frame with pmm := p })

/-- `alloc_frame().ok_or(e)?` -/
def allocOr {ε : Type} (e : ε) : Command Memory ε Nat := fun m =>
  match m.allocFrame with
  | (some f, m') => (.ok f, m')
  | (none, m') => (.err e, m')

/-- `alloc_frame().expect(message)` -/
def allocExpect {ε : Type} (message : String) : Command Memory ε Nat := fun m =>
  match m.allocFrame with
  | (some f, m') => (.ok f, m')
  | (none, m') => (.panic message, m')

/-- `alloc_contiguous_frames(n).expect(message)` -/
def allocContiguousExpect {ε : Type} (n : Nat) (message : String) : Command Memory ε Nat :=
  fun m =>
    match m.allocContiguousFrames n with
    | (some a, m') => (.ok a, m')
    | (none, m') => (.panic message, m')

/-- `{:#x}` -/
def hex (n : Nat) : String := "0x" ++ String.ofList (Nat.toDigits 16 n)

/-- `free_frame`, with its panic. -/
def freeFrameOrPanic {ε : Type} (frame : Nat) : Command Memory ε Unit := fun m =>
  match m.freeFrame frame with
  | some m' => (.ok (), m')
  | none => (.panic ("PMM double-free: frame " ++ hex frame ++ " is already on the free-list"), m)

/-- The frames of a list are given back one after the other. -/
def freeAll {ε : Type} : List Nat → Command Memory ε Unit
  | [] => pure ()
  | frame :: frames => do
      freeFrameOrPanic frame
      freeAll frames

/-- Every range written lies in a frame that was handed out. -/
def OwnWrites (t : Trace) : Prop :=
  ∀ w ∈ t.writes, ∃ f ∈ t.taken, f ≤ w.1 ∧ w.1 + w.2 ≤ f + pageSize

/-- A store touches the bytes and the record of stores, nothing else. -/
@[simp] theorem written_pmm (m : Memory) (a n : Nat) (r : Mem) :
    (m.written a n r).pmm = m.pmm := rfl

@[simp] theorem written_taken (m : Memory) (a n : Nat) (r : Mem) :
    (m.written a n r).trace.taken = m.trace.taken := rfl

@[simp] theorem written_writes (m : Memory) (a n : Nat) (r : Mem) :
    (m.written a n r).trace.writes = (a, n) :: m.trace.writes := rfl

@[simp] theorem written_reads (m : Memory) (a n : Nat) (r : Mem) :
    (m.written a n r).trace.reads = m.trace.reads := rfl

@[simp] theorem written_checks (m : Memory) (a n : Nat) (r : Mem) :
    (m.written a n r).trace.checks = m.trace.checks := rfl

/-- Zeroing a frame does not touch the allocator. -/
@[simp] theorem zeroFrame_pmm (m : Memory) (f : Nat) : (m.zeroFrame f).pmm = m.pmm := rfl

@[simp] theorem zeroFrame_taken (m : Memory) (f : Nat) :
    (m.zeroFrame f).trace.taken = m.trace.taken := rfl

/-- Nor does writing a word. -/
@[simp] theorem writeWord_pmm (m : Memory) (a v : Nat) : (m.writeWord a v).pmm = m.pmm := rfl

@[simp] theorem writeWord_taken (m : Memory) (a v : Nat) :
    (m.writeWord a v).trace.taken = m.trace.taken := rfl

/-- A word has 64 bits. -/
theorem readWord_lt (m : Memory) (a : Nat) : m.readWord a < modulus :=
  readLE_lt m.ram a 8

/-- The word that was written is read. -/
theorem readWord_writeWord_same (m : Memory) (a : Nat) {v : Nat} (h : v < modulus) :
    (m.writeWord a v).readWord a = v :=
  readLE_writeLE_same m.ram a 8 v h

/-- A word beside it is not touched. -/
theorem readWord_writeWord_other (m : Memory) {a b : Nat} (v : Nat)
    (h : b + 8 ≤ a ∨ a + 8 ≤ b) : (m.writeWord a v).readWord b = m.readWord b :=
  readLE_writeLE_other m.ram v h

/-- The words of a zeroed frame are zero. -/
theorem readWord_zeroFrame_inside (m : Memory) {f a : Nat} (hlo : f ≤ a)
    (hhi : a + 8 ≤ f + pageSize) : (m.zeroFrame f).readWord a = 0 :=
  readLE_fill_zero m.ram hlo hhi

/-- The words outside it are not touched. -/
theorem readWord_zeroFrame_other (m : Memory) {f a : Nat}
    (h : a + 8 ≤ f ∨ f + pageSize ≤ a) : (m.zeroFrame f).readWord a = m.readWord a :=
  readLE_fill_other m.ram 0 h

/-- Handing out a frame touches the allocator and the trace only. -/
theorem allocFrame_some {m m' : Memory} {f : Nat} (h : m.allocFrame = (some f, m')) :
    ∃ p, FrameAllocator.allocFrame m.pmm = (some f, p) ∧
      m' = { m with pmm := p, trace := { m.trace with taken := f :: m.trace.taken } } := by
  unfold Memory.allocFrame at h
  split at h
  next g p heq =>
    obtain ⟨rfl, rfl⟩ : g = f ∧ _ = m' := by simpa using h
    exact ⟨p, heq, rfl⟩
  next => simp at h

/-- An allocation that fails has only moved the allocator. -/
theorem allocFrame_none {m m' : Memory} (h : m.allocFrame = (none, m')) :
    ∃ p, FrameAllocator.allocFrame m.pmm = (none, p) ∧ m' = { m with pmm := p } := by
  unfold Memory.allocFrame at h
  split at h
  next => simp at h
  next p heq => exact ⟨p, heq, (Prod.mk.inj h).2.symm⟩

/-- Frames in a row that have been handed out are recorded. -/
theorem allocContiguousFrames_some {m m' : Memory} {a n : Nat}
    (h : m.allocContiguousFrames n = (some a, m')) :
    ∃ p, FrameAllocator.allocContiguousFrames m.pmm n = (some a, p) ∧
      m' = { m with
        pmm := p
        trace := { m.trace with taken := units pageSize a n ++ m.trace.taken } } := by
  unfold Memory.allocContiguousFrames at h
  split at h
  next g p heq =>
    obtain ⟨rfl, rfl⟩ : g = a ∧ _ = m' := by simpa using h
    exact ⟨p, heq, rfl⟩
  next => simp at h

/-- A row that cannot be handed out has only moved the allocator. -/
theorem allocContiguousFrames_none {m m' : Memory} {n : Nat}
    (h : m.allocContiguousFrames n = (none, m')) :
    ∃ p, FrameAllocator.allocContiguousFrames m.pmm n = (none, p) ∧ m' = { m with pmm := p } := by
  unfold Memory.allocContiguousFrames at h
  split at h
  next => simp at h
  next p heq => exact ⟨p, heq, (Prod.mk.inj h).2.symm⟩

/-- What a call finds: memory below `limit`, the frames `held` by others, and
the contents `old` of the memory. -/
structure Env where
  limit : Nat
  held : List Nat
  old : Mem

/-- **The invariant of a call.**  The frames the call has been handed are
different from those of others and from each other, the call has written
nowhere else, and the contents of the frames of others are as they were. -/
structure CallSound (env : Env) (m : Memory) : Prop where
  sound : Sound env.limit m.pmm (m.trace.taken ++ env.held)
  own : OwnWrites m.trace
  kept : ∀ g ∈ env.held, ∀ x, g ≤ x → x < g + pageSize → m.ram x = env.old x

section

variable {env : Env} {m m' : Memory} {f a : Nat}

/-- A call starts with the empty trace. -/
theorem callSound_start {limit : Nat} {held : List Nat} (h : Sound limit m.pmm held)
    (htrace : m.trace = Trace.empty) : CallSound ⟨limit, held, m.ram⟩ m := by
  refine ⟨?_, ?_, fun _ _ _ _ _ => rfl⟩
  · rw [htrace]
    exact h
  · simp [OwnWrites, htrace, Trace.empty]

/-- A frame the call is handed is none of those in use. -/
theorem CallSound.allocFrame (hl : env.limit + pageSize < modulus) (h : CallSound env m)
    (ha : m.allocFrame = (some f, m')) : CallSound env m' := by
  obtain ⟨p, hp, rfl⟩ := allocFrame_some ha
  refine ⟨h.sound.allocFrame hl hp, ?_, h.kept⟩
  intro w hw
  obtain ⟨g, hg, hin⟩ := h.own w hw
  exact ⟨g, List.mem_cons_of_mem _ hg, hin⟩

/-- An allocation that fails keeps the call sound. -/
theorem CallSound.allocFrame_none (hl : env.limit + pageSize < modulus)
    (h : CallSound env m) (ha : m.allocFrame = (none, m')) :
    CallSound env m' := by
  obtain ⟨p, hp, rfl⟩ := PhysicalMemory.allocFrame_none ha
  exact ⟨h.sound.allocFrame_none hl hp, h.own, h.kept⟩

/-- The frames of a call are pages below the limit. -/
theorem CallSound.aligned (h : CallSound env m) (hf : f ∈ m.trace.taken) :
    pageSize ∣ f :=
  h.sound.separated.aligned f (List.mem_append_left _ (List.mem_append_left _ hf))

/-- A frame of the call is below the limit. -/
theorem CallSound.below (h : CallSound env m) (hf : f ∈ m.trace.taken) :
    f + pageSize ≤ env.limit :=
  h.sound.separated.inside f (List.mem_append_left _ (List.mem_append_left _ hf))

/-- A frame of the call shares no byte with a frame of others. -/
theorem CallSound.apart (h : CallSound env m) {g : Nat} (hf : f ∈ m.trace.taken)
    (hg : g ∈ env.held) : f + pageSize ≤ g ∨ g + pageSize ≤ f := by
  have hnd := (List.nodup_append'.mp h.sound.separated.nodup).1
  have hne : f ≠ g := fun heq => (List.nodup_append'.mp hnd).2.2 hf (heq ▸ hg)
  obtain ⟨i, rfl⟩ := h.aligned hf
  obtain ⟨j, rfl⟩ : pageSize ∣ g :=
    h.sound.separated.aligned g (List.mem_append_left _ (List.mem_append_right _ hg))
  simp only [pageSize] at hne ⊢
  omega

/-- Writing inside a frame of the call. -/
theorem CallSound.written (h : CallSound env m) {addr len : Nat} {r : Mem}
    (hf : f ∈ m.trace.taken) (hlo : f ≤ addr) (hhi : addr + len ≤ f + pageSize)
    (hr : ∀ x, x < addr ∨ addr + len ≤ x → r x = m.ram x) :
    CallSound env (m.written addr len r) := by
  refine ⟨h.sound, ?_, ?_⟩
  · intro w hw
    rcases List.mem_cons.mp hw with rfl | hw
    · exact ⟨f, hf, hlo, hhi⟩
    · exact h.own w hw
  · intro g hg x hxlo hxhi
    have hapart := h.apart hf hg
    exact (hr x (by omega)).trans (h.kept g hg x hxlo hxhi)

/-- A frame of the call may be zeroed. -/
theorem CallSound.zeroFrame (h : CallSound env m) (hf : f ∈ m.trace.taken) :
    CallSound env (m.zeroFrame f) :=
  h.written hf (Nat.le_refl _) (Nat.le_refl _) (fun _ hx => fill_outside m.ram 0 hx)

/-- The frame just handed out is zeroed. -/
theorem CallSound.zeroNew (hl : env.limit + pageSize < modulus) (h : CallSound env m)
    (ha : m.allocFrame = (some f, m')) : CallSound env (m'.zeroFrame f) := by
  have hcall := h.allocFrame hl ha
  obtain ⟨p, -, rfl⟩ := allocFrame_some ha
  exact hcall.zeroFrame List.mem_cons_self

/-- A word in a frame of the call may be written. -/
theorem CallSound.writeWord (h : CallSound env m) (v : Nat)
    (hf : f ∈ m.trace.taken) (hlo : f ≤ a) (hhi : a + 8 ≤ f + pageSize) :
    CallSound env (m.writeWord a v) :=
  h.written hf hlo hhi (fun _ hx => writeLE_outside m.ram v hx)

/-- Bytes may be copied into one. -/
theorem CallSound.copyTo (h : CallSound env m) {len : Nat} (src : Nat → UInt8)
    (hf : f ∈ m.trace.taken) (hlo : f ≤ a) (hhi : a + len ≤ f + pageSize) :
    CallSound env (m.copyTo a len src) :=
  h.written hf hlo hhi (fun _ hx => copy_outside m.ram src hx)

/-- A word of a frame of others is as it was at the start. -/
theorem CallSound.readWord_held (h : CallSound env m) {g : Nat} (hg : g ∈ env.held)
    (hlo : g ≤ a) (hhi : a + 8 ≤ g + pageSize) : m.readWord a = readLE env.old a 8 :=
  readLE_congr (fun x hxlo hxhi => h.kept g hg x (by omega) (by omega))

/-- The next frame differs from every frame in use. -/
theorem CallSound.fresh (hl : env.limit + pageSize < modulus) (h : CallSound env m)
    (ha : m.allocFrame = (some f, m')) : f ∉ m.trace.taken ++ env.held := by
  obtain ⟨p, hp, rfl⟩ := allocFrame_some ha
  have hnd := (List.nodup_append'.mp (h.sound.allocFrame hl hp).separated.nodup).1
  exact (List.nodup_cons.mp hnd).1

end

end PhysicalMemory
