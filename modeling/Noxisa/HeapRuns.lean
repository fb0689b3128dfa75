import Noxisa.HeapCanaries
import Noxisa.StoreView
import Noxisa.TransitionSystem

/-!
# Runs of the heap

Any calls of `HardenedAllocator` one after the other, with writes of the callers
to their blocks between them.  The inner allocator answers as it likes within
its contract, and keeps its own data in memory that it has not given out.

As long as callers write inside their blocks, the canaries stay in place: no
`dealloc` panics, what a caller has written stays until it writes again, and the
inner allocator gets back what it gave out, with every byte of it zero
(`heap_kept`).
-/

namespace HeapCanaries

open ByteMemory MachineWord StoreView

/-- A block of the inner allocator. -/
structure Chunk where
  start : Nat
  layout : Layout
deriving DecidableEq

/-- The bytes that the inner allocator has handed out. -/
def Chunk.bytes (c : Chunk) : Set Nat := HeapCanaries.bytes c.start c.layout.size

/-- A block of a caller, with the chunk it lies in and what has been written. -/
structure Block where
  user : Nat
  layout : Layout
  chunk : Chunk
  written : View UInt8

/-- The bytes of the user. -/
def Block.bytes (b : Block) : Set Nat := HeapCanaries.bytes b.user b.layout.size

/-- The memory, the blocks of the callers, and the chunks that the inner
allocator has given out. -/
structure Heap where
  mem : Mem
  blocks : List Block
  inner : List Chunk

/-- What `alloc` asks the inner allocator for. -/
def realLayout (layout : Layout) : Option Layout :=
  let align := max layout.align 8
  ((checkedAdd (alignUp 8 align) layout.size).bind (checkedAdd · 8)).bind
    (Layout.fromSizeAlign · align)

/-- The chunk that the inner allocator hands out in a call of `alloc`. -/
def handedOut (layout : Layout) (inner : Layout → Option Nat) : Option Chunk :=
  (realLayout layout).bind (fun real => (inner real).map (⟨·, real⟩))

/-- `m` is the memory when the inner allocator has returned. -/
def Heap.alloc (s : Heap) (layout : Layout) (inner : Layout → Option Nat) (m : Mem) : Heap :=
  let allocated := (handedOut layout inner).bind (fun chunk =>
    (HeapCanaries.alloc inner m layout).map (fun (user, m') =>
      (⟨m', ⟨user, layout, chunk, fun _ => none⟩ :: s.blocks, chunk :: s.inner⟩ : Heap)))
  allocated.getD { s with mem := m }

/-- A call, or a write of `data` at `a` by the owner of the block at `user`.  The
inner allocator leaves the memory as `m`. -/
inductive HeapStep
  | alloc (layout : Layout) (inner : Layout → Option Nat) (m : Mem)
  | write (user a : Nat) (data : List UInt8)
  | dealloc (user : Nat) (layout : Layout) (m : Mem)

/-- A store of the user, into its own block. -/
def Block.write (user a : Nat) (data : List UInt8) (b : Block) : Block :=
  if b.user = user then { b with written := overwrite b.written a data } else b

/-- The panic of `dealloc` ends the run. -/
def heapSystem : TransitionSystem Heap HeapStep where
  boot := fun s => s.blocks = [] ∧ s.inner = []
  next := fun s e => match e with
    | .alloc layout inner m => some (s.alloc layout inner m)
    | .write user a data =>
        some { s with
          mem := copy s.mem a data.length (fun i => data.getD i 0)
          blocks := s.blocks.map (Block.write user a data) }
    | .dealloc user layout m =>
        match dealloc s.mem user layout with
        | .panic _ _ _ _ _ => none
        | .inner _ realPtr _ _ =>
            some ⟨m, s.blocks.filter (·.user ≠ user), s.inner.filter (·.start ≠ realPtr)⟩

/-- The inner allocator does not touch what it has given out. -/
def Untouched (inner : List Chunk) (m m' : Mem) : Prop := ∀ c ∈ inner, ∀ x ∈ c.bytes, m' x = m x

/-- The contract: the inner allocator hands out room that is free, and callers
write inside their blocks, and free them once and with their layout. -/
def Proper (s : Heap) : HeapStep → Prop
  | .alloc _ inner m => Untouched s.inner s.mem m ∧ Serves inner ∧
      ∀ real p, inner real = some p → ∀ c ∈ s.inner, Disjoint (bytes p real.size) c.bytes
  | .write user a data => ∃ b ∈ s.blocks, b.user = user ∧
      b.user ≤ a ∧ a + data.length ≤ b.user + b.layout.size
  | .dealloc user layout m => (∃ b ∈ s.blocks, b.user = user ∧ b.layout = layout) ∧
      ∀ m' p size align, dealloc s.mem user layout = .inner m' p size align →
        Untouched (s.inner.filter (·.start ≠ p)) m' m

/-- A block in its chunk, with its canaries and what has been written. -/
structure Block.Placed (m : Mem) (b : Block) : Prop where
  real_size : b.chunk.layout.size = max b.layout.align 8 + b.layout.size + 8
  real_align : b.chunk.layout.align = max b.layout.align 8
  user_eq : b.user = b.chunk.start + max b.layout.align 8
  dvd : b.chunk.layout.align ∣ b.chunk.start
  aligned : b.layout.align ∣ b.user
  room : b.chunk.start + b.chunk.layout.size < modulus
  header : readLE m b.chunk.start 8 = heapCanary
  trailer : readLE m (b.user + b.layout.size) 8 = heapCanary
  shows : Shows b.written m
  inside : ∀ x byte, b.written x = some byte → x ∈ b.bytes

/-- The invariant. -/
structure Heap.Sound (s : Heap) : Prop where
  inner_eq : s.inner = s.blocks.map Block.chunk
  placed : ∀ b ∈ s.blocks, b.Placed s.mem
  apart : s.blocks.Pairwise (fun a b => Disjoint a.chunk.bytes b.chunk.bytes)

section

variable {m m' : Mem} {b : Block} {s t : Heap}

/-- The bytes of an area. -/
theorem mem_bytes {a n x : Nat} : x ∈ bytes a n ↔ a ≤ x ∧ x < a + n := Iff.rfl

/-- The user's bytes are bytes of the chunk. -/
theorem Block.Placed.bytes_subset (h : b.Placed m) : b.bytes ⊆ b.chunk.bytes := by
  intro x hx
  have huser := h.user_eq
  have hsize := h.real_size
  rw [Block.bytes, mem_bytes] at hx
  rw [Chunk.bytes, mem_bytes]
  omega

/-- The header is in front of them. -/
theorem Block.Placed.header_mem (h : b.Placed m) {x : Nat} (hlo : b.chunk.start ≤ x)
    (hhi : x < b.chunk.start + 8) : x ∈ b.chunk.bytes := by
  have hsize := h.real_size
  rw [Chunk.bytes, mem_bytes]
  omega

/-- The trailer is behind. -/
theorem Block.Placed.trailer_mem (h : b.Placed m) {x : Nat} (hlo : b.user + b.layout.size ≤ x)
    (hhi : x < b.user + b.layout.size + 8) : x ∈ b.chunk.bytes := by
  have huser := h.user_eq
  have hsize := h.real_size
  rw [Chunk.bytes, mem_bytes]
  omega

/-- A block stays as it is while nobody writes to its chunk. -/
theorem Block.Placed.congr (h : b.Placed m) (hsame : ∀ x ∈ b.chunk.bytes, m' x = m x) :
    b.Placed m' := by
  have hheader : readLE m' b.chunk.start 8 = readLE m b.chunk.start 8 :=
    readLE_congr (fun x hlo hhi => hsame x (h.header_mem hlo hhi))
  have htrailer : readLE m' (b.user + b.layout.size) 8 = readLE m (b.user + b.layout.size) 8 :=
    readLE_congr (fun x hlo hhi => hsame x (h.trailer_mem hlo hhi))
  refine { h with
    header := hheader.trans h.header
    trailer := htrailer.trans h.trailer
    shows := ?_ }
  intro x byte hbyte
  rw [hsame x (h.bytes_subset (h.inside x byte hbyte))]
  exact h.shows x byte hbyte

/-- `dealloc` of a block that is in place. -/
theorem Block.Placed.dealloc_eq (h : b.Placed m) : dealloc m b.user b.layout =
    .inner (fill m b.chunk.start b.chunk.layout.size 0) b.chunk.start b.chunk.layout.size
      b.chunk.layout.align := by
  have hallocated : Allocated (fun _ => some b.chunk.start) m _ b.layout b.chunk.layout
      b.chunk.start b.user :=
    ⟨rfl, h.real_size, h.real_align, h.dvd, h.room, h.user_eq, rfl⟩
  rw [hallocated.dealloc_eq, if_pos ⟨h.header, h.trailer⟩]

/-- A chunk starts in itself, so that chunks that are apart start elsewhere. -/
theorem Block.Placed.start_ne {c : Block} (hb : b.Placed m) (hc : c.Placed m)
    (h : Disjoint b.chunk.bytes c.chunk.bytes) : b.chunk.start ≠ c.chunk.start := by
  intro heq
  have hsize := hb.header_mem (x := b.chunk.start) (Nat.le_refl _) (by omega)
  have hsize' := hc.header_mem (x := b.chunk.start) heq.ge (by omega)
  exact Set.disjoint_left.mp h hsize hsize'

/-- The bytes of a caller are in no other chunk. -/
theorem Block.Placed.user_ne {c : Block} (hb : b.Placed m) (hc : c.Placed m)
    (h : Disjoint b.chunk.bytes c.chunk.bytes) : b.user ≠ c.user := by
  intro heq
  have hsize := hb.real_size
  have hsize' := hc.real_size
  have huser := hb.user_eq
  have huser' := hc.user_eq
  have hin : b.user ∈ b.chunk.bytes := by
    rw [Chunk.bytes, mem_bytes]
    omega
  have hin' : b.user ∈ c.chunk.bytes := by
    rw [Chunk.bytes, mem_bytes]
    omega
  exact Set.disjoint_left.mp h hin hin'

/-- `alloc` asks the inner allocator for a chunk and puts the canaries into it. -/
theorem alloc_eq (inner : Layout → Option Nat) (m : Mem) (layout : Layout) :
    alloc inner m layout = (realLayout layout).bind (fun real => (inner real).map (fun realPtr =>
      let userPtr := add realPtr (alignUp 8 (max layout.align 8))
      (userPtr, putCanary (putCanary m realPtr) (add userPtr layout.size)))) := by
  rw [alloc, allocAt, realLayout]
  cases (checkedAdd (alignUp 8 (max layout.align 8)) layout.size).bind (checkedAdd · 8) with
  | none => rfl
  | some realSize =>
      dsimp only [Option.bind_some]
      cases Layout.fromSizeAlign realSize (max layout.align 8) with
      | none => rfl
      | some real =>
          dsimp only [Option.bind_some]
          cases inner real with
          | none => rfl
          | some realPtr => rfl

/-- The real layout has room for both canaries. -/
theorem realLayout_spec {layout real : Layout} (h : realLayout layout = some real) :
    real.size = max layout.align 8 + layout.size + 8 ∧ real.align = max layout.align 8 := by
  rw [realLayout, alignUp_front] at h
  obtain ⟨realSize, hsize, hreal⟩ := Option.bind_eq_some_iff.mp h
  obtain ⟨front, hfront, hsum⟩ := Option.bind_eq_some_iff.mp hsize
  unfold checkedAdd at hfront hsum
  unfold Layout.fromSizeAlign at hreal
  split at hfront
  · obtain rfl := Option.some.inj hfront
    split at hsum
    · obtain rfl := Option.some.inj hsum
      split at hreal
      · obtain rfl := Option.some.inj hreal
        exact ⟨rfl, rfl⟩
      · cases hreal
    · cases hsum
  · cases hfront

/-- The chunk that `alloc` gets. -/
theorem allocated_of_chunk {inner : Layout → Option Nat} {layout real : Layout} {p user : Nat}
    (hinner : Serves inner) (hreal : realLayout layout = some real) (hp : inner real = some p)
    (halloc : alloc inner m layout = some (user, m')) :
    Allocated inner m m' layout real p user := by
  obtain ⟨hdvd, hroom⟩ := hinner real p hp
  obtain ⟨hsize, halign⟩ := realLayout_spec hreal
  rw [alloc_eq, hreal, Option.bind_some, hp, Option.map_some, alignUp_front] at halloc
  dsimp only at halloc
  rw [add_eq (a := p) (by omega), add_eq (by omega)] at halloc
  obtain ⟨rfl, rfl⟩ := Prod.mk.inj (Option.some.inj halloc)
  exact ⟨hp, hsize, halign, hdvd, hroom, rfl, rfl⟩

/-- The front is a multiple of the alignment. -/
theorem align_dvd_max (layout : Layout) : layout.align ∣ max layout.align 8 := by
  rcases le_total 8 layout.align with hle | hle
  · rw [max_eq_left hle]
  · have hpow : (2 : Nat) ^ layout.align.log2 ≤ 2 ^ 3 := layout.pow_two ▸ hle
    rw [max_eq_right hle, layout.pow_two]
    exact Nat.pow_dvd_pow 2 ((Nat.pow_le_pow_iff_right (by decide)).mp hpow)

/-- A new block is in place. -/
theorem Allocated.placed {inner : Layout → Option Nat} {layout real : Layout} {p user : Nat}
    (h : Allocated inner m m' layout real p user) :
    Block.Placed m' ⟨user, layout, ⟨p, real⟩, fun _ => none⟩ := by
  obtain ⟨hheader, htrailer⟩ := h.canaries
  have hdvd : layout.align ∣ user := by
    rw [h.user_eq]
    exact ((align_dvd_max layout).trans (h.real_align ▸ h.aligned)).add (align_dvd_max layout)
  refine ⟨h.real_size, h.real_align, h.user_eq, h.real_align ▸ h.aligned, hdvd, h.room, hheader,
    htrailer, ?_, ?_⟩
  all_goals
    intro x byte hbyte
    cases hbyte

/-- `alloc` writes to the new chunk only. -/
theorem Allocated.outside {inner : Layout → Option Nat} {layout real : Layout} {p user : Nat}
    (h : Allocated inner m m' layout real p user) {x : Nat} (hx : x ∉ bytes p real.size) :
    m' x = m x := by
  have hsize := h.real_size
  have huser := h.user_eq
  rw [mem_bytes] at hx
  rw [h.mem_eq, putCanary, writeLE_outside _ _ (by omega), putCanary, writeLE_outside _ _ (by omega)]

/-- The owner of a block writes inside it: the canaries are outside of that. -/
theorem Block.Placed.write (h : b.Placed m) {a : Nat} {data : List UInt8} (hlo : b.user ≤ a)
    (hhi : a + data.length ≤ b.user + b.layout.size) :
    Block.Placed (copy m a data.length (fun i => data.getD i 0))
      { b with written := overwrite b.written a data } := by
  have huser := h.user_eq
  have hout : SameOutside a data.length m (copy m a data.length (fun i => data.getD i 0)) :=
    fun x hx => copy_outside _ _ hx
  have hin : ∀ i, i < data.length →
      data[i]? = some (copy m a data.length (fun i => data.getD i 0) (a + i)) := by
    intro i hi
    rw [copy_inside _ _ _ hi]
    simp [hi]
  refine { h with header := ?_, trailer := ?_, shows := h.shows.overwrite hout hin, inside := ?_ }
  · rw [← h.header]
    exact readLE_congr (fun x _ hx => hout x (by dsimp only at hx; omega))
  · rw [← h.trailer]
    exact readLE_congr (fun x hx _ => hout x (by dsimp only at hx; omega))
  · intro x byte hbyte
    by_cases hx : a ≤ x ∧ x < a + data.length
    · rw [Block.bytes, mem_bytes]
      dsimp only
      omega
    · dsimp only at hbyte
      rw [overwrite_outside (by omega)] at hbyte
      exact h.inside x byte hbyte

namespace Heap.Sound

/-- A block has its chunk from the inner allocator. -/
theorem mem_inner (h : s.Sound) (hb : b ∈ s.blocks) : b.chunk ∈ s.inner := by
  rw [h.inner_eq]
  exact List.mem_map_of_mem hb

/-- Two blocks have no byte in common. -/
theorem disjoint (h : s.Sound) {c : Block} (hb : b ∈ s.blocks) (hc : c ∈ s.blocks) (hne : b ≠ c) :
    Disjoint b.chunk.bytes c.chunk.bytes := by
  have : Std.Symm (fun a b : Block => Disjoint a.chunk.bytes b.chunk.bytes) := ⟨fun _ _ hd => hd.symm⟩
  exact h.apart.forall hb hc hne

/-- A block is known by the user's address. -/
theorem eq_of_user (h : s.Sound) {c : Block} (hb : b ∈ s.blocks) (hc : c ∈ s.blocks)
    (heq : b.user = c.user) : b = c := by
  by_contra hne
  exact (h.placed b hb).user_ne (h.placed c hc) (h.disjoint hb hc hne) heq

/-- It is known by the address of its chunk as well. -/
private theorem eq_of_start (h : s.Sound) {c : Block} (hb : b ∈ s.blocks) (hc : c ∈ s.blocks)
    (heq : b.chunk.start = c.chunk.start) : b = c := by
  by_contra hne
  exact (h.placed b hb).start_ne (h.placed c hc) (h.disjoint hb hc hne) heq

/-- The inner allocator works on its own data. -/
theorem untouched (h : s.Sound) (hm : Untouched s.inner s.mem m) : ({ s with mem := m }).Sound :=
  ⟨h.inner_eq, fun b hb => (h.placed b hb).congr (hm _ (h.mem_inner hb)), h.apart⟩

/-- **A block is allocated** from a chunk that nobody has. -/
theorem allocated (h : s.Sound) {inner : Layout → Option Nat} {layout real : Layout} {p user : Nat}
    (hall : Allocated inner s.mem m' layout real p user)
    (hfree : ∀ c ∈ s.inner, Disjoint (bytes p real.size) c.bytes) :
    Heap.Sound ⟨m', ⟨user, layout, ⟨p, real⟩, fun _ => none⟩ :: s.blocks,
      ⟨p, real⟩ :: s.inner⟩ := by
  refine ⟨?_, ?_, ?_⟩
  · rw [List.map_cons, ← h.inner_eq]
  · intro b hb
    rcases List.mem_cons.mp hb with rfl | hb
    · exact hall.placed
    · apply (h.placed b hb).congr
      intro x hx
      exact hall.outside (Set.disjoint_right.mp (hfree _ (h.mem_inner hb)) hx)
  · apply List.Pairwise.cons ?_ h.apart
    intro b hb
    exact hfree _ (h.mem_inner hb)

/-- A caller writes inside its block. -/
theorem write (h : s.Sound) (hb : b ∈ s.blocks) {a : Nat} {data : List UInt8} (hlo : b.user ≤ a)
    (hhi : a + data.length ≤ b.user + b.layout.size) :
    Heap.Sound { s with
      mem := copy s.mem a data.length (fun i => data.getD i 0)
      blocks := s.blocks.map (Block.write b.user a data) } := by
  have hchunk : ∀ c : Block, (c.write b.user a data).chunk = c.chunk := by
    intro c
    unfold Block.write
    split <;> rfl
  have hb' := h.placed b hb
  have hsize := hb'.real_size
  have huser := hb'.user_eq
  refine ⟨?_, ?_, ?_⟩
  · rw [h.inner_eq, List.map_map]
    exact List.map_congr_left (fun c _ => (hchunk c).symm)
  · intro c' hc'
    obtain ⟨c, hc, rfl⟩ := List.mem_map.mp hc'
    by_cases heq : c.user = b.user
    · obtain rfl := h.eq_of_user hc hb heq
      rw [Block.write, if_pos rfl]
      exact hb'.write hlo hhi
    · rw [Block.write, if_neg heq]
      apply (h.placed c hc).congr
      intro x hx
      have hne : c ≠ b := fun hcb => heq (congrArg Block.user hcb)
      have hout : x ∉ b.chunk.bytes := Set.disjoint_left.mp (h.disjoint hc hb hne) hx
      rw [Chunk.bytes, mem_bytes] at hout
      exact copy_outside s.mem (fun i => data.getD i 0) (show x < a ∨ a + data.length ≤ x by omega)
  · rw [List.pairwise_map]
    simp only [hchunk]
    exact h.apart

/-- A caller frees its block. -/
theorem dealloc (h : s.Sound) (hb : b ∈ s.blocks)
    (hm : Untouched (s.inner.filter (·.start ≠ b.chunk.start))
      (fill s.mem b.chunk.start b.chunk.layout.size 0) m) :
    Heap.Sound ⟨m, s.blocks.filter (·.user ≠ b.user),
      s.inner.filter (·.start ≠ b.chunk.start)⟩ := by
  have hagree : ∀ c ∈ s.blocks, (c.chunk.start ≠ b.chunk.start ↔ c.user ≠ b.user) := by
    intro c hc
    constructor
    · intro hne heq
      exact hne (congrArg (fun d => d.chunk.start) (h.eq_of_user hc hb heq))
    · intro hne heq
      exact hne (congrArg Block.user (h.eq_of_start hc hb heq))
  refine ⟨?_, ?_, h.apart.filter _⟩
  · dsimp only
    rw [h.inner_eq, List.filter_map]
    refine congrArg (List.map Block.chunk) (List.filter_congr ?_)
    intro c hc
    exact decide_eq_decide.mpr (hagree c hc)
  · intro c hc
    obtain ⟨hc, hne⟩ := List.mem_filter.mp hc
    have huser : c.user ≠ b.user := of_decide_eq_true hne
    apply (h.placed c hc).congr
    intro x hx
    have hinner : c.chunk ∈ s.inner.filter (·.start ≠ b.chunk.start) :=
      List.mem_filter.mpr ⟨h.mem_inner hc, decide_eq_true ((hagree c hc).mpr huser)⟩
    have hout : x ∉ b.chunk.bytes :=
      Set.disjoint_left.mp (h.disjoint hc hb (fun hcb => huser (congrArg Block.user hcb))) hx
    rw [Chunk.bytes, mem_bytes] at hout
    exact (hm _ hinner x hx).trans (fill_outside _ _ (by omega))

/-- **`alloc`**: a block more, or a refusal. -/
theorem alloc (h : s.Sound) {layout : Layout} {inner : Layout → Option Nat}
    (hok : Proper s (.alloc layout inner m)) : (s.alloc layout inner m).Sound := by
  obtain ⟨hm, hserves, hfree⟩ := hok
  have hs := h.untouched hm
  rw [Heap.alloc]
  cases hchunk : handedOut layout inner with
  | none => exact hs
  | some chunk =>
      cases halloc : HeapCanaries.alloc inner m layout with
      | none => exact hs
      | some r =>
          obtain ⟨user, m'⟩ := r
          obtain ⟨real, hreal, hgiven⟩ := Option.bind_eq_some_iff.mp hchunk
          obtain ⟨p, hp, rfl⟩ := Option.map_eq_some_iff.mp hgiven
          exact hs.allocated (allocated_of_chunk hserves hreal hp halloc) (hfree real p hp)

/-- **One step.** -/
theorem next {e : HeapStep} (h : s.Sound) (hok : Proper s e)
    (hnext : heapSystem.next s e = some t) : t.Sound := by
  cases e with
  | alloc layout inner m => exact Option.some.inj hnext ▸ h.alloc hok
  | write user a data =>
      obtain ⟨b, hb, rfl, hlo, hhi⟩ := hok
      exact Option.some.inj hnext ▸ h.write hb hlo hhi
  | dealloc user layout m =>
      obtain ⟨⟨b, hb, rfl, rfl⟩, hm⟩ := hok
      have hdealloc := (h.placed b hb).dealloc_eq
      have hstep : heapSystem.next s (.dealloc b.user b.layout m) = some ⟨m,
          s.blocks.filter (·.user ≠ b.user), s.inner.filter (·.start ≠ b.chunk.start)⟩ := by
        simp only [heapSystem, hdealloc]
      obtain rfl := Option.some.inj (hstep.symm.trans hnext)
      exact h.dealloc hb (hm _ _ _ _ hdealloc)

end Heap.Sound

/-- **Every run** of a program that writes into its own blocks keeps the heap sound. -/
theorem run_sound (h : heapSystem.Run Proper s) : s.Sound := by
  refine h.invariant (fun s hboot => ?_) (fun s e t hs hok hnext => hs.next hok hnext)
  obtain ⟨hblocks, hinner⟩ := hboot
  refine ⟨by rw [hblocks, hinner, List.map_nil], fun b hb => ?_, hblocks ▸ List.Pairwise.nil⟩
  rw [hblocks] at hb
  cases hb

/-- **The heap is kept.**  In every run of calls and writes within the contract,
the blocks of the callers are aligned and do not overlap, each holds what its
owner has written, the inner allocator has given out their chunks and no others,
and `dealloc` of a block does not panic: it returns its chunk, wiped, and leaves
all other memory alone. -/
theorem heap_kept (h : heapSystem.Run Proper s) :
    s.inner = s.blocks.map Block.chunk ∧
      s.blocks.Pairwise (fun a b => Disjoint a.bytes b.bytes) ∧
      ∀ b ∈ s.blocks, b.layout.align ∣ b.user ∧ Shows b.written s.mem ∧
        ∃ m, HeapCanaries.dealloc s.mem b.user b.layout =
            .inner m b.chunk.start b.chunk.layout.size b.chunk.layout.align ∧
          (∀ x ∈ b.chunk.bytes, m x = 0) ∧ ∀ x, x ∉ b.chunk.bytes → m x = s.mem x := by
  have hs := run_sound h
  refine ⟨hs.inner_eq, ?_, fun b hb => ?_⟩
  · apply hs.apart.imp_of_mem
    intro a b ha hb hd
    exact hd.mono (hs.placed a ha).bytes_subset (hs.placed b hb).bytes_subset
  · have hb' := hs.placed b hb
    refine ⟨hb'.aligned, hb'.shows, _, hb'.dealloc_eq, fun x hx => ?_, fun x hx => ?_⟩
    · exact fill_inside _ _ hx.1 hx.2
    · rw [Chunk.bytes, mem_bytes] at hx
      exact fill_outside _ _ (by omega)

end

/-- A block of 16 bytes, of which the owner writes the first two. -/
theorem sample_heap_kept : ∃ s, heapSystem.Run Proper s ∧ ∃ b ∈ s.blocks,
    b.user = 0x10010 ∧ b.written 0x10011 = some 8 ∧ s.mem 0x10011 = 8 ∧
      ¬ (dealloc s.mem b.user b.layout).Panics := by
  have hchunk : (handedOut layout16 oneBlock).map Chunk.start = some 0x10000 := by
    decide +kernel
  obtain ⟨chunk, hgiven, -⟩ := Option.map_eq_some_iff.mp hchunk
  obtain ⟨m', hm⟩ := alloc_layout16
  have hstep : heapSystem.next ⟨fun _ => 0, [], []⟩ (.alloc layout16 oneBlock (fun _ => 0)) =
      some ⟨m', [⟨0x10010, layout16, chunk, fun _ => none⟩], [chunk]⟩ := by
    simp only [heapSystem, Heap.alloc, hgiven, hm, Option.bind_some, Option.map_some,
      Option.getD_some]
  have hboot : heapSystem.Run Proper ⟨fun _ => 0, [], []⟩ :=
    TransitionSystem.Run.boot ⟨rfl, rfl⟩
  have hproper : Proper ⟨fun _ => 0, [], []⟩ (.alloc layout16 oneBlock (fun _ => 0)) := by
    refine ⟨fun c hc => ?_, oneBlock_serves, fun real p _ c hc => ?_⟩
    all_goals cases hc
  have hrun := TransitionSystem.Run.step hboot hproper hstep
  have hwrite : Proper ⟨m', [⟨0x10010, layout16, chunk, fun _ => none⟩], [chunk]⟩
      (.write 0x10010 0x10010 [7, 8]) :=
    ⟨_, List.mem_singleton_self _, rfl, Nat.le_refl _,
      Nat.add_le_add_left (show 2 ≤ 16 by decide) _⟩
  have hrun' := TransitionSystem.Run.step hrun hwrite rfl
  have hb := List.mem_singleton_self
    (Block.write 0x10010 0x10010 [7, 8] ⟨0x10010, layout16, chunk, fun _ => none⟩)
  obtain ⟨-, -, hkept⟩ := heap_kept hrun'
  obtain ⟨-, hshows, m, hdealloc, -⟩ := hkept _ hb
  exact ⟨_, hrun', _, hb, rfl, rfl, hshows _ _ rfl, by rw [hdealloc]; exact id⟩

end HeapCanaries
