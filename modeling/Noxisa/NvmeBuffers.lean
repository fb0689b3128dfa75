import Noxisa.FrameCount
import Noxisa.NvmeQueue
import Noxisa.PhysicalMemory

/-!
# The buffers of NVMe commands

The model of the calls of `drivers/nvme.rs` that issue one command each, and of
`hal/block.rs` and the block part of `hal/registry.rs` on top of them, once both
queue pairs exist: then `ensure_admin_queue` and `ensure_io_queue` return at once.
How a command ends, and what the controller does to memory meanwhile, is up to
the controller; `device` says it of all commands to come.

Each command gets a page of its own to transfer data through, and nobody gives
that page back.  So a call leaves the allocator as it was only if it does not get
as far as asking for a page, or if there is none (`calls_leave_frames_iff`).
-/

namespace Nvme

open ByteMemory FrameAllocator MachineWord PhysicalMemory RangePool

/-- What comes of one command: the result of waiting for it, and the memory
afterwards. -/
abbrev Controller := Sqe → Mem → Except NvmeInitError Nat × Mem

/-- The driver with the memory it draws on, and how the controller behaves for each of
the commands to come. -/
structure Driver where
  mem : Memory
  admin : QueueState
  io : QueueState
  /-- the I/O commands submitted so far, which the code does not keep -/
  sent : List Sqe
  /-- a block device is registered -/
  registered : Bool
  device : Nat → Controller

/-- The indices after a command; a command that times out consumes no completion. -/
def QueueState.advance (q : QueueState) (result : Except NvmeInitError Nat) : QueueState :=
  let q := { q with
    nextCid := (q.nextCid + 1) % 2 ^ 16
    sqTail := (q.sqTail + 1) % q.depth }
  match result with
  | .error .commandTimeout => q
  | _ =>
      let cqHead := (q.cqHead + 1) % q.depth
      { q with cqHead := cqHead, phase := if cqHead = 0 then !q.phase else q.phase }

/-- The result of a call, as the outcome of a command. -/
def outcome {α : Type} : Except NvmeInitError α → Outcome NvmeInitError α
  | .ok a => .ok a
  | .error e => .err e

/-- The controller and the memory after the next command. -/
def Driver.issue (d : Driver) (cmd : Sqe) : Driver :=
  { d with
    mem := { d.mem with ram := (d.device 0 cmd d.mem.ram).2 }
    device := fun n => d.device (n + 1) }

/-- `submit_admin_and_wait`: the command and its completion in one step. -/
def submitAdminAndWait (cmd : Sqe) : Command Driver NvmeInitError Nat := fun d =>
  let result := (d.device 0 cmd d.mem.ram).1
  (outcome result, { d.issue cmd with admin := d.admin.advance result })

/-- `submit_io_and_wait` -/
def submitIoAndWait (cmd : Sqe) : Command Driver NvmeInitError Nat := fun d =>
  let result := (d.device 0 cmd d.mem.ram).1
  (outcome result, { d.issue cmd with io := d.io.advance result, sent := d.sent ++ [cmd] })

/-- `build_identify_cmd` -/
def buildIdentifyCmd (cid nsid cns prp1 : Nat) : Sqe :=
  { opcode := 0x06, cid := cid, nsid := nsid, prp1 := prp1, cdw10 := cns, cdw11 := 0, cdw12 := 0 }

/-- `build_rw_cmd`: the block address is split over two words of the command. -/
def buildRwCmd (opcode cid nsid lba nlb0based prp1 : Nat) : Sqe :=
  { opcode := opcode, cid := cid, nsid := nsid, prp1 := prp1
    cdw10 := lba % 2 ^ 32, cdw11 := lba / 2 ^ 32 % 2 ^ 32, cdw12 := nlb0based }

/-- `alloc_contiguous_frames(1).ok_or(AllocFailed)?`, and zero the page. -/
def dmaBuffer : Command Driver NvmeInitError Nat := fun d =>
  match d.mem.allocContiguousFrames 1 with
  | (some a, m) => (.ok a, { d with mem := m.zeroFrame a })
  | (none, m) => (.err .allocFailed, { d with mem := m })

/-- `IdentifyControllerInfo` -/
structure IdentifyControllerInfo where
  vid : Nat
  serial : String
  model : String
  firmware : String
  numNamespaces : Nat

/-- `IdentifyNamespaceInfo`. The block size is `None` where the exponent in the active
format is not one that the driver takes. -/
structure IdentifyNamespaceInfo where
  nszeBlocks : Nat
  ncapBlocks : Nat
  nuseBlocks : Nat
  activeLbaFormatIdx : Nat
  blockSize : Option Nat

/-- A byte of a text field: ASCII from the space to the tilde, or a question mark. -/
def asciiChar (b : UInt8) : Char :=
  if 0x20 ≤ b.toNat ∧ b.toNat ≤ 0x7E then Char.ofNat b.toNat else '?'

/-- `ascii_field_to_string`; the only white space that can be there is spaces. -/
def asciiFieldToString (ram : Mem) (a n : Nat) : String :=
  let text := (List.range n).map (fun i => asciiChar (ram (a + i)))
  String.ofList ((text.dropWhile (· = ' ')).reverse.dropWhile (· = ' ')).reverse

/-- `parse_controller`, at its offsets in the page. -/
def parseController (ram : Mem) (buf : Nat) : IdentifyControllerInfo where
  vid := readLE ram buf 2
  serial := asciiFieldToString ram (buf + 4) 20
  model := asciiFieldToString ram (buf + 24) 40
  firmware := asciiFieldToString ram (buf + 64) 8
  numNamespaces := readLE ram (buf + 516) 4

/-- `parse_namespace` -/
def parseNamespace (ram : Mem) (buf : Nat) : IdentifyNamespaceInfo :=
  let activeIdx := (ram (buf + 26)).toNat &&& 0xF
  let lbafRaw := readLE ram (buf + (128 + activeIdx * 4)) 4
  let lbads := (lbafRaw >>> 16) &&& 0xFF
  { nszeBlocks := readLE ram buf 8
    ncapBlocks := readLE ram (buf + 8) 8
    nuseBlocks := readLE ram (buf + 16) 8
    activeLbaFormatIdx := activeIdx
    blockSize := if 9 ≤ lbads ∧ lbads ≤ 31 then some (1 <<< lbads) else none }

/-- `identify_controller`: the page for the answer is drawn and not given back. -/
def identifyController : Command Driver NvmeInitError IdentifyControllerInfo := do
  let buf ← dmaBuffer
  let cid ← Command.gets (fun d => d.admin.nextCid)
  let _ ← submitAdminAndWait (buildIdentifyCmd cid 0 0x01 buf)
  Command.gets (fun d => parseController d.mem.ram buf)

/-- `identify_namespace` -/
def identifyNamespace (nsid : Nat) : Command Driver NvmeInitError IdentifyNamespaceInfo := do
  let buf ← dmaBuffer
  let cid ← Command.gets (fun d => d.admin.nextCid)
  let _ ← submitAdminAndWait (buildIdentifyCmd cid nsid 0x00 buf)
  Command.gets (fun d => parseNamespace d.mem.ram buf)

/-- A transfer must be whole blocks that fit one page. -/
def InvalidTransfer (blockSize len : Nat) : Prop :=
  len = 0 ∨ blockSize = 0 ∨ len % blockSize ≠ 0 ∨ len > 0x1000

instance (blockSize len : Nat) : Decidable (InvalidTransfer blockSize len) :=
  inferInstanceAs (Decidable (_ ∨ _))

/-- `io_write_blocks`: the data is copied to a page that is drawn for it. -/
def ioWriteBlocks (nsid lba blockSize : Nat) (data : List UInt8) :
    Command Driver NvmeInitError Unit :=
  if InvalidTransfer blockSize data.length then Command.fail .invalidTransferSize
  else do
    let buf ← dmaBuffer
    Command.modify (fun d =>
      { d with mem := d.mem.copyTo buf data.length (fun i => data.getD i 0) })
    let cid ← Command.gets (fun d => d.io.nextCid)
    let _ ← submitIoAndWait
      (buildRwCmd 0x01 cid nsid lba ((data.length / blockSize - 1) % 2 ^ 16) buf)
    return ()

/-- `io_read_blocks` into a slice of `len` bytes. -/
def ioReadBlocks (nsid lba blockSize len : Nat) : Command Driver NvmeInitError (List UInt8) :=
  if InvalidTransfer blockSize len then Command.fail .invalidTransferSize
  else do
    let buf ← dmaBuffer
    let cid ← Command.gets (fun d => d.io.nextCid)
    let _ ← submitIoAndWait (buildRwCmd 0x02 cid nsid lba ((len / blockSize - 1) % 2 ^ 16) buf)
    Command.gets (fun d => (List.range len).map (fun i => d.mem.ram (buf + i)))

/-- `BlockError` -/
inductive BlockError
  | timeout
  | invalidLba
  | controllerError
  | notReady
deriving DecidableEq

/-- `map_nvme_error` -/
def mapNvmeError : NvmeInitError → BlockError
  | .commandTimeout => .timeout
  | .noController => .notReady
  | .barNotMmio => .notReady
  | _ => .controllerError

/-- The namespace that the block device is. -/
def nsid : Nat := 1

namespace BlockDevice

/-- `match c { Ok(a) => f(a), Err(_) => 0 }` -/
def orZero {α : Type} (c : Command Driver NvmeInitError α) (f : α → Nat) :
    Command Driver BlockError Nat := fun d =>
  match c d with
  | (.ok a, d') => (.ok (f a), d')
  | (.err _, d') => (.ok 0, d')
  | (.panic m, d') => (.panic m, d')

/-- `NvmeBlockDevice::block_size`, which asks the controller each time; 0 if that fails
or no format is active. -/
def blockSize : Command Driver BlockError Nat :=
  orZero (identifyNamespace nsid) (fun ns => ns.blockSize.getD 0 % 2 ^ 32)

/-- `NvmeBlockDevice::block_count` -/
def blockCount : Command Driver BlockError Nat :=
  orZero (identifyNamespace nsid) (fun ns => ns.nszeBlocks)

/-- What `read_block` and `write_block` do first: identify the namespace, check
the address, and take the block size from it. -/
def transfer {α : Type} (lba : Nat) (io : Nat → Command Driver NvmeInitError α) :
    Command Driver BlockError α := do
  let ns ← Command.mapErr mapNvmeError (identifyNamespace nsid)
  if lba ≥ ns.nszeBlocks then Command.fail .invalidLba
  else
    match ns.blockSize with
    | none => Command.fail .controllerError
    | some blockSize => Command.mapErr mapNvmeError (io blockSize)

/-- `NvmeBlockDevice::read_block` -/
def readBlock (lba len : Nat) : Command Driver BlockError (List UInt8) :=
  transfer lba (fun blockSize => ioReadBlocks nsid lba blockSize len)

/-- `NvmeBlockDevice::write_block` -/
def writeBlock (lba : Nat) (data : List UInt8) : Command Driver BlockError Unit :=
  transfer lba (fun blockSize => ioWriteBlocks nsid lba blockSize data)

end BlockDevice

/-- The functions of the registry: `none` is the empty slot. -/
def onBlock {α : Type} (missing : Outcome BlockError α) (c : Command Driver BlockError α) :
    Command Driver BlockError α := fun d => if d.registered then c d else (missing, d)

/-- `registry::block_size`: 0 without a device. -/
def blockSize : Command Driver BlockError Nat := onBlock (.ok 0) BlockDevice.blockSize

/-- `registry::block_count` -/
def blockCount : Command Driver BlockError Nat := onBlock (.ok 0) BlockDevice.blockCount

/-- `registry::block_read` -/
def blockRead (lba len : Nat) : Command Driver BlockError (List UInt8) :=
  onBlock (.err .notReady) (BlockDevice.readBlock lba len)

/-- `registry::block_write` -/
def blockWrite (lba : Nat) (data : List UInt8) : Command Driver BlockError Unit :=
  onBlock (.err .notReady) (BlockDevice.writeBlock lba data)

/-- A call to the driver or, through the registry, to the block device. -/
inductive Request
  | identifyController
  | identifyNamespace (nsid : Nat)
  | ioReadBlocks (nsid lba blockSize len : Nat)
  | ioWriteBlocks (nsid lba blockSize : Nat) (data : List UInt8)
  | blockSize
  | blockCount
  | blockRead (lba len : Nat)
  | blockWrite (lba : Nat) (data : List UInt8)
deriving DecidableEq

/-- The driver after a call, however it has ended. -/
def Request.exec (d : Driver) : Request → Driver
  | .identifyController => (Nvme.identifyController d).2
  | .identifyNamespace nsid => (Nvme.identifyNamespace nsid d).2
  | .ioReadBlocks nsid lba size len => (Nvme.ioReadBlocks nsid lba size len d).2
  | .ioWriteBlocks nsid lba size data => (Nvme.ioWriteBlocks nsid lba size data d).2
  | .blockSize => (Nvme.blockSize d).2
  | .blockCount => (Nvme.blockCount d).2
  | .blockRead lba len => (Nvme.blockRead lba len d).2
  | .blockWrite lba data => (Nvme.blockWrite lba data d).2

/-- A sequence of calls. -/
def execAll (d : Driver) (rs : List Request) : Driver := rs.foldl Request.exec d

/-- The frames that the allocator can still hand out, one at a time. -/
def availableFrames (p : Pmm) : Set Nat :=
  {f | f ∈ p.freeList} ∪ unitsIn pageSize (unbumped p)

/-- **The call has consumed no memory**: the same frames are available, and the
free count is the same. -/
def Leaves (d d' : Driver) : Prop :=
  availableFrames d'.mem.pmm = availableFrames d.mem.pmm ∧
    freeFrames d'.mem.pmm = freeFrames d.mem.pmm

/-- The call does not ask for a page. -/
def Request.Refused (d : Driver) : Request → Prop
  | .identifyController => False
  | .identifyNamespace _ => False
  | .ioReadBlocks _ _ size len => InvalidTransfer size len
  | .ioWriteBlocks _ _ size data => InvalidTransfer size data.length
  | .blockSize => d.registered = false
  | .blockCount => d.registered = false
  | .blockRead _ _ => d.registered = false
  | .blockWrite _ _ => d.registered = false

/-- The allocator after a request for one page. -/
def drawn (p : Pmm) : Pmm := (FrameAllocator.allocContiguousFrames p 1).2

/-- `p'` comes from `p` by requests for one page each. -/
def Drawn (p p' : Pmm) : Prop := Relation.ReflTransGen (fun q q' => q' = drawn q) p p'

section

variable {limit : Nat} {p p' : Pmm} {held : List Nat}

/-- A page for a transfer is one unit cut off what is not bumped; the free list is not
looked at. -/
theorem drawn_carve (hl : limit + pageSize < modulus) (hb : Bounded limit p) :
    ((FrameAllocator.allocContiguousFrames p 1).1, unbumped (drawn p)) =
        carve pageSize (unbumped p) ∧ (drawn p).freeList = p.freeList := by
  have hcarve := allocContiguousFrames_carve (n := 1) (by rwa [Nat.one_mul]) hb
  rw [Nat.one_mul] at hcarve
  exact ⟨hcarve.1, hcarve.2.1⟩

/-- The allocator stays sound, the page now being somebody's. -/
theorem drawn_sound (hl : limit + pageSize < modulus) (h : Sound limit p held) :
    ∃ held', Sound limit (drawn p) held' := by
  have hone : limit + 1 * pageSize < modulus := by rwa [Nat.one_mul]
  cases ha : FrameAllocator.allocContiguousFrames p 1 with
  | mk o q =>
      rw [drawn, ha]
      cases o with
      | none => exact ⟨held, h.allocContiguousFrames_none hone ha⟩
      | some a => exact ⟨_, h.allocContiguousFrames hone ha⟩

/-- No frame becomes free. -/
private theorem drawn_subset (hl : limit + pageSize < modulus) (hb : Bounded limit p) :
    availableFrames (drawn p) ⊆ availableFrames p := by
  obtain ⟨hcarve, hfree⟩ := drawn_carve hl hb
  have hspace : unbumped (drawn p) = (carve pageSize (unbumped p)).2 := congrArg Prod.snd hcarve
  rw [availableFrames, availableFrames, hfree, hspace]
  exact Set.union_subset_union_right _ (unitsIn_carve_subset _ _)

/-- Any number of requests only ever takes frames away. -/
theorem Drawn.shrinks (hl : limit + pageSize < modulus) (h : Sound limit p held)
    (hd : Drawn p p') :
    (∃ held', Sound limit p' held') ∧ availableFrames p' ⊆ availableFrames p := by
  induction hd with
  | refl => exact ⟨⟨held, h⟩, subset_rfl⟩
  | tail _ heq ih =>
      obtain ⟨⟨held', hsound⟩, hsub⟩ := ih
      rw [heq]
      exact ⟨drawn_sound hl hsound, (drawn_subset hl hsound.bounded).trans hsub⟩

/-- The page that a request gets is gone. -/
theorem drawn_loses (hl : limit + pageSize < modulus) (h : Sound limit p held) {a : Nat}
    (ha : (FrameAllocator.allocContiguousFrames p 1).1 = some a) :
    a ∈ availableFrames p ∧ a ∉ availableFrames (drawn p) := by
  obtain ⟨hcarve, hfree⟩ := drawn_carve hl h.bounded
  have hspace : unbumped (drawn p) = (carve pageSize (unbumped p)).2 := congrArg Prod.snd hcarve
  have hfirst : (carve pageSize (unbumped p)).1 = some a :=
    (congrArg Prod.fst hcarve).symm.trans ha
  obtain ⟨hin, hout⟩ := carve_unit_moves (by decide) h.separated.ascending hfirst
  refine ⟨Or.inr hin, ?_⟩
  rintro (hlist | hunit)
  · rw [hfree] at hlist
    -- a free frame shares no byte with what can be bumped
    obtain ⟨r, hr, i, hi, hend⟩ := hin
    have hspace' : a ∈ space (unbumped p) := by
      refine ⟨r, hr, by omega, ?_⟩
      simp only [pageSize] at hend
      omega
    have hapart := h.separated.outside a (List.mem_append_right held hlist)
    have hself : a ∈ Set.Ico a (a + pageSize) := ⟨Nat.le_refl a, by simp only [pageSize]; omega⟩
    exact Set.disjoint_left.mp hapart hself hspace'
  · rw [hspace] at hunit
    exact hout hunit

/-- A request that gets no page changes nothing that can be seen. -/
theorem drawn_none (hl : limit + pageSize < modulus) (hb : Bounded limit p)
    (ha : (FrameAllocator.allocContiguousFrames p 1).1 = none) :
    availableFrames (drawn p) = availableFrames p ∧ freeFrames (drawn p) = freeFrames p := by
  obtain ⟨hcarve, hfree⟩ := drawn_carve hl hb
  have hspace : unbumped (drawn p) = (carve pageSize (unbumped p)).2 := congrArg Prod.snd hcarve
  have hnone : (carve pageSize (unbumped p)).1 = none := (congrArg Prod.fst hcarve).symm.trans ha
  constructor
  · rw [availableFrames, availableFrames, hfree, hspace, unitsIn_eq_empty hnone, carve_none hnone]
    simp [unitsIn]
  · have hcount := (allocContiguousFrames_count (n := 1) (by rwa [Nat.one_mul]) hb).1
    rw [ha] at hcount
    exact hcount

/-- There is a page exactly if one unit is left unbumped. -/
private theorem drawn_isSome_iff (hl : limit + pageSize < modulus) (hb : Bounded limit p) :
    (FrameAllocator.allocContiguousFrames p 1).1.isSome ↔ 0 < capacity pageSize (unbumped p) := by
  have hunit := carve_unit_isSome_iff (u := pageSize) (by decide) (unbumped p)
  rw [← (drawn_carve hl hb).1] at hunit
  exact hunit

end

/-- `c` first asks for a page, and ends with an error if there is none. -/
structure Draws {ε α : Type} (c : Command Driver ε α) : Prop where
  none : ∀ d, (FrameAllocator.allocContiguousFrames d.mem.pmm 1).1 = .none →
    (∃ e, (c d).1 = .err e) ∧ (c d).2.mem.pmm = drawn d.mem.pmm
  some : ∀ d, (FrameAllocator.allocContiguousFrames d.mem.pmm 1).1.isSome →
    Drawn (drawn d.mem.pmm) (c d).2.mem.pmm

/-- All that `c` does to the allocator is to ask for pages. -/
def Steady {ε α : Type} (c : Command Driver ε α) : Prop :=
  ∀ p, Command.Keeps (fun d : Driver => Drawn p d.mem.pmm) c

section

variable {ε ε' α β : Type} {x : Command Driver ε α} {f : α → Command Driver ε β}

/-- What draws a page and keeps it lets no frame come back. -/
theorem Draws.steady (h : Draws x) : Steady x := by
  intro p d hd
  have hnext : Drawn p (drawn d.mem.pmm) := Relation.ReflTransGen.tail hd rfl
  cases ha : (FrameAllocator.allocContiguousFrames d.mem.pmm 1).1 with
  | none =>
      rw [(h.none d ha).2]
      exact hnext
  | some a => exact hnext.trans (h.some d (Option.isSome_of_eq_some ha))

/-- What runs behind the first page may ask for more. -/
theorem Draws.bind (hx : Draws x) (hf : ∀ a, Steady (f a)) : Draws (x >>= f) := by
  refine ⟨fun d hd => ?_, fun d hd => ?_⟩
  · obtain ⟨⟨e, he⟩, hpmm⟩ := hx.none d hd
    rw [Command.bind_apply, Command.eq_of_fst he]
    exact ⟨⟨e, rfl⟩, hpmm⟩
  · have hfirst := hx.some d hd
    rw [Command.bind_apply]
    cases hrun : x d with
    | mk o t =>
        rw [hrun] at hfirst
        cases o with
        | ok a => exact hf a _ t hfirst
        | err e => exact hfirst
        | panic m => exact hfirst

/-- Mapping an error changes nothing about the frames. -/
theorem Draws.mapErr (hx : Draws x) (g : ε → ε') : Draws (Command.mapErr g x) := by
  refine ⟨fun d hd => ?_, fun d hd => ?_⟩
  · obtain ⟨⟨e, he⟩, hpmm⟩ := hx.none d hd
    rw [Command.mapErr_snd]
    refine ⟨⟨g e, ?_⟩, hpmm⟩
    rw [Command.mapErr, Command.eq_of_fst he]
  · rw [Command.mapErr_snd]
    exact hx.some d hd

/-- **A call that draws consumes memory** as long as there is a page to bump. -/
theorem Draws.leaves_iff {limit : Nat} {held : List Nat} (hl : limit + pageSize < modulus)
    (hx : Draws x) {d : Driver} (hs : Sound limit d.mem.pmm held) :
    Leaves d (x d).2 ↔ capacity pageSize (unbumped d.mem.pmm) = 0 := by
  have hroom := drawn_isSome_iff hl hs.bounded
  cases ha : (FrameAllocator.allocContiguousFrames d.mem.pmm 1).1 with
  | none =>
      rw [ha] at hroom
      rw [Leaves, (hx.none d ha).2]
      simp only [Option.isSome_none, Bool.false_eq_true, false_iff, not_lt, Nat.le_zero] at hroom
      exact iff_of_true (drawn_none hl hs.bounded ha) hroom
  | some a =>
      have hpos := hroom.mp (Option.isSome_of_eq_some ha)
      obtain ⟨hin, hout⟩ := drawn_loses hl hs ha
      obtain ⟨held', hsound⟩ := drawn_sound hl hs
      have hsub := ((hx.some d (Option.isSome_of_eq_some ha)).shrinks hl hsound).2
      apply iff_of_false
      · intro hleaves
        exact hout (hsub (hleaves.1.symm ▸ hin))
      · exact Nat.ne_of_gt hpos

end

/-- `dma_buffer` draws one page. -/
theorem dmaBuffer_draws : Draws dmaBuffer := by
  refine ⟨fun d hd => ?_, fun d hd => ?_⟩
  · unfold dmaBuffer Memory.allocContiguousFrames drawn
    cases ha : FrameAllocator.allocContiguousFrames d.mem.pmm 1 with
    | mk o p =>
        rw [ha] at hd
        obtain rfl : o = none := hd
        exact ⟨⟨.allocFailed, rfl⟩, rfl⟩
  · unfold dmaBuffer Memory.allocContiguousFrames drawn
    cases ha : FrameAllocator.allocContiguousFrames d.mem.pmm 1 with
    | mk o p =>
        cases o with
        | none =>
            rw [ha] at hd
            cases hd
        | some a => exact Relation.ReflTransGen.refl

/-- Handing a command over takes no frame. -/
theorem submitAdminAndWait_steady (cmd : Sqe) : Steady (submitAdminAndWait cmd) :=
  fun _ _ hd => hd

/-- Nor does handing over an I/O command. -/
theorem submitIoAndWait_steady (cmd : Sqe) : Steady (submitIoAndWait cmd) :=
  fun _ _ hd => hd

/-- Identifying the controller draws one page. -/
theorem identifyController_draws : Draws identifyController := by
  apply dmaBuffer_draws.bind
  intro buf p
  apply (Command.Keeps.gets _).bind
  intro cid
  exact (submitAdminAndWait_steady _ p).bind (fun _ => Command.Keeps.gets _)

/-- Identifying a namespace draws one page. -/
theorem identifyNamespace_draws (nsid : Nat) : Draws (identifyNamespace nsid) := by
  apply dmaBuffer_draws.bind
  intro buf p
  apply (Command.Keeps.gets _).bind
  intro cid
  exact (submitAdminAndWait_steady _ p).bind (fun _ => Command.Keeps.gets _)

/-- A read that passes the check of its size draws one page. -/
theorem ioReadBlocks_draws {nsid lba size len : Nat} (h : ¬InvalidTransfer size len) :
    Draws (ioReadBlocks nsid lba size len) := by
  rw [ioReadBlocks, if_neg h]
  apply dmaBuffer_draws.bind
  intro buf p
  apply (Command.Keeps.gets _).bind
  intro cid
  exact (submitIoAndWait_steady _ p).bind (fun _ => Command.Keeps.gets _)

/-- So does a write. -/
theorem ioWriteBlocks_draws {nsid lba size : Nat} {data : List UInt8}
    (h : ¬InvalidTransfer size data.length) : Draws (ioWriteBlocks nsid lba size data) := by
  rw [ioWriteBlocks, if_neg h]
  apply dmaBuffer_draws.bind
  intro buf p
  have hcopy : Command.Keeps (fun d : Driver => Drawn p d.mem.pmm) (ε := NvmeInitError)
      (Command.modify (fun d : Driver =>
        { d with mem := d.mem.copyTo buf data.length (fun i => data.getD i 0) })) :=
    Command.Keeps.modify (fun _ hd => hd)
  apply hcopy.bind
  intro _
  apply (Command.Keeps.gets _).bind
  intro cid
  exact (submitIoAndWait_steady _ p).bind (fun _ => Command.Keeps.pure _)

/-- No read lets a frame come back, refused or not. -/
theorem ioReadBlocks_steady (nsid lba size len : Nat) : Steady (ioReadBlocks nsid lba size len) := by
  by_cases h : InvalidTransfer size len
  · intro p
    rw [ioReadBlocks, if_pos h]
    exact Command.Keeps.fail _
  · exact (ioReadBlocks_draws h).steady

/-- No write does. -/
theorem ioWriteBlocks_steady (nsid lba size : Nat) (data : List UInt8) :
    Steady (ioWriteBlocks nsid lba size data) := by
  by_cases h : InvalidTransfer size data.length
  · intro p
    rw [ioWriteBlocks, if_pos h]
    exact Command.Keeps.fail _
  · exact (ioWriteBlocks_draws h).steady

/-- The block device identifies the namespace first, whatever comes then. -/
theorem transfer_draws {α : Type} (lba : Nat) {io : Nat → Command Driver NvmeInitError α}
    (hio : ∀ size, Steady (io size)) : Draws (BlockDevice.transfer lba io) := by
  apply ((identifyNamespace_draws nsid).mapErr mapNvmeError).bind
  intro ns p
  by_cases hlba : lba ≥ ns.nszeBlocks
  · rw [if_pos hlba]
    exact Command.Keeps.fail _
  · rw [if_neg hlba]
    cases ns.blockSize with
    | none => exact Command.Keeps.fail _
    | some size => exact (hio size p).mapErr mapNvmeError

/-- Throwing the answer away does not change what the call has done. -/
theorem orZero_snd {α : Type} (c : Command Driver NvmeInitError α) (f : α → Nat) (d : Driver) :
    (BlockDevice.orZero c f d).2 = (c d).2 := by
  unfold BlockDevice.orZero
  split <;> simp [*]

/-- Through the registry frames are left alone also where no device is registered. -/
theorem onBlock_leaves_iff {α : Type} {missing : Outcome BlockError α}
    {c : Command Driver BlockError α} {d : Driver}
    (hc : Leaves d (c d).2 ↔ capacity pageSize (unbumped d.mem.pmm) = 0) :
    Leaves d (onBlock missing c d).2 ↔
      d.registered = false ∨ capacity pageSize (unbumped d.mem.pmm) = 0 := by
  unfold onBlock
  cases hreg : d.registered with
  | true => simpa using hc
  | false => simp [Leaves]

/-- A call through the registry lets no frame come back if the device's does not. -/
theorem onBlock_steady {α : Type} {missing : Outcome BlockError α}
    {c : Command Driver BlockError α} (hc : Steady c) : Steady (onBlock missing c) := by
  intro p d hd
  unfold onBlock
  split
  · exact hc p d hd
  · exact hd

/-- Taking 0 for an error does not either. -/
theorem orZero_steady {α : Type} {c : Command Driver NvmeInitError α} (hc : Steady c)
    (f : α → Nat) : Steady (BlockDevice.orZero c f) := by
  intro p d hd
  rw [orZero_snd]
  exact hc p d hd

/-- Every call only asks for pages. -/
theorem exec_drawn (d : Driver) (r : Request) : Drawn d.mem.pmm (r.exec d).mem.pmm := by
  have hstart : Drawn d.mem.pmm d.mem.pmm := Relation.ReflTransGen.refl
  cases r with
  | identifyController => exact identifyController_draws.steady _ d hstart
  | identifyNamespace nsid => exact (identifyNamespace_draws nsid).steady _ d hstart
  | ioReadBlocks nsid lba size len => exact ioReadBlocks_steady nsid lba size len _ d hstart
  | ioWriteBlocks nsid lba size data => exact ioWriteBlocks_steady nsid lba size data _ d hstart
  | blockSize =>
      exact onBlock_steady (orZero_steady (identifyNamespace_draws nsid).steady _) _ d hstart
  | blockCount =>
      exact onBlock_steady (orZero_steady (identifyNamespace_draws nsid).steady _) _ d hstart
  | blockRead lba len =>
      have hio := transfer_draws lba (fun size => ioReadBlocks_steady nsid lba size len)
      exact onBlock_steady hio.steady _ d hstart
  | blockWrite lba data =>
      have hio := transfer_draws lba (fun size => ioWriteBlocks_steady nsid lba size data)
      exact onBlock_steady hio.steady _ d hstart

/-- **One call**: it consumes memory unless it is refused or nothing can be bumped. -/
theorem exec_leaves_iff {limit : Nat} {held : List Nat} (hl : limit + pageSize < modulus)
    {d : Driver} (hs : Sound limit d.mem.pmm held) (r : Request) :
    Leaves d (r.exec d) ↔ r.Refused d ∨ capacity pageSize (unbumped d.mem.pmm) = 0 := by
  cases r with
  | identifyController =>
      rw [Request.Refused, false_or]
      exact identifyController_draws.leaves_iff hl hs
  | identifyNamespace nsid =>
      rw [Request.Refused, false_or]
      exact (identifyNamespace_draws nsid).leaves_iff hl hs
  | ioReadBlocks nsid lba size len =>
      by_cases h : InvalidTransfer size len
      · rw [Request.exec, ioReadBlocks, if_pos h]
        exact iff_of_true ⟨rfl, rfl⟩ (Or.inl h)
      · rw [Request.Refused, or_iff_right h]
        exact (ioReadBlocks_draws h).leaves_iff hl hs
  | ioWriteBlocks nsid lba size data =>
      by_cases h : InvalidTransfer size data.length
      · rw [Request.exec, ioWriteBlocks, if_pos h]
        exact iff_of_true ⟨rfl, rfl⟩ (Or.inl h)
      · rw [Request.Refused, or_iff_right h]
        exact (ioWriteBlocks_draws h).leaves_iff hl hs
  | blockSize =>
      apply onBlock_leaves_iff
      rw [BlockDevice.blockSize, orZero_snd]
      exact (identifyNamespace_draws nsid).leaves_iff hl hs
  | blockCount =>
      apply onBlock_leaves_iff
      rw [BlockDevice.blockCount, orZero_snd]
      exact (identifyNamespace_draws nsid).leaves_iff hl hs
  | blockRead lba len =>
      apply onBlock_leaves_iff
      exact (transfer_draws lba (fun size =>
        ioReadBlocks_steady nsid lba size len)).leaves_iff hl hs
  | blockWrite lba data =>
      apply onBlock_leaves_iff
      exact (transfer_draws lba (fun size =>
        ioWriteBlocks_steady nsid lba size data)).leaves_iff hl hs

/-- Any calls only ask for pages. -/
theorem execAll_drawn (d : Driver) (rs : List Request) : Drawn d.mem.pmm (execAll d rs).mem.pmm := by
  induction rs generalizing d with
  | nil => exact Relation.ReflTransGen.refl
  | cons r rs ih => exact (exec_drawn d r).trans (ih (r.exec d))

/-- **When a call leaves the frames alone.**  From any allocator state that can
be reached, after any calls and whatever the controller does: the next call
leaves the available frames and the free count as they were exactly when it is
refused before it asks for its page, or when no whole page is left to bump. -/
theorem calls_leave_frames_iff {map : MemoryMap (2 ^ 52)} {w : World}
    (hw : (frameSystem map).Reach w) {d : Driver} (hd : d.mem.pmm = w.pmm)
    (before : List Request) (r : Request) :
    Leaves (execAll d before) (r.exec (execAll d before)) ↔
      r.Refused (execAll d before) ∨
        capacity pageSize (unbumped (execAll d before).mem.pmm) = 0 := by
  have hl : 2 ^ 52 + pageSize < modulus := by decide
  have hstart := hd ▸ reach_sound (by decide) (by decide) map hw
  obtain ⟨held, hsound⟩ := ((execAll_drawn d before).shrinks hl hstart).1
  exact exec_leaves_iff hl hsound r

/-- A controller that completes every command and leaves zeros. -/
def quietController : Controller := fun _ ram => (.ok 0, ram)

/-- A driver on a sample machine, with a controller that answers every command with
success. -/
def bootDriver {limit : Nat} (map : MemoryMap limit) : Driver where
  mem := ⟨bootPmm map, fun _ => 0, Trace.empty⟩
  admin := .new 64
  io := .new 16
  sent := []
  registered := true
  device := fun _ => quietController

/-- A transfer of 100 bytes, which is refused as no whole block: it leaves the frames of
a driver that has asked for the block count alone. -/
theorem sample_calls_leave_frames :
    Leaves (execAll (bootDriver sampleMap) [.blockCount])
        ((Request.ioReadBlocks 1 0 512 100).exec (execAll (bootDriver sampleMap) [.blockCount])) ↔
      (Request.ioReadBlocks 1 0 512 100).Refused (execAll (bootDriver sampleMap) [.blockCount]) ∨
        capacity pageSize (unbumped (execAll (bootDriver sampleMap) [.blockCount]).mem.pmm) = 0 :=
  calls_leave_frames_iff (TransitionSystem.Run.boot rfl) rfl [.blockCount] (.ioReadBlocks 1 0 512 100)

/-- **A look at the block size costs a page.** -/
theorem block_size_takes_a_page :
    (frameSystem sampleMap).Reach ⟨(bootDriver sampleMap).mem.pmm, []⟩ ∧
    (blockSize (bootDriver sampleMap)).1 = .ok 0 ∧
    freeFrames (Request.blockSize.exec (bootDriver sampleMap)).mem.pmm + 1 =
      freeFrames (bootDriver sampleMap).mem.pmm ∧
    ¬Leaves (bootDriver sampleMap) (Request.blockSize.exec (bootDriver sampleMap)) := by
  have hcount : freeFrames (Request.blockSize.exec (bootDriver sampleMap)).mem.pmm + 1 =
      freeFrames (bootDriver sampleMap).mem.pmm := by decide +kernel
  refine ⟨TransitionSystem.Run.boot rfl, by decide +kernel, hcount, ?_⟩
  intro hleaves
  have hsame := hleaves.2
  omega

end Nvme
