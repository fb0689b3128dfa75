import Noxisa.NvmeBlockRange
import Noxisa.StoreView

/-!
# The disk as a store

What is read from the block device is what was written to it.  The path of a
byte is `block_write` of `hal/registry.rs`, `write_block` of `hal/block.rs`,
`io_write_blocks` of `drivers/nvme.rs` with the page it draws, the command that
`build_rw_cmd` makes, and the controller; and back the same way.

The controller is not code of this repository.  `Serves` says what is expected
of it: it keeps a medium, which no address of the kernel reaches, and reads and
writes the blocks that a command names.  A write that fails, or times out, may
have changed any of its blocks; but it changes none of them later.

`known` says what the calls so far have put on the medium, and
`reads_see_last_write` that reads return it.
-/

namespace Nvme

open ByteMemory FrameAllocator MachineWord PhysicalMemory RangePool StoreView

/-- Addresses have 64 bits; what the memory function has from here on is the medium. -/
def mediumBase : Nat := 2 ^ 64

/-- The medium of the disk, which the sample model keeps in memory beyond the driver's.
-/
def mediumOf (ram : Mem) : Mem := fun a => ram (mediumBase + a)

/-- The first byte of the medium that a command is about. -/
def Sqe.start (bs : Nat) (cmd : Sqe) : Nat := (cmd.cdw10 + 2 ^ 32 * cmd.cdw11) * bs

/-- The number of bytes: word 12 has the number of blocks less one. -/
def Sqe.size (bs : Nat) (cmd : Sqe) : Nat := (cmd.cdw12 + 1) * bs

/-- The page of the command is memory. -/
def Sqe.Addressed (cmd : Sqe) : Prop := cmd.prp1 + pageSize ≤ mediumBase

/-- A read or a write of the namespace that fits its page. -/
structure Sqe.Transfer (bs opcode : Nat) (cmd : Sqe) : Prop where
  addressed : cmd.Addressed
  opcode : cmd.opcode = opcode
  ours : cmd.nsid = Nvme.nsid
  fits : cmd.size bs ≤ pageSize

/-- The controller serves a namespace of `capacity` blocks of `bs` bytes. -/
structure Serves (bs capacity : Nat) (c : Controller) : Prop where
  identify : ∀ cmd ram, cmd.Addressed → cmd.opcode = 0x06 → mediumOf (c cmd ram).2 = mediumOf ram
  reports : ∀ cmd ram r, cmd.Addressed → cmd.opcode = 0x06 → cmd.nsid = nsid → cmd.cdw10 = 0x00 →
    (c cmd ram).1 = .ok r → (parseNamespace (c cmd ram).2 cmd.prp1).nszeBlocks = capacity ∧
      (parseNamespace (c cmd ram).2 cmd.prp1).blockSize = some bs
  read : ∀ cmd ram, cmd.Transfer bs 0x02 → mediumOf (c cmd ram).2 = mediumOf ram
  fetches : ∀ cmd ram r, cmd.Transfer bs 0x02 → (c cmd ram).1 = .ok r → ∀ i, i < cmd.size bs →
    (c cmd ram).2 (cmd.prp1 + i) = mediumOf ram (cmd.start bs + i)
  write : ∀ cmd ram, cmd.Transfer bs 0x01 →
    SameOutside (cmd.start bs) (cmd.size bs) (mediumOf ram) (mediumOf (c cmd ram).2)
  stores : ∀ cmd ram r, cmd.Transfer bs 0x01 → (c cmd ram).1 = .ok r → ∀ i, i < cmd.size bs →
    mediumOf (c cmd ram).2 (cmd.start bs + i) = ram (cmd.prp1 + i)

/-- The driver on such a controller, with what is on the medium and the commands
it has sent. -/
structure Serving (bs capacity : Nat) (medium : Mem) (sent : List Sqe) (d : Driver) : Prop where
  sound : ∃ held, Sound (2 ^ 52) d.mem.pmm held
  serves : ∀ n, Serves bs capacity (d.device n)
  medium : mediumOf d.mem.ram = medium
  sent : d.sent = sent

/-- The page is below the limit of the allocator. -/
def PageBelow (buf : Nat) : Prop := buf + pageSize ≤ 2 ^ 52

section

variable {bs capacity lba len buf : Nat} {medium : Mem} {sent : List Sqe} {d : Driver}
  {data : List UInt8}

/-- A command whose page is below the medium is addressed. -/
theorem PageBelow.addressed (h : PageBelow buf) {cmd : Sqe} (hprp : cmd.prp1 = buf) :
    cmd.Addressed := by
  unfold Sqe.Addressed mediumBase
  unfold PageBelow at h
  omega

/-- The block address of a command, put together again. -/
theorem rwCmd_start (hlba : lba < 2 ^ 64) (opcode cid n buf : Nat) :
    (buildRwCmd opcode cid nsid lba n buf).start bs = lba * bs := by
  have hfirst : lba % 2 ^ 32 + 2 ^ 32 * (lba / 2 ^ 32 % 2 ^ 32) = lba := by omega
  unfold Sqe.start buildRwCmd
  rw [hfirst]

/-- A valid transfer is as long as its buffer. -/
theorem rwCmd_size (h : ¬ InvalidTransfer bs len) (opcode cid lba buf : Nat) :
    (buildRwCmd opcode cid nsid lba ((len / bs - 1) % 2 ^ 16) buf).size bs = len := by
  unfold InvalidTransfer at h
  push Not at h
  obtain ⟨hlen, hbs, hmod, hmax⟩ := h
  have hdvd : bs ∣ len := Nat.dvd_of_mod_eq_zero hmod
  have hpos : 0 < len / bs := Nat.div_pos (Nat.le_of_dvd (Nat.pos_of_ne_zero hlen) hdvd)
    (Nat.pos_of_ne_zero hbs)
  have hle : len / bs ≤ len := Nat.div_le_self _ _
  have hcount : (len / bs - 1) % 2 ^ 16 + 1 = len / bs := by
    rw [Nat.mod_eq_of_lt (by omega)]
    omega
  unfold Sqe.size buildRwCmd
  rw [hcount]
  exact Nat.div_mul_cancel hdvd

/-- A command built for a valid transfer is one. -/
theorem rwCmd_transfer (h : ¬ InvalidTransfer bs len) (hbuf : PageBelow buf)
    (opcode cid lba : Nat) :
    (buildRwCmd opcode cid nsid lba ((len / bs - 1) % 2 ^ 16) buf).Transfer bs opcode where
  addressed := hbuf.addressed rfl
  opcode := rfl
  ours := rfl
  fits := by
    rw [rwCmd_size h]
    unfold InvalidTransfer at h
    unfold pageSize
    omega

/-- The page that is drawn for a command is below the medium. -/
theorem dmaBuffer_serving : Command.Spec (Serving bs capacity medium sent) dmaBuffer
    (fun o d => (∀ buf, o = .ok buf → PageBelow buf) ∧ Serving bs capacity medium sent d) := by
  intro d h
  obtain ⟨held, hsound⟩ := h.sound
  have hone : 2 ^ 52 + 1 * pageSize < modulus := by decide
  unfold dmaBuffer Memory.allocContiguousFrames
  cases ha : FrameAllocator.allocContiguousFrames d.mem.pmm 1 with
  | mk o p =>
      cases o with
      | none =>
          have hnone := hsound.allocContiguousFrames_none hone ha
          exact ⟨by simp, ⟨_, hnone⟩, h.serves, h.medium, h.sent⟩
      | some a =>
          have hsome := hsound.allocContiguousFrames hone ha
          have hmem : a ∈ units pageSize a 1 ++ held ++ p.freeList := by simp [units]
          have hbelow : PageBelow a := hsome.separated.inside a hmem
          refine ⟨?_, ⟨_, hsome⟩, h.serves, ?_, h.sent⟩
          · intro buf hbuf
            obtain rfl := Outcome.ok.inj hbuf
            exact hbelow
          · rw [← h.medium]
            funext x
            apply fill_outside
            unfold PageBelow at hbelow
            unfold mediumBase
            omega

/-- A result that is `Ok`, as an outcome. -/
private theorem outcome_eq_ok {α : Type} {r : Except NvmeInitError α} {a : α} :
    outcome r = .ok a ↔ r = .ok a := by
  cases r with
  | ok b => simp [outcome]
  | error e => simp [outcome]

/-- A command on the admin queue leaves the medium alone; an identify command for the
namespace tells its size and its format. -/
theorem submitAdminAndWait_serving {cmd : Sqe} (haddr : cmd.Addressed) (hop : cmd.opcode = 0x06) :
    Command.Spec (Serving bs capacity medium sent) (submitAdminAndWait cmd) (fun o d =>
      Serving bs capacity medium sent d ∧ ∀ r, o = .ok r → cmd.nsid = nsid → cmd.cdw10 = 0x00 →
        (parseNamespace d.mem.ram cmd.prp1).nszeBlocks = capacity ∧
          (parseNamespace d.mem.ram cmd.prp1).blockSize = some bs) := by
  intro d h
  have hkept := (h.serves 0).identify cmd d.mem.ram haddr hop
  refine ⟨⟨h.sound, fun n => h.serves (n + 1), hkept.trans h.medium, h.sent⟩, ?_⟩
  intro r hr hns hcns
  exact (h.serves 0).reports cmd d.mem.ram r haddr hop hns hcns (outcome_eq_ok.mp hr)

/-- Identifying the controller leaves the medium alone. -/
private theorem identifyController_serving :
    Command.Keeps (Serving bs capacity medium sent) identifyController := by
  refine dmaBuffer_serving.seq (fun buf => Command.Spec.pull (fun hbuf => ?_))
    (fun _ _ h => h.2) (fun _ _ h => h.2)
  refine Command.Spec.gets (fun cid => ?_)
  have haddr : (buildIdentifyCmd cid 0 0x01 buf).Addressed := (hbuf buf rfl).addressed rfl
  exact (submitAdminAndWait_serving haddr rfl).seq (fun _ _ h => h.1) (fun _ _ h => h.1)
    (fun _ _ h => h.1)

/-- What comes of a look at a namespace. -/
theorem identifyNamespace_serving (n : Nat) :
    Command.Spec (Serving bs capacity medium sent) (identifyNamespace n)
      (fun o d => Serving bs capacity medium sent d ∧
        ∀ ns, o = .ok ns → n = nsid → ns.nszeBlocks = capacity ∧ ns.blockSize = some bs) := by
  refine dmaBuffer_serving.seq (fun buf => Command.Spec.pull (fun hbuf => ?_))
    (fun _ _ h => ⟨h.2, by simp⟩) (fun _ _ h => ⟨h.2, by simp⟩)
  refine Command.Spec.gets (fun cid => ?_)
  have haddr : (buildIdentifyCmd cid n 0x00 buf).Addressed := (hbuf buf rfl).addressed rfl
  refine (submitAdminAndWait_serving haddr rfl).seq (fun r => ?_) (fun _ _ h => ⟨h.1, by simp⟩)
    (fun _ _ h => ⟨h.1, by simp⟩)
  rintro d ⟨h, hparse⟩
  refine ⟨h, fun ns hns hn => ?_⟩
  obtain rfl := Outcome.ok.inj hns
  exact hparse r rfl hn rfl

/-- A command that reads. -/
theorem submitIoAndWait_reads {cmd : Sqe} (hcmd : cmd.Transfer bs 0x02) :
    Command.Spec (Serving bs capacity medium sent) (submitIoAndWait cmd) (fun o d =>
      Serving bs capacity medium (sent ++ [cmd]) d ∧ ∀ r, o = .ok r → ∀ i, i < cmd.size bs →
        d.mem.ram (cmd.prp1 + i) = medium (cmd.start bs + i)) := by
  intro d h
  have hkept := (h.serves 0).read cmd d.mem.ram hcmd
  have hsent : d.sent ++ [cmd] = sent ++ [cmd] := by rw [h.sent]
  refine ⟨⟨h.sound, fun n => h.serves (n + 1), hkept.trans h.medium, hsent⟩, ?_⟩
  intro r hr i hi
  rw [← h.medium]
  exact (h.serves 0).fetches cmd d.mem.ram r hcmd (outcome_eq_ok.mp hr) i hi

/-- What a read returns is on the medium. -/
theorem ioReadBlocks_serving (hlba : lba < 2 ^ 64) :
    Command.Spec (Serving bs capacity medium sent) (ioReadBlocks nsid lba bs len)
      (fun o d => (∃ sent', Serving bs capacity medium sent' d) ∧
        ∀ out, o = .ok out → out = (List.range len).map (fun i => medium (lba * bs + i))) := by
  unfold ioReadBlocks
  by_cases hinvalid : InvalidTransfer bs len
  · rw [if_pos hinvalid]
    exact fun d h => ⟨⟨sent, h⟩, by simp⟩
  rw [if_neg hinvalid]
  refine dmaBuffer_serving.seq (fun buf => Command.Spec.pull (fun hbuf => ?_))
    (fun _ _ h => ⟨⟨sent, h.2⟩, by simp⟩) (fun _ _ h => ⟨⟨sent, h.2⟩, by simp⟩)
  refine Command.Spec.gets (fun cid => ?_)
  have hsize := rwCmd_size hinvalid 0x02 cid lba buf
  have hstart : (buildRwCmd 0x02 cid nsid lba ((len / bs - 1) % 2 ^ 16) buf).start bs = lba * bs :=
    rwCmd_start hlba 0x02 cid _ buf
  have hcmd := rwCmd_transfer hinvalid (hbuf buf rfl) 0x02 cid lba
  refine (submitIoAndWait_reads hcmd).seq (fun r => ?_)
    (fun _ _ h => ⟨⟨_, h.1⟩, by simp⟩) (fun _ _ h => ⟨⟨_, h.1⟩, by simp⟩)
  rintro d ⟨h, hread⟩
  refine ⟨⟨_, h⟩, fun out hout => ?_⟩
  obtain rfl := Outcome.ok.inj hout
  apply List.map_congr_left
  intro i hi
  have hlt : i < len := List.mem_range.mp hi
  rw [hsize, hstart] at hread
  exact hread r rfl i hlt

/-- After a write of `data` at `first`, however it has ended. -/
structure Written {ε α : Type} (bs capacity first : Nat) (data : List UInt8) (medium : Mem)
    (sent : List Sqe) (o : Outcome ε α) (d : Driver) : Prop where
  serving : Serving bs capacity (mediumOf d.mem.ram) d.sent d
  outside : SameOutside first data.length medium (mediumOf d.mem.ram)
  done : (∃ a, o = .ok a) →
    ∀ i, i < data.length → data[i]? = some (mediumOf d.mem.ram (first + i))
  unsent : (∀ a, o ≠ .ok a) → d.sent = sent → mediumOf d.mem.ram = medium

/-- What has been written does not depend on the error that is returned. -/
theorem Written.congr {ε ε' α α' : Type} {first : Nat} {o : Outcome ε α} {o' : Outcome ε' α'}
    (h : Written bs capacity first data medium sent o d)
    (ho : (∃ a, o = .ok a) ↔ ∃ a, o' = .ok a) :
    Written bs capacity first data medium sent o' d where
  serving := h.serving
  outside := h.outside
  done := fun hok => h.done (ho.mpr hok)
  unsent := fun hno => h.unsent (fun a ha => by
    obtain ⟨b, hb⟩ := ho.mp ⟨a, ha⟩
    exact hno b hb)

/-- A call that fails before it sends the command. -/
theorem Serving.unwritten {ε α : Type} {first : Nat} (h : Serving bs capacity medium sent d)
    {o : Outcome ε α} (ho : ∀ a, o ≠ .ok a) :
    Written bs capacity first data medium sent o d where
  serving := ⟨h.sound, h.serves, rfl, rfl⟩
  outside := by
    rw [h.medium]
    exact SameOutside.refl _ _ _
  done := fun ⟨a, ha⟩ => absurd ha (ho a)
  unsent := fun _ _ => h.medium

/-- The data of a write is in its page. -/
def Loaded (bs capacity : Nat) (medium : Mem) (sent : List Sqe) (buf : Nat) (data : List UInt8)
    (d : Driver) : Prop :=
  Serving bs capacity medium sent d ∧
    ∀ i, i < data.length → d.mem.ram (buf + i) = data.getD i 0

/-- A command that writes what is in its page. -/
theorem submitIoAndWait_writes {cmd : Sqe} (hcmd : cmd.Transfer bs 0x01)
    (hsize : cmd.size bs = data.length) :
    Command.Spec (Loaded bs capacity medium sent cmd.prp1 data) (submitIoAndWait cmd)
      (Written bs capacity (cmd.start bs) data medium sent) := by
  rintro d ⟨h, hpage⟩
  have hwrite := (h.serves 0).write cmd d.mem.ram hcmd
  rw [hsize, h.medium] at hwrite
  refine ⟨⟨h.sound, fun n => h.serves (n + 1), rfl, rfl⟩, hwrite, ?_, ?_⟩
  · rintro ⟨r, hr⟩ i hi
    have hstore := (h.serves 0).stores cmd d.mem.ram r hcmd (outcome_eq_ok.mp hr) i (hsize ▸ hi)
    rw [hpage i hi] at hstore
    calc data[i]? = some (data.getD i 0) := by
          rw [List.getElem?_eq_getElem hi, List.getD_eq_getElem _ _ hi]
      _ = some (mediumOf (d.device 0 cmd d.mem.ram).2 (cmd.start bs + i)) := by rw [hstore]
  · -- the command has been sent
    intro _ hsent
    have hlen : (d.sent ++ [cmd]).length = sent.length := congrArg List.length hsent
    rw [h.sent, List.length_append] at hlen
    simp at hlen

/-- The page for a write: it holds the data, and the medium is not in it. -/
theorem copyTo_loaded (hbelow : PageBelow buf) (hlen : data.length ≤ 0x1000)
    (h : Serving bs capacity medium sent d) :
    Loaded bs capacity medium sent buf data
      { d with mem := d.mem.copyTo buf data.length (fun i => data.getD i 0) } := by
  refine ⟨⟨h.sound, h.serves, ?_, h.sent⟩, fun i hi => ?_⟩
  · rw [← h.medium]
    funext x
    have hpast : buf + data.length ≤ mediumBase + x := by
      unfold PageBelow pageSize at hbelow
      unfold mediumBase
      omega
    exact copy_outside d.mem.ram (fun i => data.getD i 0) (Or.inr hpast)
  · exact copy_inside d.mem.ram buf (fun i => data.getD i 0) hi

/-- **`io_write_blocks`** puts the data on the medium, or what it has put there by the
time that it fails is all it will put. -/
theorem ioWriteBlocks_serving (hlba : lba < 2 ^ 64) :
    Command.Spec (Serving bs capacity medium sent) (ioWriteBlocks nsid lba bs data)
      (Written bs capacity (lba * bs) data medium sent) := by
  unfold ioWriteBlocks
  by_cases hinvalid : InvalidTransfer bs data.length
  · rw [if_pos hinvalid]
    exact fun d h => h.unwritten (by simp)
  rw [if_neg hinvalid]
  have hlen : data.length ≤ 0x1000 := by
    unfold InvalidTransfer at hinvalid
    omega
  refine dmaBuffer_serving.seq (fun buf => Command.Spec.pull (fun hbuf => ?_))
    (fun _ _ h => h.2.unwritten (by simp)) (fun _ _ h => h.2.unwritten (by simp))
  refine Command.Spec.modify (Command.Spec.gets (fun cid => ?_))
    (fun d h => copyTo_loaded (hbuf buf rfl) hlen h)
  have hsize := rwCmd_size hinvalid 0x01 cid lba buf
  have hcmd := rwCmd_transfer hinvalid (hbuf buf rfl) 0x01 cid lba
  have hsubmit : Command.Spec (Loaded bs capacity medium sent buf data) (submitIoAndWait _)
      (Written bs capacity _ data medium sent) := submitIoAndWait_writes hcmd hsize
  rw [rwCmd_start hlba] at hsubmit
  exact hsubmit.seq (fun r d h => h.congr (by simp)) (fun e d h => h.congr (by simp))
    (fun m d h => h.congr (by simp))

/-- The block device first looks at the namespace, which leaves the medium alone. -/
theorem transfer_serving {α : Type} {io : Nat → Command Driver NvmeInitError α}
    {Q : Outcome BlockError α → Driver → Prop}
    (hfail : ∀ o d, (∀ a, o ≠ .ok a) → Serving bs capacity medium sent d → Q o d)
    (hio : Command.Spec (Serving bs capacity medium sent)
      (Command.mapErr mapNvmeError (io bs)) Q) :
    Command.Spec (Serving bs capacity medium sent) (BlockDevice.transfer lba io) Q := by
  have hidentify : Command.Spec (Serving bs capacity medium sent)
      (Command.mapErr mapNvmeError (identifyNamespace nsid)) (fun o d =>
        (∀ ns, o = .ok ns → ns.blockSize = some bs) ∧ Serving bs capacity medium sent d) := by
    refine (identifyNamespace_serving nsid).mapErr ?_ (fun _ _ h => ⟨by simp, h.1⟩)
      (fun _ _ h => ⟨by simp, h.1⟩)
    intro ns d h
    refine ⟨fun ns' hns => ?_, h.1⟩
    obtain rfl := Outcome.ok.inj hns
    exact (h.2 ns rfl rfl).2
  refine hidentify.seq (fun ns => Command.Spec.pull (fun hblock => ?_))
    (fun _ d h => hfail _ d (by simp) h.2) (fun _ d h => hfail _ d (by simp) h.2)
  by_cases hlba : lba ≥ ns.nszeBlocks
  · rw [if_pos hlba]
    exact fun d h => hfail _ d (by simp) h
  · rw [if_neg hlba, hblock ns rfl]
    exact hio

/-- A call through the registry, where no device is an error. -/
theorem onBlock_serving {α : Type} {c : Command Driver BlockError α} {missing : BlockError}
    {Q : Outcome BlockError α → Driver → Prop}
    (hfail : ∀ o d, (∀ a, o ≠ .ok a) → Serving bs capacity medium sent d → Q o d)
    (hc : Command.Spec (Serving bs capacity medium sent) c Q) :
    Command.Spec (Serving bs capacity medium sent) (onBlock (.err missing) c) Q := by
  intro d h
  unfold onBlock
  split
  · exact hc d h
  · exact hfail _ d (by simp) h

/-- **`block_read`** returns what is on the medium. -/
theorem blockRead_serving (hlba : lba < 2 ^ 64) :
    Command.Spec (Serving bs capacity medium sent) (blockRead lba len)
      (fun o d => (∃ sent', Serving bs capacity medium sent' d) ∧
        ∀ out, o = .ok out → out = (List.range len).map (fun i => medium (lba * bs + i))) := by
  have hfail : ∀ (o : Outcome BlockError (List UInt8)) d, (∀ a, o ≠ .ok a) →
      Serving bs capacity medium sent d → (∃ sent', Serving bs capacity medium sent' d) ∧
        ∀ out, o = .ok out → out = (List.range len).map (fun i => medium (lba * bs + i)) :=
    fun o d ho h => ⟨⟨_, h⟩, fun out hout => absurd hout (ho out)⟩
  apply onBlock_serving hfail
  apply transfer_serving hfail
  refine (ioReadBlocks_serving hlba).mapErr ?_ (fun _ _ h => ⟨h.1, by simp⟩)
    (fun _ _ h => ⟨h.1, by simp⟩)
  intro out d h
  refine ⟨h.1, fun out' hout => ?_⟩
  obtain rfl := Outcome.ok.inj hout
  exact h.2 out rfl

/-- **`block_write`** puts the data on the medium. -/
theorem blockWrite_serving (hlba : lba < 2 ^ 64) :
    Command.Spec (Serving bs capacity medium sent) (blockWrite lba data)
      (Written bs capacity (lba * bs) data medium sent) := by
  have hfail : ∀ (o : Outcome BlockError Unit) d, (∀ a, o ≠ .ok a) →
      Serving bs capacity medium sent d → Written bs capacity (lba * bs) data medium sent o d :=
    fun o d ho h => h.unwritten ho
  apply onBlock_serving hfail
  apply transfer_serving hfail
  exact (ioWriteBlocks_serving hlba).mapErr (fun _ _ h => h.congr (by simp))
    (fun _ _ h => h.congr (by simp)) (fun _ _ h => h.congr (by simp))

/-- A look at the size of the block device. -/
theorem blockInfo_serving (f : IdentifyNamespaceInfo → Nat) :
    Command.Keeps (Serving bs capacity medium sent)
      (onBlock (.ok 0) (BlockDevice.orZero (identifyNamespace nsid) f)) := by
  intro d h
  unfold onBlock
  split
  · rw [orZero_snd]
    exact (identifyNamespace_serving nsid d h).1
  · exact h

end

/-- What a call writes, and to which block. -/
def Request.writes : Request → Option (Nat × List UInt8)
  | .ioWriteBlocks _ lba _ data => some (lba, data)
  | .blockWrite lba data => some (lba, data)
  | _ => none

/-- The call writes and returns `Ok`. -/
def Request.done (d : Driver) : Request → Bool
  | .ioWriteBlocks nsid lba size data =>
      decide ((Nvme.ioWriteBlocks nsid lba size data d).1 = .ok ())
  | .blockWrite lba data => decide ((Nvme.blockWrite lba data d).1 = .ok ())
  | _ => false

/-- What is known of the medium after a call.  A write that fails without a
command leaves it alone. -/
def Request.note (bs : Nat) (d : Driver) (v : View UInt8) (r : Request) : View UInt8 :=
  match r.writes with
  | none => v
  | some (lba, data) =>
      if r.done d then overwrite v (lba * bs) data
      else if (r.exec d).sent = d.sent then v
      else forget v (lba * bs) data.length

/-- What is known of the medium after calls. -/
def known (bs : Nat) (v : View UInt8) (d : Driver) : List Request → View UInt8
  | [] => v
  | r :: rs => known bs (r.note bs d v) (r.exec d) rs

/-- Blocks are addressed with 64 bits, and a direct transfer is one of the
namespace of the block device in its own block size. -/
def Request.Plain (bs : Nat) : Request → Prop
  | .ioReadBlocks n lba size _ => n = nsid ∧ size = bs ∧ lba < 2 ^ 64
  | .ioWriteBlocks n lba size _ => n = nsid ∧ size = bs ∧ lba < 2 ^ 64
  | .blockRead lba _ => lba < 2 ^ 64
  | .blockWrite lba _ => lba < 2 ^ 64
  | _ => True

section

variable {bs capacity lba len : Nat} {d : Driver} {v : View UInt8} {data : List UInt8}

/-- The driver serves, whatever is on the medium. -/
abbrev Ready (bs capacity : Nat) (d : Driver) : Prop :=
  Serving bs capacity (mediumOf d.mem.ram) d.sent d

/-- A driver that serves is ready. -/
theorem Serving.ready {medium : Mem} {sent : List Sqe} (h : Serving bs capacity medium sent d) :
    Ready bs capacity d :=
  ⟨h.sound, h.serves, rfl, rfl⟩

/-- What a write does to what is known. -/
theorem Written.shows {ε : Type} {medium : Mem} {sent : List Sqe} {first : Nat}
    {o : Outcome ε Unit} [DecidableEq ε] (h : Written bs capacity first data medium sent o d)
    (hv : Shows v medium) :
    Shows (if decide (o = .ok ()) then overwrite v first data
      else if d.sent = sent then v else forget v first data.length) (mediumOf d.mem.ram) := by
  by_cases hok : o = .ok ()
  · rw [if_pos (by simpa using hok)]
    exact hv.overwrite h.outside (h.done ⟨(), hok⟩)
  rw [if_neg (by simpa using hok)]
  by_cases hsent : d.sent = sent
  · rw [if_pos hsent, h.unsent (fun _ => hok) hsent]
    exact hv
  · rw [if_neg hsent]
    exact hv.forget h.outside

/-- **One call** keeps what is known of the medium true. -/
theorem exec_shows (h : Ready bs capacity d) {r : Request} (hplain : r.Plain bs)
    (hv : Shows v (mediumOf d.mem.ram)) :
    Ready bs capacity (r.exec d) ∧ Shows (r.note bs d v) (mediumOf (r.exec d).mem.ram) := by
  have hquiet : ∀ {sent' : List Sqe} {d' : Driver},
      Serving bs capacity (mediumOf d.mem.ram) sent' d' →
        Ready bs capacity d' ∧ Shows v (mediumOf d'.mem.ram) := by
    intro sent' d' h'
    exact ⟨h'.ready, h'.medium.symm ▸ hv⟩
  cases r with
  | identifyController => exact hquiet (identifyController_serving d h)
  | identifyNamespace n => exact hquiet (identifyNamespace_serving n d h).1
  | ioReadBlocks n lba size len =>
      obtain ⟨rfl, rfl, hlba⟩ := hplain
      obtain ⟨_, hserving⟩ := (ioReadBlocks_serving hlba d h).1
      exact hquiet hserving
  | ioWriteBlocks n lba size data =>
      obtain ⟨rfl, rfl, hlba⟩ := hplain
      have hwritten : Written size capacity (lba * size) data _ d.sent _ _ :=
        ioWriteBlocks_serving hlba d h
      exact ⟨hwritten.serving, hwritten.shows hv⟩
  | blockSize => exact hquiet (blockInfo_serving _ d h)
  | blockCount => exact hquiet (blockInfo_serving _ d h)
  | blockRead lba len =>
      obtain ⟨_, hserving⟩ := (blockRead_serving hplain d h).1
      exact hquiet hserving
  | blockWrite lba data =>
      have hwritten : Written bs capacity (lba * bs) data _ d.sent _ _ :=
        blockWrite_serving hplain d h
      exact ⟨hwritten.serving, hwritten.shows hv⟩

/-- **Any calls** leave what is known of the medium true. -/
theorem execAll_shows (h : Ready bs capacity d) {rs : List Request}
    (hplain : ∀ r ∈ rs, r.Plain bs) (hv : Shows v (mediumOf d.mem.ram)) :
    Ready bs capacity (execAll d rs) ∧
      Shows (known bs v d rs) (mediumOf (execAll d rs).mem.ram) := by
  induction rs generalizing d v with
  | nil => exact ⟨h, hv⟩
  | cons r rs ih =>
      obtain ⟨hhead, htail⟩ := List.forall_mem_cons.mp hplain
      obtain ⟨hready, hshows⟩ := exec_shows h hhead hv
      exact ih hready htail hshows

/-- The bytes agree with what is known from `first` on. -/
def Agrees (v : View UInt8) (first len : Nat) (out : List UInt8) : Prop :=
  out.length = len ∧ ∀ i, i < len → ∀ b, v (first + i) = some b → out[i]? = some b

/-- What has been read agrees with what is known. -/
theorem agrees_of_shows {medium : Mem} {first : Nat} (hv : Shows v medium) :
    Agrees v first len ((List.range len).map (fun i => medium (first + i))) := by
  refine ⟨by simp, fun i hi b hb => ?_⟩
  have hget : (List.range len)[i]? = some i := by rw [List.getElem?_range hi]
  rw [List.getElem?_map, hget, ← hv _ b hb]
  rfl

/-- The driver at its start, on frames that the allocator has in a state that it
can reach. -/
private theorem ready_of_reach {map : MemoryMap (2 ^ 52)} {w : World}
    (hw : (frameSystem map).Reach w)
    (hd : d.mem.pmm = w.pmm) (hserves : ∀ n, Serves bs capacity (d.device n)) :
    Ready bs capacity d :=
  ⟨⟨_, hd ▸ reach_sound (by decide) (by decide) map hw⟩, hserves, rfl, rfl⟩

/-- **A read sees the last write.**  After any calls, a read of the block device
that returns `Ok`, and a direct read of its namespace, return for each byte what
is known of the medium there: what the last write that returned `Ok` has put, or
what the medium held at the start, unless a write over it has failed since. -/
theorem reads_see_last_write {map : MemoryMap (2 ^ 52)} {w : World}
    (hw : (frameSystem map).Reach w) (hd : d.mem.pmm = w.pmm)
    (hserves : ∀ n, Serves bs capacity (d.device n)) {before : List Request}
    (hplain : ∀ r ∈ before, r.Plain bs) (hlba : lba < 2 ^ 64) (len : Nat) (out : List UInt8) :
    let v := known bs (full (mediumOf d.mem.ram)) d before
    ((blockRead lba len (execAll d before)).1 = .ok out → Agrees v (lba * bs) len out) ∧
      ((ioReadBlocks nsid lba bs len (execAll d before)).1 = .ok out →
        Agrees v (lba * bs) len out) := by
  intro v
  obtain ⟨hready, hshows⟩ :=
    execAll_shows (ready_of_reach hw hd hserves) hplain (shows_full (mediumOf d.mem.ram))
  have hagrees : ∀ out', out' = (List.range len).map
      (fun i => mediumOf (execAll d before).mem.ram (lba * bs + i)) →
        Agrees v (lba * bs) len out' := by
    rintro out' rfl
    exact agrees_of_shows hshows
  constructor
  · intro hout
    exact hagrees out ((blockRead_serving hlba _ hready).2 out hout)
  · intro hout
    exact hagrees out ((ioReadBlocks_serving hlba _ hready).2 out hout)

/-- A write to other bytes leaves what is known of these. -/
theorem note_apart {r : Request} {a : Nat}
    (hapart : ∀ first data, r.writes = some (first, data) →
      a < first * bs ∨ first * bs + data.length ≤ a) : r.note bs d v a = v a := by
  unfold Request.note
  cases hwrites : r.writes with
  | none => rfl
  | some w =>
      obtain ⟨first, data⟩ := w
      have h := hapart first data hwrites
      dsimp only
      split
      · exact overwrite_outside h
      · split
        · rfl
        · exact forget_outside h

/-- A byte that no call has written is known as before. -/
private theorem known_apart {rs : List Request} {a : Nat}
    (hapart : ∀ r ∈ rs, ∀ first data, r.writes = some (first, data) →
      a < first * bs ∨ first * bs + data.length ≤ a) : known bs v d rs a = v a := by
  induction rs generalizing d v with
  | nil => rfl
  | cons r rs ih =>
      obtain ⟨hhead, htail⟩ := List.forall_mem_cons.mp hapart
      exact (ih htail).trans (note_apart hhead)

/-- **What is written is read back**: after a write that returns `Ok` and any
calls that write elsewhere, a read of the same blocks returns the data. -/
theorem block_read_back (h : Ready bs capacity d) {rs : List Request}
    (hlba : lba < 2 ^ 64) (hplain : ∀ r ∈ rs, r.Plain bs)
    (hwrite : (blockWrite lba data d).1 = .ok ())
    (hapart : ∀ r ∈ rs, ∀ first other, r.writes = some (first, other) →
      lba * bs + data.length ≤ first * bs ∨ first * bs + other.length ≤ lba * bs)
    {out : List UInt8}
    (hread : (blockRead lba data.length (execAll (blockWrite lba data d).2 rs)).1 = .ok out) :
    out = data := by
  have hwritten := exec_shows h (r := .blockWrite lba data) hlba (shows_full (mediumOf d.mem.ram))
  obtain ⟨hready, hshows⟩ := execAll_shows hwritten.1 hplain hwritten.2
  have hdone : (Request.blockWrite lba data).note bs d (full (mediumOf d.mem.ram)) =
      overwrite (full (mediumOf d.mem.ram)) (lba * bs) data :=
    if_pos (decide_eq_true hwrite)
  have hout := (blockRead_serving hlba _ hready).2 out hread
  obtain ⟨hlen, hbytes⟩ : Agrees _ (lba * bs) data.length out := hout ▸ agrees_of_shows hshows
  apply List.ext_getElem?
  intro i
  by_cases hi : i < data.length
  · obtain ⟨b, hb⟩ : ∃ b, data[i]? = some b := ⟨data[i], List.getElem?_eq_getElem hi⟩
    rw [hb]
    apply hbytes i hi b
    have hkept : known bs (overwrite (full (mediumOf d.mem.ram)) (lba * bs) data)
        (blockWrite lba data d).2 rs (lba * bs + i) =
          overwrite (full (mediumOf d.mem.ram)) (lba * bs) data (lba * bs + i) := by
      apply known_apart
      intro r hr first other hw
      have hother := hapart r hr first other hw
      omega
    rw [hdone]
    exact hkept.trans ((overwrite_inside hi).trans hb)
  · rw [List.getElem?_eq_none (by omega), List.getElem?_eq_none (by omega)]

end

/-- A namespace of four blocks of 512 bytes that does all it is told. -/
def diskController : Controller := fun cmd ram =>
  (.ok 0,
    if cmd.opcode = 0x06 then
      writeLE (writeLE (writeLE ram cmd.prp1 8 4) (cmd.prp1 + 26) 1 0) (cmd.prp1 + 128) 4
        (9 * 2 ^ 16)
    else if cmd.opcode = 0x02 then
      copy ram cmd.prp1 (cmd.size 512) (fun i => mediumOf ram (cmd.start 512 + i))
    else if cmd.opcode = 0x01 then
      copy ram (mediumBase + cmd.start 512) (cmd.size 512) (fun i => ram (cmd.prp1 + i))
    else ram)

/-- The sample controller answers an identify command with four blocks of 512 bytes. -/
theorem diskController_identify {cmd : Sqe} (hop : cmd.opcode = 0x06) (ram : Mem) :
    (diskController cmd ram).2 =
      writeLE (writeLE (writeLE ram cmd.prp1 8 4) (cmd.prp1 + 26) 1 0) (cmd.prp1 + 128) 4
        (9 * 2 ^ 16) :=
  if_pos hop

/-- It copies blocks to the page. -/
theorem diskController_read {cmd : Sqe} (hop : cmd.opcode = 0x02) (ram : Mem) :
    (diskController cmd ram).2 =
      copy ram cmd.prp1 (cmd.size 512) (fun i => mediumOf ram (cmd.start 512 + i)) := by
  simp [diskController, hop]

/-- It copies the page to the blocks. -/
theorem diskController_write {cmd : Sqe} (hop : cmd.opcode = 0x01) (ram : Mem) :
    (diskController cmd ram).2 =
      copy ram (mediumBase + cmd.start 512) (cmd.size 512) (fun i => ram (cmd.prp1 + i)) := by
  simp [diskController, hop]

/-- What it says of its namespace. -/
theorem diskController_reports {cmd : Sqe} (hop : cmd.opcode = 0x06) (ram : Mem) :
    (parseNamespace (diskController cmd ram).2 cmd.prp1).nszeBlocks = 4 ∧
      (parseNamespace (diskController cmd ram).2 cmd.prp1).blockSize = some 512 := by
  rw [diskController_identify hop]
  generalize hmem : writeLE (writeLE (writeLE ram cmd.prp1 8 4) (cmd.prp1 + 26) 1 0)
    (cmd.prp1 + 128) 4 (9 * 2 ^ 16) = m
  have hsize : readLE m cmd.prp1 8 = 4 := by
    rw [← hmem, readLE_writeLE_other _ _ (by omega), readLE_writeLE_other _ _ (by omega)]
    exact readLE_writeLE_same _ _ _ _ (by decide)
  have hformat : m (cmd.prp1 + 26) = 0 := by
    rw [← hmem, writeLE_outside _ _ (by omega), writeLE, if_pos (by omega), Nat.zero_div]
    rfl
  have hblock : readLE m (cmd.prp1 + 128) 4 = 9 * 2 ^ 16 := by
    rw [← hmem]
    exact readLE_writeLE_same _ _ _ _ (by decide)
  refine ⟨hsize, ?_⟩
  unfold parseNamespace
  dsimp only
  rw [hformat, show (0 : UInt8).toNat &&& 0xF = 0 from rfl, Nat.zero_mul, Nat.add_zero, hblock]
  rfl

/-- **The sample controller serves** its namespace. -/
theorem diskController_serves : Serves 512 4 diskController where
  identify := by
    intro cmd ram haddr hop
    unfold Sqe.Addressed pageSize at haddr
    rw [diskController_identify hop]
    funext x
    unfold mediumOf
    rw [writeLE_outside _ _ (by omega), writeLE_outside _ _ (by omega),
      writeLE_outside _ _ (by omega)]
  reports := fun cmd ram r _ hop _ _ _ => diskController_reports hop ram
  read := by
    intro cmd ram hcmd
    have haddr := hcmd.addressed
    have hfits := hcmd.fits
    unfold Sqe.Addressed at haddr
    rw [diskController_read hcmd.opcode]
    funext x
    have hpast : cmd.prp1 + cmd.size 512 ≤ mediumBase + x := by omega
    exact copy_outside ram (fun i => mediumOf ram (cmd.start 512 + i)) (Or.inr hpast)
  fetches := by
    intro cmd ram r hcmd _ i hi
    rw [diskController_read hcmd.opcode]
    exact copy_inside ram cmd.prp1 _ hi
  write := by
    intro cmd ram hcmd x hx
    have hout : mediumBase + x < mediumBase + cmd.start 512 ∨
        mediumBase + cmd.start 512 + cmd.size 512 ≤ mediumBase + x := by omega
    rw [diskController_write hcmd.opcode]
    exact copy_outside ram (fun i => ram (cmd.prp1 + i)) hout
  stores := by
    intro cmd ram r hcmd _ i hi
    rw [diskController_write hcmd.opcode]
    unfold mediumOf
    rw [← Nat.add_assoc]
    exact copy_inside ram (mediumBase + cmd.start 512) (fun i => ram (cmd.prp1 + i)) hi

/-- The sample driver, with this controller. -/
def diskDriver : Driver := { bootDriver sampleMap with device := fun _ => diskController }

/-- A block is written and read back. -/
theorem sample_reads_see_last_write : ∃ out,
    (blockRead 2 512 (execAll diskDriver [.blockWrite 2 (List.replicate 512 7), .blockCount])).1 =
        .ok out ∧
      Agrees (known 512 (full (mediumOf diskDriver.mem.ram)) diskDriver
        [.blockWrite 2 (List.replicate 512 7), .blockCount]) 1024 512 out := by
  have hrun : ((do
      let _ ← blockRead 2 512
      Pure.pure () : Command Driver BlockError Unit)
        (execAll diskDriver [.blockWrite 2 (List.replicate 512 7), .blockCount])).1 = .ok () := by
    decide +kernel
  obtain ⟨d, hrun⟩ := Command.exists_of_fst hrun
  obtain ⟨out, d', hread, -⟩ := Command.bind_eq_ok.mp hrun
  have hout := congrArg Prod.fst hread
  have hplain : ∀ r ∈ [Request.blockWrite 2 (List.replicate 512 7), .blockCount], r.Plain 512 :=
    List.forall_mem_cons.mpr ⟨(by decide : 2 < 2 ^ 64), List.forall_mem_singleton.mpr trivial⟩
  exact ⟨out, hout, (reads_see_last_write (TransitionSystem.Run.boot rfl) rfl
    (fun _ => diskController_serves) hplain (by decide) 512 out).1 hout⟩

end Nvme
