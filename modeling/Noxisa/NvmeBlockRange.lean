import Noxisa.NvmeBuffers

/-!
# The range check of the block device

`read_block` and `write_block` of `hal/block.rs` compare the first block of a
transfer with the capacity of the namespace, and `drivers/nvme.rs` turns the
length of the buffer into a count of blocks without looking at the capacity.
`block_range_checked_iff` says which transfers are checked all the same: those
that do not go over the end of the namespace.
-/

namespace Nvme

open FrameAllocator

/-- The command reads or writes block `b`: the first one is in words 10 and 11,
the count less one in word 12. -/
def Sqe.Addresses (cmd : Sqe) (b : Nat) : Prop :=
  cmd.cdw10 + 2 ^ 32 * cmd.cdw11 ≤ b ∧ b ≤ cmd.cdw10 + 2 ^ 32 * cmd.cdw11 + cmd.cdw12

/-- A transfer of `len` bytes at `lba` is checked against the capacity: only
commands below it are sent, and if a block is not below it none is. -/
structure RangeChecked {α : Type} (capacity size lba len : Nat) (d : Driver)
    (run : Outcome BlockError α × Driver) : Prop where
  below : ∃ new, run.2.sent = d.sent ++ new ∧
    ∀ cmd ∈ new, ∀ b, cmd.Addresses b → b < capacity
  refused : (∃ b, lba ≤ b ∧ b < lba + len / size ∧ capacity ≤ b) →
    run.1 = .err .invalidLba ∧ run.2.sent = d.sent

/-- The transfer starts beyond the end, or ends before it. -/
def Within (capacity size lba len : Nat) : Prop :=
  capacity ≤ lba ∨ lba + len / size ≤ capacity

/-- `c` fails without sending, or sends one command for a valid transfer. -/
def Transfers {α : Type} (opcode lba size len : Nat) (c : Command Driver NvmeInitError α) : Prop :=
  ∀ d, ((∃ e, (c d).1 = .err e) ∧ (c d).2.sent = d.sent) ∨
    ¬ InvalidTransfer size len ∧ ∃ cid buf, (c d).2.sent =
      d.sent ++ [buildRwCmd opcode cid nsid lba ((len / size - 1) % 2 ^ 16) buf]

section

variable {α : Type} {d : Driver} {lba size len : Nat}

/-- The page for a command is there, or the call fails. -/
theorem dmaBuffer_cases (d : Driver) : ∃ d', d'.sent = d.sent ∧
    ((∃ buf, dmaBuffer d = (.ok buf, d')) ∨ dmaBuffer d = (.err .allocFailed, d')) := by
  unfold dmaBuffer
  cases d.mem.allocContiguousFrames 1 with
  | mk o m =>
      cases o with
      | none => exact ⟨{ d with mem := m }, rfl, Or.inr rfl⟩
      | some a => exact ⟨{ d with mem := m.zeroFrame a }, rfl, Or.inl ⟨a, rfl⟩⟩

/-- `Identify Namespace` sends no I/O command. -/
theorem identifyNamespace_sent (nsid : Nat) (d : Driver) :
    (identifyNamespace nsid d).2.sent = d.sent := by
  have hkeeps : Command.Keeps (fun t : Driver => t.sent = d.sent) (identifyNamespace nsid) := by
    refine Command.Keeps.bind (fun t ht => ?_) (fun buf => ?_)
    · obtain ⟨t', hsent, hrun⟩ := dmaBuffer_cases t
      rcases hrun with ⟨buf, heq⟩ | heq <;> rw [heq] <;> exact hsent.trans ht
    · apply (Command.Keeps.gets _).bind
      intro cid
      have hsubmit : Command.Keeps (fun t : Driver => t.sent = d.sent)
          (submitAdminAndWait (buildIdentifyCmd cid nsid 0x00 buf)) := fun _ ht => ht
      exact hsubmit.bind (fun _ => Command.Keeps.gets _)
  exact hkeeps d rfl

/-- What follows a command does not send another. -/
theorem submitIoAndWait_sent {β : Type} (cmd : Sqe) {f : Nat → Command Driver NvmeInitError β}
    (hf : ∀ a t, (f a t).2.sent = t.sent) :
    ((submitIoAndWait cmd >>= f) d).2.sent = d.sent ++ [cmd] := by
  rw [Command.bind_apply]
  unfold submitIoAndWait outcome
  cases (d.device 0 cmd d.mem.ram).1 with
  | ok a => exact hf a _
  | error e => rfl

/-- A transfer that checks its size and takes a page, and then sends one command
with the page's address. -/
theorem transfers_of {opcode : Nat} {c : Nat → Command Driver NvmeInitError α}
    (hc : ∀ buf t, ∃ cid, (c buf t).2.sent =
      t.sent ++ [buildRwCmd opcode cid nsid lba ((len / size - 1) % 2 ^ 16) buf]) :
    Transfers opcode lba size len
      (if InvalidTransfer size len then Command.fail .invalidTransferSize
        else dmaBuffer >>= c) := by
  intro d
  by_cases hinvalid : InvalidTransfer size len
  · rw [if_pos hinvalid]
    exact Or.inl ⟨⟨_, rfl⟩, rfl⟩
  · rw [if_neg hinvalid]
    obtain ⟨d', hsent, ⟨buf, heq⟩ | heq⟩ := dmaBuffer_cases d
    · obtain ⟨cid, hcid⟩ := hc buf d'
      refine Or.inr ⟨hinvalid, cid, buf, ?_⟩
      rw [Command.bind_apply, heq, ← hsent]
      exact hcid
    · rw [Command.bind_apply, heq]
      exact Or.inl ⟨⟨_, rfl⟩, hsent⟩

/-- A read of blocks sends a read command, opcode 0x02. -/
theorem ioReadBlocks_transfers (lba size len : Nat) :
    Transfers 0x02 lba size len (ioReadBlocks nsid lba size len) :=
  transfers_of fun _ t => ⟨t.io.nextCid, submitIoAndWait_sent _ (fun _ _ => rfl)⟩

/-- A write of blocks sends a write command, opcode 0x01: filling the page first
sends nothing. -/
theorem ioWriteBlocks_transfers (lba size : Nat) (data : List UInt8) :
    Transfers 0x01 lba size data.length (ioWriteBlocks nsid lba size data) :=
  transfers_of fun _ t => ⟨t.io.nextCid, submitIoAndWait_sent _ (fun _ _ => rfl)⟩

/-- A valid transfer has at least one block and at most eight. -/
theorem count_of_valid (h : ¬ InvalidTransfer size len) (hsize : 512 ≤ size) :
    0 < len / size ∧ len / size ≤ 8 := by
  unfold InvalidTransfer at h
  push Not at h
  obtain ⟨hlen, -, hmod, hmax⟩ := h
  constructor
  · apply Nat.div_pos _ (by omega)
    exact Nat.le_of_dvd (Nat.pos_of_ne_zero hlen) (Nat.dvd_of_mod_eq_zero hmod)
  · calc len / size ≤ 0x1000 / 512 := Nat.div_le_div hmax hsize (by decide)
      _ = 8 := rfl

/-- The blocks of the command are those of the buffer. -/
private theorem addresses_iff (hlba : lba < 2 ^ 64) (hcount : 0 < len / size ∧ len / size ≤ 8)
    (opcode cid buf b : Nat) :
    (buildRwCmd opcode cid nsid lba ((len / size - 1) % 2 ^ 16) buf).Addresses b ↔
      lba ≤ b ∧ b < lba + len / size := by
  have hfirst : lba % 2 ^ 32 + 2 ^ 32 * (lba / 2 ^ 32 % 2 ^ 32) = lba := by omega
  unfold Sqe.Addresses buildRwCmd
  dsimp only
  rw [hfirst]
  omega

/-- No error of the driver becomes `InvalidLba`. -/
theorem mapNvmeError_run (c : Command Driver NvmeInitError α) (d : Driver) :
    (Command.mapErr mapNvmeError c d).1 ≠ .err .invalidLba := by
  have hmap : ∀ e, mapNvmeError e ≠ .invalidLba := by
    intro e
    cases e <;> simp [mapNvmeError]
  unfold Command.mapErr
  cases c d with
  | mk o t =>
      cases o with
      | ok a => simp
      | err e =>
          intro h
          exact hmap e (Outcome.err.inj h)
      | panic m => simp

/-- Blocks of less than 512 bytes are not accepted. -/
theorem identifyNamespace_size {ns : IdentifyNamespaceInfo}
    (hns : (identifyNamespace nsid d).1 = .ok ns) (hblock : ns.blockSize = some size) :
    512 ≤ size := by
  obtain ⟨t, hrun⟩ := Command.exists_of_fst hns
  obtain ⟨buf, t₁, -, hrun⟩ := Command.bind_eq_ok.mp hrun
  rw [Command.gets_bind] at hrun
  obtain ⟨_, t₂, -, hparse⟩ := Command.bind_eq_ok.mp hrun
  obtain ⟨hns', -⟩ := Prod.mk.inj hparse
  obtain rfl := Outcome.ok.inj hns'
  simp only [parseNamespace] at hblock
  split at hblock
  next hrange =>
    obtain rfl := Option.some.inj hblock
    rw [Nat.one_shiftLeft]
    calc 512 = 2 ^ 9 := rfl
      _ ≤ _ := Nat.pow_le_pow_right (by decide) hrange.1
  next => cases hblock

/-- The check of `transfer`. -/
theorem transfer_checked_iff {opcode : Nat} {ns : IdentifyNamespaceInfo}
    {io : Nat → Command Driver NvmeInitError α} (hns : (identifyNamespace nsid d).1 = .ok ns)
    (hblock : ns.blockSize = some size) (hlba : lba < 2 ^ 64)
    (hio : ∀ size, Transfers opcode lba size len (io size)) :
    RangeChecked ns.nszeBlocks size lba len d (BlockDevice.transfer lba io d) ↔
      Within ns.nszeBlocks size lba len := by
  have hsent := identifyNamespace_sent nsid d
  have hsize := identifyNamespace_size hns hblock
  have hrun : BlockDevice.transfer lba io d =
      if lba ≥ ns.nszeBlocks then (.err .invalidLba, (identifyNamespace nsid d).2)
      else Command.mapErr mapNvmeError (io size) (identifyNamespace nsid d).2 := by
    have hmap : Command.mapErr mapNvmeError (identifyNamespace nsid) d =
        (.ok ns, (identifyNamespace nsid d).2) :=
      Command.mapErr_eq_ok.mpr (Command.eq_of_fst hns)
    unfold BlockDevice.transfer
    rw [Command.bind_apply, hmap]
    dsimp only
    by_cases hend : lba ≥ ns.nszeBlocks
    · rw [if_pos hend, if_pos hend]
      rfl
    · rw [if_neg hend, if_neg hend, hblock]
  rw [hrun]
  by_cases hend : lba ≥ ns.nszeBlocks
  · rw [if_pos hend]
    refine iff_of_true ⟨⟨[], ?_, by simp⟩, fun _ => ⟨rfl, hsent⟩⟩ (Or.inl hend)
    rw [List.append_nil]
    exact hsent
  · rw [if_neg hend]
    have hnever := mapNvmeError_run (io size) (identifyNamespace nsid d).2
    constructor
    · intro h
      by_contra hout
      unfold Within at hout
      have hover : ∃ b, lba ≤ b ∧ b < lba + len / size ∧ ns.nszeBlocks ≤ b :=
        ⟨ns.nszeBlocks, by omega, by omega, Nat.le_refl _⟩
      exact hnever (h.refused hover).1
    · intro hwithin
      have hfits : lba + len / size ≤ ns.nszeBlocks := by
        unfold Within at hwithin
        omega
      refine ⟨?_, ?_⟩
      · rw [Command.mapErr_snd]
        rcases hio size (identifyNamespace nsid d).2 with ⟨-, hkept⟩ | ⟨hvalid, cid, buf, hnew⟩
        · exact ⟨[], by rw [hkept, hsent, List.append_nil], by simp⟩
        · refine ⟨_, by rw [hnew, hsent], fun cmd hcmd b hb => ?_⟩
          obtain rfl := List.mem_singleton.mp hcmd
          have hcount := count_of_valid hvalid hsize
          have hblocks := (addresses_iff hlba hcount opcode cid buf b).mp hb
          omega
      · rintro ⟨b, -, hlt, hge⟩
        omega

/-- **The range check.**  For any namespace that the controller reports, any
address and any buffer, from any state of the driver: a read or a write is
checked exactly when it does not go over the end of the namespace. -/
theorem block_range_checked_iff {ns : IdentifyNamespaceInfo}
    (hns : (identifyNamespace nsid d).1 = .ok ns) (hblock : ns.blockSize = some size)
    (hlba : lba < 2 ^ 64) :
    (∀ len, RangeChecked ns.nszeBlocks size lba len d (BlockDevice.readBlock lba len d) ↔
      Within ns.nszeBlocks size lba len) ∧
    ∀ data, RangeChecked ns.nszeBlocks size lba data.length d (BlockDevice.writeBlock lba data d) ↔
      Within ns.nszeBlocks size lba data.length := by
  constructor
  · intro len
    exact transfer_checked_iff hns hblock hlba (fun size => ioReadBlocks_transfers lba size len)
  · intro data
    exact transfer_checked_iff hns hblock hlba (fun size => ioWriteBlocks_transfers lba size data)

end

/-- A controller with one namespace of four blocks of 512 bytes. -/
def smallController : Controller := fun cmd ram =>
  (.ok 0, if cmd.opcode = 0x06 then
    Function.update (Function.update ram cmd.prp1 4) (cmd.prp1 + 130) 9 else ram)

/-- The driver at boot with a controller of one small namespace. -/
def smallDriver : Driver := { bootDriver sampleMap with device := fun _ => smallController }

/-- What it says of the namespace. -/
theorem smallDriver_namespace : ∃ ns, (identifyNamespace nsid smallDriver).1 = .ok ns ∧
    ns.nszeBlocks = 4 ∧ ns.blockSize = some 512 := by
  have hrun : ((do
      let ns ← identifyNamespace nsid
      Pure.pure (ns.nszeBlocks, ns.blockSize) : Command Driver NvmeInitError _) smallDriver).1 =
        .ok (4, some 512) := by
    decide +kernel
  obtain ⟨d, hrun⟩ := Command.exists_of_fst hrun
  obtain ⟨ns, d', hns, hfields⟩ := Command.bind_eq_ok.mp hrun
  obtain ⟨hpair, -⟩ := Prod.mk.inj hfields
  obtain ⟨hsize, hblock⟩ := Prod.mk.inj (Outcome.ok.inj hpair)
  exact ⟨ns, congrArg Prod.fst hns, hsize, hblock⟩

/-- The hypotheses are met by a read beyond that namespace. -/
theorem sample_block_range_checked :
    RangeChecked 4 512 2 1024 smallDriver (BlockDevice.readBlock 2 1024 smallDriver) := by
  obtain ⟨ns, hns, hsize, hblock⟩ := smallDriver_namespace
  rw [← hsize]
  apply ((block_range_checked_iff hns hblock (by decide)).1 1024).mpr
  rw [hsize]
  exact Or.inr (by decide)

/-- A read of the last block and the one after it is sent. -/
theorem read_over_the_end :
    ¬ ∀ (d : Driver) (ns : IdentifyNamespaceInfo) (size lba len : Nat),
      (identifyNamespace nsid d).1 = .ok ns → ns.blockSize = some size → lba < 2 ^ 64 →
        RangeChecked ns.nszeBlocks size lba len d (BlockDevice.readBlock lba len d) := by
  intro hclaim
  obtain ⟨ns, hns, hsize, hblock⟩ := smallDriver_namespace
  have h := hclaim smallDriver ns 512 3 1024 hns hblock (by decide)
  rw [hsize] at h
  have hsent := (h.refused ⟨4, by decide⟩).2
  exact absurd hsent (by decide +kernel)

end Nvme
