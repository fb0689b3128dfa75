import Noxisa.Mmu
import Noxisa.TaskLifetime

/-!
# System call 1

`checked_sys_write` prints a buffer of its caller's.  It runs in ring 0 on the
page table of the caller, so a read of the buffer asks for a present page and
not for the USER bit: `fetch` is what the kernel sees at an address, `userByte`
what ring 3 would see there.

The call checks one capability and no address.  It keeps to the memory of its
caller exactly if the capability is missing or the buffer is the caller's own
(`sysWrite_respects_iff`).
-/

namespace Scheduler

open ByteMemory ElfLoader FrameAllocator MachineWord PhysicalMemory UserPageTable

/-- What the processor raises instead of a read. -/
inductive Fault
  | page (addr : Nat)
  | generalProtection (addr : Nat)
deriving DecidableEq

/-- The bits above 47 repeat bit 47. -/
def canonical (v : Nat) : Prop := v < 2 ^ 47 ∨ 2 ^ 64 - 2 ^ 47 ≤ v

instance (v : Nat) : Decidable (canonical v) := inferInstanceAs (Decidable (_ ∨ _))

/-- The byte that an address is translated to. -/
def Translation.byte (m : Memory) (v : Nat) (t : Translation) : UInt8 := m.ram (t.frame + v % t.size)

/-- A read in ring 0. -/
def fetch (m : Memory) (cr3 v : Nat) : Except Fault UInt8 :=
  if canonical v then
    match walk m 3 (cr3 &&& addrMask) v with
    | none => .error (.page v)
    | some t => .ok (Translation.byte m v t)
  else .error (.generalProtection v)

/-- What ring 3 may read. -/
def userByte (m : Memory) (cr3 v : Nat) : Option UInt8 :=
  if canonical v then
    ((walk m 3 (cr3 &&& addrMask) v).filter Translation.user).map (Translation.byte m v)
  else none

section

variable {m : Memory} {cr3 v : Nat} {b : UInt8} {f : Fault}

/-- A byte of the user is read. -/
theorem fetch_of_userByte (h : userByte m cr3 v = some b) : fetch m cr3 v = .ok b := by
  unfold userByte at h
  by_cases hv : canonical v
  · rw [if_pos hv] at h
    obtain ⟨t, ht, hb⟩ := Option.map_eq_some_iff.mp h
    obtain ⟨hwalk, -⟩ := Option.filter_eq_some_iff.mp ht
    simp only [fetch, if_pos hv, hwalk, hb]
  · rw [if_neg hv] at h
    cases h

/-- An address that is not canonical faults. -/
theorem fetch_not_canonical (hv : ¬canonical v) : fetch m cr3 v = .error (.generalProtection v) :=
  if_neg hv

/-- At a canonical address the only fault is a page fault. -/
private theorem fetch_error (hv : canonical v) (h : fetch m cr3 v = .error f) : f = .page v := by
  unfold fetch at h
  rw [if_pos hv] at h
  split at h
  · exact (Except.error.inj h).symm
  · cases h

end

/-- What goes to the serial port: a formatted text, or a byte as it is. -/
inductive Out
  | text (s : String)
  | byte (b : UInt8)
deriving DecidableEq

/-- What a call has sent and where it has read, latest first. -/
structure Port where
  out : List Out
  reads : List Nat

/-- Nothing has been sent. -/
def Port.empty : Port := ⟨[], []⟩

/-- The bytes of the buffer that were sent as they are. -/
def Port.payload (p : Port) : List UInt8 :=
  p.out.filterMap (fun o => match o with
    | .byte b => some b
    | .text _ => none)

/-- One thing is sent. -/
def send (o : Out) : Command Port Fault Unit :=
  Command.modify (fun p => { p with out := o :: p.out })

/-- `kprint!` -/
def kprint (s : String) : Command Port Fault Unit := send (.text s)

/-- `kprint`, with a newline. -/
def kprintln (s : String) : Command Port Fault Unit := kprint (s ++ "\n")

/-- `{:02x} ` -/
def hexByte (b : UInt8) : String :=
  String.ofList [Nat.digitChar (b.toNat / 16), Nat.digitChar (b.toNat % 16), ' ']

/-- `out 0x3F8`, when the line is ready. -/
def outb (b : UInt8) : Command Port Fault Unit := send (.byte b)

/-- `*addr`, through what the kernel sees. -/
def readByte (view : Nat → Except Fault UInt8) (addr : Nat) : Command Port Fault UInt8 := fun p =>
  match view addr with
  | .ok b => (.ok b, { p with reads := addr :: p.reads })
  | .error f => (.err f, p)

/-- The first 32 bytes in hexadecimal, then all bytes. -/
def serialWriteBytes (view : Nat → Except Fault UInt8) (cr3 buf len : Nat) :
    Command Port Fault Unit := do
  kprintln ("[diag] CR3 at syscall time: " ++ hex cr3)
  kprintln ("[diag] serial_write_bytes: buf=" ++ hex buf ++ " len=" ++ toString len)
  kprint "[diag] raw bytes: "
  Command.forRange (fun i => do
    let b ← readByte view (add buf i)
    kprint (hexByte b)) 0 (min len 32)
  kprint "\r\n"
  Command.forRange (fun i => do
    let b ← readByte view (add buf i)
    outb b) 0 len

/-- `CAP_WRITE_SERIAL` -/
def capWriteSerial : Nat := 1 <<< 0

/-- `checked_sys_write`, less the audit log. -/
def checkedSysWrite (k : Kernel) (buf len : Nat) : Command Port Fault Unit :=
  if caps k.sched &&& capWriteSerial = 0 then
    kprintln "[cap] sys_write DENIED - process lacks CAP_WRITE_SERIAL"
  else serialWriteBytes (fetch k.mem k.cpu.cr3) k.cpu.cr3 buf len

/-- A task in a system call: its page table is loaded. -/
structure Caller where
  kernel : Kernel
  tcb : Tcb CpuCtx
  current_eq : currentTcb kernel.sched = some tcb
  own_table : kernel.cpu.cr3 = tcb.cr3

/-- `switch_to` loads the page table of the task it switches to. -/
theorem switchTo_own_table {κ : Type} {s : Scheduler κ} {cpu : Cpu κ} {next : Nat} {t : Tcb κ}
    (hne : s.current ≠ next) (ht : lookup s.tasks next = some t) :
    ∃ s' cpu' t', switchTo s cpu next = (.switched, s', cpu') ∧ currentTcb s' = some t' ∧
      cpu'.cr3 = t'.cr3 := by
  obtain ⟨s', hrun, hcur, -, -, -, hlook⟩ := @switchTo_switched _ _ cpu _ _ hne ht
  refine ⟨s', _, { t with state := .running }, hrun, ?_, rfl⟩
  rw [currentTcb, hcur, hlook, if_pos rfl]

namespace Caller

variable (c c' : Caller) (buf len : Nat)

/-- What the caller may read itself. -/
def byte (v : Nat) : Option UInt8 := userByte c.kernel.mem c.tcb.cr3 v

/-- The system call of this caller. -/
def sysWrite : Outcome Fault Unit × Port := checkedSysWrite c.kernel buf len Port.empty

/-- Two kernels that the caller cannot tell apart. -/
structure Agrees : Prop where
  tcb_eq : c'.tcb = c.tcb
  byte_eq : ∀ v, c'.byte v = c.byte v

/-- **The call keeps to the memory of its caller.** -/
structure Respects : Prop where
  reads_own : ∀ v ∈ (c.sysWrite buf len).2.reads, (c.byte v).isSome
  no_page_fault : ∀ v, (c.sysWrite buf len).1 ≠ .err (.page v)
  payload_eq : ∀ c', c.Agrees c' →
    (c'.sysWrite buf len).2.payload = (c.sysWrite buf len).2.payload

/-- Every byte of the buffer that can be asked for is the caller's. -/
def OwnBuffer : Prop :=
  ∀ i < len, (∀ j ≤ i, canonical (add buf j)) → (c.byte (add buf i)).isSome

/-- The call does not touch the buffer, or may read it. -/
def MayWrite : Prop := c.tcb.caps &&& capWriteSerial = 0 ∨ c.OwnBuffer buf len

end Caller

/-- A loop over the buffer has read its first `i` bytes. -/
structure Fetching (view : Nat → Except Fault UInt8) (buf len i : Nat) (p : Port) : Prop where
  fetched : ∀ j < i, ∃ b, view (add buf j) = .ok b
  reads_ge : ∀ j < i, add buf j ∈ p.reads
  reads_le : ∀ v ∈ p.reads, ∃ j < len, v = add buf j ∧ ∀ j' ≤ j, ∃ b, view (add buf j') = .ok b

/-- How a loop over the buffer ends. -/
def Fetched (view : Nat → Except Fault UInt8) (buf len n : Nat) (o : Outcome Fault Unit) (p : Port) :
    Prop :=
  match o with
  | .ok _ => Fetching view buf len n p
  | .err f => ∃ i < len, Fetching view buf len i p ∧ view (add buf i) = .error f
  | .panic _ => False

section

variable {view view' : Nat → Except Fault UInt8} {buf len n i : Nat} {p p' : Port}

/-- What is sent does not matter. -/
theorem Fetching.congr (h : Fetching view buf len i p) (hreads : p'.reads = p.reads) :
    Fetching view buf len i p' :=
  ⟨h.fetched, hreads ▸ h.reads_ge, hreads ▸ h.reads_le⟩

/-- Another byte. -/
theorem Fetching.read {b : UInt8} (hi : i < len) (h : Fetching view buf len i p)
    (hb : view (add buf i) = .ok b) (hreads : p'.reads = add buf i :: p.reads) :
    Fetching view buf len (i + 1) p' := by
  have hall : ∀ j ≤ i, ∃ b, view (add buf j) = .ok b := by
    intro j hj
    by_cases hlt : j < i
    · exact h.fetched j hlt
    · obtain rfl : j = i := by omega
      exact ⟨b, hb⟩
  refine ⟨fun j hj => hall j (Nat.lt_succ_iff.mp hj), fun j hj => ?_, fun v hv => ?_⟩
  · rw [hreads]
    by_cases hlt : j < i
    · exact List.mem_cons_of_mem _ (h.reads_ge j hlt)
    · obtain rfl : j = i := by omega
      exact List.mem_cons_self
  · rw [hreads] at hv
    rcases List.mem_cons.mp hv with rfl | hv
    · exact ⟨i, hi, rfl, hall⟩
    · exact h.reads_le v hv

/-- **A loop over the buffer** stops at the first byte that faults. -/
theorem forRange_fetched (hn : n ≤ len) (item : UInt8 → Out) :
    Command.Spec (Fetching view buf len 0)
      (Command.forRange (fun i => do
        let b ← readByte view (add buf i)
        send (item b)) 0 n)
      (Fetched view buf len n) := by
  have hloop := @Command.Spec.forRange _ _ (Fetching view buf len)
    (Fetched view buf len n) (fun i => do
      let b ← readByte view (add buf i)
      send (item b)) 0 n (fun i _ hi p hp => ?_)
  · refine hloop.conseq (fun _ h => h) (fun o p h => ?_)
    cases o with
    | ok _ => rwa [Nat.zero_add] at h
    | err f => exact h
    | panic s => exact h
  · simp only [Command.bind_apply, readByte]
    cases hb : view (add buf i) with
    | ok b => exact hp.read (by omega) hb rfl
    | error f => exact ⟨i, by omega, hp, hb⟩

/-- Another loop may start. -/
theorem Fetching.restart (h : Fetching view buf len i p) : Fetching view buf len 0 p :=
  ⟨fun j hj => absurd hj (Nat.not_lt_zero j), fun j hj => absurd hj (Nat.not_lt_zero j), h.reads_le⟩

/-- **`serial_write_bytes`** stops at the first byte that faults. -/
theorem serialWriteBytes_fetched (cr3 : Nat) :
    Command.Spec (Fetching view buf len 0) (serialWriteBytes view cr3 buf len)
      (Fetched view buf len len) := by
  intro p hp
  simp only [serialWriteBytes, kprintln, kprint, outb]
  rw [send, Command.modify_bind, send, Command.modify_bind, send, Command.modify_bind]
  refine Command.Spec.seq (Q := Fetched view buf len len)
    (forRange_fetched (Nat.min_le_left len 32) (fun b => .text (hexByte b))) (fun _ => ?_)
    (fun _ _ h => h) (fun _ _ h => h) _ (hp.congr rfl)
  intro q hq
  rw [send, Command.modify_bind]
  exact forRange_fetched (Nat.le_refl len) Out.byte _ (hq.restart.congr rfl)

/-- Two views that agree up to the first fault. -/
theorem serialWriteBytes_congr (cr3 : Nat)
    (hsame : ∀ i < len, (∀ j < i, ∃ b, view (add buf j) = .ok b) →
      view' (add buf i) = view (add buf i)) :
    serialWriteBytes view' cr3 buf len = serialWriteBytes view cr3 buf len := by
  have hloop : ∀ {n : Nat} (emit : UInt8 → Command Port Fault Unit), n ≤ len →
      Command.forRange (fun i => do let b ← readByte view' (add buf i); emit b) 0 n =
        Command.forRange (fun i => do let b ← readByte view (add buf i); emit b) 0 n := by
    intro n emit hn
    funext p
    refine Command.forRange_congr (I := fun i _ => ∀ j < i, ∃ b, view (add buf j) = .ok b)
      (fun i _ hi p hp => ?_) (fun j hj => absurd hj (Nat.not_lt_zero j))
    have heq := hsame i (by omega) hp
    simp only [Command.bind_apply, readByte, heq]
    refine ⟨trivial, fun t ht j hj => ?_⟩
    by_cases hlt : j < i
    · exact hp j hlt
    · obtain rfl : j = i := by omega
      cases hb : view (add buf j) with
      | ok b => exact ⟨b, rfl⟩
      | error f =>
          rw [hb] at ht
          cases ht
  unfold serialWriteBytes
  rw [hloop _ (Nat.min_le_left len 32), hloop outb (Nat.le_refl len)]

end

namespace Caller

variable {c c' : Caller} {buf len i : Nat}

/-- What the call does depends on the caller's capability alone. -/
theorem sysWrite_eq (c : Caller) (buf len : Nat) :
    c.sysWrite buf len =
      if c.tcb.caps &&& capWriteSerial = 0 then
        kprintln "[cap] sys_write DENIED - process lacks CAP_WRITE_SERIAL" Port.empty
      else serialWriteBytes (fetch c.kernel.mem c.tcb.cr3) c.tcb.cr3 buf len Port.empty := by
  have hcaps : caps c.kernel.sched = c.tcb.caps := by
    unfold caps
    rw [c.current_eq]
    rfl
  rw [sysWrite, checkedSysWrite, hcaps, c.own_table]
  split <;> rfl

/-- What a call with the capability has read. -/
theorem sysWrite_fetched (hcap : ¬c.tcb.caps &&& capWriteSerial = 0) (buf len : Nat) :
    Fetched (fetch c.kernel.mem c.tcb.cr3) buf len len (c.sysWrite buf len).1
      (c.sysWrite buf len).2 := by
  rw [sysWrite_eq, if_neg hcap]
  refine serialWriteBytes_fetched _ _ ⟨?_, ?_, ?_⟩
  · exact fun j hj => absurd hj (Nat.not_lt_zero j)
  · exact fun j hj => absurd hj (Nat.not_lt_zero j)
  · intro v hv
    cases hv

/-- What can be read is at a canonical address. -/
theorem canonical_of_fetch {v : Nat} {b : UInt8} (h : fetch c.kernel.mem c.tcb.cr3 v = .ok b) :
    canonical v := by
  by_contra hv
  rw [fetch_not_canonical hv] at h
  cases h

/-- In a buffer of its own a caller reads its own bytes. -/
theorem OwnBuffer.read (h : c.OwnBuffer buf len) (hi : i < len)
    (hfetched : ∀ j ≤ i, ∃ b, fetch c.kernel.mem c.tcb.cr3 (add buf j) = .ok b) :
    (c.byte (add buf i)).isSome := by
  refine h i hi (fun j hj => ?_)
  obtain ⟨b, hb⟩ := hfetched j hj
  exact canonical_of_fetch hb

/-- What follows the bytes that were read is the caller's, or no address. -/
theorem OwnBuffer.next (h : c.OwnBuffer buf len) (hi : i < len)
    (hfetched : ∀ j < i, ∃ b, fetch c.kernel.mem c.tcb.cr3 (add buf j) = .ok b) :
    (c.byte (add buf i)).isSome ∨ ¬canonical (add buf i) := by
  by_cases hv : canonical (add buf i)
  · refine Or.inl (h i hi (fun j hj => ?_))
    by_cases hlt : j < i
    · obtain ⟨b, hb⟩ := hfetched j hlt
      exact canonical_of_fetch hb
    · obtain rfl : j = i := by omega
      exact hv
  · exact Or.inr hv

/-- To a caller with a buffer of its own two kernels look the same. -/
theorem OwnBuffer.fetch_eq (h : c.OwnBuffer buf len) (hagrees : c.Agrees c') (hi : i < len)
    (hfetched : ∀ j < i, ∃ b, fetch c.kernel.mem c.tcb.cr3 (add buf j) = .ok b) :
    fetch c'.kernel.mem c'.tcb.cr3 (add buf i) = fetch c.kernel.mem c.tcb.cr3 (add buf i) := by
  rcases h.next hi hfetched with hown | hv
  · obtain ⟨b, hb⟩ := Option.isSome_iff_exists.mp hown
    have hb' : c'.byte (add buf i) = some b := (hagrees.byte_eq _).trans hb
    rw [fetch_of_userByte hb, fetch_of_userByte hb']
  · rw [fetch_not_canonical hv, fetch_not_canonical hv]

/-- With the buffer in its own memory the caller gets what it has asked for. -/
theorem OwnBuffer.respects (hcap : ¬c.tcb.caps &&& capWriteSerial = 0)
    (h : c.OwnBuffer buf len) : c.Respects buf len := by
  have hrun := sysWrite_fetched hcap buf len
  refine ⟨fun v hv => ?_, fun v hfault => ?_, fun c' hagrees => ?_⟩
  · have hreads : ∀ i, Fetching (fetch c.kernel.mem c.tcb.cr3) buf len i (c.sysWrite buf len).2 →
        (c.byte v).isSome := by
      intro i hi
      obtain ⟨j, hj, rfl, hfetched⟩ := hi.reads_le v hv
      exact h.read hj hfetched
    cases ho : (c.sysWrite buf len).1 with
    | ok _ =>
        rw [ho] at hrun
        exact hreads _ hrun
    | err f =>
        rw [ho] at hrun
        obtain ⟨i, -, hi, -⟩ := hrun
        exact hreads i hi
    | panic s =>
        rw [ho] at hrun
        exact hrun.elim
  · rw [hfault] at hrun
    obtain ⟨i, hlt, hi, herr⟩ := hrun
    rcases h.next hlt hi.fetched with hown | hv
    · obtain ⟨b, hb⟩ := Option.isSome_iff_exists.mp hown
      rw [fetch_of_userByte hb] at herr
      cases herr
    · rw [fetch_not_canonical hv] at herr
      cases herr
  · have hcap' : ¬c'.tcb.caps &&& capWriteSerial = 0 := hagrees.tcb_eq ▸ hcap
    rw [sysWrite_eq, sysWrite_eq, if_neg hcap, if_neg hcap', hagrees.tcb_eq]
    have hsame := serialWriteBytes_congr c.tcb.cr3
      (fun i hi hfetched => h.fetch_eq hagrees hi hfetched)
    rw [hagrees.tcb_eq] at hsame
    rw [hsame]

/-- And only then. -/
theorem Respects.ownBuffer (hcap : ¬c.tcb.caps &&& capWriteSerial = 0)
    (h : c.Respects buf len) : c.OwnBuffer buf len := by
  have hrun := sysWrite_fetched hcap buf len
  intro i hi hcanonical
  cases ho : (c.sysWrite buf len).1 with
  | ok _ =>
      rw [ho] at hrun
      exact h.reads_own _ (hrun.reads_ge i hi)
  | err f =>
      rw [ho] at hrun
      obtain ⟨n, -, hn, herr⟩ := hrun
      by_cases hlt : i < n
      · exact h.reads_own _ (hn.reads_ge i hlt)
      -- the byte that stopped the call was at a canonical address
      · obtain rfl := fetch_error (hcanonical n (by omega)) herr
        exact absurd ho (h.no_page_fault _)
  | panic s =>
      rw [ho] at hrun
      exact hrun.elim

end Caller

/-- **When system call 1 keeps to its caller.**  For every caller, every `buf`
and every `len` the call reads only what the caller may read, takes no page
fault and sends what the caller's own memory determines, exactly if the caller
lacks the capability or every byte of the buffer up to the first address that
is not canonical is the caller's. -/
theorem sysWrite_respects_iff (c : Caller) (buf len : Nat) :
    c.Respects buf len ↔ c.MayWrite buf len := by
  by_cases hcap : c.tcb.caps &&& capWriteSerial = 0
  · refine ⟨fun _ => Or.inl hcap, fun _ => ⟨?_, ?_, ?_⟩⟩
    · intro v hv
      rw [Caller.sysWrite_eq, if_pos hcap] at hv
      cases hv
    · intro v hfault
      rw [Caller.sysWrite_eq, if_pos hcap] at hfault
      cases hfault
    · intro c' hagrees
      have hcap' : c'.tcb.caps &&& capWriteSerial = 0 := hagrees.tcb_eq ▸ hcap
      rw [Caller.sysWrite_eq, Caller.sysWrite_eq, if_pos hcap, if_pos hcap']
  · constructor
    · exact fun h => Or.inr (h.ownBuffer hcap)
    · exact fun h => (h.resolve_left hcap).respects hcap

/-- The kernel's PML4 at `0x1000`; entry 256 leads to a direct map of the first
gibibyte, for ring 0 only. -/
def directMapRam : Mem := writeLE (writeLE (fun _ => 0) 0x1800 8 0x2003) 0x2000 8 0x83

/-- A program with `CAP_WRITE_SERIAL` runs as task 2. -/
def callerMachine : Machine :=
  ((lifeSystem wideMap).exec (bootMachine wideMap)
    [.spawn 0x100, .run, .work ⟨⟨0, 0, 0, 0, 0, 0, 0, 0⟩, 0x1000⟩ directMapRam,
      .spawnProgram 0x8000 100 goodElf 1, .yieldNow]).getD (bootMachine wideMap)

/-- **The kernel's memory goes out on the serial port**, and a pointer to
nothing faults in the kernel. -/
theorem sysWrite_leaves_caller : ∃ c : Caller, c.kernel = callerMachine.kernel ∧
    (lifeSystem wideMap).Reach callerMachine ∧ c.tcb.isolatedTableFrames.isSome ∧
    (c.sysWrite 0xFFFF800000001800 1).2.payload = [0x03] ∧
    ¬c.Respects 0xFFFF800000001800 1 ∧ ¬c.Respects 0 1 := by
  have hreach : (lifeSystem wideMap).Reach callerMachine :=
    TransitionSystem.Reach.exec (TransitionSystem.Run.boot ⟨rfl, rfl, rfl⟩)
      (eq_some_getD (by decide +kernel) (bootMachine wideMap))
  have htask : (currentTcb callerMachine.kernel.sched).map
      (fun t => (t.cr3, t.isolatedTableFrames.isSome)) =
        some (callerMachine.kernel.cpu.cr3, true) := by decide +kernel
  have hread : (checkedSysWrite callerMachine.kernel 0xFFFF800000001800 1 Port.empty).2.reads =
      [0xFFFF800000001800, 0xFFFF800000001800] := by decide +kernel
  have hpayload : (checkedSysWrite callerMachine.kernel 0xFFFF800000001800 1 Port.empty).2.payload =
      [0x03] := by decide +kernel
  have hfault : (checkedSysWrite callerMachine.kernel 0 1 Port.empty).1 = .err (.page 0) := by
    decide +kernel
  have hbyte : userByte callerMachine.kernel.mem callerMachine.kernel.cpu.cr3 0xFFFF800000001800 =
      none := by decide +kernel
  obtain ⟨t, ht, hpair⟩ := Option.map_eq_some_iff.mp htask
  obtain ⟨hcr3, hisolated⟩ := Prod.mk.inj hpair
  let c : Caller := ⟨callerMachine.kernel, t, ht, hcr3.symm⟩
  refine ⟨c, rfl, hreach, hisolated, hpayload, fun h => ?_, fun h => ?_⟩
  · have hown := h.reads_own 0xFFFF800000001800 (by rw [Caller.sysWrite, hread]; simp)
    rw [Caller.byte, hcr3, hbyte] at hown
    cases hown
  · exact h.no_page_fault 0 hfault

end Scheduler
