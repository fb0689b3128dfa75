import Noxisa.ByteMemory
import Noxisa.WordMixing

/-!
# The PCI bus

The model of `drivers/pci.rs`: the configuration ports, the decoding of a
function's header, and the scan of all buses.

Every access writes an address to `CONFIG_ADDRESS` and reads `CONFIG_DATA`.
What the host bridge makes of the address is in `HostBridge.inl`; a function is
named by its routing id, which holds bus, device and function number.
`scan_finds` says what a scan finds, in the terms of the configuration space.
-/

namespace Pci

open ByteMemory

/-- The host bridge: what was written to `CONFIG_ADDRESS`, and the configuration
space of each function by its routing id. -/
structure HostBridge where
  address : Nat
  space : Nat → Mem

/-- `outl(CONFIG_ADDRESS, val)` -/
def HostBridge.outl (b : HostBridge) (val : Nat) : HostBridge := { b with address := val }

/-- `inl(CONFIG_DATA)`: bit 31 enables the access, bits 8 to 23 are the routing
id, and bits 2 to 7 the register. -/
def HostBridge.inl (b : HostBridge) : Nat :=
  if b.address.testBit 31 then
    readLE (b.space (b.address / 2 ^ 8 % 2 ^ 16)) (b.address % 2 ^ 8 / 4 * 4) 4
  else 2 ^ 32 - 1

/-- `config_read_u32`: the register address goes to port 0xCF8, the word comes from port
0xCFC. -/
def configReadU32 (b : HostBridge) (bus device function offset : Nat) : Nat :=
  let address := (1 <<< 31) ||| (bus <<< 16) ||| (device <<< 11) ||| (function <<< 8) |||
    (offset &&& 0xFC)
  (b.outl address).inl

/-- `config_read_u16`: half of the word that holds the offset. -/
def configReadU16 (b : HostBridge) (bus device function offset : Nat) : Nat :=
  let dword := configReadU32 b bus device function (offset &&& 0xFC)
  let shift := (offset &&& 2) * 8
  (dword >>> shift) &&& 0xFFFF

/-- `config_read_u8`: a byte of it. -/
def configReadU8 (b : HostBridge) (bus device function offset : Nat) : Nat :=
  let dword := configReadU32 b bus device function (offset &&& 0xFC)
  let shift := (offset &&& 3) * 8
  (dword >>> shift) &&& 0xFF

/-- `Bar` -/
structure Bar where
  base : Nat
  isMmio : Bool
  is64bit : Bool
  prefetchable : Bool
deriving DecidableEq

/-- `PciDevice` -/
structure PciDevice where
  bus : Nat
  device : Nat
  function : Nat
  vendorId : Nat
  deviceId : Nat
  devClass : Nat
  subclass : Nat
  progIf : Nat
  bar0 : Option Bar
deriving DecidableEq

/-- The offsets in a header, as in the source. -/
def offsetVendorId : Nat := 0x00
def offsetDeviceId : Nat := 0x02
def offsetHeaderType : Nat := 0x0E
def offsetClass : Nat := 0x0B
def offsetSubclass : Nat := 0x0A
def offsetProgIf : Nat := 0x09
def offsetBar0 : Nat := 0x10
def offsetBar1 : Nat := 0x14

/-- The class codes of an NVMe controller. -/
def nvmeClass : Nat := 0x01
def nvmeSubclass : Nat := 0x08
def nvmeProgIf : Nat := 0x02

/-- `raw & !mask` on 32 bits -/
def clear (raw mask : Nat) : Nat := raw &&& (2 ^ 32 - 1 - mask)

/-- The decoding of BAR0 in `read_bar0`; BAR1 counts only for 64 bits. -/
def decodeBar (raw0 raw1 : Nat) : Option Bar :=
  if raw0 = 0 then none
  else if raw0 &&& 0x1 = 1 then some ⟨clear raw0 0x3, false, false, false⟩
  else
    let barType := (raw0 >>> 1) &&& 0x3
    let prefetchable : Bool := (raw0 >>> 3) &&& 0x1 = 1
    let is64bit : Bool := barType = 2
    let base := if is64bit then (raw1 <<< 32) ||| clear raw0 0xF else clear raw0 0xF
    some ⟨base, true, is64bit, prefetchable⟩

/-- `read_bar0`: both halves are read, whatever the type of the first. -/
def readBar0 (b : HostBridge) (bus device function : Nat) : Option Bar :=
  decodeBar (configReadU32 b bus device function offsetBar0)
    (configReadU32 b bus device function offsetBar1)

/-- `probe_function`: a function that is not there answers with all ones. -/
def probeFunction (b : HostBridge) (bus device function : Nat) : Option PciDevice :=
  let vendorId := configReadU16 b bus device function offsetVendorId
  if vendorId = 0xFFFF then none
  else some {
    bus := bus
    device := device
    function := function
    vendorId := vendorId
    deviceId := configReadU16 b bus device function offsetDeviceId
    devClass := configReadU8 b bus device function offsetClass
    subclass := configReadU8 b bus device function offsetSubclass
    progIf := configReadU8 b bus device function offsetProgIf
    bar0 := readBar0 b bus device function }

/-- How many functions `enumerate` looks at in a slot. -/
def maxFunction (b : HostBridge) (bus device : Nat) : Nat :=
  let headerType := configReadU8 b bus device 0 offsetHeaderType
  let vendorId := configReadU16 b bus device 0 offsetVendorId
  if vendorId = 0xFFFF then 0
  else
    let multiFunction : Bool := headerType &&& 0x80 ≠ 0
    if multiFunction then 8 else 1

/-- What `visit` captures is passed on as `s`. -/
def enumerate {σ : Type} (b : HostBridge) (visit : σ → PciDevice → σ) (s : σ) : σ :=
  (List.range 256).foldl (fun s bus =>
    (List.range 32).foldl (fun s device =>
      (List.range (maxFunction b bus device)).foldl (fun s function =>
        match probeFunction b bus device function with
        | some dev => visit s dev
        | none => s) s) s) s

/-- `PciDevice::is_nvme` -/
def PciDevice.isNvme (dev : PciDevice) : Bool :=
  dev.devClass == nvmeClass && dev.subclass == nvmeSubclass && dev.progIf == nvmeProgIf

/-- `find_nvme`: the visitor keeps the first device that is an NVMe controller. -/
def findNvme (b : HostBridge) : Option PciDevice :=
  enumerate b (fun found dev => if found.isNone && dev.isNvme then some dev else found) none

/-- Bus, device and function in one number, as the bus has it. -/
def routingId (bus device function : Nat) : Nat := bus * 2 ^ 8 + device * 2 ^ 3 + function

section

variable {b : HostBridge} {bus device function offset : Nat}

/-- An offset is masked to the start of its word. -/
theorem offset_masked (h : offset < 256) : offset &&& 0xFC = offset / 4 * 4 := by
  have hall : ∀ x < 256, x &&& 0xFC = x / 4 * 4 := by decide +kernel
  exact hall offset h

/-- The fields of an address do not overlap. -/
theorem address_eq (hdevice : device < 32) (hfunction : function < 8) (hoffset : offset < 256) :
    (1 <<< 31) ||| (bus <<< 16) ||| (device <<< 11) ||| (function <<< 8) ||| (offset &&& 0xFC) =
      1 <<< 31 ||| (routingId bus device function * 2 ^ 8 + offset / 4 * 4) := by
  have hlow : offset / 4 * 4 < 2 ^ 8 := by omega
  have hfn : function <<< 8 + offset / 4 * 4 < 2 ^ 11 := by
    rw [Nat.shiftLeft_eq]
    omega
  have hdev : device <<< 11 + (function <<< 8 + offset / 4 * 4) < 2 ^ 16 := by
    rw [Nat.shiftLeft_eq device]
    omega
  have hsum : bus <<< 16 + (device <<< 11 + (function <<< 8 + offset / 4 * 4)) =
      routingId bus device function * 2 ^ 8 + offset / 4 * 4 := by
    rw [Nat.shiftLeft_eq, Nat.shiftLeft_eq, Nat.shiftLeft_eq, routingId]
    omega
  rw [offset_masked hoffset, Nat.lor_assoc, Nat.lor_assoc, Nat.lor_assoc,
    ← Nat.shiftLeft_add_eq_or_of_lt hlow, ← Nat.shiftLeft_add_eq_or_of_lt hfn,
    ← Nat.shiftLeft_add_eq_or_of_lt hdev, hsum]

/-- The host bridge takes an address apart again. -/
theorem inl_outl {id : Nat} (hid : id < 2 ^ 16) (hoffset : offset < 256) :
    (b.outl (1 <<< 31 ||| (id * 2 ^ 8 + offset / 4 * 4))).inl =
      readLE (b.space id) (offset / 4 * 4) 4 := by
  have hlow : id * 2 ^ 8 + offset / 4 * 4 < 2 ^ 31 := by omega
  have henable : (2 ^ 31 + (id * 2 ^ 8 + offset / 4 * 4)).testBit 31 = true := by
    rw [Nat.testBit_two_pow_add_eq, Nat.testBit_lt_two_pow hlow]
    rfl
  have hfield : (2 ^ 31 + (id * 2 ^ 8 + offset / 4 * 4)) / 2 ^ 8 % 2 ^ 16 = id := by omega
  have hregister : (2 ^ 31 + (id * 2 ^ 8 + offset / 4 * 4)) % 2 ^ 8 / 4 * 4 = offset / 4 * 4 := by
    omega
  rw [← Nat.shiftLeft_add_eq_or_of_lt hlow, Nat.shiftLeft_eq, Nat.one_mul, HostBridge.inl,
    HostBridge.outl, if_pos henable, hfield, hregister]

/-- A routing id has 16 bits. -/
private theorem routingId_lt (hbus : bus < 256) (hdevice : device < 32) (hfunction : function < 8) :
    routingId bus device function < 2 ^ 16 := by
  unfold routingId
  omega

/-- A word is read at the word-aligned offset of the function's configuration space. -/
theorem configReadU32_eq (hbus : bus < 256) (hdevice : device < 32) (hfunction : function < 8)
    (hoffset : offset < 256) :
    configReadU32 b bus device function offset =
      readLE (b.space (routingId bus device function)) (offset / 4 * 4) 4 := by
  simp only [configReadU32]
  rw [address_eq hdevice hfunction hoffset,
    inl_outl (routingId_lt hbus hdevice hfunction) hoffset]

/-- The bytes that a driver shifts out of a register. -/
theorem shifted_part (m : Mem) (a : Nat) {k j : Nat} (h : k + j ≤ 4) :
    (readLE m a 4 >>> (k * 8)) &&& (2 ^ (8 * j) - 1) = readLE m (a + k) j := by
  rw [Nat.and_two_pow_sub_one_eq_mod, Nat.shiftRight_eq_div_pow, Nat.mul_comm k 8,
    Nat.pow_mul, Nat.pow_mul]
  exact readLE_part m a h

/-- A byte is read at its own offset. -/
theorem configReadU8_eq (hbus : bus < 256) (hdevice : device < 32) (hfunction : function < 8)
    (hoffset : offset < 256) :
    configReadU8 b bus device function offset =
      readLE (b.space (routingId bus device function)) offset 1 := by
  have hregister : offset / 4 * 4 / 4 * 4 = offset / 4 * 4 := by omega
  have hbyte : offset / 4 * 4 + offset % 4 = offset := by omega
  have hshift : offset &&& 3 = offset % 4 := Nat.and_two_pow_sub_one_eq_mod offset 2
  have hpart := shifted_part (b.space (routingId bus device function)) (offset / 4 * 4)
    (k := offset % 4) (j := 1) (by omega)
  rw [hbyte] at hpart
  simp only [configReadU8]
  rw [offset_masked hoffset, configReadU32_eq hbus hdevice hfunction (by omega), hregister, hshift]
  exact hpart

/-- The two-byte fields start at even offsets. -/
theorem configReadU16_eq (hbus : bus < 256) (hdevice : device < 32) (hfunction : function < 8)
    (hoffset : offset < 256) (heven : offset % 2 = 0) :
    configReadU16 b bus device function offset =
      readLE (b.space (routingId bus device function)) offset 2 := by
  have hregister : offset / 4 * 4 / 4 * 4 = offset / 4 * 4 := by omega
  have hbytes : offset / 4 * 4 + offset % 4 = offset := by omega
  have hshift : offset &&& 2 = offset % 4 := by
    have hall : ∀ x < 256, x % 2 = 0 → x &&& 2 = x % 4 := by decide +kernel
    exact hall offset hoffset heven
  have hpart := shifted_part (b.space (routingId bus device function)) (offset / 4 * 4)
    (k := offset % 4) (j := 2) (by omega)
  rw [hbytes] at hpart
  simp only [configReadU16]
  rw [offset_masked hoffset, configReadU32_eq hbus hdevice hfunction (by omega), hregister, hshift]
  exact hpart

end

/-- The header of a function, read from its configuration space. -/
def record (space : Nat → Mem) (id : Nat) : PciDevice where
  bus := id / 2 ^ 8
  device := id / 2 ^ 3 % 2 ^ 5
  function := id % 2 ^ 3
  vendorId := readLE (space id) offsetVendorId 2
  deviceId := readLE (space id) offsetDeviceId 2
  devClass := readLE (space id) offsetClass 1
  subclass := readLE (space id) offsetSubclass 1
  progIf := readLE (space id) offsetProgIf 1
  bar0 := decodeBar (readLE (space id) offsetBar0 4) (readLE (space id) offsetBar1 4)

/-- A function that does not answer reads as all ones. -/
def Present (space : Nat → Mem) (id : Nat) : Prop :=
  readLE (space id) offsetVendorId 2 ≠ 0xFFFF

/-- Bit 7 of the header type says that a device has more functions than one. -/
def Multi (space : Nat → Mem) (id : Nat) : Prop :=
  readLE (space id) offsetHeaderType 1 &&& 0x80 ≠ 0

/-- Function 0 of the same device. -/
def first (id : Nat) : Nat := id / 2 ^ 3 * 2 ^ 3

/-- A scan sees the functions that answer, where function 0 of the device
answers too and the device has the function by its header type. -/
structure Visible (space : Nat → Mem) (id : Nat) : Prop where
  slot : Present space (first id)
  among : first id = id ∨ Multi space (first id)
  present : Present space id

instance (space : Nat → Mem) (id : Nat) : Decidable (Present space id) :=
  inferInstanceAs (Decidable (_ ≠ _))

instance (space : Nat → Mem) (id : Nat) : Decidable (Multi space id) :=
  inferInstanceAs (Decidable (_ ≠ _))

/-- What the loops visit, said of one function. -/
theorem visible_def {space : Nat → Mem} {id : Nat} :
    (Present space (first id) ∧ (first id = id ∨ Multi space (first id)) ∧ Present space id) ↔
      Visible space id :=
  ⟨fun ⟨hslot, hamong, hpresent⟩ => ⟨hslot, hamong, hpresent⟩,
    fun h => ⟨h.slot, h.among, h.present⟩⟩

instance (space : Nat → Mem) (id : Nat) : Decidable (Visible space id) :=
  decidable_of_iff _ visible_def

/-- The functions a scan sees, by their routing ids. -/
def visibleIds (space : Nat → Mem) : List Nat :=
  (List.range (2 ^ 16)).filter (fun id => Visible space id)

section

variable {b : HostBridge} {bus device function : Nat}

/-- The first function of a device. -/
private theorem first_routingId (hfunction : function < 8) :
    first (routingId bus device function) = routingId bus device 0 := by
  unfold first routingId
  omega

/-- `probe_function` makes the record of a function that is there. -/
theorem probeFunction_eq (hbus : bus < 256) (hdevice : device < 32) (hfunction : function < 8) :
    probeFunction b bus device function =
      if Present b.space (routingId bus device function) then
        some (record b.space (routingId bus device function))
      else none := by
  have hbusOf : routingId bus device function / 2 ^ 8 = bus := by unfold routingId; omega
  have hdeviceOf : routingId bus device function / 2 ^ 3 % 2 ^ 5 = device := by
    unfold routingId
    omega
  have hfunctionOf : routingId bus device function % 2 ^ 3 = function := by
    unfold routingId
    omega
  have hword (offset : Nat) (h : offset < 256) (heven : offset % 2 = 0) :=
    configReadU16_eq (b := b) hbus hdevice hfunction h heven
  have hbyte (offset : Nat) (h : offset < 256) :=
    configReadU8_eq (b := b) hbus hdevice hfunction h
  have hbar : readBar0 b bus device function =
      decodeBar (readLE (b.space (routingId bus device function)) offsetBar0 4)
        (readLE (b.space (routingId bus device function)) offsetBar1 4) := by
    rw [readBar0, configReadU32_eq hbus hdevice hfunction (by decide),
      configReadU32_eq hbus hdevice hfunction (by decide)]
    rfl
  simp only [probeFunction, Present, record, hbusOf, hdeviceOf, hfunctionOf, hbar,
    hword offsetVendorId (by decide) (by decide), hword offsetDeviceId (by decide) (by decide),
    hbyte offsetClass (by decide), hbyte offsetSubclass (by decide),
    hbyte offsetProgIf (by decide), ite_not]

/-- How many functions of a device are probed: all eight where the first one says so,
the first one alone otherwise. -/
theorem maxFunction_eq (hbus : bus < 256) (hdevice : device < 32) :
    maxFunction b bus device =
      if Present b.space (routingId bus device 0) then
        if Multi b.space (routingId bus device 0) then 8 else 1
      else 0 := by
  have htype : configReadU8 b bus device 0 offsetHeaderType =
      readLE (b.space (routingId bus device 0)) offsetHeaderType 1 :=
    configReadU8_eq hbus hdevice (by decide) (by decide)
  have hvendor : configReadU16 b bus device 0 offsetVendorId =
      readLE (b.space (routingId bus device 0)) offsetVendorId 2 :=
    configReadU16_eq hbus hdevice (by decide) (by decide) (by decide)
  simp only [maxFunction, Present, Multi, htype, hvendor]
  split_ifs <;> simp_all

/-- At most eight functions are probed. -/
private theorem maxFunction_le (hbus : bus < 256) (hdevice : device < 32) :
    maxFunction b bus device ≤ 8 := by
  rw [maxFunction_eq hbus hdevice]
  split_ifs <;> decide

/-- The loop reaches the functions that are visible. -/
theorem visible_iff (hbus : bus < 256) (hdevice : device < 32) (hfunction : function < 8) :
    Visible b.space (routingId bus device function) ↔
      function < maxFunction b bus device ∧ Present b.space (routingId bus device function) := by
  have hzero : routingId bus device 0 = routingId bus device function ↔ function = 0 := by
    unfold routingId
    omega
  rw [← visible_def, first_routingId hfunction, hzero, maxFunction_eq hbus hdevice, ← and_assoc]
  refine and_congr_left fun _ => ?_
  split_ifs with hslot hmulti
  · simp [hslot, hmulti, hfunction]
  · simp [hslot, hmulti]
  · simp [hslot]

end

/-- Two nested loops are one. -/
theorem foldl_range_mul {α : Type} (f : α → Nat → α) (s : α) (m n : Nat) :
    (List.range (m * n)).foldl f s =
      (List.range m).foldl (fun s i => (List.range n).foldl (fun s j => f s (i * n + j)) s) s := by
  induction m with
  | zero => simp
  | succ m ih =>
      rw [Nat.succ_mul, List.range_add, List.foldl_append, ih, List.range_succ, List.foldl_append,
        List.foldl_map]
      rfl

section

variable {σ : Type} {b : HostBridge} {visit : σ → PciDevice → σ}

/-- What the loops do at one function. -/
def look (b : HostBridge) (visit : σ → PciDevice → σ) (s : σ) (id : Nat) : σ :=
  if Visible b.space id then visit s (record b.space id) else s

/-- The loop over a slot's functions leaves out only functions that are not visible. -/
theorem slot_look {bus device : Nat} (hbus : bus < 256) (hdevice : device < 32) (s : σ) :
    (List.range (maxFunction b bus device)).foldl (fun s function =>
        match probeFunction b bus device function with
        | some dev => visit s dev
        | none => s) s =
      (List.range 8).foldl (fun s function =>
        look b visit s (routingId bus device function)) s := by
  have hle := maxFunction_le (b := b) hbus hdevice
  have hrange : 8 = maxFunction b bus device + (8 - maxFunction b bus device) := by omega
  have hreached : ∀ s, ∀ function ∈ List.range (maxFunction b bus device),
      (match probeFunction b bus device function with
        | some dev => visit s dev
        | none => s) = look b visit s (routingId bus device function) := by
    intro s function hmem
    have hlt : function < maxFunction b bus device := List.mem_range.mp hmem
    have hvisible := visible_iff (b := b) hbus hdevice (show function < 8 by omega)
    simp only [hlt, true_and] at hvisible
    rw [probeFunction_eq hbus hdevice (by omega), look]
    simp only [hvisible]
    split_ifs <;> rfl
  have hskipped : ∀ s, ∀ k ∈ List.range (8 - maxFunction b bus device),
      look b visit s (routingId bus device (maxFunction b bus device + k)) = s := by
    intro s k hmem
    have hlt : k < 8 - maxFunction b bus device := List.mem_range.mp hmem
    have hvisible := visible_iff (b := b) hbus hdevice
      (show maxFunction b bus device + k < 8 by omega)
    exact if_neg (fun h => by have := (hvisible.mp h).1; omega)
  rw [hrange, List.range_add, List.foldl_append, List.foldl_map,
    List.foldl_ext _ _ _ hskipped, List.foldl_fixed, ← List.foldl_ext _ _ _ hreached]

/-- The three loops look at every routing id once, in increasing order. -/
theorem enumerate_look (s : σ) :
    enumerate b visit s = (List.range (2 ^ 16)).foldl (look b visit) s := by
  have hids : 2 ^ 16 = 256 * (32 * 8) := rfl
  rw [hids, foldl_range_mul, enumerate]
  refine List.foldl_ext _ _ _ (fun s bus hmem => ?_)
  have hbus : bus < 256 := List.mem_range.mp hmem
  rw [foldl_range_mul]
  refine List.foldl_ext _ _ _ (fun s device hmem => ?_)
  have hdevice : device < 32 := List.mem_range.mp hmem
  rw [slot_look hbus hdevice]
  refine List.foldl_ext _ _ _ (fun s function _ => ?_)
  rw [routingId, Nat.add_assoc]
  rfl

/-- A scan visits the visible functions, each once and in increasing order. -/
theorem enumerate_eq (s : σ) :
    enumerate b visit s = ((visibleIds b.space).map (record b.space)).foldl visit s := by
  rw [enumerate_look, visibleIds, List.foldl_map, List.foldl_filter]
  simp only [decide_eq_true_eq]
  rfl

end

/-- The visitor of `find_nvme` keeps the first match. -/
private theorem foldl_first {α : Type} (p : α → Bool) (l : List α) (found : Option α) :
    l.foldl (fun found x => if found.isNone && p x then some x else found) found =
      found.or (l.find? p) := by
  induction l generalizing found with
  | nil => simp
  | cons x l ih =>
      rw [List.foldl_cons, ih, List.find?_cons]
      cases found <;> cases p x <;> rfl

/-- `find_nvme` searches the visible functions in order. -/
theorem findNvme_eq (b : HostBridge) :
    findNvme b = ((visibleIds b.space).map (record b.space)).find? PciDevice.isNvme := by
  rw [findNvme, enumerate_eq, foldl_first, Option.none_or]

/-- The visible functions are listed, and no other. -/
theorem mem_visibleIds {space : Nat → Mem} {id : Nat} :
    id ∈ visibleIds space ↔ id < 2 ^ 16 ∧ Visible space id := by
  rw [visibleIds, List.mem_filter, List.mem_range, decide_eq_true_eq]

/-- They are listed in increasing order. -/
theorem visibleIds_increasing (space : Nat → Mem) : (visibleIds space).Pairwise (· < ·) :=
  List.pairwise_lt_range.filter _

/-- A record says which function it is of. -/
private theorem record_routingId (space : Nat → Mem) (id : Nat) :
    routingId (record space id).bus (record space id).device (record space id).function = id := by
  simp only [routingId, record]
  omega

/-- A memory region of a device, as its BAR0, and for 64 bits its BAR1, says. -/
structure MemoryBar where
  base : Nat
  wide : Bool
  prefetchable : Bool
  aligned : 2 ^ 4 ∣ base
  fits : base < 2 ^ (if wide then 64 else 32)

/-- BAR0: bit 2 is set for 64 bits, and bit 3 for a region that may be prefetched. -/
def MemoryBar.low (m : MemoryBar) : Nat :=
  m.base % 2 ^ 32 + (if m.prefetchable then 2 ^ 3 else 0) + (if m.wide then 2 ^ 2 else 0)

/-- A BAR1 that belongs to a 64-bit BAR0. -/
def MemoryBar.high (m : MemoryBar) : Nat := m.base / 2 ^ 32

/-- The header at `h` has the region `m`. -/
structure MemoryBar.HeldIn (m : MemoryBar) (h : Mem) : Prop where
  low : readLE h offsetBar0 4 = m.low
  high : m.wide → readLE h offsetBar1 4 = m.high

/-- A BAR0 that is all zero counts as no region. -/
def MemoryBar.decoded (m : MemoryBar) : Option Bar :=
  if m.low = 0 then none
  else some { base := m.base, isMmio := true, is64bit := m.wide, prefetchable := m.prefetchable }

section

variable (m : MemoryBar)

/-- The base is left when the low bits are cleared. -/
theorem MemoryBar.clear_low : clear m.low 0xF = m.base % 2 ^ 32 := by
  have hfield : clear m.low 0xF = m.low / 2 ^ 4 % 2 ^ 28 * 2 ^ 4 :=
    WordMixing.and_field m.low 4 28
  have haligned := m.aligned
  rw [hfield, MemoryBar.low]
  split_ifs <;> omega

/-- A memory region has bit 0 clear. -/
theorem MemoryBar.low_memory : m.low &&& 0x1 = 0 := by
  have haligned := m.aligned
  rw [Nat.and_one_is_mod, MemoryBar.low]
  split_ifs <;> omega

/-- Its type is in bits 1 and 2. -/
theorem MemoryBar.low_type : (m.low >>> 1) &&& 0x3 = if m.wide then 2 else 0 := by
  have haligned := m.aligned
  have htype : (m.low >>> 1) &&& 0x3 = m.low / 2 ^ 1 % 2 ^ 2 := by
    rw [← Nat.shiftRight_eq_div_pow, ← Nat.and_two_pow_sub_one_eq_mod]
  rw [htype, MemoryBar.low]
  split_ifs <;> omega

/-- Whether it is prefetchable is in bit 3. -/
theorem MemoryBar.low_prefetchable :
    (m.low >>> 3) &&& 0x1 = if m.prefetchable then 1 else 0 := by
  have haligned := m.aligned
  rw [Nat.and_one_is_mod, Nat.shiftRight_eq_div_pow, MemoryBar.low]
  split_ifs <;> omega

/-- The two halves of a base are put together again. -/
theorem MemoryBar.base_eq : (m.high <<< 32) ||| m.base % 2 ^ 32 = m.base := by
  have hlow : m.base % 2 ^ 32 < 2 ^ 32 := Nat.mod_lt _ (by decide)
  rw [← Nat.shiftLeft_add_eq_or_of_lt hlow, Nat.shiftLeft_eq, MemoryBar.high]
  exact Nat.div_add_mod' m.base (2 ^ 32)

/-- A memory region is decoded to itself. -/
theorem MemoryBar.decodeBar_eq {raw1 : Nat} (hhigh : m.wide → raw1 = m.high) :
    decodeBar m.low raw1 = m.decoded := by
  have hio : ¬m.low &&& 0x1 = 1 := by simp [m.low_memory]
  have hfits := m.fits
  rw [decodeBar, MemoryBar.decoded, if_neg hio]
  simp only [m.low_type, m.low_prefetchable, m.clear_low]
  cases hwide : m.wide with
  | true =>
      simp only [hhigh hwide, m.base_eq]
      cases m.prefetchable <;> rfl
  | false =>
      rw [hwide] at hfits
      have hbase : m.base % 2 ^ 32 = m.base := Nat.mod_eq_of_lt hfits
      simp only [hbase]
      cases m.prefetchable <;> rfl

/-- The record of a function that holds a memory region has it. -/
theorem MemoryBar.HeldIn.record_bar0 {m : MemoryBar} {space : Nat → Mem} {id : Nat}
    (h : m.HeldIn (space id)) : (record space id).bar0 = m.decoded := by
  simp only [record, h.low]
  exact m.decodeBar_eq h.high

end

/-- A 64-bit region above 4 GiB. -/
def farBar : MemoryBar where
  base := 0x380000000
  wide := true
  prefetchable := false
  aligned := by decide
  fits := by decide

/-- A header that has it, in two registers. -/
def farHeader : Mem :=
  writeLE (writeLE (fun _ => 0) offsetBar0 4 farBar.low) offsetBar1 4 farBar.high

example : farBar.HeldIn farHeader ∧ farBar.decoded = some ⟨0x380000000, true, true, false⟩ :=
  ⟨⟨by decide +kernel, fun _ => by decide +kernel⟩, by decide +kernel⟩

/-- In an increasing list, the first match is the least. -/
theorem find_least {α : Type} {f : Nat → α} {p : α → Bool} {l : List Nat}
    (hl : l.Pairwise (· < ·)) {x : α} :
    (l.map f).find? p = some x ↔
      ∃ n ∈ l, f n = x ∧ p x ∧ ∀ k ∈ l, k < n → ¬p (f k) := by
  induction l with
  | nil => simp
  | cons m l ih =>
      obtain ⟨hleast, htail⟩ := List.pairwise_cons.mp hl
      rw [List.map_cons, List.find?_cons]
      cases hp : p (f m) with
      | true =>
          constructor
          · rintro hx
            obtain rfl : f m = x := by simpa using hx
            refine ⟨m, List.mem_cons_self, rfl, hp, fun k hk hlt => ?_⟩
            obtain rfl | hk := List.mem_cons.mp hk
            · omega
            · have := hleast k hk
              omega
          · rintro ⟨n, hn, rfl, -, hfirst⟩
            obtain rfl | hn := List.mem_cons.mp hn
            · rfl
            · exact absurd hp (hfirst m List.mem_cons_self (hleast n hn))
      | false =>
          refine (ih htail).trans ⟨?_, ?_⟩
          · rintro ⟨n, hn, hx, hpx, hfirst⟩
            refine ⟨n, List.mem_cons_of_mem m hn, hx, hpx, fun k hk hlt => ?_⟩
            obtain rfl | hk := List.mem_cons.mp hk
            · simp [hp]
            · exact hfirst k hk hlt
          · rintro ⟨n, hn, rfl, hpx, hfirst⟩
            obtain rfl | hn := List.mem_cons.mp hn
            · simp [hp] at hpx
            · exact ⟨n, hn, rfl, hpx, fun k hk => hfirst k (List.mem_cons_of_mem m hk)⟩

/-- A scan visits the functions that are visible in the configuration space,
each once, in the order of bus, device and function, with what their headers
hold; a region comes out of BAR0 and BAR1 as the device has it. The search for a
controller returns the first one that is visible, and nothing only where there
is none. -/
theorem scan_finds (b : HostBridge) :
    (∀ (σ : Type) (visit : σ → PciDevice → σ) (s : σ),
      enumerate b visit s = ((visibleIds b.space).map (record b.space)).foldl visit s) ∧
      (visibleIds b.space).Pairwise (· < ·) ∧
      (∀ id, id ∈ visibleIds b.space ↔ id < 2 ^ 16 ∧ Visible b.space id) ∧
      (∀ id, routingId (record b.space id).bus (record b.space id).device
        (record b.space id).function = id) ∧
      (∀ id (m : MemoryBar), m.HeldIn (b.space id) → (record b.space id).bar0 = m.decoded) ∧
      (∀ dev, findNvme b = some dev ↔
        ∃ id < 2 ^ 16, Visible b.space id ∧ record b.space id = dev ∧ dev.isNvme ∧
          ∀ other < id, Visible b.space other → ¬(record b.space other).isNvme) ∧
      (findNvme b = none ↔
        ∀ id < 2 ^ 16, Visible b.space id → ¬(record b.space id).isNvme) := by
  refine ⟨fun σ visit s => enumerate_eq s, visibleIds_increasing b.space,
    fun id => mem_visibleIds, record_routingId b.space, fun id m h => h.record_bar0,
    fun dev => ?_, ?_⟩
  · rw [findNvme_eq, find_least (visibleIds_increasing b.space)]
    constructor
    · rintro ⟨id, hid, hdev, hnvme, hfirst⟩
      obtain ⟨hlt, hvisible⟩ := mem_visibleIds.mp hid
      exact ⟨id, hlt, hvisible, hdev, hnvme, fun other hother hseen =>
        hfirst other (mem_visibleIds.mpr ⟨by omega, hseen⟩) hother⟩
    · rintro ⟨id, hlt, hvisible, hdev, hnvme, hfirst⟩
      exact ⟨id, mem_visibleIds.mpr ⟨hlt, hvisible⟩, hdev, hnvme, fun other hother hbefore =>
        hfirst other hbefore (mem_visibleIds.mp hother).2⟩
  · rw [findNvme_eq, List.find?_eq_none, List.forall_mem_map]
    exact ⟨fun h id hlt hvisible => h id (mem_visibleIds.mpr ⟨hlt, hvisible⟩),
      fun h id hid => h id (mem_visibleIds.mp hid).1 (mem_visibleIds.mp hid).2⟩

end Pci
