import Noxisa.PhysicalMemory

/-!
# The ELF loader

The model of `load_fresh` in `fs/elf.rs`.  The input is a slice; bytes are
named by their offset from `as_ptr()`, modulo the size of the address space,
and an offset outside the slice reads whatever lies there in memory.

The loader notes in the trace each range of the input it reads and, for each
bounds check that passes, the value its sum would have without wrap-around.
Frames come from `alloc_frame`; the list of pages is a vector on the kernel
heap, which has room for `room` entries.
-/

namespace ElfLoader

open ByteMemory FrameAllocator MachineWord PhysicalMemory

/-- `&[u8]`: its length fits in `isize`. -/
structure Slice where
  byte : Nat → UInt8
  len : Nat
  len_lt : len < 2 ^ 63

/-- The bytes around `as_ptr()`, the slice's own and others. -/
def Slice.mem (d : Slice) : Mem := fun off => d.byte (off % modulus)

/-- `ElfError` -/
inductive ElfError
  | tooSmall
  | badMagic
  | not64Bit
  | notExecutable
  | notX86_64
  | segmentOutOfBounds
deriving DecidableEq

/-- `e_ident[0..4]` -/
def Slice.magic (d : Slice) : List UInt8 := [d.mem 0, d.mem 1, d.mem 2, d.mem 3]

/-- `e_ident[4]` -/
def Slice.class_ (d : Slice) : Nat := readLE d.mem 4 1

/-- `e_type` -/
def Slice.eType (d : Slice) : Nat := readLE d.mem 16 2

/-- `e_machine` -/
def Slice.machine (d : Slice) : Nat := readLE d.mem 18 2

/-- `e_entry` -/
def Slice.entry (d : Slice) : Nat := readLE d.mem 24 8

/-- `e_phoff` -/
def Slice.phoff (d : Slice) : Nat := readLE d.mem 32 8

/-- `e_phentsize` -/
def Slice.phentsize (d : Slice) : Nat := readLE d.mem 54 2

/-- `e_phnum` -/
def Slice.phnum (d : Slice) : Nat := readLE d.mem 56 2

/-- `phoff + i * phentsz` -/
def Slice.phOff (d : Slice) (i : Nat) : Nat := add d.phoff (mul i d.phentsize)

/-- A field of program header `i`. -/
def Slice.phField (d : Slice) (i off size : Nat) : Nat := readLE d.mem (add (d.phOff i) off) size

/-- `p_type` -/
def Slice.pType (d : Slice) (i : Nat) : Nat := d.phField i 0 4

/-- `p_flags` -/
def Slice.pFlags (d : Slice) (i : Nat) : Nat := d.phField i 4 4

/-- `p_offset` -/
def Slice.pOffset (d : Slice) (i : Nat) : Nat := d.phField i 8 8

/-- `p_vaddr` -/
def Slice.pVaddr (d : Slice) (i : Nat) : Nat := d.phField i 16 8

/-- `p_filesz` -/
def Slice.pFilesz (d : Slice) (i : Nat) : Nat := d.phField i 32 8

/-- `p_memsz` -/
def Slice.pMemsz (d : Slice) (i : Nat) : Nat := d.phField i 40 8

/-- The size of `Elf64Phdr`, all of which is read. -/
def phdrSize : Nat := 56

/-- `PT_LOAD` -/
def ptLoad : Nat := 1

/-- An entry of the list of pages: virtual page, frame, writable, executable. -/
structure Page where
  vaddr : Nat
  frame : Nat
  writable : Bool
  executable : Bool
deriving DecidableEq

/-- Note a read of the input. -/
def readInput (off len : Nat) : Command Memory ElfError Unit :=
  Command.modify (fun m =>
    { m with trace := { m.trace with reads := (off, len) :: m.trace.reads } })

/-- `if a + b > data.len() { return Err(SegmentOutOfBounds) }`, where `sum` is
the sum without wrap-around. -/
def checkBounds (d : Slice) (a b sum : Nat) : Command Memory ElfError Unit :=
  if add a b > d.len then Command.fail .segmentOutOfBounds
  else Command.modify (fun m =>
    { m with trace := { m.trace with checks := sum :: m.trace.checks } })

/-- `pages.push` -/
def pushPage (room : Nat) (pages : List Page) (page : Page) :
    Command Memory ElfError (List Page) :=
  if pages.length < room then pure (pages ++ [page]) else Command.panic "OOM allocating"

/-- `while page_vaddr < seg_end`: a fresh zeroed frame for each page that is
not in the list. -/
def pageLoop (room segEnd : Nat) (writable executable : Bool) :
    Nat → Nat → List Page → Command Memory ElfError (List Page)
  | 0, _, pages => pure pages
  | fuel + 1, pageVaddr, pages =>
      if pageVaddr < segEnd then
        if pages.any (fun p => p.vaddr == pageVaddr) then
          pageLoop room segEnd writable executable fuel (add pageVaddr pageSize) pages
        else do
          let frame ← allocOr .segmentOutOfBounds
          Command.modify (fun m => m.zeroFrame frame)
          let pages ← pushPage room pages ⟨pageVaddr, frame, writable, executable⟩
          pageLoop room segEnd writable executable fuel (add pageVaddr pageSize) pages
      else pure pages

/-- `while copied < filesz`: copy up to the end of each page in turn. -/
def copyLoop (d : Slice) (fileOff filesz vaddr : Nat) (pages : List Page) :
    Nat → Nat → Command Memory ElfError Unit
  | 0, _ => pure ()
  | fuel + 1, copied =>
      if copied < filesz then
        let curVaddr := add vaddr copied
        let pageBase := pageMask curVaddr
        let pageOff := sub curVaddr pageBase
        match pages.find? (fun p => p.vaddr == pageBase) with
        | none => Command.panic "called `Option::unwrap()` on a `None` value"
        | some page => do
            let chunk := min (filesz - copied) (pageSize - pageOff)
            readInput (add fileOff copied) chunk
            Command.modify (fun m =>
              m.copyTo (page.frame + pageOff) chunk (fun k => d.mem (add fileOff copied + k)))
            copyLoop d fileOff filesz vaddr pages fuel (copied + chunk)
      else pure ()

/-- `vaddr & !(PAGE_SIZE - 1)` -/
def Slice.segStart (d : Slice) (i : Nat) : Nat := pageMask (d.pVaddr i)

/-- `(vaddr + memsz + PAGE_SIZE - 1) & !(PAGE_SIZE - 1)` -/
def Slice.segEnd (d : Slice) (i : Nat) : Nat :=
  pageMask (sub (add (add (d.pVaddr i) (d.pMemsz i)) pageSize) 1)

/-- The body of the loop over the program headers for a `PT_LOAD` header.  The
fuel of the inner loops is what they can need: a page a step, and at least a
byte a step. -/
def loadContents (d : Slice) (room i : Nat) (pages : List Page) :
    Command Memory ElfError (List Page) := do
  checkBounds d (d.pOffset i) (d.pFilesz i) (d.pOffset i + d.pFilesz i)
  let pages ← pageLoop room (d.segEnd i) (d.pFlags i &&& 2 != 0) (d.pFlags i &&& 1 != 0)
    ((d.segEnd i - d.segStart i) / pageSize) (d.segStart i) pages
  copyLoop d (d.pOffset i) (d.pFilesz i) (d.pVaddr i) pages (d.pFilesz i) 0
  return pages

/-- The body of the loop over the program headers. -/
def loadSegment (d : Slice) (room i : Nat) (pages : List Page) :
    Command Memory ElfError (List Page) := do
  checkBounds d (d.phOff i) d.phentsize (d.phoff + i * d.phentsize + d.phentsize)
  readInput (d.phOff i) phdrSize
  if d.pType i ≠ ptLoad then return pages else loadContents d room i pages

/-- `for i in 0..phnum`: `n` headers are left, the next is `i`. -/
def headerLoop (d : Slice) (room : Nat) : Nat → Nat → List Page →
    Command Memory ElfError (List Page)
  | 0, _, pages => pure pages
  | n + 1, i, pages => do
      let pages ← loadSegment d room i pages
      headerLoop d room n (i + 1) pages

/-- The checks before the loop. -/
def Slice.headerError (d : Slice) : Option ElfError :=
  if d.magic ≠ [0x7F, 0x45, 0x4C, 0x46] then some .badMagic
  else if d.class_ ≠ 2 then some .not64Bit
  else if d.eType ≠ 2 then some .notExecutable
  else if d.machine ≠ 0x3E then some .notX86_64
  else none

/-- `load_fresh`: the entry point and the list of pages. -/
def loadFresh (d : Slice) (room : Nat) : Command Memory ElfError (Nat × List Page) :=
  if d.len < 64 then Command.fail .tooSmall
  else do
    readInput 0 64
    match d.headerError with
    | some e => Command.fail e
    | none => do
        let pages ← headerLoop d room d.phnum 0 []
        return (d.entry, pages)

end ElfLoader
