import OreOS.Kernel.Vmm
import OreOS.Lib.Bits

/-!
# Physical pages (`kernel/pmm.c`)

One bit for every page below the top of usable memory, set when the page is
taken, and three counters. The bitmap is kept as the bits it stands for, and
`Pmm.memory` is memory with these bits in their bytes. `pmm_init` reads the boot
information again after it has filled the bitmap, so it reads this memory.
`pagesWhile` is the list of addresses a page loop visits; after `pageRounds`
rounds the address is back where it began, and the loop never stops
(`Halt.hang`).
-/

namespace OreOS.Kernel

open OreOS.Lib (Word Mem Bits)

structure OreMemoryDescriptor where
  type : Word
  physicalStart : Word
  numberOfPages : Word
  deriving DecidableEq

structure OreFramebuffer where
  base : Word := 0
  width : BitVec 32 := 0
  height : BitVec 32 := 0
  pixelsPerScanline : BitVec 32 := 0

structure BootInfo where
  /-- Where the structure itself is. -/
  address : Word
  kernelBase : Word
  kernelSize : Word
  initramfsBase : Word
  initramfsSize : Word
  framebuffer : OreFramebuffer := {}
  memoryMap : List OreMemoryDescriptor

/-- `sizeof(BootInfo)`. -/
def sizeofBootInfo : Word := 10456

/-- `ORE_MEMMAP_MAX`. -/
def memmapMax : Nat := 256

/-- `memory_map[i]` of the boot information at `address`. -/
def memoryMapEntry (mem : Mem) (address : Word) (i : Nat) : OreMemoryDescriptor :=
  let d := address + BitVec.ofNat 64 (88 + 40 * i)
  { type := mem.load64 d, physicalStart := mem.load64 (d + 8), numberOfPages := mem.load64 (d + 24) }

/-- The boot information at `address`, as memory has it. -/
def bootInfo (mem : Mem) (address : Word) : BootInfo where
  address := address
  kernelBase := mem.load64 (address + 16)
  kernelSize := mem.load64 (address + 24)
  initramfsBase := mem.load64 (address + 32)
  initramfsSize := mem.load64 (address + 40)
  framebuffer :=
    { base := mem.load64 (address + 48), width := mem.load32 (address + 56)
      height := mem.load32 (address + 60), pixelsPerScanline := mem.load32 (address + 64) }
  memoryMap := (List.range (mem.load64 (address + 72)).toNat).map (memoryMapEntry mem address)

def lowReservedEnd : Word := 0x100000
def trampolineStart : Word := 0x7000
def trampolineEnd : Word := 0x9000

/-- How a computation that does not return ends. -/
inductive Halt
  | panic (message : String)
  | hang
  deriving DecidableEq

structure Pmm where
  bitmap : Bits
  bitmapAddr : Word
  bitmapBytes : Word
  maxPhys : Word
  totalPageCount : Word
  freePageCount : Word
  reservedPageCount : Word
  usedPageCount : Word

/-- The page of an address. -/
def pageNumber (addr : Word) : Nat :=
  addr.toNat / 4096

/-! ## The bitmap in memory -/

def bitmapSet (mem : Mem) (bitmap page : Word) : Mem :=
  mem.write (bitmap + page / 8) [mem (bitmap + page / 8) ||| BitVec.twoPow 8 (page.toNat % 8)]

def bitmapClear (mem : Mem) (bitmap page : Word) : Mem :=
  mem.write (bitmap + page / 8) [mem (bitmap + page / 8) &&& ~~~BitVec.twoPow 8 (page.toNat % 8)]

def bitmapTest (mem : Mem) (bitmap page : Word) : Bool :=
  mem (bitmap + page / 8) &&& BitVec.twoPow 8 (page.toNat % 8) ≠ 0

/-- The bits that memory has from `addr` on. -/
def memoryBits (mem : Mem) (addr : Word) : Bits := fun page =>
  (mem (addr + BitVec.ofNat 64 (page / 8))).getLsbD (page % 8)

/-- Memory with the bitmap in it. A page is a word, so the bits are those of 2^61 bytes. -/
def Pmm.memory (s : Pmm) (mem : Mem) : Mem := fun x =>
  if (x - s.bitmapAddr).toNat < 2 ^ 61 then s.bitmap.byte (x - s.bitmapAddr).toNat else mem x

/-! ## Page loops -/

def pageRounds : Nat := 2 ^ 52

/-- The addresses visited by `for (; cond(addr); addr += PAGE_SIZE)`. -/
def pagesWhile (cond : Word → Bool) : Nat → Word → Except Halt (List Word)
  | 0, _ => .error .hang
  | n + 1, addr =>
    if cond addr then do
      let rest ← pagesWhile cond n (addr + 4096)
      return addr :: rest
    else return []

/-! ## The memory map -/

def usableDescriptor (d : OreMemoryDescriptor) : Bool :=
  d.type = 7

/-- `d->physical_start + d->number_of_pages * PAGE_SIZE`. -/
def descriptorEnd (d : OreMemoryDescriptor) : Word :=
  d.physicalStart + d.numberOfPages * 4096

def rangesOverlap (aStart aEnd bStart bEnd : Word) : Bool :=
  aStart < bEnd && bStart < aEnd

/-- The first loop of `pmm_init`. -/
def findMaxPhys (maxPhys : Word) : List OreMemoryDescriptor → Word
  | [] => maxPhys
  | d :: ds =>
    if usableDescriptor d && descriptorEnd d > maxPhys then findMaxPhys (descriptorEnd d) ds
    else findMaxPhys maxPhys ds

/-- The inner loop of `find_bitmap_storage`: the first place of `bytes` bytes
before `stop` that is off the kernel. -/
def searchStorage (boot : BootInfo) (bytes stop : Word) : Nat → Word → Except Halt (Option Word)
  | 0, _ => .error .hang
  | n + 1, addr =>
    if addr + bytes ≤ stop then
      if rangesOverlap addr (addr + bytes) boot.kernelBase (boot.kernelBase + boot.kernelSize) then
        searchStorage boot bytes stop n (addr + 4096)
      else return some addr
    else return none

/-- The start of a descriptor, above the low megabyte. -/
def storageStart (d : OreMemoryDescriptor) : Word :=
  if alignUp d.physicalStart < lowReservedEnd then lowReservedEnd else alignUp d.physicalStart

def findBitmapStorage (boot : BootInfo) (bytes : Word) :
    List OreMemoryDescriptor → Except Halt Word
  | [] => .error (.panic "PMM: no room for bitmap")
  | d :: ds =>
    if usableDescriptor d then do
      match ← searchStorage boot (alignUp bytes / 4096 * 4096) (alignDown (descriptorEnd d))
          pageRounds (storageStart d) with
      | some addr => return addr
      | none => findBitmapStorage boot bytes ds
    else findBitmapStorage boot bytes ds

/-! ## Initialisation -/

/-- The round of the loop that enters usable pages. -/
def enterPage (s : Pmm) (addr : Word) : Pmm :=
  { s with
    bitmap := s.bitmap.clear (pageNumber addr)
    freePageCount := s.freePageCount + 1
    reservedPageCount := s.reservedPageCount - 1 }

/-- The loop over the pages of a descriptor. -/
def enterDescriptor (s : Pmm) (d : OreMemoryDescriptor) : Except Halt Pmm := do
  let addrs ← pagesWhile (fun addr => addr + 4096 ≤ alignDown (descriptorEnd d)) pageRounds
    (alignUp d.physicalStart)
  return addrs.foldl enterPage s

/-- `memory_map_entries` is a word. -/
def entryRounds : Nat := 2 ^ 64

/-- The loop over the memory map, which is read again for each entry. -/
def enterDescriptors (mem : Mem) (address : Word) : Nat → Nat → Pmm → Except Halt Pmm
  | 0, _, _ => .error .hang
  | n + 1, i, s =>
    match (bootInfo (s.memory mem) address).memoryMap[i]? with
    | none => return s
    | some d =>
      if usableDescriptor d then do
        let s ← enterDescriptor s d
        enterDescriptors mem address n (i + 1) s
      else enterDescriptors mem address n (i + 1) s

/-- The round of `reserve_range`. -/
def reservePage (s : Pmm) (addr : Word) : Pmm :=
  if s.bitmap (pageNumber addr) then s
  else
    { s with
      bitmap := s.bitmap.set (pageNumber addr)
      freePageCount := if s.freePageCount ≠ 0 then s.freePageCount - 1 else s.freePageCount
      reservedPageCount := s.reservedPageCount + 1 }

def reserveRange (start stop : Word) (s : Pmm) : Except Halt Pmm := do
  let addrs ← pagesWhile (fun addr => addr < alignUp stop && addr < s.maxPhys) pageRounds
    (alignDown start)
  return addrs.foldl reservePage s

/-- The ranges that `pmm_init` reserves, start and end, in its order, as the boot information
has them when their turn comes. -/
def reservedRanges (bitmapAddr bitmapBytes : Word) : List (BootInfo → Option (Word × Word)) :=
  [fun _ => some (0, lowReservedEnd),
    fun _ => some (trampolineStart, trampolineEnd),
    fun _ => some (bitmapAddr, bitmapAddr + bitmapBytes),
    fun boot => some (boot.kernelBase, boot.kernelBase + boot.kernelSize),
    fun boot =>
      if boot.initramfsBase ≠ 0 ∧ boot.initramfsSize ≠ 0 then
        some (boot.initramfsBase, boot.initramfsBase + boot.initramfsSize)
      else none,
    fun boot => some (boot.address, boot.address + sizeofBootInfo)]

def reserveRanges (mem : Mem) (address : Word) (s : Pmm) :
    List (BootInfo → Option (Word × Word)) → Except Halt Pmm
  | [] => return s
  | range :: ranges =>
    match range (bootInfo (s.memory mem) address) with
    | none => reserveRanges mem address s ranges
    | some (start, stop) => do
      let s ← reserveRange start stop s
      reserveRanges mem address s ranges

/-- The state before the first page is entered: every bit of the bitmap is set. -/
def blankPmm (mem : Mem) (bitmapAddr bitmapBytes maxPhys total : Word) : Pmm :=
  { bitmap := fun page => page / 8 < bitmapBytes.toNat || memoryBits mem bitmapAddr page
    bitmapAddr := bitmapAddr
    bitmapBytes := bitmapBytes
    maxPhys := maxPhys
    totalPageCount := total
    freePageCount := 0
    reservedPageCount := total
    usedPageCount := 0 }

/-- `pmm_init` on the boot information at `address`. There is no memory at the top of the
address space, and an exception of the kernel is a panic. -/
def pmmInit (mem : Mem) (address : Word) : Except Halt Pmm := do
  let boot := bootInfo mem address
  let maxPhys := findMaxPhys 0 boot.memoryMap
  if maxPhys = 0 then .error (.panic "PMM: no usable memory")
  else
    let total := alignUp maxPhys / 4096
    let bytes := alignUp ((total + 7) / 8)
    let addr ← findBitmapStorage boot bytes boot.memoryMap
    if 2 ^ 64 ≤ addr.toNat + bytes.toNat then .error (.panic "unhandled CPU exception")
    else
      let s ← enterDescriptors mem address entryRounds 0 (blankPmm mem addr bytes maxPhys total)
      reserveRanges mem address s (reservedRanges addr bytes)

/-! ## Allocation -/

/-- The loop of `pmm_alloc_pages` over `rounds` more pages: the first page of a
run of `count` clear bits. -/
def findRun (bitmap : Bits) (count : Nat) : Nat → Nat → Nat → Nat → Option Nat
  | 0, _, _, _ => none
  | rounds + 1, page, run, startPage =>
    if bitmap page then findRun bitmap count rounds (page + 1) 0 startPage
    else
      let startPage := if run = 0 then page else startPage
      if run + 1 = count then some startPage
      else findRun bitmap count rounds (page + 1) (run + 1) startPage

/-- `LOW_RESERVED_END / PAGE_SIZE`. -/
def firstPage : Nat := 256

/-- `pmm_alloc_pages`, without the clearing of the pages. -/
def pmmAllocPages (count : BitVec 32) (s : Pmm) : Option Word × Pmm :=
  if count = 0 then (none, s)
  else
    match findRun s.bitmap count.toNat (s.totalPageCount.toNat - firstPage) firstPage 0 0 with
    | none => (none, s)
    | some startPage =>
      (some (BitVec.ofNat 64 startPage * 4096),
        { s with
          bitmap := s.bitmap.setAll (List.range' startPage count.toNat)
          freePageCount := s.freePageCount - count.setWidth 64
          usedPageCount := s.usedPageCount + count.setWidth 64 })

/-- The round of `pmm_free_pages`. -/
def freePage (s : Pmm) (page : Nat) : Pmm :=
  if page < s.totalPageCount.toNat ∧ s.bitmap page = true then
    { s with
      bitmap := s.bitmap.clear page
      freePageCount := s.freePageCount + 1
      usedPageCount := if s.usedPageCount ≠ 0 then s.usedPageCount - 1 else s.usedPageCount }
  else s

def pmmFreePages (ptr : Word) (count : BitVec 32) (s : Pmm) : Pmm :=
  if ptr = 0 ∨ count = 0 then s
  else (List.range' (pageNumber ptr) count.toNat).foldl freePage s

/-! ## Clients -/

/-- The allocator and what its clients hold: the pages of each live allocation
that have not been freed. -/
structure Ledger where
  pmm : Pmm
  live : List (List Nat) := []

inductive PmmCall
  | alloc (count : BitVec 32)
  | free (ptr : Word) (count : BitVec 32)

/-- The pages of a range. -/
def runPages (ptr : Word) (count : BitVec 32) : List Nat :=
  List.range' (pageNumber ptr) count.toNat

/-- A call, and what becomes of the allocations. -/
def Ledger.step (s : Ledger) : PmmCall → Option Ledger
  | .alloc count =>
    match pmmAllocPages count s.pmm with
    | (none, pmm) => some { s with pmm := pmm }
    | (some ptr, pmm) => some { pmm := pmm, live := s.live ++ [runPages ptr count] }
  | .free ptr count =>
    some
      { pmm := pmmFreePages ptr count s.pmm
        live :=
          if ptr = 0 then s.live
          else s.live.map fun pages => pages.filter (· ∉ runPages ptr count) }

/-- Clients free only pages of live allocations; freeing the null pointer is
nothing. -/
def Ledger.FreesLive (s : Ledger) : PmmCall → Prop
  | .alloc _ => True
  | .free ptr count => ptr = 0 ∨ ∀ page ∈ runPages ptr count, page ∈ s.live.flatten

instance (s : Ledger) : (c : PmmCall) → Decidable (s.FreesLive c)
  | .alloc _ => isTrue trivial
  | .free ptr count =>
    inferInstanceAs
      (Decidable (ptr = 0 ∨ ∀ page ∈ runPages ptr count, page ∈ s.live.flatten))

/-! ## Physical memory

Memory under the bitmap, and the kernel's own page tables (`vmm_init`). The page-table code
has the pages it will get as a list. Here the list is read off the bitmap (`freeFrames`), and
the pages that a computation took are taken in the bitmap as well (`Phys.run`). -/

structure Phys where
  mem : Mem
  pmm : Pmm

/-- The address of a page. -/
def pageAddr (page : Nat) : Word :=
  BitVec.ofNat 64 page * 4096

/-- The pages from `LOW_RESERVED_END` on whose bit is clear. -/
def clearPages (pmm : Pmm) : List Nat :=
  (List.range' firstPage (pmm.totalPageCount.toNat - firstPage)).filter
    fun page => !pmm.bitmap page

/-- The pages that allocations of one page will get, in their order. -/
def freeFrames (pmm : Pmm) : List Word :=
  (clearPages pmm).map pageAddr

/-- Allocations of one page, `n` of them. -/
def takeFrames : Nat → Pmm → Pmm
  | 0, pmm => pmm
  | n + 1, pmm => takeFrames n (pmmAllocPages 1 pmm).2

namespace Phys

def machine (s : Phys) : Machine :=
  { mem := s.mem, pool := freeFrames s.pmm }

/-- Run a computation that takes pages one at a time. -/
def run {α : Type} (s : Phys) (x : Kern α) : Except String α × Phys :=
  ((x s.machine).1,
    { mem := (x s.machine).2.mem
      pmm := takeFrames ((freeFrames s.pmm).length - (x s.machine).2.pool.length) s.pmm })

/-- `pmm_alloc_pages`: a run of pages, cleared. -/
def allocPages (s : Phys) (count : BitVec 32) : Option Word × Phys :=
  match pmmAllocPages count s.pmm with
  | (none, pmm) => (none, { s with pmm := pmm })
  | (some page, pmm) => (some page, { mem := s.mem.clear page (count.toNat * 4096), pmm := pmm })

/-- `pmm_free_pages`. -/
def freePages (s : Phys) (ptr : Word) (count : BitVec 32) : Phys :=
  { s with pmm := pmmFreePages ptr count s.pmm }

end Phys

/-! ## The kernel's tables -/

/-- A range mapped to itself, or a panic. -/
def mapOrPanic (root base size flags : Word) (message : String) : Kern Unit := do
  if (← mapInRoot root base base size flags) < 0 then throw message
  else return ()

def framebufferSize (fb : OreFramebuffer) : Word :=
  fb.pixelsPerScanline.setWidth 64 * fb.height.setWidth 64 * 4

/-- There is a framebuffer. -/
def hasFramebuffer (fb : OreFramebuffer) : Bool :=
  fb.base ≠ 0 && fb.width ≠ 0 && fb.height ≠ 0

def mapFramebuffer (root : Word) (fb : OreFramebuffer) : Kern Unit :=
  if hasFramebuffer fb then
    mapOrPanic root fb.base (framebufferSize fb) (vmmWrite ||| vmmNx)
      "VMM: framebuffer map failed"
  else return ()

def mapLapic (root lapicBase : Word) : Kern Unit :=
  if lapicBase ≠ 0 then
    mapOrPanic root lapicBase 4096 (vmmWrite ||| vmmNx) "VMM: LAPIC map failed"
  else return ()

/-- The mappings of `vmm_init`. -/
def mapKernel (root : Word) (boot : BootInfo) (totalPages lapicBase : Word) : Kern Unit := do
  mapOrPanic root 0 (totalPages * 4096) vmmWrite "VMM: identity map failed"
  mapFramebuffer root boot.framebuffer
  mapLapic root lapicBase

/-- `vmm_init`, with `pmm_total_pages()` and `acpi_lapic_base()`: the kernel
root. -/
def vmmInit (boot : BootInfo) (totalPages lapicBase : Word) : Kern Word := do
  let kernelPml4 ← newTable
  mapKernel kernelPml4 boot totalPages lapicBase
  return kernelPml4

/-- The ranges that `vmm_init` maps, base and size. -/
def vmmRanges (boot : BootInfo) (totalPages lapicBase : Word) : List (Word × Word) :=
  (0, totalPages * 4096) ::
    (if hasFramebuffer boot.framebuffer then
      [(boot.framebuffer.base, framebufferSize boot.framebuffer)] else []) ++
    (if lapicBase ≠ 0 then [(lapicBase, 4096)] else [])

end OreOS.Kernel
