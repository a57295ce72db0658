import OreOS.Kernel.Schedule
import OreOS.Kernel.Vmm

/-!
# Program loaders (`kernel/elf.c` and the loaders of `kernel/syscall.c`)

An image is what lies in memory from the image pointer on, so a read past its
length is a read of whatever follows. The loaders store through the page tables
of the process, at physical addresses. The loops over pages and over bytes come
twice in the source, once for each image format; each is one definition here
with the error codes as arguments.
-/

namespace OreOS.Kernel

open OreOS.Lib (Word Byte Mem)
open Syscall (LoadedImage)

def oreEnomem : Int := 12
def oreEfault : Int := 14
def oreEinval : Int := 22

def store8 (a : Word) (v : Byte) : Kern Unit :=
  modify fun s => s.write a [v]

def store32 (a : Word) (v : BitVec 32) : Kern Unit :=
  modify fun s => s.write a (Mem.leBytes 4 v)

/-- `err = x; if (err < 0) return err;` before the rest. -/
def orReturn (x rest : Kern Int) : Kern Int := do
  let err ← x
  if err < 0 then return err else rest

/-- `if (x < 0) return code;` before the rest. -/
def orFail (code : Int) (x rest : Kern Int) : Kern Int := do
  let err ← x
  if err < 0 then return code else rest

/-! ## Pages -/

/-- The loader's own loop over the bytes of a new frame, where it has one. -/
def clearFrame (clear : Bool) (page : Word) : Kern Unit :=
  if clear then memZero page 4096 else return ()

/-- A frame of its own for one page: allocated, cleared by the loader or not,
and mapped. -/
def mapFrame (root flags : Word) (clear : Bool) (noMemory refused : Int) (va : Word) :
    Kern Int := do
  match ← pmmAllocPage with
  | none => return noMemory
  | some page =>
    clearFrame clear page
    orFail refused (mapInRoot root va page 4096 flags) (return 0)

/-- The loop that gives every page of a range a frame, unless the page
translates already. -/
def ensurePages (root flags : Word) (clear : Bool) (noMemory refused : Int) :
    Nat → Word → Kern Int
  | 0, _ => return 0
  | n + 1, va => do
    if (← vmmVirtToPhysIn root va) = 0 then
      orReturn (mapFrame root flags clear noMemory refused va)
        (ensurePages root flags clear noMemory refused n (va + 4096))
    else ensurePages root flags clear noMemory refused n (va + 4096)

/-- The loop that gives every page of the stack a frame. -/
def stackPages (root : Word) (clear : Bool) (noMemory refused : Int) : Nat → Word → Kern Int
  | 0, _ => return 0
  | n + 1, va =>
    orReturn (mapFrame root (vmmUser ||| vmmWrite ||| vmmNx) clear noMemory refused va)
      (stackPages root clear noMemory refused n (va + 4096))

def stackTop : Word := 0x0000009000000000

/-- The eight pages below `stack_top`. -/
def mapStack (root : Word) (clear : Bool) (noMemory refused : Int) : Kern Int :=
  stackPages root clear noMemory refused 8 (stackTop - 8 * 4096)

def mapZeroedUserPages (root start size flags : Word) : Kern Int :=
  ensurePages root (flags ||| vmmWrite) true (-oreEnomem) (-oreEinval)
    (pageCount (alignDown start) (alignUp (start + size))) (alignDown start)

/-! ## Bytes -/

/-- The loop that stores bytes of `src` at user addresses, one translation for
each. -/
def putBytes (root : Word) (refused : Int) (src : Mem) : Nat → Word → Word → Kern Int
  | 0, _, _ => return 0
  | n + 1, va, off => do
    let phys ← vmmVirtToPhysIn root va
    if phys = 0 then return refused
    else
      store8 phys (src off)
      putBytes root refused src n (va + 1) (off + 1)

/-- `copy_to_user_phys`, with the source as an offset in an image. -/
def copyToUserPhys (root va : Word) (image : Mem) (off size : Word) : Kern Int :=
  putBytes root (-oreEinval) image size.toNat va off

/-! ## ELF images -/

def ptLoad : BitVec 32 := 1
def etExec : BitVec 16 := 2
def emX8664 : BitVec 16 := 62

/-- `elf_validate`; `sizeof(Elf64_Ehdr)` is 64. -/
def elfValidate (image : Mem) (size : Word) : Int :=
  if size < 64 then -1
  else if image 0 ≠ 0x7f ∨ image 1 ≠ 0x45 ∨ image 2 ≠ 0x4c ∨ image 3 ≠ 0x46 then -1
  else if image 4 ≠ 2 ∨ image 5 ≠ 1 then -1
  else if image.load16 16 ≠ etExec ∨ image.load16 18 ≠ emX8664 then -1
  else if image.load64 32 + (image.load16 54).setWidth 64 * (image.load16 56).setWidth 64 > size
  then -1
  else 0

structure UserElfSegmentInfo where
  vaddr : Word
  fileOffset : Word
  memSize : Word
  fileSize : Word
  flags : Word
  deriving DecidableEq

structure UserElfInfo where
  entry : Word
  imageSize : Word
  segments : List UserElfSegmentInfo
  deriving DecidableEq

/-- The program header at an offset, as far as the probe reads it. -/
def elfSegment (image : Mem) (ph : Word) : UserElfSegmentInfo where
  vaddr := image.load64 (ph + 16)
  fileOffset := image.load64 (ph + 8)
  memSize := image.load64 (ph + 40)
  fileSize := image.load64 (ph + 32)
  flags := (image.load32 (ph + 4)).setWidth 64

/-- The loop of `elf_probe_user_image` over the program headers from `ph` on;
`found` are the segments so far. -/
def probeHeaders (image : Mem) (size phentsize : Word) :
    Nat → Word → List UserElfSegmentInfo → Option (List UserElfSegmentInfo)
  | 0, _, found => some found
  | n + 1, ph, found =>
    let seg := elfSegment image ph
    if image.load32 ph ≠ ptLoad ∨ seg.memSize = 0 then
      probeHeaders image size phentsize n (ph + phentsize) found
    else if seg.fileOffset + seg.fileSize > size ∨ seg.fileSize > seg.memSize then none
    else if found.length ≥ 8 then none
    else probeHeaders image size phentsize n (ph + phentsize) (found ++ [seg])

/-- `elf_probe_user_image`; `none` is the answer -1. -/
def elfProbeUserImage (image : Mem) (size : Word) : Option UserElfInfo :=
  if elfValidate image size < 0 then none
  else
    match probeHeaders image size ((image.load16 54).setWidth 64) (image.load16 56).toNat
      (image.load64 32) [] with
    | none => none
    | some segments =>
      if segments.length = 0 then none
      else some { entry := image.load64 24, imageSize := size, segments := segments }

def flagsForElfSegment (phFlags : Word) : Word :=
  if phFlags &&& 2 ≠ 0 then vmmUser ||| vmmWrite else vmmUser

/-- One round of `load_user_image_into_process`, before the rest. -/
def loadSegment (root : Word) (image : Mem) (seg : UserElfSegmentInfo) (rest : Kern Int) :
    Kern Int :=
  let start := alignDown seg.vaddr
  let last := alignUp (seg.vaddr + seg.memSize)
  orReturn (ensurePages root (vmmUser ||| vmmWrite) false (-1) (-1) (pageCount start last) start) <|
  orReturn (putBytes root (-1) (fun _ => 0) seg.memSize.toNat seg.vaddr 0) <|
  orReturn (putBytes root (-1) image seg.fileSize.toNat seg.vaddr seg.fileOffset) <|
  orFail (-1) (protectInRoot root start (last - start) (flagsForElfSegment seg.flags)) rest

def loadSegments (root : Word) (image : Mem) : List UserElfSegmentInfo → Kern Int
  | [] => mapStack root false (-1) (-1)
  | seg :: segs => loadSegment root image seg (loadSegments root image segs)

/-- `load_user_image_into_process`: the error, or what it leaves in the
process. -/
def loadUserImageIntoProcess (root : Word) (image : Mem) (info : UserElfInfo) :
    Kern (Except Int LoadedImage) := do
  let err ← loadSegments root image info.segments
  if err < 0 then return .error err
  else
    return .ok { entry := info.entry, stack := stackTop - 16, segments := info.segments.length }

/-! ## OreImages -/

def oreImageMagic : Word := 0x31474d4945524f
def oreImageVersion : BitVec 32 := 1
def oreImageRelocAbs64 : BitVec 32 := 1
def oreImageRelocPc32 : BitVec 32 := 2

structure OreImageHeader where
  magic : Word
  version : BitVec 32
  headerSize : BitVec 32
  entry : Word
  textSize : Word
  dataSize : Word
  bssSize : Word
  relocCount : Word
  deriving DecidableEq

def oreImageHeader (image : Mem) : OreImageHeader where
  magic := image.load64 0
  version := image.load32 8
  headerSize := image.load32 12
  entry := image.load64 16
  textSize := image.load64 24
  dataSize := image.load64 32
  bssSize := image.load64 40
  relocCount := image.load64 48

structure OreImageReloc where
  offset : Word
  symbolOffset : Word
  type : BitVec 32
  segment : BitVec 32
  deriving DecidableEq

def oreImageReloc (image : Mem) (at_ : Word) : OreImageReloc where
  offset := image.load64 at_
  symbolOffset := image.load64 (at_ + 8)
  type := image.load32 (at_ + 16)
  segment := image.load32 (at_ + 20)

namespace OreImageHeader

variable (hdr : OreImageHeader)

/-- `text_off`: after the header and the relocations of 24 bytes each. -/
def textOff : Word :=
  hdr.headerSize.setWidth 64 + hdr.relocCount * 24

def dataOff : Word :=
  hdr.textOff + hdr.textSize

def dataBase : Word :=
  alignUp (userBase + hdr.textSize)

/-- `data_total ? data_total : 1`. -/
def dataSpan : Word :=
  if hdr.dataSize + hdr.bssSize ≠ 0 then hdr.dataSize + hdr.bssSize else 1

/-- The checks of `load_ore_image_into_process`, all of them before it touches
memory. `sizeof(OreImageHeader)` is 56. -/
def Accepted (len : Word) : Prop :=
  56 ≤ len ∧ hdr.magic = oreImageMagic ∧ hdr.version = oreImageVersion ∧
    56 ≤ hdr.headerSize ∧ hdr.headerSize ≤ 4096 ∧
    hdr.textSize ≠ 0 ∧ hdr.textSize ≤ 256 * 1024 ∧ hdr.dataSize ≤ 256 * 1024 ∧
    hdr.bssSize ≤ 256 * 1024 ∧ hdr.relocCount ≤ 256 ∧
    hdr.headerSize.setWidth 64 ≤ hdr.textOff ∧ hdr.textOff ≤ hdr.dataOff ∧
    hdr.dataOff + hdr.dataSize ≤ len ∧ hdr.entry < hdr.textSize

instance (len : Word) : Decidable (hdr.Accepted len) :=
  inferInstanceAs (Decidable (_ ∧ _))

end OreImageHeader

/-- The relocations, which follow the header. -/
def oreImageRelocs (image : Mem) : List OreImageReloc :=
  let hdr := oreImageHeader image
  (List.range hdr.relocCount.toNat).map fun i =>
    oreImageReloc image (hdr.headerSize.setWidth 64 + BitVec.ofNat 64 (24 * i))

namespace OreImageReloc

variable (r : OreImageReloc) (dataBase : Word)

/-- The base of the segment a relocation names. -/
def base : Word :=
  if r.segment = 0 then userBase else dataBase

def place : Word :=
  r.base dataBase + r.offset

def target : Word :=
  r.base dataBase + r.symbolOffset

def disp : Word :=
  r.target dataBase - (r.place dataBase + 4)

end OreImageReloc

/-- One round of the relocation loop. -/
def applyReloc (root dataBase : Word) (r : OreImageReloc) : Kern Int := do
  let phys ← vmmVirtToPhysIn root (r.place dataBase)
  if phys = 0 then return -oreEinval
  else if r.type = oreImageRelocAbs64 then
    store phys (r.target dataBase)
    return 0
  else if r.type = oreImageRelocPc32 then
    if (r.disp dataBase).toInt < -2 ^ 31 ∨ (r.disp dataBase).toInt > 2 ^ 31 - 1 then
      return -oreEinval
    else
      store32 phys ((r.disp dataBase).setWidth 32)
      return 0
  else return -oreEinval

def applyRelocs (root dataBase : Word) : List OreImageReloc → Kern Int
  | [] => return 0
  | r :: rs => orReturn (applyReloc root dataBase r) (applyRelocs root dataBase rs)

/-- The part of `load_ore_image_into_process` before the relocations: pages for
text and data, and their bytes. -/
def oreImagePages (root : Word) (image : Mem) : Kern Int :=
  let hdr := oreImageHeader image
  orReturn (mapZeroedUserPages root userBase hdr.textSize vmmUser) <|
  orReturn (mapZeroedUserPages root hdr.dataBase hdr.dataSpan (vmmUser ||| vmmNx)) <|
  orReturn (copyToUserPhys root userBase image hdr.textOff hdr.textSize) <|
  if hdr.dataSize ≠ 0 then copyToUserPhys root hdr.dataBase image hdr.dataOff hdr.dataSize
  else return 0

/-- The part after them: final protection and the stack. -/
def oreImageFinish (root : Word) (hdr : OreImageHeader) : Kern Int :=
  orFail (-oreEinval) (protectInRoot root userBase (alignUp hdr.textSize) vmmUser) <|
  orFail (-oreEinval)
    (protectInRoot root hdr.dataBase (alignUp hdr.dataSpan) (vmmUser ||| vmmWrite ||| vmmNx)) <|
  mapStack root true (-oreEnomem) (-oreEinval)

/-- `load_ore_image_into_process`: the error, or what it leaves in the
process. -/
def loadOreImageIntoProcess (root : Word) (image : Mem) (len : Word) :
    Kern (Except Int LoadedImage) := do
  let hdr := oreImageHeader image
  if hdr.Accepted len then
    let err ← orReturn (oreImagePages root image) <|
      orReturn (applyRelocs root hdr.dataBase (oreImageRelocs image)) (oreImageFinish root hdr)
    if err < 0 then return .error err
    else return .ok { entry := userBase + hdr.entry, stack := stackTop - 16, segments := 2 }
  else return .error (-oreEinval)

/-! ## The loader of the first process (`kernel/user.c`)

Every segment is laid out writable, the segments get their final protection in a second
pass, and an error is a panic. The codes given to the loops only say which text a panic
has. The checks of the entry point and the way into ring 3 are not part of this model. -/

/-- `if (x < 0) panic(text);`, with a text for each code. -/
def orPanic (text : Int → String) (x : Kern Int) : Kern Unit := do
  let err ← x
  if err < 0 then throw (text err) else return ()

def validElf (image : Mem) (size : Word) : Bool :=
  64 ≤ size && image 0 == 0x7f && image 1 == 0x45 && image 2 == 0x4c && image 3 == 0x46 &&
    image 4 == 2 && image.load16 18 == 62 &&
    image.load64 32 + (image.load16 54).setWidth 64 * (image.load16 56).setWidth 64 ≤ size

/-- `flags_for_segment`, of `p_flags`. -/
def flagsForSegment (pFlags : BitVec 32) : Word :=
  if pFlags &&& 2 ≠ 0 then vmmUser ||| vmmWrite else vmmUser

structure LoadedSegment where
  start : Word
  size : Word
  flags : Word
  deriving DecidableEq

/-- `map_segment`, for the program header at offset `ph` of the image. -/
def mapSegment (root : Word) (image : Mem) (ph : Word) : Kern LoadedSegment := do
  let vaddr := image.load64 (ph + 16)
  let memsz := image.load64 (ph + 40)
  let start := alignDown vaddr
  let last := alignUp (vaddr + memsz)
  orPanic (fun err => if err = -1 then "user: no memory for segment" else "user: map segment failed")
    (ensurePages root (vmmUser ||| vmmWrite) false (-1) (-2) (pageCount start last) start)
  orPanic (fun _ => "user: segment translation failed")
    (putBytes root (-1) (fun _ => 0) memsz.toNat vaddr 0)
  orPanic (fun _ => "user: segment copy translation failed")
    (putBytes root (-1) image (image.load64 (ph + 32)).toNat vaddr (image.load64 (ph + 8)))
  return { start := start, size := last - start, flags := flagsForSegment (image.load32 (ph + 4)) }

/-- The loop of `user_init_spawn` over the program headers from `ph` on;
`segments` are those loaded so far. -/
def mapSegments (root : Word) (image : Mem) (phentsize : Word) :
    Nat → Word → List LoadedSegment → Kern (List LoadedSegment)
  | 0, _, segments => return segments
  | n + 1, ph, segments =>
    if image.load32 ph = ptLoad ∧ image.load64 (ph + 40) ≠ 0 then
      if segments.length ≥ 16 then throw "user: too many ELF segments"
      else do
        let seg ← mapSegment root image ph
        mapSegments root image phentsize n (ph + phentsize) (segments ++ [seg])
    else mapSegments root image phentsize n (ph + phentsize) segments

/-- The protection pass. -/
def protectSegments (root : Word) : List LoadedSegment → Kern Unit
  | [] => return ()
  | seg :: segs => do
    orPanic (fun _ => "user: protect segment failed")
      (protectInRoot root seg.start seg.size seg.flags)
    protectSegments root segs

def mapUserStack (root : Word) : Kern Word := do
  orPanic (fun err => if err = -1 then "user: no stack memory" else "user: map stack failed")
    (mapStack root false (-1) (-2))
  return stackTop - 16

/-- `user_init_spawn` from the image in memory to the process as it is built. -/
def userInitLoad (root : Word) (image : Mem) (size : Word) : Kern LoadedImage :=
  if validElf image size then
    match elfProbeUserImage image size with
    | none => throw "user: /init ELF probe failed"
    | some info => do
      let segments ← mapSegments root image ((image.load16 54).setWidth 64) (image.load16 56).toNat
        (image.load64 32) []
      protectSegments root segments
      let stack ← mapUserStack root
      return { entry := info.entry, stack := stack, segments := info.segments.length }
  else throw "user: invalid /init ELF"

end OreOS.Kernel
