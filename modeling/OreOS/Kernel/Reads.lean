import OreOS.Kernel.Loader

/-!
# Where the loaders read an image

`OreOS.Kernel.Loader` has what the loaders compute from an image. Here the same
functions run with their reads on record: the offset in the image and the number
of bytes, newest first. Conditions are evaluated as C does it, from left to right
and no further than needed, because what is not evaluated is not read.
-/

namespace OreOS.Kernel

open OreOS.Lib (Word Byte Mem Exec)
open Syscall (LoadedImage)

/-- Reads of an image. -/
abbrev Reads := List (Word × Nat)

/-- Every byte that is read is in `[0, size)`. -/
def InImage (size off : Word) (n : Nat) : Prop :=
  ∀ k < n, (off + BitVec.ofNat 64 k).toNat < size.toNat

/-! ## ELF images -/

/-- A computation that reads an image. -/
abbrev Look := StateM Reads

namespace Look

variable (image : Mem)

def byte (off : Word) : Look Byte := do
  modify ((off, 1) :: ·)
  return image off

def word16 (off : Word) : Look (BitVec 16) := do
  modify ((off, 2) :: ·)
  return image.load16 off

def word32 (off : Word) : Look (BitVec 32) := do
  modify ((off, 4) :: ·)
  return image.load32 off

def word64 (off : Word) : Look Word := do
  modify ((off, 8) :: ·)
  return image.load64 off

/-- `a || b`. -/
def or (a b : Look Bool) : Look Bool := do
  if ← a then return true else b

/-- `eh->e_ident[i] != v`. -/
def identNe (i : Word) (v : Byte) : Look Bool := do
  return (← byte image i) ≠ v

def elfValidate (size : Word) : Look Int := do
  if size < 64 then return -1
  else if ← or (identNe image 0 0x7f) (or (identNe image 1 0x45)
      (or (identNe image 2 0x4c) (identNe image 3 0x46))) then return -1
  else if ← or (identNe image 4 2) (identNe image 5 1) then return -1
  else if ← or (do return (← word16 image 16) ≠ etExec) (do return (← word16 image 18) ≠ emX8664)
  then return -1
  else if (← word64 image 32) + (← word16 image 54).setWidth 64 * (← word16 image 56).setWidth 64 >
      size
  then return -1
  else return 0

/-- The loop of `elf_probe_user_image` over the program headers. -/
def probeHeaders (size : Word) :
    Nat → Word → List UserElfSegmentInfo → Look (Option (List UserElfSegmentInfo))
  | 0, _, found => do
    let _ ← word16 image 56
    return some found
  | n + 1, ph, found => do
    let _ ← word16 image 56
    let _ ← word64 image 32
    let phentsize := (← word16 image 54).setWidth 64
    if ← or (do return (← word32 image ph) ≠ ptLoad) (do return (← word64 image (ph + 40)) = 0) then
      probeHeaders size n (ph + phentsize) found
    else if ← or (do return (← word64 image (ph + 8)) + (← word64 image (ph + 32)) > size)
        (do return (← word64 image (ph + 32)) > (← word64 image (ph + 40))) then return none
    else if found.length ≥ 8 then return none
    else
      let vaddr ← word64 image (ph + 16)
      let fileOffset ← word64 image (ph + 8)
      let memSize ← word64 image (ph + 40)
      let fileSize ← word64 image (ph + 32)
      let flags ← word32 image (ph + 4)
      probeHeaders size n (ph + phentsize)
        (found ++ [{ vaddr, fileOffset, memSize, fileSize, flags := flags.setWidth 64 }])

def elfProbeUserImage (size : Word) : Look (Option UserElfInfo) := do
  if (← elfValidate image size) < 0 then return none
  else
    let entry ← word64 image 24
    match ← probeHeaders image size (image.load16 56).toNat (image.load64 32) [] with
    | none => return none
    | some segments =>
      if segments.length = 0 then return none
      else return some { entry, imageSize := size, segments }

end Look

/-- What `elf_validate` and `elf_probe_user_image` read. -/
def elfReads (image : Mem) (size : Word) : Reads :=
  (Look.elfProbeUserImage image size []).2

/-! ## OreImages -/

/-- The machine of a loader, and what it has read of the image. -/
structure Looking where
  machine : Machine
  reads : Reads := []

/-- A loader that reads an image. -/
abbrev LookKern := Exec String Looking

namespace LookKern

/-- A part of the loader that does not read the image. -/
def lift {α : Type} (x : Kern α) : LookKern α := fun c =>
  let (answer, s) := x c.machine
  (answer, { c with machine := s })

def look (off : Word) (n : Nat) : LookKern Unit :=
  modify fun c => { c with reads := (off, n) :: c.reads }

/-- `err = x; if (err < 0) return err;` before the rest. -/
def orReturn (x rest : LookKern Int) : LookKern Int := do
  let err ← x
  if err < 0 then return err else rest

/-- The loop of `copy_to_user_phys`. -/
def putBytes (root : Word) (refused : Int) (src : Mem) : Nat → Word → Word → LookKern Int
  | 0, _, _ => return 0
  | n + 1, va, off => do
    let phys ← lift (vmmVirtToPhysIn root va)
    if phys = 0 then return refused
    else
      look off 1
      lift (store8 phys (src off))
      putBytes root refused src n (va + 1) (off + 1)

/-- The relocation loop, from the relocation at `off` on. -/
def applyRelocs (root dataBase : Word) : Word → List OreImageReloc → LookKern Int
  | _, [] => return 0
  | off, r :: rs => do
    look off 24
    orReturn (lift (applyReloc root dataBase r)) (applyRelocs root dataBase (off + 24) rs)

/-- `load_ore_image_into_process`. The fields of the header are read one by one; here
the header counts as read when the first of them is. -/
def loadOreImageIntoProcess (root : Word) (image : Mem) (len : Word) :
    LookKern (Except Int LoadedImage) := do
  if len < 56 then return .error (-oreEinval)
  else
    look 0 56
    let hdr := oreImageHeader image
    if hdr.Accepted len then
      let err ←
        orReturn
          (orReturn (lift (mapZeroedUserPages root userBase hdr.textSize vmmUser)) <|
            orReturn (lift (mapZeroedUserPages root hdr.dataBase hdr.dataSpan (vmmUser ||| vmmNx))) <|
            orReturn (putBytes root (-oreEinval) image hdr.textSize.toNat userBase hdr.textOff) <|
            if hdr.dataSize ≠ 0 then
              putBytes root (-oreEinval) image hdr.dataSize.toNat hdr.dataBase hdr.dataOff
            else return 0) <|
        orReturn
          (applyRelocs root hdr.dataBase (hdr.headerSize.setWidth 64) (oreImageRelocs image))
          (lift (oreImageFinish root hdr))
      if err < 0 then return .error err
      else return .ok { entry := userBase + hdr.entry, stack := stackTop - 16, segments := 2 }
    else return .error (-oreEinval)

end LookKern

/-- What `load_ore_image_into_process` reads of the image. -/
def oreImageReads (root : Word) (image : Mem) (len : Word) (s : Machine) : Reads :=
  (LookKern.loadOreImageIntoProcess root image len { machine := s }).2.reads

end OreOS.Kernel
