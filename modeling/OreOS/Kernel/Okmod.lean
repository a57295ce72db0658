import OreOS.Kernel.Pmm
import OreOS.Kernel.Spawn

/-!
# Kernel modules (`kernel/okmod.c`)

`okmod_load_one` reads a module file, puts its text and data into pages of their
own, makes the text pages read-only and calls the module's `init`. What the file
system, the heap and `init` answer is given. The sizes in a header are not
checked for sums that wrap; a copy with such a size leaves the lower half of the
address space and does not return.
-/

namespace OreOS.Kernel

open OreOS.Lib (Word Byte Mem Exec)

def okmodMaxSize : Word := 128 * 1024
def okmodMaxModules : Nat := 16
def oreKmodMagic : Word := 0x31444f4d4b45524f
def oreKmodVersion : BitVec 32 := 1
def oreKernelAbiVersion : BitVec 32 := 1
def sizeofOreKModHeader : Word := 120

structure OreKModHeader where
  magic : Word
  version : BitVec 32
  headerSize : BitVec 32
  kernelAbiVersion : BitVec 32
  entry : Word
  textSize : Word
  dataSize : Word
  bssSize : Word
  relocCount : Word
  importCount : Word
  exportCount : Word
  commandEntry : Word
  name : List Byte

def oreKModHeader (file : Mem) : OreKModHeader where
  magic := file.load64 0
  version := file.load32 8
  headerSize := file.load32 12
  kernelAbiVersion := file.load32 16
  entry := file.load64 24
  textSize := file.load64 32
  dataSize := file.load64 40
  bssSize := file.load64 48
  relocCount := file.load64 56
  importCount := file.load64 64
  exportCount := file.load64 72
  commandEntry := file.load64 80
  name := (List.range 32).map fun i => file (BitVec.ofNat 64 (88 + i))

namespace OreKModHeader

variable (hdr : OreKModHeader)

/-- The header is of this kernel's kind. -/
def Known : Prop :=
  hdr.magic = oreKmodMagic ∧ hdr.version = oreKmodVersion ∧
    hdr.kernelAbiVersion = oreKernelAbiVersion ∧ 120 ≤ hdr.headerSize ∧
    hdr.relocCount = 0 ∧ hdr.importCount = 0 ∧ hdr.exportCount = 0

instance : Decidable hdr.Known :=
  inferInstanceAs (Decidable (_ ∧ _))

def textOff : Word := hdr.headerSize.setWidth 64
def dataOff : Word := hdr.textOff + hdr.textSize
def total : Word := hdr.textSize + hdr.dataSize + hdr.bssSize

/-- The layout fits the file and the limit. -/
def Fits (size : Word) : Prop :=
  hdr.textSize ≠ 0 ∧ hdr.entry < hdr.textSize ∧ hdr.dataOff + hdr.dataSize ≤ size ∧
    hdr.total ≤ okmodMaxSize

instance (size : Word) : Decidable (hdr.Fits size) :=
  inferInstanceAs (Decidable (_ ∧ _))

/-- `(uint32_t)((total + OKMOD_PAGE_SIZE - 1) / OKMOD_PAGE_SIZE)`. -/
def pages : BitVec 32 := ((hdr.total + 4096 - 1) / 4096).setWidth 32

/-- `pages * OKMOD_PAGE_SIZE`. -/
def bytes : Word := hdr.pages.setWidth 64 * 4096

end OreKModHeader

/-! ## The module table -/

structure OreModuleInfo where
  name : List Byte := []
  path : List Byte := []
  state : Nat := 0
  abiVersion : BitVec 32 := 0
  initRc : BitVec 32 := 0
  textBase : Word := 0
  textSize : Word := 0
  dataSize : Word := 0
  hasCommand : Bool := false

/-- `copy_str_okmod` into `cap` bytes: the string that is then there. -/
def copyStrOkmod (src : List Byte) (cap : Nat) : List Byte :=
  (src.takeWhile (· ≠ 0)).take (cap - 1)

def moduleNameFromPath (path : List Byte) : List Byte :=
  let base := (path.reverse.takeWhile (· ≠ 0x2f)).reverse
  (base.takeWhile (· ≠ 0x2e)).take 31

structure OkState where
  phys : Phys
  loadedModules : Nat := 0
  moduleTable : Nat → OreModuleInfo := fun _ => {}
  moduleCommands : Nat → Word := fun _ => 0

/-- The slot of a module whose file has been read. -/
def newSlot (path : List Byte) (hdr : OreKModHeader) : OreModuleInfo :=
  { path := copyStrOkmod path 128
    name :=
      if 120 ≤ hdr.headerSize ∧ hdr.name.head? ≠ some 0 then copyStrOkmod hdr.name 32
      else moduleNameFromPath path
    state := 2
    abiVersion := hdr.kernelAbiVersion }

abbrev Okmod := Exec String OkState

def updateSlot (f : OreModuleInfo → OreModuleInfo) : Okmod Unit :=
  modify fun s =>
    { s with
      moduleTable := Function.update s.moduleTable s.loadedModules
        (f (s.moduleTable s.loadedModules)) }

/-- The slot says that the module is no good. -/
def rejectSlot : Okmod Unit := updateSlot fun slot => { slot with state := 4 }

/-! ## Memory -/

/-- A computation on the page tables. -/
def onTables {α : Type} (x : Kern α) : Okmod α := do
  let s ← get
  set { s with phys := (s.phys.run x).2 }
  match (s.phys.run x).1 with
  | .ok a => return a
  | .error message => throw message

def allocModule (pages : BitVec 32) : Okmod (Option Word) := do
  let s ← get
  set { s with phys := (s.phys.allocPages pages).2 }
  return (s.phys.allocPages pages).1

def freeModule (mem : Word) (pages : BitVec 32) : Okmod Unit :=
  modify fun s => { s with phys := s.phys.freePages mem pages }

/-- A loop of stores upwards from `dst`. -/
def fillMem (dst n : Word) (byte : Nat → Byte) : Okmod Unit := do
  if dst.toNat + n.toNat ≤ 2 ^ 47 then
    modify fun s =>
      { s with
        phys := { s.phys with mem := s.phys.mem.write dst ((List.range n.toNat).map byte) } }
  else throw "fault"

def memZeroOkmod (dst n : Word) : Okmod Unit := fillMem dst n fun _ => 0

/-- `mem_copy_okmod` from the file. -/
def memCopyOkmod (dst : Word) (file : Mem) (off n : Word) : Okmod Unit :=
  fillMem dst n fun i => file (off + BitVec.ofNat 64 i)

/-! ## Loading -/

/-- Text, data and bss. -/
def placeModule (mem : Word) (file : Mem) (hdr : OreKModHeader) : Okmod Unit := do
  memZeroOkmod mem hdr.bytes
  memCopyOkmod mem file hdr.textOff hdr.textSize
  memCopyOkmod (mem + hdr.textSize) file hdr.dataOff hdr.dataSize
  memZeroOkmod (mem + hdr.textSize + hdr.dataSize) hdr.bssSize

/-- The pages behind the text are writable again. -/
def protectData (kernelPml4 mem : Word) (hdr : OreKModHeader) : Okmod Unit := do
  if hdr.bytes > hdr.textSize then
    let _ ← onTables (protectInRoot kernelPml4 (mem + hdr.textSize) (hdr.bytes - hdr.textSize)
      (vmmPresent ||| vmmWrite ||| vmmNx))
  else return ()

def hasCommandEntry (hdr : OreKModHeader) : Bool :=
  hdr.commandEntry ≠ 0xffffffffffffffff && hdr.commandEntry < hdr.textSize

/-- What is entered after `init` has returned `rc`. -/
def recordInit (mem : Word) (hdr : OreKModHeader) (rc : BitVec 32) : Okmod Unit := do
  updateSlot fun slot =>
    { slot with
      initRc := rc
      textBase := mem
      textSize := hdr.textSize
      dataSize := hdr.dataSize
      hasCommand := slot.hasCommand || hasCommandEntry hdr }
  if hasCommandEntry hdr then
    modify fun s =>
      { s with
        moduleCommands := Function.update s.moduleCommands s.loadedModules
          (mem + hdr.commandEntry) }
  else return ()

/-- The end of `okmod_load_one`. -/
def finishModule (mem : Word) (hdr : OreKModHeader) (rc : BitVec 32) : Okmod Int := do
  if rc.toInt < 0 then
    rejectSlot
    freeModule mem hdr.pages
    return -1
  else
    updateSlot fun slot => { slot with state := 3 }
    modify fun s => { s with loadedModules := s.loadedModules + 1 }
    return 0

/-- `okmod_load_one` from `pmm_alloc_pages` up to the call of `init`: where the
module is, or `none` when it is turned down. -/
def prepareModule (kernelPml4 : Word) (file : Mem) (hdr : OreKModHeader) :
    Okmod (Option Word) := do
  match ← allocModule hdr.pages with
  | none => return none
  | some mem =>
    placeModule mem file hdr
    if (← onTables (protectInRoot kernelPml4 mem hdr.textSize vmmPresent)) < 0 then
      rejectSlot
      freeModule mem hdr.pages
      return none
    else
      protectData kernelPml4 mem hdr
      return some mem

/-- The file of a module, with its size, if it can be read. -/
def readModule (services : Services) (path : List Byte) : Option (Mem × Word) :=
  match services.stat path with
  | none => none
  | some st =>
    if st.type ≠ oreVfsFile ∨ st.size < sizeofOreKModHeader ∨ st.size > okmodMaxSize then none
    else
      match services.kmalloc st.size with
      | none => none
      | some buffer =>
        let (n, file) := services.readFile path buffer st.size
        if n ≠ st.size.toInt then none else some (file, st.size)

/-- `okmod_load_one` up to the call of `init`. -/
def loadToInit (services : Services) (kernelPml4 : Word) (path : List Byte) :
    Okmod (Option (Word × OreKModHeader)) := do
  if (← get).loadedModules ≥ okmodMaxModules then return none
  else
    match readModule services path with
    | none => return none
    | some (file, size) =>
      let hdr := oreKModHeader file
      updateSlot fun _ => newSlot path hdr
      if hdr.Known ∧ hdr.Fits size then
        return (← prepareModule kernelPml4 file hdr).map fun mem => (mem, hdr)
      else
        rejectSlot
        return none

/-- `okmod_load_one`; `rc` is what the module's `init` returns. -/
def okmodLoadOne (services : Services) (kernelPml4 : Word) (path : List Byte) (rc : BitVec 32) :
    Okmod Int := do
  match ← loadToInit services kernelPml4 path with
  | none => return -1
  | some (mem, hdr) =>
    recordInit mem hdr rc
    finishModule mem hdr rc

/-- `okmod_run_command`: the command that is called, or `none` for the answer -1.
The names are those of the strings, so a null name is the empty one. -/
def okmodRunCommand (s : OkState) (name : List Byte) : Option Word :=
  if name = [] then none
  else
    ((List.range s.loadedModules).find? fun i =>
      (s.moduleTable i).hasCommand && decide ((s.moduleTable i).name = name) &&
        decide (s.moduleCommands i ≠ 0)).map s.moduleCommands

/-! ## Clients -/

/-- The modules and the pages that clients of the allocator hold. -/
structure OkSystem where
  kernelPml4 : Word
  ok : OkState
  live : List Nat := []

inductive OkCall
  | load (services : Services) (path : List Byte) (rc : BitVec 32)
  | alloc (count : BitVec 32)
  | free (ptr : Word) (count : BitVec 32)

def OkSystem.step (s : OkSystem) : OkCall → Option OkSystem
  | .load services path rc =>
    match okmodLoadOne services s.kernelPml4 path rc s.ok with
    | (.ok _, ok) => some { s with ok := ok }
    | (.error _, _) => none
  | .alloc count =>
    match s.ok.phys.allocPages count with
    | (none, phys) => some { s with ok := { s.ok with phys := phys } }
    | (some ptr, phys) =>
      some
        { s with
          ok := { s.ok with phys := phys }
          live := s.live ++ runPages ptr count }
  | .free ptr count =>
    some
      { s with
        ok := { s.ok with phys := s.ok.phys.freePages ptr count }
        live := if ptr = 0 then s.live else s.live.filter (· ∉ runPages ptr count) }

/-- Clients free pages that they hold. -/
def OkSystem.FreesLive (s : OkSystem) : OkCall → Prop
  | .free ptr count => ptr = 0 ∨ ∀ page ∈ runPages ptr count, page ∈ s.live
  | _ => True

end OreOS.Kernel
