import OreOS.Kernel.Loader

/-!
# Making a process from an image (`kernel/syscall.c`)

SPAWN and EXEC_IMAGE in full: the checks of the caller's pointers, the image,
the new process, the loader. The two handlers are one definition
(`LoadCall.run`) over what differs: how the image comes (`prepare`), which
loader runs (`load`), and how the call ends (`finish`). `Services` is what the
file system and the heap answer, and what they have done to memory.
-/

namespace OreOS.Kernel

open OreOS.Lib (Word Byte Mem)
open Syscall (LoadedImage)

def oreEnoent : Int := 2

/-! ## The caller's memory -/

/-- `vmm_virt_to_phys` with the root that CR3 holds. -/
def vmmVirtToPhys (cr3 : Word) (s : Machine) (virt : Word) : Word :=
  match (vmmVirtToPhysIn cr3 virt s).1 with
  | .ok phys => phys
  | .error _ => 0

/-- The byte behind an address of the caller. -/
def userByte (cr3 : Word) (s : Machine) (virt : Word) : Byte :=
  s.mem (vmmVirtToPhys cr3 s virt)

/-- `user_range_ok`: the first byte of every 4096 and the last byte translate. -/
def userRangeOk (cr3 : Word) (s : Machine) (ptr len : Word) : Bool :=
  if ptr = 0 ∨ ptr < userBase ∨ ptr ≥ userLimit then false
  else if len > userLimit - ptr then false
  else
    (List.range ((len.toNat + 4095) / 4096)).all
      (fun i => vmmVirtToPhys cr3 s (ptr + BitVec.ofNat 64 (4096 * i)) ≠ 0) &&
    (len = 0 || vmmVirtToPhys cr3 s (ptr + len - 1) ≠ 0)

/-- `copy_from_user`: the bytes, or the error. -/
def copyFromUser (cr3 : Word) (s : Machine) (src len : Word) : Except Int (List Byte) :=
  if len = 0 then .ok []
  else if ¬ userRangeOk cr3 s src len then .error (-oreEfault)
  else .ok ((List.range len.toNat).map fun i => userByte cr3 s (src + BitVec.ofNat 64 i))

/-- The loop of `strlen_user` from index `i` on, with `n` rounds left. -/
def strlenFrom (cr3 : Word) (s : Machine) (ptr : Word) : Nat → Nat → Except Int Nat
  | 0, _ => .error (-oreEinval)
  | n + 1, i =>
    if ¬ userRangeOk cr3 s (ptr + BitVec.ofNat 64 i) 1 then .error (-oreEfault)
    else if userByte cr3 s (ptr + BitVec.ofNat 64 i) = 0 then .ok i
    else strlenFrom cr3 s ptr n (i + 1)

def strlenUser (cr3 : Word) (s : Machine) (ptr : Word) (max : Nat) : Except Int Nat :=
  strlenFrom cr3 s ptr max 0

/-- A string of at most `max` bytes with its NUL: `strlen_user`, then
`copy_from_user`. -/
def copyUserString (cr3 : Word) (s : Machine) (ptr : Word) (max : Nat) :
    Except Int (List Byte) := do
  let len ← strlenUser cr3 s ptr max
  copyFromUser cr3 s ptr (BitVec.ofNat 64 (len + 1))

/-- `copy_user_string_optional`: the null pointer stands for the empty
string. -/
def copyUserStringOptional (cr3 : Word) (s : Machine) (ptr : Word) (max : Nat) :
    Except Int (List Byte) :=
  if ptr = 0 then .ok [0] else copyUserString cr3 s ptr (max - 1)

/-! ## The image -/

def oreVfsFile : Nat := 1

structure VfsStat where
  type : Nat
  size : Word

/-- What the file system and the heap answer in one call. -/
structure Services where
  /-- `vfs_stat`; `none` is a negative answer. -/
  stat : List Byte → Option VfsStat
  /-- `kmalloc`: the buffer as it is handed out, or null. -/
  kmalloc : Word → Option Mem
  /-- `vfs_read_file` with that buffer: the answer, and the buffer after it. -/
  readFile : List Byte → Mem → Word → Int × Mem
  /-- What all this did to the machine. -/
  settle : Machine → Machine

/-- What a call has in hand when it turns to the process table. -/
structure Prepared where
  name : List Byte
  args : List Byte
  image : Mem
  size : Word

/-- `ORE_SYS_SPAWN` up to `process_create_user`. -/
def prepareSpawn (services : Services) (cr3 : Word) (s : Machine) (a1 a2 : Word) :
    Except Int Prepared := do
  let path ← copyUserString cr3 s a1 127
  let args ← copyUserStringOptional cr3 s a2 128
  match services.stat path with
  | none => .error (-oreEnoent)
  | some st =>
    if st.type ≠ oreVfsFile ∨ st.size = 0 ∨ st.size > 512 * 1024 then .error (-oreEinval)
    else
      match services.kmalloc st.size with
      | none => .error (-oreEinval)
      | some buffer =>
        let (n, image) := services.readFile path buffer st.size
        if n ≠ st.size.toInt then .error (-oreEinval)
        else .ok { name := path, args := args, image := image, size := st.size }

/-- "ore-image". -/
def oreImageName : List Byte :=
  [0x6f, 0x72, 0x65, 0x2d, 0x69, 0x6d, 0x61, 0x67, 0x65]

/-- `ORE_SYS_EXEC_IMAGE` up to `process_create_user`. -/
def prepareExecImage (services : Services) (cr3 : Word) (s : Machine) (a1 a2 a3 : Word) :
    Except Int Prepared :=
  if ¬ userRangeOk cr3 s a1 a2 ∨ a2 < 56 ∨ a2 > 1024 * 1024 then .error (-oreEfault)
  else do
    let args ← copyUserStringOptional cr3 s a3 128
    match services.kmalloc a2 with
    | none => .error (-oreEnomem)
    | some buffer =>
      let bytes ← copyFromUser cr3 s a1 a2
      return { name := oreImageName, args := args, image := buffer.write 0 bytes, size := a2 }

/-! ## The new process -/

/-- `process_create_user`; `none` is the null pointer. -/
def createUser (kernelPml4 : Word) (t : ProcTable) (name : List Byte) :
    Kern (Option (Nat × ProcTable)) :=
  match processCreateKernel t name with
  | none => return none
  | some _ => return processCreateUser t name (← vmmCreateUserPml4 kernelPml4)

/-- SPAWN's choice of a loader, by the first word of the image. -/
def loadSpawned (root : Word) (image : Mem) (size : Word) : Kern (Except Int LoadedImage) :=
  if size ≥ 56 ∧ (oreImageHeader image).magic = oreImageMagic then
    loadOreImageIntoProcess root image size
  else
    match elfProbeUserImage image size with
    | none => return .error (-oreEinval)
    | some info => do
      match ← loadUserImageIntoProcess root image info with
      | .error _ => return .error (-oreEinval)
      | .ok loaded => return .ok loaded

/-! ## The calls -/

inductive LoadCall
  | spawn (a1 a2 : Word)
  | execImage (a1 a2 a3 : Word)

namespace LoadCall

/-- Everything before `process_create_user`. -/
def prepare (services : Services) (cr3 : Word) (s : Machine) : LoadCall → Except Int Prepared
  | spawn a1 a2 => prepareSpawn services cr3 s a1 a2
  | execImage a1 a2 a3 => prepareExecImage services cr3 s a1 a2 a3

/-- The answer when there is no slot for the process. -/
def noSlot : LoadCall → Word
  | spawn .. => einval
  | execImage .. => enomem

def load (root : Word) (p : Prepared) : LoadCall → Kern (Except Int LoadedImage)
  | spawn .. => loadSpawned root p.image p.size
  | execImage .. => loadOreImageIntoProcess root p.image p.size

/-- Everything after the loader. -/
def finish (t : ProcTable) (ctx : UserCtx) (child : Nat) (args : List Byte)
    (loaded : Except Word LoadedImage) : LoadCall → Reply
  | spawn .. => Syscall.spawnChild t child args loaded
  | execImage .. => Syscall.execChild t ctx child args loaded

/-- The handler. -/
def run (services : Services) (kernelPml4 : Word) (t : ProcTable) (ctx : UserCtx)
    (call : LoadCall) : Kern Reply := do
  match call.prepare services t.cr3 (← get) with
  | .error err => return { table := t, ret := BitVec.ofInt 64 err }
  | .ok p =>
    modify services.settle
    match ← createUser kernelPml4 t p.name with
    | none => return { table := t, ret := call.noSlot }
    | some (child, t) =>
      let loaded ← call.load (t.procs child).addressSpace.pml4Phys p
      return call.finish t ctx child p.args (loaded.mapError (BitVec.ofInt 64))

/-- The request as the process table sees it, given how the image turned out. -/
def request (image : Syscall.Image) : LoadCall → Call
  | spawn .. => .spawn image
  | execImage .. => .execImage image

end LoadCall

/-! ## Runs -/

/-- The events of `Event`, but SPAWN and EXEC_IMAGE in full: with what the file system and
the heap answer, and the memory that the programs have left. -/
inductive KernelEvent
  | tick (frame : InterruptFrame)
  | exit (ctx : UserCtx) (a1 : Word)
  | yield (ctx : UserCtx)
  | wait (ctx : UserCtx) (a1 : Word)
  | load (ctx : UserCtx) (call : LoadCall) (services : Services) (memory : Machine)

def kernelStep (kernelPml4 : Word) (t : ProcTable) : KernelEvent → Option ProcTable
  | .tick frame => step t (.tick frame)
  | .exit ctx a1 => step t (.call ctx (.exit a1))
  | .yield ctx => step t (.call ctx .yield)
  | .wait ctx a1 => step t (.call ctx (.wait a1))
  | .load ctx call services memory =>
    match call.run services kernelPml4 (countSyscall t) ctx memory with
    | (.ok r, _) => some r.table
    | (.error _, _) => none

end OreOS.Kernel
