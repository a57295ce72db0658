import OreOS.Kernel.Spawn
import OreOS.Kernel.Vfs
import OreOS.Lib.Run

/-!
# Open files (`kernel/syscall.c`)

OPEN, FILE_READ and CLOSE. A process has 64 handles; a handle is the path of a
file, which every read looks up again, and an offset. The file system and the
device do not change.

A call comes with the memory of its caller, which may have done anything to it
since the last call, and with what the heap and the device answer.
-/

namespace OreOS.Kernel

open OreOS.Lib (Word Byte)

def oreMaxHandles : Nat := 64
def oreEbadf : Int := 9

structure Handle where
  type : BitVec 32 := 0
  offset : Word := 0
  path : List Byte := []

/-- The handles of a process. -/
abbrev Handles := Nat → Handle

def copyString (src : List Byte) (max : Nat) : List Byte :=
  src.take (max - 1)

/-- What a call returns, the bytes it puts into the caller's buffer, and the handles
after it. -/
structure FileReply where
  result : Int
  delivered : List Byte := []
  handles : Handles

/-- `path_copy`: a path of the caller, of at most 126 bytes. -/
def userPath (cr3 : Word) (s : Machine) (ptr : Word) : Except Int (List Byte) :=
  (copyUserString cr3 s ptr 127).map fun bytes => bytes.takeWhile (· ≠ 0)

/-- `ORE_SYS_OPEN`. -/
def sysOpen (v : Vfs) (cr3 : Word) (s : Machine) (handles : Handles) (a1 : Word) : FileReply :=
  match userPath cr3 s a1 with
  | .error err => { result := err, handles := handles }
  | .ok path =>
    match v.stat path with
    | none => { result := -oreEnoent, handles := handles }
    | some st =>
      match (List.range' 1 (oreMaxHandles - 1)).find? fun i => (handles i).type = 0 with
      | none => { result := -oreEinval, handles := handles }
      | some i =>
        { result := i
          handles := Function.update handles i
            { type := st.type, offset := 0, path := copyString path 128 } }

/-- `ORE_SYS_FILE_READ`. -/
def sysFileRead (v : Vfs) (root : Option BlockDevice) (env : ReadEnv) (cr3 : Word) (s : Machine)
    (handles : Handles) (a1 a2 a3 : Word) : FileReply :=
  if a1.toNat ≥ oreMaxHandles ∨ (handles a1.toNat).type ≠ Vfs.oreVfsFile then
    { result := -oreEbadf, handles := handles }
  else if userRangeOk cr3 s a2 a3 = false then { result := -oreEfault, handles := handles }
  else
    let h := handles a1.toNat
    let (n, bytes) := v.readFileAt root env h.path h.offset a3
    { result := n
      delivered := bytes
      handles :=
        if n > 0 then Function.update handles a1.toNat { h with offset := h.offset + BitVec.ofInt 64 n }
        else handles }

/-- `ORE_SYS_CLOSE`. -/
def sysClose (handles : Handles) (a1 : Word) : FileReply :=
  if a1.toNat ≥ oreMaxHandles ∨ (handles a1.toNat).type = 0 then
    { result := -oreEbadf, handles := handles }
  else { result := 0, handles := Function.update handles a1.toNat {} }

/-! ## Runs -/

inductive FileCall
  | open (a1 : Word)
  | fileRead (a1 a2 a3 : Word) (env : ReadEnv)
  | close (a1 : Word)

/-- A call by a process, with its page tables and memory. -/
structure FileEvent where
  process : Nat
  cr3 : Word
  memory : Machine
  call : FileCall

/-- The handle that the call is an operation on, for an OPEN the one it returns. -/
def FileEvent.handle (e : FileEvent) (result : Int) : Option Nat :=
  match e.call with
  | .open _ => if result > 0 then some result.toNat else none
  | .fileRead a1 _ _ _ => some a1.toNat
  | .close a1 => some a1.toNat

/-- The heap is in the kernel's part of the address space. -/
def ReadEnv.InKernel (env : ReadEnv) : Prop :=
  ∀ size ptr, env.kmalloc size = some ptr → ptr.toNat + size.toNat ≤ userBase.toNat

def FileEvent.Allowed (e : FileEvent) : Prop :=
  match e.call with
  | .fileRead _ _ _ env => env.InKernel
  | _ => True

/-- A handle that is open: the path of its OPEN, and the bytes that reads have
returned since. -/
structure Opened where
  path : List Byte
  read : Nat

structure FileState where
  handles : Nat → Handles := fun _ _ => {}
  opened : Nat → Nat → Option Opened := fun _ _ => none

namespace FileState

variable (v : Vfs) (root : Option BlockDevice)

def reply (s : FileState) (e : FileEvent) : FileReply :=
  match e.call with
  | .open a1 => sysOpen v e.cr3 e.memory (s.handles e.process) a1
  | .fileRead a1 a2 a3 env =>
    sysFileRead v root env e.cr3 e.memory (s.handles e.process) a1 a2 a3
  | .close a1 => sysClose (s.handles e.process) a1

/-- The account of a process after a call with this result. -/
def account (opened : Nat → Option Opened) (e : FileEvent) (result : Int) : Nat → Option Opened :=
  match e.call with
  | .open a1 =>
    match userPath e.cr3 e.memory a1 with
    | .ok path =>
      if result > 0 then Function.update opened result.toNat (some ⟨path, 0⟩) else opened
    | .error _ => opened
  | .fileRead a1 _ _ _ =>
    if result > 0 then
      Function.update opened a1.toNat
        ((opened a1.toNat).map fun o => { o with read := o.read + result.toNat })
    else opened
  | .close a1 => if result = 0 then Function.update opened a1.toNat none else opened

def step (s : FileState) (e : FileEvent) : Option FileState :=
  let r := s.reply v root e
  some
    { handles := Function.update s.handles e.process r.handles
      opened := Function.update s.opened e.process (account (s.opened e.process) e r.result) }

end FileState

/-! ## What files hold -/

/-- The size of a file and its bytes. -/
structure FileContents where
  size : Word
  byte : Word → Byte

/-- The file at a path. A file on the disk begins at the offset of its entry. -/
def Vfs.contents (v : Vfs) (root : Option BlockDevice) (path : List Byte) : Option FileContents :=
  match v.onDisk path with
  | some rel =>
    match root, diskLookup v rel with
    | some dev, some entry =>
      some { size := entry.size, byte := fun i => dev.bytes (entry.offset + i).toNat }
    | _, _ => none
  | none =>
    (initramfsLookupRaw v path).map fun file => { size := file.size, byte := file.data }

end OreOS.Kernel
