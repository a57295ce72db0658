import OreOS.Kernel.Replies

/-!
# The kernel in the memory of its caller (`kernel/syscall.c`)

`copy_from_user`, `copy_to_user` and the calls READ, FILE_READ and ARGS, access
by access on the addresses of the program. The processor follows the four
entries of an address from the root in CR3 and takes an exception, on which
`isr_dispatch` panics, where one is not present, or where one lacks the write
bit for a store and CR0 has write protection on (`Cpu.wp`). Every address that
is accessed is on record (`Caller.touched`, newest first).
-/

namespace OreOS.Kernel

open OreOS.Lib (Word Byte Mem Buf Exec)

/-! ## Accesses -/

structure Cpu where
  cr3 : Word
  /-- CR0.WP. -/
  wp : Bool

/-- The entries of an address, from the root to the page. -/
structure Walk where
  pml4e : Word
  pdpte : Word
  pde : Word
  pte : Word

/-- Every entry has the flag. -/
def Walk.all (w : Walk) (flag : Word) : Bool :=
  w.pml4e &&& flag ≠ 0 ∧ w.pdpte &&& flag ≠ 0 ∧ w.pde &&& flag ≠ 0 ∧ w.pte &&& flag ≠ 0

/-- The processor's way through the page tables. -/
def Walk.through (m : Mem) (root virt : Word) : Walk :=
  let pml4e := m.load64 (cell root (tableIndex virt 39))
  let pdpte := m.load64 (cell (pml4e &&& pteAddrMask) (tableIndex virt 30))
  let pde := m.load64 (cell (pdpte &&& pteAddrMask) (tableIndex virt 21))
  let pte := m.load64 (cell (pde &&& pteAddrMask) (tableIndex virt 12))
  { pml4e, pdpte, pde, pte }

/-- The memory in which a call runs, and the addresses of the caller that it has
accessed. -/
structure Caller where
  machine : Machine
  touched : List Word := []

/-- A computation on the memory of the caller; the error is the text of a `panic`. -/
abbrev UserKern := Exec String Caller

/-- The text of the panic on an exception of the kernel. -/
def unhandledException : String := "unhandled CPU exception"

namespace Cpu

variable (cpu : Cpu)

def touch (virt : Word) : UserKern Machine := do
  modify fun c => { c with touched := virt :: c.touched }
  return (← get).machine

def loadUser (virt : Word) : UserKern Byte := do
  let s ← touch virt
  let w := Walk.through s.mem cpu.cr3 virt
  if w.all vmmPresent then return s.mem ((w.pte &&& pteAddrMask) ||| (virt &&& 0xfff))
  else throw unhandledException

def storeUser (virt : Word) (b : Byte) : UserKern Unit := do
  let s ← touch virt
  let w := Walk.through s.mem cpu.cr3 virt
  if w.all vmmPresent ∧ (cpu.wp → w.all vmmWrite) then
    modify fun c =>
      { c with machine := s.write ((w.pte &&& pteAddrMask) ||| (virt &&& 0xfff)) [b] }
  else throw unhandledException

def loadBytes : Nat → Word → UserKern (List Byte)
  | 0, _ => return []
  | n + 1, virt => do
    let b ← cpu.loadUser virt
    return b :: (← loadBytes n (virt + 1))

def storeBytes : List Byte → Word → UserKern Unit
  | [], _ => return ()
  | b :: bs, virt => do
    cpu.storeUser virt b
    storeBytes bs (virt + 1)

/-! ## Copies -/

/-- `copy_from_user`: the answer, and the bytes that are put at `dst`. -/
def copyFromUser (src len : Word) : UserKern (Int × List Byte) := do
  let s := (← get).machine
  if len = 0 then return (0, [])
  else if userRangeOk cpu.cr3 s src len = false then return (-oreEfault, [])
  else return (0, ← cpu.loadBytes len.toNat src)

def copyToUser (dst : Word) (src : Buf) (len : Word) : UserKern Int := do
  let s := (← get).machine
  if len = 0 then return 0
  else if userRangeOk cpu.cr3 s dst len = false then return -oreEfault
  else
    cpu.storeBytes (structBytes len.toNat src) dst
    return 0

/-! ## Calls -/

/-- `ORE_SYS_READ`, with the key that `console_read_key` returns in the end. -/
def sysRead (key : BitVec 32) (a1 a2 a3 : Word) : UserKern Int := do
  let s := (← get).machine
  if a1 ≠ 0 then return -oreEbadf
  else if userRangeOk cpu.cr3 s a2 a3 = false then return -oreEfault
  else if a3 = 0 then return 0
  else
    cpu.storeUser a2 (key.setWidth 8)
    return 1

/-- `ORE_SYS_FILE_READ`: what the call answers and delivers is `OreOS.Kernel.sysFileRead`. -/
def sysFileRead (v : Vfs) (root : Option BlockDevice) (env : ReadEnv) (handles : Handles)
    (a1 a2 a3 : Word) : UserKern Int := do
  let r := Kernel.sysFileRead v root env cpu.cr3 (← get).machine handles a1 a2 a3
  cpu.storeBytes r.delivered a2
  return r.result

/-- `ORE_SYS_ARGS`; `none` is a null `process_current()`. -/
def sysArgs (proc : Option Process) (a1 a2 : Word) : UserKern Int := do
  let s := (← get).machine
  match proc with
  | none => return -oreEinval
  | some proc =>
    if userRangeOk cpu.cr3 s a1 a2 = false then return -oreEfault
    else
      let args := (proc.args.takeWhile (· ≠ 0)).take (a2.toNat - 1)
      cpu.storeBytes (if a2 = 0 then [] else args ++ [0]) a1
      return args.length

end Cpu

/-- The ways to write through a pointer of the caller. -/
inductive UserWrite
  | copyToUser (dst : Word) (src : Buf) (len : Word)
  | read (key : BitVec 32) (a1 a2 a3 : Word)
  | fileRead (v : Vfs) (root : Option BlockDevice) (env : ReadEnv) (handles : Handles)
      (a1 a2 a3 : Word)
  | args (proc : Option Process) (a1 a2 : Word)

namespace UserWrite

def run (cpu : Cpu) : UserWrite → UserKern Int
  | copyToUser dst src len => cpu.copyToUser dst src len
  | read key a1 a2 a3 => cpu.sysRead key a1 a2 a3
  | fileRead v root env handles a1 a2 a3 => cpu.sysFileRead v root env handles a1 a2 a3
  | args proc a1 a2 => cpu.sysArgs proc a1 a2

/-- The pointer of the caller. -/
def dst : UserWrite → Word
  | copyToUser dst _ _ => dst
  | read _ _ a2 _ => a2
  | fileRead _ _ _ _ _ a2 _ => a2
  | args _ a1 _ => a1

/-- The size of the caller's buffer. -/
def len : UserWrite → Word
  | copyToUser _ _ len => len
  | read _ _ _ a3 => a3
  | fileRead _ _ _ _ _ _ a3 => a3
  | args _ _ a2 => a2

/-- The checks that come before the one of the destination succeed. -/
def Reaches : UserWrite → Prop
  | copyToUser .. => True
  | read _ a1 _ _ => a1 = 0
  | fileRead _ _ _ handles a1 _ _ =>
    a1.toNat < oreMaxHandles ∧ (handles a1.toNat).type = Vfs.oreVfsFile
  | args proc _ _ => proc.isSome

end UserWrite

/-- `vmm_flags` has both `VMM_USER` and `VMM_WRITE`. -/
def userWritable (cr3 : Word) (s : Machine) (virt : Word) : Bool :=
  match (vmmFlags cr3 virt s).1 with
  | .ok flags => flags &&& (vmmUser ||| vmmWrite) = vmmUser ||| vmmWrite
  | .error _ => false

end OreOS.Kernel
