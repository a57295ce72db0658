import OreOS.Kernel.Handles
import OreOS.Kernel.Okmod
import OreOS.Lib.Buffer

/-!
# System calls that return a structure (`kernel/syscall.c`)

STAT, READDIR, PROC_INFO and MOD_INFO fill a structure on the kernel stack and
copy all of it to the caller. The structure is a buffer of bytes, with its fields
at their offsets; what the stack held there before the call is an argument
(`stack`), and stays where nothing is stored.
-/

namespace OreOS.Kernel

open OreOS.Lib (Word Byte Mem Buf)

/-- The bytes of a structure. -/
def structBytes (size : Nat) (b : Buf) : List Byte :=
  (List.range size).map b

/-- `copy_to_user`: the error, or the bytes that are copied. -/
def copyToUser (cr3 : Word) (m : Machine) (dst : Word) (bytes : List Byte) :
    Except Int (List Byte) :=
  if bytes.length = 0 then .ok []
  else if userRangeOk cr3 m dst (BitVec.ofNat 64 bytes.length) = false then .error (-oreEfault)
  else .ok bytes

/-! ## The structures -/

/-- The stores of `vfs_stat` and `vfs_readdir_path` in a `VfsStat`. -/
def OreVfsStat.store (st : OreVfsStat) (b : Buf) : Buf :=
  ((b.put 0 (st.name ++ [0])).put 128 (Mem.leBytes 4 st.type)).put 136 (Mem.leBytes 8 st.size)

def sizeofOreVfsStat : Nat := 144

/-- `ORE_PROC_*`. -/
def ProcState.code : ProcState → BitVec 32
  | .unused => 0
  | .ready => 1
  | .running => 2
  | .exited => 3
  | .blocked => 4

/-- The stores of `ORE_SYS_PROC_INFO` in an `OreProcessInfo`. -/
def Process.storeInfo (proc : Process) (b : Buf) : Buf :=
  let b := b.put 0 (Mem.leBytes 4 (BitVec.ofNat 32 proc.pid))
  let b := b.put 4 (Mem.leBytes 4 (BitVec.ofNat 32 proc.parentPid))
  let b := b.put 8 (Mem.leBytes 4 proc.state.code)
  let b := b.put 12 (Mem.leBytes 4 proc.exitCode)
  let b := b.put 16 (Mem.leBytes 4 (BitVec.ofNat 32 proc.userSegmentCount))
  let b := b.put 24 (Mem.leBytes 8 (BitVec.ofNat 64 proc.syscallCount))
  let b := b.put 32 (Mem.leBytes 8 proc.userEntry)
  let b := b.put 40 (Mem.leBytes 8 proc.userStack)
  b.put 48 (copyString proc.name 32 ++ [0])

def sizeofOreProcessInfo : Nat := 80

/-- A string in an array of `n` bytes that was zero. -/
def paddedString (n : Nat) (s : List Byte) : List Byte :=
  (s ++ List.replicate n 0).take n

/-- A slot of the module table, which is zeroed before its fields are stored. -/
def OreModuleInfo.bytes (info : OreModuleInfo) : List Byte :=
  paddedString 32 info.name ++ paddedString 128 info.path ++
    Mem.leBytes 4 (BitVec.ofNat 32 info.state) ++ Mem.leBytes 4 info.abiVersion ++
    Mem.leBytes 4 info.initRc ++ Mem.leBytes 4 (0 : BitVec 32) ++
    Mem.leBytes 8 info.textBase ++ Mem.leBytes 8 info.textSize ++ Mem.leBytes 8 info.dataSize ++
    Mem.leBytes 4 (if info.hasCommand then 1 else 0 : BitVec 32) ++ Mem.leBytes 4 (0 : BitVec 32)

def sizeofOreModuleInfo : Nat := 208

/-- `okmod_info`: the slot is copied over the structure. -/
def okmodInfo (loadedModules : Nat) (moduleTable : Nat → OreModuleInfo) (index : Nat) (b : Buf) :
    Option Buf :=
  if index ≥ loadedModules then none else some (b.put 0 (moduleTable index).bytes)

/-! ## The calls -/

inductive InfoCall
  | stat (a1 a2 : Word)
  | readdir (a1 a2 a3 : Word)
  | procInfo (a1 a2 : Word)
  | modInfo (a1 a2 : Word)

/-- What the calls read. -/
structure InfoState where
  vfs : Vfs
  table : ProcTable
  loadedModules : Nat
  moduleTable : Nat → OreModuleInfo
  cr3 : Word
  memory : Machine

namespace InfoState

variable (k : InfoState) (stack : Buf)

/-- `ORE_SYS_STAT`. -/
def sysStat (a1 a2 : Word) : Except Int (List Byte) :=
  match userPath k.cr3 k.memory a1 with
  | .error err => .error err
  | .ok path =>
    match k.vfs.stat path with
    | none => .error (-oreEnoent)
    | some st => copyToUser k.cr3 k.memory a2 (structBytes sizeofOreVfsStat (st.store stack))

/-- What `ORE_SYS_READDIR` finds. -/
def readdirEntry (a1 a3 : Word) : Except Int OreVfsStat :=
  let path := if a3 ≠ 0 then userPath k.cr3 k.memory a3 else .ok [slash]
  match path with
  | .error err => .error err
  | .ok path =>
    match k.vfs.readdirPath path (a1.setWidth 32).toNat with
    | none => .error (-oreEnoent)
    | some st => .ok st

/-- `ORE_SYS_READDIR`. -/
def sysReaddir (a1 a2 a3 : Word) : Except Int (List Byte) :=
  match k.readdirEntry a1 a3 with
  | .error err => .error err
  | .ok st => copyToUser k.cr3 k.memory a2 (structBytes sizeofOreVfsStat (st.store stack))

/-- `ORE_SYS_PROC_INFO`. -/
def sysProcInfo (a1 a2 : Word) : Except Int (List Byte) :=
  match processTableAt k.table (a1.setWidth 32).toNat with
  | none => .error (-oreEnoent)
  | some i =>
    copyToUser k.cr3 k.memory a2
      (structBytes sizeofOreProcessInfo ((k.table.procs i).storeInfo stack))

/-- `ORE_SYS_MOD_INFO`. -/
def sysModInfo (a1 a2 : Word) : Except Int (List Byte) :=
  match okmodInfo k.loadedModules k.moduleTable (a1.setWidth 32).toNat stack with
  | none => .error (-oreEnoent)
  | some info => copyToUser k.cr3 k.memory a2 (structBytes sizeofOreModuleInfo info)

/-- The error that a call returns, or the bytes that it copies to the caller. -/
def reply : InfoCall → Except Int (List Byte)
  | .stat a1 a2 => k.sysStat stack a1 a2
  | .readdir a1 a2 a3 => k.sysReaddir stack a1 a2 a3
  | .procInfo a1 a2 => k.sysProcInfo stack a1 a2
  | .modInfo a1 a2 => k.sysModInfo stack a1 a2

end InfoState

end OreOS.Kernel
