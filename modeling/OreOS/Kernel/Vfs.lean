import OreOS.Lib.Listing
import OreOS.Lib.Paths
import OreOS.Lib.Word

/-!
# The file system (`kernel/vfs.c`, `kernel/initramfs.c`, `kernel/block.c`)

The root is the initramfs, and an OreFS disk is mounted at `/disk`. Both hold
files only; a directory is there if it is on the way to a name. A C string is
the list of its bytes before the NUL. Pointers to paths and buffers are never
null here. What the heap and the device answer in a read from the disk is given
(`ReadEnv`).
-/

namespace OreOS.Kernel

open OreOS.Lib (Word Byte nth)

def slash : Byte := 0x2f
/-- `"disk"`. -/
def diskName : List Byte := [0x64, 0x69, 0x73, 0x6b]

/-- A file of the archive. `data` is memory from `data` on. -/
structure InitramfsFile where
  name : List Byte
  data : Word → Byte
  size : Word
  type : BitVec 32

structure OreFsEntry where
  name : List Byte
  offset : Word
  size : Word
  type : BitVec 32

structure Vfs where
  mounted : Bool
  diskMounted : Bool
  files : List InitramfsFile
  diskEntries : List OreFsEntry

def Vfs.oreVfsFile : BitVec 32 := 1
def Vfs.oreVfsDir : BitVec 32 := 2

/-- What is stored in a `VfsStat`. -/
@[ext]
structure OreVfsStat where
  name : List Byte
  type : BitVec 32
  size : Word
  deriving DecidableEq

/-! ## Strings -/

def charAt (s : List Byte) (i : Nat) : Byte := s.getD i 0

def strEq : List Byte → List Byte → Bool
  | a :: as, b :: bs => a == b && strEq as bs
  | [], [] => true
  | _, _ => false

/-- `str_prefix_eq`, for an `n` that is not above the length of `b`. -/
def strPrefixEq : List Byte → List Byte → Nat → Bool
  | _, _, 0 => true
  | a :: as, b :: bs, n + 1 => a == b && strPrefixEq as bs n
  | _, _, _ => false

def copyName (src : List Byte) : List Byte := src.take 127

def copyNameLen (src : List Byte) (len : Nat) : List Byte := src.take (min 127 len)

/-- `if (p[0] == '/') p++`. -/
def stripSlash (p : List Byte) : List Byte :=
  if charAt p 0 = slash then p.tail else p

/-- `starts_with_dir`, with the length of `dir`. -/
def startsWithDir (name dir : List Byte) : Bool :=
  if dir.length = 0 then true
  else strPrefixEq name dir dir.length && charAt name dir.length == slash

/-- What `direct_child` and `disk_direct_child` do with a name. -/
def childOf (dir name : List Byte) (type : BitVec 32) (size : Word) : Option OreVfsStat :=
  if startsWithDir name dir = false then none
  else
    let rel := name.drop dir.length
    let rel := if dir.length ≠ 0 then rel.tail else rel
    if rel.length = 0 then none
    else
      let childLen := (rel.takeWhile (· ≠ slash)).length
      let name := copyNameLen rel childLen
      if charAt rel childLen = slash then some { name := name, type := Vfs.oreVfsDir, size := 0 }
      else some { name := name, type := type, size := size }

/-! ## The initramfs -/

def initramfsLookupRaw (v : Vfs) (path : List Byte) : Option InitramfsFile :=
  v.files.find? fun file => strEq file.name (stripSlash path)

def pathHasChildren (v : Vfs) (path : List Byte) : Bool :=
  v.files.any fun file => startsWithDir file.name (stripSlash path)

def directChild (dir : List Byte) (file : InitramfsFile) : Option OreVfsStat :=
  childOf dir file.name file.type file.size

/-! ## The disk -/

/-- `disk_path`: what is below `/disk`. -/
def diskPath (path : List Byte) : Option (List Byte) :=
  if strEq path (slash :: diskName) then some []
  else if strPrefixEq path (slash :: diskName ++ [slash]) 6 then some (path.drop 6)
  else none

def diskLookup (v : Vfs) (path : List Byte) : Option OreFsEntry :=
  let rel := (diskPath path).getD path
  v.diskEntries.find? fun entry => strEq entry.name (stripSlash rel)

def diskHasChildren (v : Vfs) (rel : List Byte) : Bool :=
  if rel.length = 0 then v.diskEntries.length ≠ 0
  else
    v.diskEntries.any fun entry =>
      strPrefixEq entry.name rel rel.length && charAt entry.name rel.length == slash

def diskDirectChild (dir : List Byte) (entry : OreFsEntry) : Option OreVfsStat :=
  childOf dir entry.name entry.type entry.size

namespace Vfs

/-- `disk_mounted && disk_path(path, &rel)`. -/
def onDisk (v : Vfs) (path : List Byte) : Option (List Byte) :=
  if v.diskMounted then diskPath path else none

/-! ## `vfs_stat` -/

def statDisk (v : Vfs) (rel : List Byte) : Option OreVfsStat :=
  if rel.length = 0 then some { name := copyName diskName, type := Vfs.oreVfsDir, size := 0 }
  else
    match diskLookup v rel with
    | some entry => some { name := copyName entry.name, type := entry.type, size := entry.size }
    | none =>
      if diskHasChildren v rel then some { name := copyName rel, type := Vfs.oreVfsDir, size := 0 }
      else none

def statInitramfs (v : Vfs) (path : List Byte) : Option OreVfsStat :=
  match initramfsLookupRaw v path with
  | none =>
    if pathHasChildren v path then
      some { name := copyName (stripSlash path), type := Vfs.oreVfsDir, size := 0 }
    else none
  | some file => some { name := copyName file.name, type := file.type, size := file.size }

/-- `vfs_stat`, `none` for -1. -/
def stat (v : Vfs) (path : List Byte) : Option OreVfsStat :=
  if v.mounted = false then none
  else if path = [slash] then some { name := copyName [slash], type := Vfs.oreVfsDir, size := 0 }
  else
    match v.onDisk path with
    | some rel => v.statDisk rel
    | none => v.statInitramfs path

/-! ## `vfs_readdir_path` -/

def readdirDisk (v : Vfs) (rel : List Byte) (index : Nat) : Option OreVfsStat :=
  match nth (diskDirectChild rel) OreVfsStat.name index [] 0 v.diskEntries with
  | .inl child => some { child with name := copyName child.name }
  | .inr _ => none

def readdirInitramfs (v : Vfs) (path : List Byte) (index : Nat) : Option OreVfsStat :=
  let dir := copyName (stripSlash path)
  match nth (directChild dir) OreVfsStat.name index [] 0 v.files with
  | .inl child => some { child with name := copyName child.name }
  | .inr emitted =>
    if dir.length = 0 ∧ v.diskMounted = true ∧ index = emitted then
      some { name := copyName diskName, type := Vfs.oreVfsDir, size := 0 }
    else none

/-- `vfs_readdir_path`, `none` for -1. -/
def readdirPath (v : Vfs) (path : List Byte) (index : Nat) : Option OreVfsStat :=
  if v.mounted = false then none
  else
    match v.onDisk path with
    | some rel => v.readdirDisk rel index
    | none => v.readdirInitramfs path index

end Vfs

/-! ## Reading -/

/-- A block device. Both drivers count blocks in 32 bits. -/
structure BlockDevice where
  isAta : Bool
  blockCount : BitVec 32
  bytes : Nat → Byte

/-- What the heap and the device answer during a read: the pointer that `kmalloc`
returns for a size, the bytes that the memory there holds, and whether the device
gives up. -/
structure ReadEnv where
  kmalloc : Word → Option Word
  held : Nat → Byte
  fails : Bool

/-- `block_root_read`: the bytes that are put into the buffer. -/
def blockRootRead (root : Option BlockDevice) (fails : Bool) (lba : Word) (blocks : BitVec 32) :
    Option (List Byte) :=
  match root with
  | none => none
  | some dev =>
    if lba + blocks.setWidth 64 > dev.blockCount.setWidth 64 then none
    else if blocks = 0 then none
    else if dev.isAta = true ∧ lba + blocks.setWidth 64 > 0x0FFFFFFF then none
    else if fails then none
    else some ((List.range (blocks.toNat * 512)).map fun i => dev.bytes (lba.toNat * 512 + i))

/-- The part of `vfs_read_file_at` behind the lookup, for a disk file. -/
def readDiskFile (root : Option BlockDevice) (env : ReadEnv) (entry : OreFsEntry)
    (offset bufferSize : Word) : Int × List Byte :=
  if offset ≥ entry.size then (0, [])
  else
    let remaining := entry.size - offset
    let n := if remaining < bufferSize then remaining else bufferSize
    let diskOffset := entry.offset + offset
    let firstLba := diskOffset / 512
    let lbaOff := diskOffset % 512
    let sectors := (lbaOff + n + 511) / 512
    match env.kmalloc (sectors * 512) with
    | none => (-1, [])
    | some _ =>
      match blockRootRead root env.fails firstLba (sectors.setWidth 32) with
      | none => (-1, [])
      | some tmp =>
        (n.toInt, (List.range n.toNat).map fun i =>
          (tmp[lbaOff.toNat + i]?).getD (env.held (lbaOff.toNat + i)))

def readInitramfsFile (file : InitramfsFile) (offset bufferSize : Word) : Int × List Byte :=
  if offset ≥ file.size then (0, [])
  else
    let remaining := file.size - offset
    let n := if remaining < bufferSize then remaining else bufferSize
    (n.toInt, (List.range n.toNat).map fun i => file.data (offset + BitVec.ofNat 64 i))

/-- `vfs_read_file_at`: the result, and what is put into the buffer. -/
def Vfs.readFileAt (v : Vfs) (root : Option BlockDevice) (env : ReadEnv) (path : List Byte)
    (offset bufferSize : Word) : Int × List Byte :=
  if v.mounted = false then (-1, [])
  else
    match v.onDisk path with
    | some rel =>
      match diskLookup v rel with
      | none => (-1, [])
      | some entry =>
        if entry.type ≠ Vfs.oreVfsFile then (-1, [])
        else readDiskFile root env entry offset bufferSize
    | none =>
      match initramfsLookupRaw v path with
      | none => (-1, [])
      | some file => readInitramfsFile file offset bufferSize

end OreOS.Kernel
