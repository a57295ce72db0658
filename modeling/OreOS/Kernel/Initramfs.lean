import OreOS.Kernel.Reads
import OreOS.Kernel.Vfs

/-!
# The archive in memory (`kernel/initramfs.c`)

The boot loader puts a tar archive into memory. `initramfs_init` walks over its
headers and notes for every file where its header and its contents are; names are
read where they stand in the headers, and nothing is copied.

`OreOS.Kernel.Vfs` has the files as names and contents. Here they are addresses,
and lookups and reads run with the bytes they read on record.
-/

namespace OreOS.Kernel

open OreOS.Lib (Word Byte Mem)

/-- `initramfs_base` and `initramfs_size` of the `BootInfo`, and memory. Boot maps the
lower half of the addresses. -/
structure Archive where
  mem : Mem
  base : Word
  size : Word
  inside : base.toNat + size.toNat ≤ 2 ^ 63

namespace Initramfs

def tarBlock : Word := 512
/-- The length of `files`. -/
def maxFiles : Nat := 64

/-- An entry of `files`. `name` and `data` are addresses. -/
structure File where
  name : Word
  data : Word
  size : Word
  type : BitVec 32
  deriving DecidableEq

def parseOctal (mem : Mem) (s : Word) (n : Nat) : Word :=
  (List.range n).foldl
    (fun value i =>
      let c := mem (s + BitVec.ofNat 64 i)
      if c ≥ 0x30 ∧ c ≤ 0x37 then (value <<< 3) + (c - 0x30).setWidth 64 else value) 0

def blockEmpty (mem : Mem) (p : Word) : Bool :=
  (List.range tarBlock.toNat).all fun i => mem (p + BitVec.ofNat 64 i) == 0

/-- The loop of `initramfs_init`, for a number of rounds. -/
def scan (a : Archive) : Nat → Word → List File → List File
  | 0, _, files => files
  | n + 1, off, files =>
    if off + tarBlock ≤ a.size ∧ files.length < maxFiles then
      let hdr := a.base + off
      if blockEmpty a.mem hdr then files
      else
        let size := parseOctal a.mem (hdr + 124) 12
        let typeflag := a.mem (hdr + 156)
        let off := off + tarBlock
        let files :=
          if a.mem hdr ≠ 0 ∧ typeflag ≠ 0x35 then
            files ++ [{ name := hdr, data := a.base + off, size := size, type := 1 }]
          else files
        scan a n (off + (size + tarBlock - 1) / tarBlock * tarBlock) files
    else files

end Initramfs

/-- `initramfs_init`: what is in `files` after it. A round moves on by a block at least,
so there are not more rounds than blocks. -/
def initramfsInit (a : Archive) : List Initramfs.File :=
  if a.base = 0 ∨ a.size = 0 then []
  else Initramfs.scan a (a.size.toNat / 512 + 1) 0 []

/-! ## Reading files -/

namespace Look

open Initramfs (File)

variable (mem : Mem)

/-- `str_eq` of a name in memory and a string. -/
def strEq : Word → List Byte → Look Bool
  | a, [] => return (← byte mem a) = 0
  | a, b :: bs => do
    let c ← byte mem a
    if c ≠ 0 ∧ b ≠ 0 ∧ c = b then strEq (a + 1) bs else return c = b

/-- The loop of `initramfs_lookup_raw`. -/
def findFile (p : List Byte) : List File → Look (Option File)
  | [] => return none
  | file :: files => do
    if ← strEq mem file.name p then return some file else findFile p files

def initramfsLookupRaw (files : List File) (path : List Byte) : Look (Option File) :=
  findFile mem (stripSlash path) files

/-- `mem_copy_local`: the bytes that are copied. -/
def copy (src : Word) (n : Nat) : Look (List Byte) := do
  modify ((src, n) :: ·)
  return (List.range n).map fun i => mem (src + BitVec.ofNat 64 i)

/-- `vfs_read_file_at`, for a path that is not on the disk. -/
def readFileAt (files : List File) (path : List Byte) (offset bufferSize : Word) :
    Look (Int × List Byte) := do
  match ← initramfsLookupRaw mem files path with
  | none => return (-1, [])
  | some file =>
    if offset ≥ file.size then return (0, [])
    else
      let remaining := file.size - offset
      let n := if remaining < bufferSize then remaining else bufferSize
      return (n.toInt, ← copy mem (file.data + offset) n.toNat)

end Look

/-- What `vfs_read_file_at` reads of memory, for a path that is not on the disk. -/
def initramfsReads (a : Archive) (path : List Byte) (offset bufferSize : Word) : Reads :=
  (Look.readFileAt a.mem (initramfsInit a) path offset bufferSize []).2

/-- The bytes from `addr` on are bytes of the archive. -/
def Archive.Contains (a : Archive) (addr : Word) (n : Nat) : Prop :=
  ∀ k < n, a.base.toNat ≤ (addr + BitVec.ofNat 64 k).toNat ∧
    (addr + BitVec.ofNat 64 k).toNat < a.base.toNat + a.size.toNat

/-- The header of the file, its name with the NUL and its contents are in the archive. -/
def Archive.Encloses (a : Archive) (file : Initramfs.File) : Prop :=
  a.Contains file.name 512 ∧
    (∃ n, a.mem (file.name + BitVec.ofNat 64 n) = 0 ∧ a.Contains file.name (n + 1)) ∧
    a.Contains file.data file.size.toNat

end OreOS.Kernel
