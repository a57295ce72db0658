import OreOS.Kernel.Reads

/-!
# The table of interrupt controllers (`kernel/acpi.c`)

Firmware leaves a table, the MADT, with one entry for every processor.
`parse_madt` checks its sum and walks over the entries, each of which says how
long it is. Its reads are on record.

`cpu_apic_ids` and `cpu_count_value` are one list.
-/

namespace OreOS.Kernel

open OreOS.Lib (Word Byte Mem)

namespace Acpi

def maxCpus : Nat := 64
def sizeofMadt : Word := 44

/-- `cpu_apic_ids` up to `cpu_count_value`, and `lapic_base_value`. -/
structure Cpus where
  apicIds : List Byte := []
  lapicBase : Word := 0xfee00000
  deriving DecidableEq

end Acpi

namespace Look

open Acpi

variable (mem : Mem)

/-- The loop of `checksum`, from index `i` on. -/
def checksumLoop (ptr : Word) : Nat → Nat → Byte → Look Byte
  | 0, _, sum => return sum
  | n + 1, i, sum => do
    let b ← byte mem (ptr + BitVec.ofNat 64 i)
    checksumLoop ptr n (i + 1) (sum + b)

def checksum (ptr : Word) (len : BitVec 32) : Look Byte :=
  checksumLoop mem ptr len.toNat 0 0

/-- The body of the loop of `parse_madt`. -/
def parseEntry (p : Word) (type len : Byte) (cpus : Cpus) : Look Cpus := do
  if type = 0 ∧ len ≥ 8 then
    let apicId ← byte mem (p + 3)
    let flags ← word32 mem (p + 4)
    if flags &&& 1 ≠ 0 ∧ cpus.apicIds.length < maxCpus then
      return { cpus with apicIds := cpus.apicIds ++ [apicId] }
    else return cpus
  else if type = 5 ∧ len ≥ 12 then
    let base ← word64 mem (p + 4)
    return { cpus with lapicBase := base }
  else return cpus

/-- The loop of `parse_madt`, if it ends within a number of rounds. -/
def parseEntries (stop : Word) : Nat → Word → Cpus → Look (Option Cpus)
  | 0, _, _ => return none
  | n + 1, p, cpus => do
    if p + 2 ≤ stop then
      let type ← byte mem p
      let len ← byte mem (p + 1)
      if len < 2 ∨ p + len.setWidth 64 > stop then return some cpus
      else
        let cpus ← parseEntry mem p type len cpus
        parseEntries stop n (p + len.setWidth 64) cpus
    else return some cpus

def parseMadt (n : Nat) (madt : Word) (cpus : Cpus) : Look (Option Cpus) := do
  let length ← word32 mem (madt + 4)
  let sum ← checksum mem madt length
  if sum ≠ 0 then return some cpus
  else
    let lapicAddr ← word32 mem (madt + 36)
    let length ← word32 mem (madt + 4)
    parseEntries mem (madt + length.setWidth 64) n (madt + sizeofMadt)
      { cpus with lapicBase := lapicAddr.setWidth 64 }

end Look

end OreOS.Kernel
