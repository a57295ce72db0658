import OreOS.Lib.Exec
import OreOS.Lib.Memory
import OreOS.Kernel.Process

/-!
# Page tables (`kernel/vmm.c`)

The kernel runs on an identity map, so a pointer to a page table is its physical
address. `Machine` is memory and the frames `pmm_alloc_page` is going to hand
out; it keeps the trace of its stores, newest first. A null pointer is `none`.
The page loops have `pageCount` rounds; when `virt + size` runs over the top the
end wraps and the loop may have none.
-/

namespace OreOS.Kernel

open OreOS.Lib (Word Byte Mem Exec)

def vmmPresent : Word := 0x001
def vmmWrite : Word := 0x002
def vmmUser : Word := 0x004
def vmmNx : Word := 1 <<< 63

def pteAddrMask : Word := 0x000ffffffffff000

def alignDown (value : Word) : Word :=
  value &&& ~~~0xfff

def alignUp (value : Word) : Word :=
  (value + 4096 - 1) &&& ~~~0xfff

structure Machine where
  mem : Mem
  pool : List Word
  trace : List (Word × Nat) := []

/-- Lay bytes over memory, on the record. -/
def Machine.write (s : Machine) (a : Word) (bs : List Byte) : Machine :=
  { s with mem := s.mem.write a bs, trace := (a, bs.length) :: s.trace }

/-- A kernel computation; the error is the text of a `panic`. -/
abbrev Kern := Exec String Machine

def load (a : Word) : Kern Word := do
  return (← get).mem.load64 a

def store (a v : Word) : Kern Unit :=
  modify fun s => s.write a (Mem.leBytes 8 v)

/-- `mem_zero_local`. -/
def memZero (a : Word) (n : Nat) : Kern Unit :=
  modify fun s => s.write a (List.replicate n 0)

/-- `pmm_alloc_page`: the next frame, cleared. -/
def pmmAllocPage : Kern (Option Word) := do
  match (← get).pool with
  | [] => return none
  | page :: pool =>
    modify fun s => { s with pool := pool }
    memZero page 4096
    return some page

/-- A pointer, which may be null. -/
def ptr (a : Word) : Option Word :=
  if a = 0 then none else some a

/-- `&table[index]`. -/
def cell (table : Word) (index : Fin 512) : Word :=
  table + BitVec.ofNat 64 (8 * index)

/-- `(virt >> shift) & 0x1ff`. -/
def tableIndex (virt : Word) (shift : Nat) : Fin 512 :=
  Fin.ofNat 512 (virt >>> shift).toNat

def newTable : Kern Word := do
  match ← pmmAllocPage with
  | none => throw "VMM: no page table memory"
  | some table =>
    memZero table 4096
    return table

def nextTable (table : Word) (index : Fin 512) (create : Bool) (createFlags : Word) :
    Kern (Option Word) := do
  if (← load (cell table index)) &&& vmmPresent = 0 then
    if create then
      let child ← newTable
      store (cell table index) ((child &&& pteAddrMask) ||| vmmPresent ||| vmmWrite ||| createFlags)
      return ptr ((← load (cell table index)) &&& pteAddrMask)
    else return none
  else return ptr ((← load (cell table index)) &&& pteAddrMask)

def pteForRoot (root virt : Word) (create : Bool) (createFlags : Word) : Kern (Option Word) := do
  match ← nextTable root (tableIndex virt 39) create createFlags with
  | none => return none
  | some pdpt =>
    match ← nextTable pdpt (tableIndex virt 30) create createFlags with
    | none => return none
    | some pd =>
      match ← nextTable pd (tableIndex virt 21) create createFlags with
      | none => return none
      | some pt => return some (cell pt (tableIndex virt 12))

/-- The number of rounds of `for (addr = first; addr < last; addr += PAGE_SIZE)`
between page-aligned ends. -/
def pageCount (first last : Word) : Nat :=
  (last.toNat - first.toNat) / 4096

/-- The entry that maps a frame: the flags around the frame's address. -/
def pteValue (phys flags : Word) : Word :=
  phys ||| (flags &&& ~~~vmmNx) ||| vmmPresent ||| (flags &&& vmmNx)

/-- The loop of `map_in_root`. -/
def mapPages (root flags : Word) : Nat → Word → Word → Kern Int
  | 0, _, _ => return 0
  | n + 1, addr, physPage => do
    match ← pteForRoot root addr true (flags &&& vmmUser) with
    | none => return -1
    | some pte =>
      store pte (pteValue (physPage &&& pteAddrMask) flags)
      mapPages root flags n (addr + 4096) (physPage + 4096)

/-- `map_in_root`; `vmm_map` and `vmm_map_in` are this on the kernel's and on a
given root. -/
def mapInRoot (root virt phys size flags : Word) : Kern Int :=
  mapPages root flags (pageCount (alignDown virt) (alignUp (virt + size))) (alignDown virt)
    (alignDown phys)

/-- The loop of `protect_in_root`. -/
def protectPages (root flags : Word) : Nat → Word → Kern Int
  | 0, _ => return 0
  | n + 1, addr => do
    match ← pteForRoot root addr false 0 with
    | none => return -1
    | some pte =>
      if (← load pte) &&& vmmPresent = 0 then return -1
      else
        store pte (pteValue ((← load pte) &&& pteAddrMask) flags)
        protectPages root flags n (addr + 4096)

/-- `protect_in_root`, the body of `vmm_protect_in`. -/
def protectInRoot (root virt size flags : Word) : Kern Int :=
  protectPages root flags (pageCount (alignDown virt) (alignUp (virt + size))) (alignDown virt)

/-- The loop of `unmap_in_root`. -/
def unmapPages (root : Word) : Nat → Word → Kern Unit
  | 0, _ => return ()
  | n + 1, addr => do
    match ← pteForRoot root addr false 0 with
    | none => unmapPages root n (addr + 4096)
    | some pte =>
      store pte 0
      unmapPages root n (addr + 4096)

/-- `unmap_in_root`, the body of `vmm_unmap_in`. -/
def unmapInRoot (root virt size : Word) : Kern Unit :=
  unmapPages root (pageCount (alignDown virt) (alignUp (virt + size))) (alignDown virt)

def vmmVirtToPhysIn (pml4Phys virt : Word) : Kern Word := do
  match ← pteForRoot pml4Phys virt false 0 with
  | none => return 0
  | some pte =>
    if (← load pte) &&& vmmPresent = 0 then return 0
    else return ((← load pte) &&& pteAddrMask) ||| (virt &&& 0xfff)

/-- `vmm_flags`, with the root that CR3 holds. -/
def vmmFlags (cr3 virt : Word) : Kern Word := do
  match ← pteForRoot cr3 virt false 0 with
  | none => return 0
  | some pte =>
    if (← load pte) &&& vmmPresent = 0 then return 0
    else return (← load pte) &&& ~~~pteAddrMask

/-- `root[i] = kernel_pml4[i]` over a list of indices. -/
def copyEntries (root kernelPml4 : Word) : List (Fin 512) → Kern Unit
  | [] => return ()
  | i :: is => do
    store (cell root i) (← load (cell kernelPml4 i))
    copyEntries root kernelPml4 is

/-- `root[i] = 0` over a list of indices. -/
def clearEntries (root : Word) : List (Fin 512) → Kern Unit
  | [] => return ()
  | i :: is => do
    store (cell root i) 0
    clearEntries root is

/-- The indices 1..255: the part of a root that is a process's own. -/
def userIndices : List (Fin 512) :=
  (List.finRange 512).filter fun i => 1 ≤ i.val ∧ i.val < 256

/-- `vmm_create_user_pml4`: the kernel's entries 0 and 256..511 in a new
root. -/
def vmmCreateUserPml4 (kernelPml4 : Word) : Kern Word := do
  let root ← newTable
  copyEntries root kernelPml4 (List.finRange 512)
  clearEntries root userIndices
  return root

/-! ## Address spaces

The kernel root and the roots of the processes in one memory, and the calls that make roots
and change them. A call that panics has no next state. -/

structure Spaces where
  machine : Machine
  kernel : Word
  roots : List Word

inductive SpaceCall
  | create
  | map (root virt phys size flags : Word)
  | protect (root virt size flags : Word)
  | unmap (root virt size : Word)

/-- The root a call changes. -/
def SpaceCall.root : SpaceCall → Option Word
  | .create => none
  | .map root _ _ _ _ | .protect root _ _ _ | .unmap root _ _ => some root

namespace Spaces

/-- Run a computation on the machine and keep its result. -/
def run {α : Type} (c : Spaces) (x : Kern α) (next : α → Machine → Spaces) : Option Spaces :=
  match x c.machine with
  | (.ok a, s) => some (next a s)
  | (.error _, _) => none

def step (c : Spaces) : SpaceCall → Option Spaces
  | .create => c.run (vmmCreateUserPml4 c.kernel) fun root s =>
      { c with machine := s, roots := root :: c.roots }
  | .map root virt phys size flags => c.run (mapInRoot root virt phys size flags) fun _ s =>
      { c with machine := s }
  | .protect root virt size flags => c.run (protectInRoot root virt size flags) fun _ s =>
      { c with machine := s }
  | .unmap root virt size => c.run (unmapInRoot root virt size) fun _ s => { c with machine := s }

/-- The range lies in `[USER_BASE, USER_LIMIT)`. -/
def UserRange (virt size : Word) : Prop :=
  userBase.toNat ≤ virt.toNat ∧ virt.toNat + size.toNat ≤ userLimit.toNat

/-- The call is on the root of a process and stays in the user half. -/
def Proper (c : Spaces) : SpaceCall → Prop
  | .create => True
  | .map root virt _ size _ => root ∈ c.roots ∧ UserRange virt size
  | .protect root virt size _ => root ∈ c.roots ∧ UserRange virt size
  | .unmap root virt size => root ∈ c.roots ∧ UserRange virt size

end Spaces

end OreOS.Kernel
