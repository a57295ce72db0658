import OreOS.Kernel.Loader
import OreOS.Kernel.Pmm

/-!
# Pages for user programs

`user_alloc_pages_sys` and `user_free_pages_sys` of `syscall.c`. Each process
has a table of its allocations, the address where the next one will go and the
number of pages it holds. The pages are mapped into the process's own root in a
window of four megabytes. Processes are named by their index in `processes[]`,
and only the fields that the calls use are here. A call that panics has no
result.
-/

namespace OreOS.Kernel

open OreOS.Lib (Word)

/-- `ORE_MAX_USER_ALLOCS`. -/
def maxUserAllocs : Nat := 64

/-- `USER_ALLOC_BASE`. -/
def userAllocBase : Word := 0xa000000000

/-- `USER_ALLOC_LIMIT`. -/
def userAllocLimit : Word := userAllocBase + 4 * 1024 * 1024

structure UserAllocation where
  virt : Word := 0
  phys : Word := 0
  pages : BitVec 32 := 0
  used : Bool := false

structure AllocProcess where
  pml4Phys : Word
  userAllocs : Nat → UserAllocation := fun _ => {}
  userAllocNext : Word
  userAllocPagesTotal : Word := 0

/-- What `process_create_user` leaves in these fields. -/
def AllocProcess.create (pml4Phys : Word) : AllocProcess :=
  { pml4Phys := pml4Phys, userAllocNext := 0xa000000000 }

structure UserAllocs where
  phys : Phys
  processes : Nat → AllocProcess

namespace AllocProcess

/-- The first slot of the table that is not used. -/
def freeSlot (proc : AllocProcess) : Option Nat :=
  (List.range maxUserAllocs).find? fun i => !(proc.userAllocs i).used

/-- The first slot with the allocation of that address and size. -/
def findAlloc (proc : AllocProcess) (ptr count : Word) : Option Nat :=
  (List.range maxUserAllocs).find? fun i =>
    (proc.userAllocs i).used && (proc.userAllocs i).virt = ptr &&
      (proc.userAllocs i).pages = count.setWidth 32

/-- Where the next allocation goes. -/
def allocVa (proc : AllocProcess) : Word :=
  let va := (proc.userAllocNext + 4095) &&& ~~~4095
  if va < userAllocBase then userAllocBase else va

/-- The pages at `va` recorded in a slot. -/
def record (proc : AllocProcess) (slot : Nat) (va phys count : Word) : AllocProcess :=
  { proc with
    userAllocs := Function.update proc.userAllocs slot
      { virt := va, phys := phys, pages := count.setWidth 32, used := true }
    userAllocPagesTotal := proc.userAllocPagesTotal + count
    userAllocNext := va + count * 4096 }

/-- The slot cleared. -/
def erase (proc : AllocProcess) (slot : Nat) : AllocProcess :=
  { proc with
    userAllocs := Function.update proc.userAllocs slot {}
    userAllocPagesTotal :=
      proc.userAllocPagesTotal - (proc.userAllocs slot).pages.setWidth 64 }

end AllocProcess

namespace UserAllocs

def setProcess (s : UserAllocs) (pid : Nat) (proc : AllocProcess) : UserAllocs :=
  { s with processes := Function.update s.processes pid proc }

/-- The second half of `user_alloc_pages_sys`: a slot is free and the window has
room at `va`. -/
def takePages (s : UserAllocs) (pid slot : Nat) (va count : Word) :
    Except String (Int × UserAllocs) :=
  match s.phys.allocPages (count.setWidth 32) with
  | (none, p) => .ok (-oreEnomem, { s with phys := p })
  | (some phys, p) =>
    let zeroed : Phys := { p with mem := p.mem.clear phys (count * 4096).toNat }
    match zeroed.run (mapInRoot (s.processes pid).pml4Phys va phys (count * 4096)
        (vmmUser ||| vmmWrite ||| vmmNx)) with
    | (.error message, _) => .error message
    | (.ok err, p) =>
      if err < 0 then
        .ok (-oreEinval, { s with phys := p.freePages phys (count.setWidth 32) })
      else
        .ok (va.toInt,
          { s with phys := p }.setProcess pid ((s.processes pid).record slot va phys count))

/-- `user_alloc_pages_sys`, with `process_current()`. -/
def userAllocPagesSys (s : UserAllocs) (current : Option Nat) (count : Word) :
    Except String (Int × UserAllocs) :=
  match current with
  | none => .ok (-oreEinval, s)
  | some pid =>
    let proc := s.processes pid
    if pid = 0 then .ok (-oreEinval, s)
    else if count = 0 ∨ 1024 < count then .ok (-oreEinval, s)
    else if 1024 < proc.userAllocPagesTotal + count then .ok (-oreEnomem, s)
    else
      match proc.freeSlot with
      | none => .ok (-oreEnomem, s)
      | some slot =>
        let va := proc.allocVa
        let bytes := count * 4096
        if va + bytes < va ∨ userAllocLimit < va + bytes then .ok (-oreEnomem, s)
        else s.takePages pid slot va count

/-- `user_free_pages_sys`, with `process_current()`. -/
def userFreePagesSys (s : UserAllocs) (current : Option Nat) (ptr count : Word) :
    Except String (Int × UserAllocs) :=
  match current with
  | none => .ok (-oreEinval, s)
  | some pid =>
    let proc := s.processes pid
    if pid = 0 ∨ ptr = 0 ∨ count = 0 then .ok (-oreEinval, s)
    else
      match proc.findAlloc ptr count with
      | none => .ok (-oreEinval, s)
      | some slot =>
        let alloc := proc.userAllocs slot
        match s.phys.run (unmapInRoot proc.pml4Phys alloc.virt
            (alloc.pages.setWidth 64 * 4096)) with
        | (.error message, _) => .error message
        | (.ok (), p) =>
          .ok (0,
            { s with phys := p.freePages alloc.phys alloc.pages }.setProcess pid (proc.erase slot))

end UserAllocs

/-- The two calls, by the process that is current. -/
inductive UserAllocCall
  | alloc (current : Option Nat) (count : Word)
  | free (current : Option Nat) (ptr count : Word)

namespace UserAllocCall

def current : UserAllocCall → Option Nat
  | .alloc current _ | .free current _ _ => current

/-- The result of a call and the state after it, or the panic. -/
def run : UserAllocCall → UserAllocs → Except String (Int × UserAllocs)
  | .alloc current count, s => s.userAllocPagesSys current count
  | .free current ptr count, s => s.userFreePagesSys current ptr count

end UserAllocCall

/-- A call that returns. -/
def UserAllocs.step (s : UserAllocs) (call : UserAllocCall) : Option UserAllocs :=
  match call.run s with
  | .ok (_, s') => some s'
  | .error _ => none

end OreOS.Kernel
