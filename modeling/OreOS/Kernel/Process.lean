import OreOS.Lib.Word

/-!
# The process table (`kernel/process.c`)

`processes[MAX_PROCESSES]` is a static array of which the first
`process_count` slots are in use; the table keeps both, so a slot is a
number and a `Process *` is a slot. `current` is `current_proc`, `cr3` the
page-table root the processor runs on. Slot 0 is the kernel's own process.

The fields of `Process` that the scheduling and spawning code neither reads
nor writes (handles, user allocations) are not here.
-/

namespace OreOS.Kernel

open OreOS.Lib (Word Byte)

def maxProcesses : Nat := 32

def userBase : Word := 0x0000008000000000
def userLimit : Word := 0x0000800000000000

/-- The fifteen general registers an interrupt frame saves. -/
structure Regs where
  r15 : Word := 0
  r14 : Word := 0
  r13 : Word := 0
  r12 : Word := 0
  r11 : Word := 0
  r10 : Word := 0
  r9 : Word := 0
  r8 : Word := 0
  rdi : Word := 0
  rsi : Word := 0
  rbp : Word := 0
  rdx : Word := 0
  rcx : Word := 0
  rbx : Word := 0
  rax : Word := 0
  deriving DecidableEq

structure InterruptFrame where
  regs : Regs := {}
  vector : Word := 0
  errorCode : Word := 0
  rip : Word := 0
  cs : Word := 0
  rflags : Word := 0
  rsp : Word := 0
  ss : Word := 0
  deriving DecidableEq

/-- `ORE_PROC_*`. -/
inductive ProcState
  | unused
  | ready
  | running
  | exited
  | blocked
  deriving DecidableEq

structure AddressSpace where
  pml4Phys : Word := 0
  userBase : Word := 0
  userLimit : Word := 0
  deriving DecidableEq

structure Process where
  pid : Nat := 0
  name : List Byte := []
  state : ProcState := .unused
  userEntry : Word := 0
  userStack : Word := 0
  userSegmentCount : Nat := 0
  parentPid : Nat := 0
  syscallCount : Nat := 0
  savedUserRip : Word := 0
  savedUserRsp : Word := 0
  waitingForPid : Nat := 0
  waitReturnRip : Word := 0
  waitReturnRsp : Word := 0
  hasUserFrame : Bool := false
  userFrame : InterruptFrame := {}
  args : List Byte := []
  addressSpace : AddressSpace := {}
  exited : Bool := false
  exitCode : BitVec 32 := 0
  deriving DecidableEq

structure ProcTable where
  procs : Nat → Process
  count : Nat
  current : Nat
  cr3 : Word
  /-- `next_synthetic_pid` of `syscall.c`, initially 2. -/
  nextSyntheticPid : Nat := 2
  lastSyntheticPid : Nat := 0

namespace ProcTable

/-- Write one slot of the array. -/
def set (t : ProcTable) (i : Nat) (p : Process) : ProcTable :=
  { t with procs := fun j => if j = i then p else t.procs j }

/-- Update one slot of the array in place. -/
def modify (t : ProcTable) (i : Nat) (f : Process → Process) : ProcTable :=
  t.set i (f (t.procs i))

end ProcTable

/-- `store_process_name`: the name's bytes up to a NUL, at most 63 of them. -/
def storeProcessName (name : List Byte) : List Byte :=
  (name.takeWhile (· ≠ 0)).take 63

/-- `process_init`, with the root `vmm_init` built. -/
def processInit (kernelPml4 : Word) : ProcTable where
  procs := fun i =>
    if i = 0 then
      { state := .running
        name := [0x6b, 0x65, 0x72, 0x6e, 0x65, 0x6c]
        addressSpace := ⟨kernelPml4, userBase, userLimit⟩ }
    else {}
  count := 1
  current := 0
  cr3 := kernelPml4

/-- `process_create_kernel`: the slot after the last is cleared, named and
published as READY. `none` is the null pointer of a full table. -/
def processCreateKernel (t : ProcTable) (name : List Byte) : Option (Nat × ProcTable) :=
  if t.count ≥ maxProcesses then none
  else
    let proc : Process :=
      { pid := t.count
        name := storeProcessName name
        state := .ready
        addressSpace := (t.procs 0).addressSpace }
    some (t.count, { t.set t.count proc with count := t.count + 1 })

/-- `process_create_user`, given the root `vmm_create_user_pml4` returned. -/
def processCreateUser (t : ProcTable) (name : List Byte) (pml4 : Word) :
    Option (Nat × ProcTable) := do
  let (i, t) ← processCreateKernel t name
  return (i, t.modify i fun p => { p with addressSpace := { p.addressSpace with pml4Phys := pml4 } })

def processSetCurrent (t : ProcTable) (i : Nat) : ProcTable :=
  { t.modify i fun p => { p with state := .running } with current := i }

/-- `process_find`: the first slot in use that carries the pid. -/
def processFind (t : ProcTable) (pid : Nat) : Option Nat :=
  (List.range t.count).find? fun i => (t.procs i).pid == pid

def processTableAt (t : ProcTable) (index : Nat) : Option Nat :=
  if index ≥ t.count then none else some index

/-- The slot that scan step `k` of either `next_ready_process` looks at:
from the slot after the excluded one, wrapping round to slot 1. -/
def scanSlot (count excludePid k : Nat) : Nat :=
  let start := (excludePid + 1) % 2 ^ 32
  let start := if start = 0 ∨ start ≥ count then 1 else start
  let i := start + k
  if i ≥ count then 1 + (i - count) else i

/-- `next_ready_process` of `process.c`. -/
def nextReadyProcess (t : ProcTable) (excludePid : Nat) : Option Nat :=
  if t.count ≤ 1 then none
  else
    ((List.range (t.count - 1)).map (scanSlot t.count excludePid)).find? fun i =>
      (t.procs i).pid != excludePid && (t.procs i).state == .ready

/-- The frame `process_schedule_user_tick` makes up for a process that has
none yet. -/
def freshFrame (next : Process) : InterruptFrame where
  vector := 32
  rip := if next.savedUserRip ≠ 0 then next.savedUserRip else next.userEntry
  cs := 0x23
  rflags := 0x202
  rsp := if next.savedUserRsp ≠ 0 then next.savedUserRsp else next.userStack
  ss := 0x1b

/-- The tick's save of the interrupted process. -/
def saveByTick (t : ProcTable) (frame : InterruptFrame) : ProcTable :=
  t.modify t.current fun p =>
    { p with
      userFrame := frame, hasUserFrame := true
      savedUserRip := frame.rip, savedUserRsp := frame.rsp
      state := .ready }

/-- The tick's choice of the frame to return through: the one saved for the
process, or a fresh one, which is saved for it. -/
def restoreByTick (t : ProcTable) (next : Nat) : ProcTable × InterruptFrame :=
  if (t.procs next).hasUserFrame then (t, (t.procs next).userFrame)
  else
    let f := freshFrame (t.procs next)
    (t.modify next fun p => { p with userFrame := f, hasUserFrame := true }, f)

/-- `process_set_current` and `write_cr3`, as every switch does them. -/
def switchTo (t : ProcTable) (next : Nat) : ProcTable :=
  let t := processSetCurrent t next
  { t with cr3 := (t.procs next).addressSpace.pml4Phys }

/-- `process_schedule_user_tick`: the table and the frame the interrupt
returns through. The frame is a pointer in the source, overwritten in place
when a switch happens. -/
def processScheduleUserTick (t : ProcTable) (frame : InterruptFrame) :
    ProcTable × InterruptFrame :=
  let cur := t.procs t.current
  if frame.cs &&& 3 ≠ 3 then (t, frame)
  else if cur.state ≠ .running then (t, frame)
  else if cur.pid = 1 then (t, frame)
  else
    match nextReadyProcess t cur.pid with
    | none => (t, frame)
    | some next =>
      let (t, frame) := restoreByTick (saveByTick t frame) next
      (switchTo t next, frame)

end OreOS.Kernel
