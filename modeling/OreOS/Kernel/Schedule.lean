import OreOS.Kernel.Process

/-!
# Scheduling system calls (`kernel/syscall.c`, `arch/x86_64/user_entry.S`)

The part of `syscall_dispatch` that moves processes between states: EXIT, YIELD,
WAIT and what SPAWN and EXEC_IMAGE do to the process table, given what the
loader made of the image (`Image`). `sysret` is the tail of `syscall_entry_asm`:
`g_sysret_override` replaces the instruction and stack pointers and nothing
else. `step` is one event, taken in user mode; `none` is the `hlt` loop at the
end of EXIT.
-/

namespace OreOS.Kernel

open OreOS.Lib (Word Byte)

/-! ## Error numbers -/

def enomem : Word := -12
def einval : Word := -22

/-! ## User contexts -/

/-- What the processor holds in user mode: `rip` is the instruction it runs
next. -/
structure UserCtx where
  regs : Regs := {}
  rip : Word := 0
  rsp : Word := 0
  rflags : Word := 0
  deriving DecidableEq

/-- What `isr_common`'s pops and `iretq` load from a frame. -/
def InterruptFrame.userCtx (f : InterruptFrame) : UserCtx :=
  ⟨f.regs, f.rip, f.rsp, f.rflags⟩

/-- The handlers' answer: `ret` goes to `rax`, `override` is
`g_sysret_rip`/`g_sysret_rsp` when `g_sysret_override` is set. -/
structure Reply where
  table : ProcTable
  ret : Word
  override : Option (Word × Word) := none

/-- The tail of `syscall_entry_asm`. The C handler preserves the callee-saved
registers, the pops bring back the rest, `syscall` itself left `rip` in `rcx`
and the flags in `r11`. -/
def sysret (ctx : UserCtx) (r : Reply) : UserCtx :=
  let (rip, rsp) := r.override.getD (ctx.rip, ctx.rsp)
  { ctx with
    regs := { ctx.regs with rax := r.ret, rcx := rip, r11 := ctx.rflags }
    rip := rip, rsp := rsp }

/-! ## The scheduling helpers of `syscall.c` -/

/-- A return context is set, which is what EXIT tests in the parent. -/
def Process.Pending (p : Process) : Prop :=
  p.waitReturnRip ≠ 0 ∧ p.waitReturnRsp ≠ 0

instance (p : Process) : Decidable p.Pending :=
  inferInstanceAs (Decidable (_ ∧ _))

namespace Syscall

/-- `next_ready_process` of `syscall.c`, which reads the table through
`process_table_at`. -/
def nextReadyProcess (t : ProcTable) (excludePid : Nat) : Option Nat :=
  if t.count ≤ 1 then none
  else
    ((List.range (t.count - 1)).map (scanSlot t.count excludePid)).find? fun i =>
      match processTableAt t i with
      | some i => (t.procs i).pid != excludePid && (t.procs i).state == .ready
      | none => false

def enterProcessFromSyscall (t : ProcTable) (next : Nat) (ret : Word) : Reply :=
  let p := t.procs next
  { table := switchTo t next
    ret := ret
    override := some
      (if p.savedUserRip ≠ 0 then p.savedUserRip else p.userEntry,
       if p.savedUserRsp ≠ 0 then p.savedUserRsp else p.userStack) }

/-- YIELD's save of the caller. -/
def saveByYield (t : ProcTable) (ctx : UserCtx) : ProcTable :=
  t.modify t.current fun p =>
    { p with savedUserRip := ctx.rip, savedUserRsp := ctx.rsp, state := .ready }

/-- `schedule_next_from_syscall`, the whole of YIELD. -/
def scheduleNextFromSyscall (t : ProcTable) (ctx : UserCtx) : Reply :=
  match nextReadyProcess t (t.procs t.current).pid with
  | none => { table := t, ret := 0 }
  | some next =>
    let t := if (t.procs t.current).state = .running then saveByYield t ctx else t
    enterProcessFromSyscall t next 0

/-! ## EXIT -/

/-- EXIT's return to a parent that is blocked in WAIT or EXEC_IMAGE. -/
def returnToParent (t : ProcTable) (parent : Nat) (ret : Word) : Reply :=
  let p := t.procs parent
  { table := (switchTo t parent).modify parent fun p =>
      { p with waitReturnRip := 0, waitReturnRsp := 0, waitingForPid := 0 }
    ret := ret
    override := some (p.waitReturnRip, p.waitReturnRsp) }

/-- EXIT's second branch: a waiter without a return context becomes READY. -/
def wakeParent (t : ProcTable) (parent : Nat) : ProcTable :=
  t.modify parent fun p => { p with waitingForPid := 0, state := .ready }

/-- EXIT when no parent took over: the next READY process, or the `hlt`
loop. -/
def exitToNext (t : ProcTable) (pid : Nat) : Option Reply :=
  (nextReadyProcess t pid).map fun next => enterProcessFromSyscall t next 0

/-- What EXIT writes into the process that leaves. -/
def markExited (t : ProcTable) (a1 : Word) : ProcTable :=
  t.modify t.current fun p =>
    { p with
      exited := true, exitCode := a1.setWidth 32, state := .exited
      savedUserRip := 0, savedUserRsp := 0 }

/-- The rest of EXIT: who runs next. -/
def exitTo (t : ProcTable) : Option Reply :=
  let proc := t.procs t.current
  if proc.parentPid = 0 then exitToNext t proc.pid
  else
    match processFind t proc.parentPid with
    | none => exitToNext t proc.pid
    | some parent =>
      if (t.procs parent).Pending then
        some (returnToParent t parent (proc.exitCode.setWidth 64))
      else if (t.procs parent).state = .blocked ∧ (t.procs parent).waitingForPid = proc.pid then
        exitToNext (wakeParent t parent) proc.pid
      else exitToNext t proc.pid

/-- `ORE_SYS_EXIT`. -/
def sysExit (t : ProcTable) (a1 : Word) : Option Reply :=
  exitTo (markExited t a1)

/-! ## WAIT -/

/-- What WAIT and EXEC_IMAGE do to the caller before they enter the child. -/
def blockOn (t : ProcTable) (ctx : UserCtx) (child : Nat) : ProcTable :=
  t.modify t.current fun p =>
    { p with
      waitReturnRip := ctx.rip, waitReturnRsp := ctx.rsp
      waitingForPid := (t.procs child).pid, state := .blocked }

/-- `ORE_SYS_WAIT`. -/
def sysWait (t : ProcTable) (ctx : UserCtx) (a1 : Word) : Reply :=
  match processFind t (a1.toNat % 2 ^ 32) with
  | none => { table := t, ret := einval }
  | some child =>
    if (t.procs child).pid = (t.procs t.current).pid then { table := t, ret := einval }
    else if (t.procs child).parentPid ≠ (t.procs t.current).pid then { table := t, ret := einval }
    else if (t.procs child).state = .ready then
      enterProcessFromSyscall (blockOn t ctx child) child 0
    else { table := t, ret := (t.procs child).exitCode.signExtend 64 }

/-! ## Program images -/

/-- The fields a loader leaves in the process it loaded. -/
structure LoadedImage where
  entry : Word
  stack : Word
  segments : Nat
  deriving DecidableEq

/-- What SPAWN or EXEC_IMAGE found before it turned to the process table: the
call gave up before `process_create_user` (`refused`), or it went on to create
a process with that root, and the loader failed or succeeded. -/
inductive Image
  | refused (err : Word)
  | created (name : List Byte) (pml4 : Word) (args : List Byte) (load : Except Word LoadedImage)

/-- The last lines of both loaders: entry and stack, and both again as the
saved user context. -/
def setLoaded (t : ProcTable) (child : Nat) (l : LoadedImage) : ProcTable :=
  t.modify child fun p =>
    { p with
      userEntry := l.entry, userStack := l.stack
      savedUserRip := l.entry, savedUserRsp := l.stack
      userSegmentCount := l.segments }

/-- The lines SPAWN and EXEC_IMAGE share once the image is loaded. -/
def adoptChild (t : ProcTable) (child : Nat) (args : List Byte) : ProcTable :=
  t.modify child fun p =>
    { p with
      state := .ready, exited := false, exitCode := 0
      parentPid := (t.procs t.current).pid, args := (args.takeWhile (· ≠ 0)).take 127 }

/-- The rest of SPAWN, when the process exists and the loader is through. -/
def spawnChild (t : ProcTable) (child : Nat) (args : List Byte) : Except Word LoadedImage → Reply
  | .error err => { table := t, ret := err }
  | .ok l =>
    let t := adoptChild (setLoaded t child l) child args
    let pid := (t.procs child).pid
    let t :=
      if pid ≠ 0 then { t with lastSyntheticPid := pid }
      else
        { t with
          lastSyntheticPid := t.nextSyntheticPid
          nextSyntheticPid := t.nextSyntheticPid + 1 }
    { table := t, ret := BitVec.ofNat 64 t.lastSyntheticPid }

/-- `ORE_SYS_SPAWN` on the process table. -/
def sysSpawn (t : ProcTable) : Image → Reply
  | .refused err => { table := t, ret := err }
  | .created name pml4 args load =>
    match processCreateUser t name pml4 with
    | none => { table := t, ret := einval }
    | some (child, t) => spawnChild t child args load

/-- The rest of EXEC_IMAGE, when the process exists and the loader is
through. -/
def execChild (t : ProcTable) (ctx : UserCtx) (child : Nat) (args : List Byte) :
    Except Word LoadedImage → Reply
  | .error err => { table := t, ret := err }
  | .ok l =>
    let t := adoptChild (setLoaded t child l) child args
    enterProcessFromSyscall (blockOn t ctx child) child 0

/-- `ORE_SYS_EXEC_IMAGE` on the process table. -/
def sysExecImage (t : ProcTable) (ctx : UserCtx) : Image → Reply
  | .refused err => { table := t, ret := err }
  | .created name pml4 args load =>
    match processCreateUser t name pml4 with
    | none => { table := t, ret := enomem }
    | some (child, t) => execChild t ctx child args load

end Syscall

/-! ## One event -/

inductive Call
  | exit (a1 : Word)
  | yield
  | wait (a1 : Word)
  | spawn (image : Syscall.Image)
  | execImage (image : Syscall.Image)

inductive Event
  | tick (frame : InterruptFrame)
  | call (ctx : UserCtx) (request : Call)

/-- The `syscall_count` bookkeeping at the top of `syscall_dispatch`. -/
def countSyscall (t : ProcTable) : ProcTable :=
  t.modify t.current fun p => { p with syscallCount := p.syscallCount + 1 }

/-- The handler of one call. -/
def dispatch (t : ProcTable) (ctx : UserCtx) : Call → Option Reply
  | .exit a1 => Syscall.sysExit t a1
  | .yield => some (Syscall.scheduleNextFromSyscall t ctx)
  | .wait a1 => some (Syscall.sysWait t ctx a1)
  | .spawn image => some (Syscall.sysSpawn t image)
  | .execImage image => some (Syscall.sysExecImage t ctx image)

/-- One event: the table it leaves and the user context that runs next. -/
def stepCtx (t : ProcTable) : Event → Option (ProcTable × UserCtx)
  | .tick frame =>
    let (t, frame) := processScheduleUserTick t frame
    some (t, frame.userCtx)
  | .call ctx request => (dispatch (countSyscall t) ctx request).map fun r => (r.table, sysret ctx r)

def step (t : ProcTable) (e : Event) : Option ProcTable :=
  (stepCtx t e).map Prod.fst

/-- `user_init_spawn` as far as the table goes: the first user process, created,
made current, loaded and entered. -/
def userInitSpawn (kernelPml4 pml4 : Word) (path : List Byte) (image : Syscall.LoadedImage) :
    ProcTable :=
  match processCreateUser (processInit kernelPml4) path pml4 with
  | none => processInit kernelPml4
  | some (i, t) =>
    { (processSetCurrent t i).modify i fun p =>
        { p with
          userEntry := image.entry, userStack := image.stack
          userSegmentCount := image.segments }
      with cr3 := pml4 }

/-! ## A record of what the machine owes

Two promises of the kernel are about the past: a process resumes where it was last
descheduled, and a WAIT comes back with the exit code of the child it named. So the machine
runs with a record beside the table, which no step of the kernel reads. -/

open Function (update)

/-- How a process that is READY lost the processor. -/
inductive Descheduled
  | tick (frame : InterruptFrame)
  | yield (rip rsp : Word)
  deriving DecidableEq

/-- How the event deschedules the process it interrupts, when it leaves it
READY. -/
def Event.descheduled : Event → Option Descheduled
  | .tick frame => some (.tick frame)
  | .call ctx .yield => some (.yield ctx.rip ctx.rsp)
  | .call _ _ => none

/-- The pid a WAIT names. -/
def Event.waitFor : Event → Option Nat
  | .call _ (.wait a1) => some (a1.toNat % 2 ^ 32)
  | _ => none

structure Recorded where
  table : ProcTable
  last : Nat → Option Descheduled
  waiting : Nat → Option Nat

namespace Recorded

/-- The record at the start: nothing is owed. -/
def init (t : ProcTable) : Recorded :=
  ⟨t, fun _ => none, fun _ => none⟩

/-- The record after the event took the table to `t`. A switch closes what was
owed to the process that runs now. -/
def next (w : Recorded) (e : Event) (t : ProcTable) : Recorded :=
  if t.current = w.table.current then { w with table := t }
  else
    { table := t
      last := update (update w.last w.table.current e.descheduled) t.current none
      waiting := update (update w.waiting w.table.current e.waitFor) t.current none }

def stepCtx (w : Recorded) (e : Event) : Option (Recorded × UserCtx) :=
  (OreOS.Kernel.stepCtx w.table e).map fun r => (w.next e r.1, r.2)

def step (w : Recorded) (e : Event) : Option Recorded :=
  (w.stepCtx e).map Prod.fst

end Recorded

end OreOS.Kernel
