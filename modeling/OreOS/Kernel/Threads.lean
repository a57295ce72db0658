import OreOS.Lib.Links
import OreOS.Lib.Run
import OreOS.Lib.Word

/-!
# Kernel threads (`kernel/scheduler.c`)

The threads, the run queue of each CPU and the operations that move threads
between states. One `next` field links a thread in a run queue or in a wait
queue. An append walks the links to the end; an operation that would not return
has no next state (`none`). The operations are single steps of CPU 0, the only
one that the timer schedules, and `thread_yield` is the timer's interrupt.
-/

namespace OreOS.Kernel

open OreOS.Lib (Word lastLink)

def maxThreads : Nat := 32
def oreMaxCpus : Nat := 64

/-- A pointer to a thread: `&bootstrap_threads[cpu]` or `&threads[i]`. -/
inductive ThreadRef
  | bootstrap (cpu : Nat)
  | slot (i : Nat)
  deriving DecidableEq

inductive ThreadState
  | runnable
  | running
  | blocked
  | sleeping
  | dead
  deriving DecidableEq

structure Thread where
  id : Nat := 0
  state : ThreadState := .runnable
  cpuId : Nat := 0
  savedSp : Word := 0
  stackBase : Word := 0
  stackTop : Word := 0
  switches : Word := 0
  wakeTick : Word := 0
  next : Option ThreadRef := none

structure SchedulerCpu where
  current : Option ThreadRef := none
  runQueue : Option ThreadRef := none
  switches : Word := 0
  started : Bool := false

/-- The state of `scheduler.c`, with the heads of the wait queues and the timer
counter of CPU 0. -/
structure Scheduler where
  sched : Nat → SchedulerCpu := fun _ => {}
  threads : ThreadRef → Thread := fun _ => {}
  threadCount : Nat := 0
  waitQueues : Nat → Option ThreadRef := fun _ => none
  timerTicks : Word := 0

namespace Scheduler

def modifyThread (s : Scheduler) (r : ThreadRef) (f : Thread → Thread) : Scheduler :=
  { s with threads := Function.update s.threads r (f (s.threads r)) }

def modifyCpu (s : Scheduler) (cpu : Nat) (f : SchedulerCpu → SchedulerCpu) : Scheduler :=
  { s with sched := Function.update s.sched cpu (f (s.sched cpu)) }

def next (s : Scheduler) (r : ThreadRef) : Option ThreadRef :=
  (s.threads r).next

/-! ## Queues -/

/-- There are not more threads: a walk that is longer is in a cycle. -/
def walkLimit : Nat := maxThreads + oreMaxCpus

def enqueueThread (cpu : Nat) (thread : ThreadRef) (s : Scheduler) : Option Scheduler :=
  let s := s.modifyThread thread fun t => { t with next := none }
  match (s.sched cpu).runQueue with
  | none => some (s.modifyCpu cpu fun c => { c with runQueue := some thread })
  | some head =>
    (lastLink s.next walkLimit head).map fun tail =>
      s.modifyThread tail fun t => { t with next := some thread }

def dequeueThread (cpu : Nat) (s : Scheduler) : Option ThreadRef × Scheduler :=
  match (s.sched cpu).runQueue with
  | none => (none, s)
  | some thread =>
    (some thread,
      (s.modifyCpu cpu fun c => { c with runQueue := s.next thread }).modifyThread thread
        fun t => { t with next := none })

/-- The thread is one that `wake_sleepers` wakes. -/
def Wakes (cpu : Nat) (now : Word) (t : Thread) : Prop :=
  t.cpuId = cpu ∧ t.state = .sleeping ∧ t.wakeTick ≤ now

instance (cpu : Nat) (now : Word) (t : Thread) : Decidable (Wakes cpu now t) :=
  inferInstanceAs (Decidable (_ ∧ _))

/-- A round of `wake_sleepers`. -/
def wakeThread (cpu : Nat) (now : Word) (s : Scheduler) (i : Nat) : Option Scheduler :=
  if Wakes cpu now (s.threads (.slot i)) then
    enqueueThread cpu (.slot i) (s.modifyThread (.slot i) fun t => { t with state := .runnable })
  else some s

def wakeSleepers (cpu : Nat) (s : Scheduler) : Option Scheduler :=
  (List.range s.threadCount).foldlM (wakeThread cpu s.timerTicks) s

/-! ## Threads -/

def threadStackPages : Word := 4

/-- `build_initial_stack`: 22 words below the top. -/
def initialSp (stackTop : Word) : Word :=
  stackTop - 22 * 8

/-- `thread_create`; `stack` is what `pmm_alloc_pages` gives. The pointer `fn` can
be null. -/
def threadCreate (fn : Word) (cpu : Nat) (stack : Option Word) (s : Scheduler) :
    Option (Int × Scheduler) :=
  if fn = 0 ∨ cpu ≥ oreMaxCpus then some (-1, s)
  else if s.threadCount ≥ maxThreads then some (-1, s)
  else
    match stack with
    | none => some (-1, s)
    | some base =>
      let thread := ThreadRef.slot s.threadCount
      let top := base + threadStackPages * 4096
      let s' := s.modifyThread thread fun t =>
        { t with
          id := s.threadCount + 1
          state := .runnable
          cpuId := cpu
          stackBase := base
          stackTop := top
          switches := 0
          wakeTick := 0
          savedSp := initialSp top }
      (enqueueThread cpu thread { s' with threadCount := s.threadCount + 1 }).map fun s =>
        (Int.ofNat s.threadCount, s)

/-- The end of `thread_bootstrap`, up to its `thread_yield`. -/
def threadExit (s : Scheduler) : Scheduler :=
  match (s.sched 0).current with
  | none => s
  | some current =>
    if (s.threads current).id = 0 then s
    else s.modifyThread current fun t => { t with state := .dead }

/-- `thread_sleep` up to its `thread_yield`. -/
def threadSleep (ticks : Word) (s : Scheduler) : Scheduler :=
  match (s.sched 0).current with
  | none => s
  | some current =>
    if (s.threads current).id = 0 then s
    else
      s.modifyThread current fun t =>
        { t with wakeTick := s.timerTicks + ticks, state := .sleeping }

/-- `thread_block` up to its `thread_yield`. -/
def threadBlock (queue : Option Nat) (s : Scheduler) : Scheduler :=
  match queue, (s.sched 0).current with
  | some queue, some current =>
    if (s.threads current).id = 0 then s
    else
      { s.modifyThread current fun t =>
          { t with state := .blocked, next := s.waitQueues queue } with
        waitQueues := Function.update s.waitQueues queue (some current) }
  | _, _ => s

def threadUnblock (thread : Option ThreadRef) (s : Scheduler) : Option Scheduler :=
  match thread with
  | none => some s
  | some thread =>
    let t := s.threads thread
    if t.state = .runnable ∨ t.state = .running then some s
    else enqueueThread t.cpuId thread (s.modifyThread thread fun t => { t with state := .runnable })

/-! ## The tick -/

/-- What `scheduler_tick` does with the thread that it takes the CPU from. -/
def saveCurrent (cpu : Nat) (interruptedSp : Word) (s : Scheduler) : Option Scheduler :=
  match (s.sched cpu).current with
  | none => some s
  | some current =>
    let t := s.threads current
    if t.state = .running ∧ t.id ≠ 0 then
      enqueueThread cpu current
        (s.modifyThread current fun t => { t with savedSp := interruptedSp, state := .runnable })
    else if t.id ≠ 0 then
      some (s.modifyThread current fun t => { t with savedSp := interruptedSp })
    else some s

def switchTo (cpu : Nat) (next : ThreadRef) (s : Scheduler) : Scheduler :=
  (s.modifyThread next fun t => { t with state := .running, switches := t.switches + 1 }).modifyCpu
    cpu fun c => { c with current := some next, switches := c.switches + 1 }

/-- `scheduler_tick`: the stack pointer to go on with, 0 for the one that was
interrupted. -/
def schedulerTick (cpu : Nat) (interruptedSp : Word) (s : Scheduler) :
    Option (Word × Scheduler) :=
  if cpu ≠ 0 ∨ (s.sched cpu).started = false then some (0, s)
  else
    (wakeSleepers cpu s).bind fun s =>
      match dequeueThread cpu s with
      | (none, s) => some (0, s)
      | (some next, s) =>
        (saveCurrent cpu interruptedSp s).map fun s =>
          ((s.threads next).savedSp, switchTo cpu next s)

def timerInterrupt (s : Scheduler) : Scheduler :=
  { s with timerTicks := s.timerTicks + 1 }

/-! ## Runs -/

/-- After `scheduler_init` and `scheduler_start_current_cpu` on CPU 0. -/
def start : Scheduler where
  sched := Function.update (fun _ => {}) 0 { current := some (.bootstrap 0), started := true }
  threads := Function.update (fun _ => {}) (.bootstrap 0) { state := .running }

end Scheduler

/-- The operations on CPU 0, by the thread that runs there. A tick comes with its
stack pointer; a timer interrupt that goes to a user process only counts. -/
inductive ThreadEvent
  | create (fn : Word) (cpu : Nat) (stack : Option Word)
  | sleep (ticks : Word)
  | block (queue : Option Nat)
  | unblock (thread : Option ThreadRef)
  | exit
  | timer
  | tick (interruptedSp : Word)

def Scheduler.step (s : Scheduler) : ThreadEvent → Option Scheduler
  | .create fn cpu stack => (s.threadCreate fn cpu stack).map Prod.snd
  | .sleep ticks => some (s.threadSleep ticks)
  | .block queue => some (s.threadBlock queue)
  | .unblock thread => s.threadUnblock thread
  | .exit => some s.threadExit
  | .timer => some s.timerInterrupt
  | .tick interruptedSp => (s.timerInterrupt.schedulerTick 0 interruptedSp).map Prod.snd

/-- `thread_unblock` is called on another thread than the caller. -/
def Scheduler.OnOthers (s : Scheduler) : ThreadEvent → Prop
  | .unblock thread => thread = none ∨ thread ≠ (s.sched 0).current
  | _ => True

instance (s : Scheduler) : (e : ThreadEvent) → Decidable (s.OnOthers e)
  | .unblock _ => inferInstanceAs (Decidable (_ ∨ _))
  | .create .. | .sleep _ | .block _ | .exit | .timer | .tick _ => isTrue trivial

/-! ## Stack pointers -/

/-- The scheduler, with the stack pointer that each thread was created with or that
the last tick found it with. -/
structure Watched where
  sys : Scheduler
  lastSp : ThreadRef → Word

namespace Watched

def start : Watched := ⟨.start, fun _ => 0⟩

/-- The stack pointers after an event that leads to `s`. -/
def note (w : Watched) (s : Scheduler) : ThreadEvent → ThreadRef → Word
  | .create _ _ (some base) =>
    if s.threadCount = w.sys.threadCount then w.lastSp
    else
      Function.update w.lastSp (.slot w.sys.threadCount)
        (Scheduler.initialSp (base + Scheduler.threadStackPages * 4096))
  | .tick interruptedSp =>
    match (w.sys.sched 0).current with
    | none => w.lastSp
    | some current => Function.update w.lastSp current interruptedSp
  | _ => w.lastSp

def step (w : Watched) (e : ThreadEvent) : Option Watched :=
  (w.sys.step e).map fun s => ⟨s, w.note s e⟩

end Watched

end OreOS.Kernel
