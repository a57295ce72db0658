import OreOS.Kernel.Voxel
import OreOS.Lib.Dialog

/-!
# Terrain rendering on several CPUs (`kernel/terrain.c`)

`terrain_render_user` on the boot CPU and `terrain_worker_poll` on the others
share `terrain_job`. Both are programs of accesses to it and to the pixel
buffers (`Render`), and the machine makes one access of one CPU at a time. It
keeps a record of what the CPUs have done, which the programs do not see. What they store
is in `Kernel/Voxel.lean`, here with the arithmetic of the machine.
-/

namespace OreOS.Kernel

open OreOS.Lib (Word Byte Dialog Arith)

def terrainMaxWorkers : BitVec 32 := 8

structure OreTerrainResult where
  workersUsed : BitVec 32
  objectsRendered : BitVec 32
  checksum : BitVec 64
  renderTicks : BitVec 64

/-! ## Rows

The job is read again for each row, so that a slice is a list of rows, and a row of stores is
made with the job it is read with. Its height depends on the horizon alone. -/

def sliceHorizon (job : OreTerrainJob) : Int := Id.run do
  Arith.wrapping.add 154 (← Arith.wrapping.div job.pitch.toInt 24)

/-- The stores of row `y` of a slice. -/
def voxelRow (job : OreTerrainJob) (horizon : Int) (x0 x1 y : Nat) : List Pixel :=
  (Voxel.renderRow Arith.wrapping (Voxel.rowOf Arith.wrapping job horizon y).run x0 x1).run

/-- The rows that `render_voxel_slice` comes to from `y` on, at most `n`. -/
def voxelRows (job : OreTerrainJob) (horizon : Int) : Nat → Nat → List Nat
  | 0, _ => []
  | n + 1, y =>
    if y < terrainH then
      y :: voxelRows job horizon n (y + (Voxel.rowOf Arith.wrapping job horizon y).run.step)
    else []

def sliceRows (job : OreTerrainJob) : List Nat :=
  voxelRows job (sliceHorizon job) terrainH (unsigned (sliceHorizon job))

/-- The stores that render a slice with one job. -/
def slicePixels (job : OreTerrainJob) (worker count : BitVec 32) : List Pixel :=
  (Voxel.renderSlice Arith.wrapping job count worker).run

/-! ## Programs -/

inductive TerrainOp
  | ticks
  | cpuCount
  | setJob (job : OreTerrainJob)
  | setBuffer (buffer : Word)
  | setWorkerCount (n : BitVec 32)
  | setStarted (mask : BitVec 32)
  | setDone (mask : BitVec 32)
  | setObjects (n : BitVec 32)
  | bumpGeneration
  | setActive (v : BitVec 32)
  | getJob
  | getBuffer
  | getActive
  | getWorkerCount
  | getDone
  | getObjects
  | orStarted (bit : BitVec 32)
  | orDone (bit : BitVec 32)
  | paint (buffer : Word) (p : Pixel)
  | peek (buffer : Word) (offset : Nat)

@[reducible] def TerrainOp.Answer : TerrainOp → Type
  | .ticks => BitVec 64
  | .cpuCount | .getActive | .getWorkerCount | .getDone | .getObjects => BitVec 32
  | .getJob => OreTerrainJob
  | .getBuffer => Word
  | .peek _ _ => Byte
  | _ => Unit

abbrev Render := Dialog TerrainOp TerrainOp.Answer

def perform (op : TerrainOp) : Render op.Answer := Dialog.request op

/-- A loop over a list. -/
def each {α : Type} : List α → (α → Render Unit) → Render Unit
  | [], _ => return ()
  | a :: l, f => do
    f a
    each l f

def paintAll (buffer : Word) (pixels : List Pixel) : Render Unit :=
  each pixels fun p => perform (.paint buffer p)

/-- One row of `render_voxel_slice`. -/
def renderRow (buffer : Word) (horizon : Int) (worker count : BitVec 32) (y : Nat) :
    Render Unit := do
  let job : OreTerrainJob ← perform .getJob
  paintAll buffer
    (voxelRow job horizon (sliceStart worker count) (sliceStart (worker + 1) count) y)

/-- `render_slice`: the buffer is read at its beginning, the job again for each
row. -/
def renderSlice (worker count : BitVec 32) : Render Unit := do
  let buffer : Word ← perform .getBuffer
  let first : OreTerrainJob ← perform .getJob
  each (sliceRows first) (renderRow buffer (sliceHorizon first) worker count)

/-- `terrain_worker_poll` once it has seen an active job. -/
def workerTurn (cpuId : BitVec 32) : Render Unit := do
  let workers : BitVec 32 ← perform .getWorkerCount
  if cpuId = 0 ∨ cpuId ≥ workers ∨ cpuId ≥ terrainMaxWorkers then return ()
  else
    let bit := (1 : BitVec 32) <<< cpuId.toNat
    let done : BitVec 32 ← perform .getDone
    if done &&& bit ≠ 0 then return ()
    else
      perform (.orStarted bit)
      renderSlice cpuId workers
      perform (.orDone bit)

def terrainWorkerPoll (cpuId : BitVec 32) : Render Unit := do
  let active : BitVec 32 ← perform .getActive
  if active = 0 then return () else workerTurn cpuId

/-- The first loop of the wait: at most `n` looks at `done_mask`. -/
def spinWait (all : BitVec 32) : Nat → Render Unit
  | 0 => return ()
  | n + 1 => do
    let done : BitVec 32 ← perform .getDone
    if done &&& all = all then return () else spinWait all n

/-- The second one: the boot CPU renders what is not done. -/
def renderMissing (workers : BitVec 32) : List Nat → Render Unit
  | [] => return ()
  | cpu :: cpus => do
    let bit := (1 : BitVec 32) <<< cpu
    let done : BitVec 32 ← perform .getDone
    if done &&& bit = 0 then
      perform (.orStarted bit)
      renderSlice (BitVec.ofNat 32 cpu) workers
      perform (.orDone bit)
    renderMissing workers cpus

def checksumFrom (buffer : Word) : List Nat → BitVec 64 → Render (BitVec 64)
  | [], checksum => return checksum
  | i :: is, checksum => do
    let b : Byte ← perform (.peek buffer i)
    checksumFrom buffer is ((checksum ^^^ b.setWidth 64) * 1099511628211)

/-- The workers of a call. -/
def workersOf (cpus : BitVec 32) : BitVec 32 :=
  let workers := if cpus = 0 then 1 else cpus
  if workers > terrainMaxWorkers then terrainMaxWorkers else workers

/-- `terrain_render_user` up to the store to `active`. -/
def terrainSetup (job : OreTerrainJob) (buffer : Word) : Render (BitVec 32) := do
  let cpus : BitVec 32 ← perform .cpuCount
  let workers := workersOf cpus
  perform (.setJob job)
  perform (.setBuffer buffer)
  perform (.setWorkerCount workers)
  perform (.setStarted 1)
  perform (.setDone 0)
  perform (.setObjects 0)
  perform .bumpGeneration
  paintAll buffer (Voxel.clearSky Arith.wrapping job 0 terrainH).run
  perform (.setActive 1)
  return workers

/-- `terrain_render_user` from there on. -/
def terrainFinish (job : OreTerrainJob) (buffer : Word) (len : Word) (workers : BitVec 32) :
    Render OreTerrainResult := do
  let start : BitVec 64 ← perform .ticks
  renderSlice 0 workers
  perform (.orDone 1)
  let all : BitVec 32 := if workers ≥ 32 then 0xffffffff else (1 : BitVec 32) <<< workers.toNat - 1
  spinWait all 4000000
  renderMissing workers (List.range' 1 (workers.toNat - 1))
  let objects := (Voxel.drawObjectsForSlice Arith.wrapping job 0 terrainH).run
  paintAll buffer objects.flatten
  perform (.setObjects (BitVec.ofNat 32 objects.length))
  perform (.setActive 0)
  let checksum ← checksumFrom buffer (List.range' 0 ((len.toNat + 96) / 97) 97) 1469598103934665603
  let drawn : BitVec 32 ← perform .getObjects
  let stop : BitVec 64 ← perform .ticks
  return { workersUsed := workers, objectsRendered := drawn, checksum := checksum
           renderTicks := stop - start }

/-- `terrain_render_user`: the result, or nothing for `-ORE_EINVAL`. -/
def terrainRenderUser (job : OreTerrainJob) (buffer len : Word) :
    Render (Option OreTerrainResult) := do
  if buffer = 0 ∨ len.toNat ≠ terrainW * terrainH then return none
  else
    let workers ← terrainSetup job buffer
    let result ← terrainFinish job buffer len workers
    return some result

/-! ## The machine -/

structure TerrainSharedJob where
  active : BitVec 32 := 0
  generation : BitVec 32 := 0
  workerCount : BitVec 32 := 0
  startedMask : BitVec 32 := 0
  doneMask : BitVec 32 := 0
  job : OreTerrainJob := {}
  buffer : Word := 0
  objects : BitVec 32 := 0

/-- A call under way: its number and its arguments. -/
structure RenderCall where
  number : Nat
  job : OreTerrainJob
  buffer : Word

inductive TerrainEvent
  /-- `cpu` stored a pixel while `call` was under way. -/
  | painted (cpu : Nat) (call : Option RenderCall) (buffer : Word) (p : Pixel)
  /-- The boot CPU read `done_mask` in call `number`; `marks` are the bits set
  since it was cleared, with the call in which the slice was rendered. -/
  | observed (number : Nat) (mask : BitVec 32) (marks : List (BitVec 32 × Nat))
  /-- The call returned 0. -/
  | returned (call : RenderCall) (workers : BitVec 32)

/-- Shared memory and the record. -/
structure TerrainMem where
  cpus : BitVec 32
  shared : TerrainSharedJob := {}
  pixels : Word → Nat → Byte := fun _ _ => 0
  ticks : BitVec 64 := 0
  marks : List (BitVec 32 × Nat) := []
  events : List TerrainEvent := []

namespace TerrainMem

/-- One access by `cpu`, which works for call `number`. -/
def access (cpu number : Nat) (call : Option RenderCall) :
    (op : TerrainOp) → TerrainMem → op.Answer × TerrainMem
  | .ticks, m => (m.ticks, m)
  | .cpuCount, m => (m.cpus, m)
  | .setJob job, m => ((), { m with shared := { m.shared with job := job } })
  | .setBuffer buffer, m => ((), { m with shared := { m.shared with buffer := buffer } })
  | .setWorkerCount n, m => ((), { m with shared := { m.shared with workerCount := n } })
  | .setStarted mask, m => ((), { m with shared := { m.shared with startedMask := mask } })
  | .setDone mask, m => ((), { m with shared := { m.shared with doneMask := mask }, marks := [] })
  | .setObjects n, m => ((), { m with shared := { m.shared with objects := n } })
  | .bumpGeneration, m =>
    ((), { m with shared := { m.shared with generation := m.shared.generation + 1 } })
  | .setActive v, m => ((), { m with shared := { m.shared with active := v } })
  | .getJob, m => (m.shared.job, m)
  | .getBuffer, m => (m.shared.buffer, m)
  | .getActive, m => (m.shared.active, m)
  | .getWorkerCount, m => (m.shared.workerCount, m)
  | .getDone, m =>
    (m.shared.doneMask,
      if cpu = 0 then
        { m with events := m.events ++ [.observed number m.shared.doneMask m.marks] }
      else m)
  | .getObjects, m => (m.shared.objects, m)
  | .orStarted bit, m =>
    ((), { m with shared := { m.shared with startedMask := m.shared.startedMask ||| bit } })
  | .orDone bit, m =>
    ((), { m with
      shared := { m.shared with doneMask := m.shared.doneMask ||| bit }
      marks := m.marks ++ [(bit, number)] })
  | .paint buffer p, m =>
    ((), { m with
      pixels := Function.update m.pixels buffer (Function.update (m.pixels buffer) p.1 p.2)
      events := m.events ++ [.painted cpu call buffer p] })
  | .peek buffer offset, m => (m.pixels buffer offset, m)

end TerrainMem

structure TerrainState where
  mem : TerrainMem
  /-- The number of calls so far. -/
  calls : Nat := 0
  call : Option (RenderCall × Render (Option OreTerrainResult)) := none
  /-- The polls under way, with the number of calls when they began. -/
  workers : Nat → Option (Nat × Render Unit) := fun _ => none

inductive TerrainAct
  | call (job : OreTerrainJob) (buffer len : Word)
  /-- The boot CPU makes its next access, or returns. -/
  | boot
  | poll (cpu : Nat)
  /-- A worker makes its next access, or returns. -/
  | work (cpu : Nat)
  | tick

/-- What the return of a call leaves in the record. -/
def returnedEvents (call : RenderCall) : Option OreTerrainResult → List TerrainEvent
  | none => []
  | some result => [.returned call result.workersUsed]

def TerrainState.step (s : TerrainState) : TerrainAct → Option TerrainState
  | .call job buffer len =>
    match s.call with
    | some _ => none
    | none =>
      some
        { s with
          calls := s.calls + 1
          call := some (⟨s.calls + 1, job, buffer⟩, terrainRenderUser job buffer len) }
  | .boot =>
    match s.call with
    | none => none
    | some (call, .ret result) =>
      some
        { s with
          call := none
          mem := { s.mem with events := s.mem.events ++ returnedEvents call result } }
    | some (call, .ask op k) =>
      some
        { s with
          mem := (s.mem.access 0 call.number (some call) op).2
          call := some (call, k (s.mem.access 0 call.number (some call) op).1) }
  | .poll cpu =>
    match s.workers cpu with
    | some _ => none
    | none =>
      if cpu = 0 then none
      else
        some
          { s with
            workers := Function.update s.workers cpu
              (some (s.calls, terrainWorkerPoll (BitVec.ofNat 32 cpu))) }
  | .work cpu =>
    match s.workers cpu with
    | none => none
    | some (_, .ret ()) => some { s with workers := Function.update s.workers cpu none }
    | some (begun, .ask op k) =>
      let under := s.call.map (·.1)
      some
        { s with
          mem := (s.mem.access cpu begun under op).2
          workers := Function.update s.workers cpu
            (some (begun, k (s.mem.access cpu begun under op).1)) }
  | .tick => some { s with mem := { s.mem with ticks := s.mem.ticks + 1 } }

/-- At boot, with `cpus` CPUs. -/
def terrainBoot (cpus : BitVec 32) : TerrainState := { mem := { cpus := cpus } }

end OreOS.Kernel
