import OreOS.Kernel.Terrain
import OreOS.Lib.Run
import Mathlib.Tactic.IntervalCases

/-!
# Slow workers

A worker that has begun a slice is not waited for: the boot CPU gives up after a
bounded number of looks at `done_mask`, renders the slice itself and returns,
and the worker goes on painting into a buffer that the caller has freed. So the
calls are isolated from one another only if there is no worker
(`terrain_isolated_iff`).
-/

namespace OreOS.Kernel

open OreOS.Lib (Word Dialog Run Arith)
open OreOS.Lib.Dialog (Stable meets_ask meets_ret)

/-! ## What a call should see -/

/-- A call that returned has all its slices, rendered with its own job. -/
def Rendered (events : List TerrainEvent) : Prop :=
  ∀ call workers, .returned call workers ∈ events → ∀ i < workers.toNat,
    ∀ p ∈ slicePixels call.job (BitVec.ofNat 32 i) workers,
      ∃ cpu, .painted cpu (some call) call.buffer p ∈ events

/-- A bit that the boot CPU saw was set for a slice rendered in the same
call. -/
def Observed (events : List TerrainEvent) : Prop :=
  ∀ number mask marks, .observed number mask marks ∈ events → ∀ i, mask.getLsbD i = true →
    ∃ bit : BitVec 32, (bit, number) ∈ marks ∧ bit.getLsbD i = true

/-- A worker paints into the buffer of the call under way. -/
def InTime (events : List TerrainEvent) : Prop :=
  ∀ cpu call buffer p, .painted cpu call buffer p ∈ events → cpu ≠ 0 →
    ∃ c, call = some c ∧ c.buffer = buffer

/-- Calls are isolated from one another. -/
structure TerrainState.Isolated (s : TerrainState) : Prop where
  rendered : Rendered s.mem.events
  observed : Observed s.mem.events
  inTime : InTime s.mem.events

/-! ## Programs that only paint -/

/-- Accesses that leave `terrain_job` as it is and are not looked at. -/
def Quiet : TerrainOp → Prop
  | .ticks | .cpuCount | .getJob | .getBuffer | .getActive | .getWorkerCount | .getObjects
  | .paint _ _ | .peek _ _ => True
  | _ => False

section Quiet

variable {may : (op : TerrainOp) → op.Answer → Prop} {good : TerrainOp → Prop}

theorem each_all {α : Type} {f : α → Render Unit} (l : List α)
    (h : ∀ a, (f a).All may good) : (each l f).All may good := by
  induction l with
  | nil => exact trivial
  | cons a l ih => exact (h a).bind fun _ => ih

variable (hquiet : ∀ op, Quiet op → good op)
include hquiet

theorem paintAll_all (buffer : Word) (pixels : List Pixel) :
    (paintAll buffer pixels).All may good :=
  each_all pixels fun _ => ⟨hquiet _ trivial, fun _ _ => trivial⟩

theorem renderSlice_all (worker count : BitVec 32) :
    (renderSlice worker count).All may good :=
  ⟨hquiet _ trivial, fun _ _ => ⟨hquiet _ trivial, fun _ _ => each_all _ fun _ =>
    ⟨hquiet _ trivial, fun _ _ => paintAll_all hquiet _ _⟩⟩⟩

theorem checksumFrom_all (buffer : Word) (is : List Nat) (c : BitVec 64) :
    (checksumFrom buffer is c).All may good := by
  induction is generalizing c with
  | nil => exact trivial
  | cons i is ih => exact ⟨hquiet _ trivial, fun _ _ => ih _⟩

end Quiet

section Access

variable {cpu number : Nat} {call : Option RenderCall} {m : TerrainMem} {op : TerrainOp}

theorem access_quiet (h : Quiet op) :
    (m.access cpu number call op).2.shared = m.shared ∧
      (m.access cpu number call op).2.marks = m.marks ∧
      (m.access cpu number call op).2.cpus = m.cpus := by
  cases op
  all_goals first | exact ⟨rfl, rfl, rfl⟩ | exact h.elim

theorem access_cpus : (m.access cpu number call op).2.cpus = m.cpus := by
  cases op
  case getDone =>
    unfold TerrainMem.access
    split <;> rfl
  all_goals rfl

/-- An access adds to the record, and never a return. -/
theorem access_events (m : TerrainMem) (cpu number : Nat) (call : Option RenderCall)
    (op : TerrainOp) : ∃ es, (m.access cpu number call op).2.events = m.events ++ es ∧
    ∀ c w, .returned c w ∉ es := by
  cases op
  case getDone =>
    unfold TerrainMem.access
    split
    · exact ⟨_, rfl, by simp⟩
    · exact ⟨[], by simp, by simp⟩
  case paint buffer p => exact ⟨_, rfl, by simp⟩
  all_goals exact ⟨[], (List.append_nil _).symm, by simp⟩

end Access

/-! ## Steps of the machine -/

section Steps

variable {s : TerrainState} {call : RenderCall} {cpu begun : Nat} {op : TerrainOp}

theorem step_boot {k : op.Answer → Render (Option OreTerrainResult)}
    (h : s.call = some (call, .ask op k)) :
    s.step .boot = some
      { s with
        mem := (s.mem.access 0 call.number (some call) op).2
        call := some (call, k (s.mem.access 0 call.number (some call) op).1) } := by
  rw [TerrainState.step, h]

theorem step_boot_return {r : Option OreTerrainResult} (h : s.call = some (call, .ret r)) :
    s.step .boot = some
      { s with
        call := none
        mem := { s.mem with events := s.mem.events ++ returnedEvents call r } } := by
  rw [TerrainState.step, h]

theorem step_work {k : op.Answer → Render Unit} (h : s.workers cpu = some (begun, .ask op k)) :
    s.step (.work cpu) = some
      { s with
        mem := (s.mem.access cpu begun (s.call.map (·.1)) op).2
        workers := Function.update s.workers cpu
          (some (begun, k (s.mem.access cpu begun (s.call.map (·.1)) op).1)) } := by
  rw [TerrainState.step, h]

end Steps

/-! ## A worker that sleeps -/

/-- The machine takes any step. -/
abbrev TerrainRun : TerrainState → TerrainState → Prop :=
  Run TerrainState.step fun _ _ => True

variable {α : Type} {s₀ s : TerrainState}

theorem boot_runs (p : Render α) (f : α → Render (Option OreTerrainResult)) {call : RenderCall}
    (hrun : TerrainRun s₀ s) (h : s.call = some (call, p >>= f)) :
    ∃ t, TerrainRun s₀ t ∧ t.workers = s.workers ∧ t.calls = s.calls ∧
      t.mem = (p.exec (TerrainMem.access 0 call.number (some call)) s.mem).2 ∧
      t.call =
        some (call, f (p.exec (TerrainMem.access 0 call.number (some call)) s.mem).1) := by
  induction p generalizing s with
  | ret a => exact ⟨s, hrun, rfl, rfl, rfl, h⟩
  | ask op k ih => exact ih _ (Run.snoc hrun trivial (step_boot h)) rfl

theorem worker_polls (cpu : Nat) (hrun : TerrainRun s₀ s) (hcpu : cpu ≠ 0)
    (h : s.workers cpu = none) :
    ∃ t, TerrainRun s₀ t ∧ t.call = s.call ∧ t.mem = s.mem ∧
      t.workers cpu = some (s.calls, terrainWorkerPoll (BitVec.ofNat 32 cpu)) := by
  have hstep : s.step (.poll cpu) = some
      { s with
        workers := Function.update s.workers cpu
          (some (s.calls, terrainWorkerPoll (BitVec.ofNat 32 cpu))) } := by
    rw [TerrainState.step, h, if_neg hcpu]
  exact ⟨_, Run.snoc hrun trivial hstep, rfl, rfl, Function.update_self ..⟩

theorem boot_returns {call : RenderCall} {p : Render (Option OreTerrainResult)}
    (hrun : TerrainRun s₀ s) (h : s.call = some (call, p)) :
    ∃ t, TerrainRun s₀ t ∧ t.call = none ∧ t.workers = s.workers := by
  have hbind : s.call = some (call, p >>= fun r => Dialog.ret r) := by
    rw [h, Dialog.bind_ret]
  obtain ⟨t, hrun, hworkers, -, -, hcall⟩ := boot_runs p _ hrun hbind
  exact ⟨_, Run.snoc hrun trivial (step_boot_return hcall), rfl, hworkers⟩

theorem worker_advances {cpu begun : Nat} (op : TerrainOp) {k : op.Answer → Render Unit}
    (hrun : TerrainRun s₀ s) (h : s.workers cpu = some (begun, .ask op k)) :
    ∃ t, TerrainRun s₀ t ∧ t.call = s.call ∧
      t.mem = (s.mem.access cpu begun (s.call.map (·.1)) op).2 ∧
      t.workers cpu = some (begun, k (s.mem.access cpu begun (s.call.map (·.1)) op).1) :=
  ⟨_, Run.snoc hrun trivial (step_work h), rfl, rfl, Function.update_self ..⟩

theorem exec_perform (op : TerrainOp) (f : op.Answer → Render α) (cpu number : Nat)
    (call : Option RenderCall) (m : TerrainMem) :
    (perform op >>= f).exec (TerrainMem.access cpu number call) m =
      (f (m.access cpu number call op).1).exec (TerrainMem.access cpu number call)
        (m.access cpu number call op).2 := rfl

theorem exec_paintAll_shared (buffer : Word) (pixels : List Pixel) (cpu number : Nat)
    (call : Option RenderCall) (m : TerrainMem) :
    ((paintAll buffer pixels).exec (TerrainMem.access cpu number call) m).2.shared = m.shared :=
  have hquiet : (paintAll buffer pixels).All (fun _ _ => True) Quiet :=
    paintAll_all (fun _ h => h) buffer pixels
  hquiet.exec (P := fun t : TerrainMem => t.shared = m.shared) (fun _ _ _ => trivial)
    (fun _ hop _ ht => (access_quiet hop).1.trans ht) rfl

/-- The setup of a call, and what it leaves in `terrain_job`. -/
theorem exec_terrainSetup (job : OreTerrainJob) (buffer : Word) (call : RenderCall)
    (m : TerrainMem) :
    ((terrainSetup job buffer).exec (TerrainMem.access 0 call.number (some call)) m).1 =
        workersOf m.cpus ∧
      ((terrainSetup job buffer).exec (TerrainMem.access 0 call.number (some call)) m).2.shared =
        { active := 1, generation := m.shared.generation + 1, workerCount := workersOf m.cpus
          startedMask := 1, doneMask := 0, job := job, buffer := buffer, objects := 0 } := by
  unfold terrainSetup
  rw [exec_perform, exec_perform, exec_perform, exec_perform, exec_perform, exec_perform,
    exec_perform, exec_perform, Dialog.exec_bind, exec_perform]
  have hpaint := exec_paintAll_shared buffer (Voxel.clearSky Arith.wrapping job 0 terrainH).run 0
    call.number (some call)
  refine ⟨rfl, ?_⟩
  refine Eq.trans (congrArg (fun t : TerrainSharedJob => { t with active := 1 }) (hpaint _)) ?_
  rfl

theorem voxelRow_cons (job : OreTerrainJob) (horizon : Int) {x0 x1 : Nat} (y : Nat)
    (h : x0 < x1) : ∃ p ps, voxelRow job horizon x0 x1 y = p :: ps := by
  obtain ⟨n, hn⟩ : ∃ n, x1 - x0 = n + 1 := ⟨x1 - x0 - 1, by omega⟩
  unfold voxelRow Voxel.renderRow
  rw [hn, List.range'_succ]
  exact ⟨_, _, rfl⟩

theorem sliceStart_lt {w : BitVec 32} (hlow : 2 ≤ w.toNat) (hhigh : w.toNat ≤ 8) :
    sliceStart 1 w < sliceStart (1 + 1) w := by
  rw [sliceStart, sliceStart, BitVec.toNat_udiv, BitVec.toNat_udiv]
  generalize w.toNat = n at hlow hhigh
  interval_cases n <;> decide

variable {cpus : BitVec 32}

theorem workersOf_bounds (h : 1 < cpus) :
    2 ≤ (workersOf cpus).toNat ∧ (workersOf cpus).toNat ≤ 8 := by
  unfold workersOf terrainMaxWorkers
  dsimp only
  split_ifs <;> bv_omega

theorem renderSlice_bind (worker count : BitVec 32) (f : Unit → Render α) :
    (renderSlice worker count >>= f) =
      Dialog.ask .getBuffer fun buffer => Dialog.ask .getJob fun first =>
        each (sliceRows first) (renderRow buffer (sliceHorizon first) worker count) >>= f := by
  unfold renderSlice
  generalize sliceRows = rows
  rfl

theorem each_renderRow_bind (buffer : Word) (horizon : Int) (worker count : BitVec 32)
    (row : Nat) (rows : List Nat) (f : Unit → Render α) :
    (each (row :: rows) (renderRow buffer horizon worker count) >>= f) =
      Dialog.ask .getJob fun job =>
        (paintAll buffer (voxelRow job horizon (sliceStart worker count)
          (sliceStart (worker + 1) count) row) >>= fun _ =>
            each rows (renderRow buffer horizon worker count)) >>= f := rfl

/-- The worker has read the buffer and the rows, and not yet painted. -/
theorem worker_begins {begun : Nat} (hrun : TerrainRun s₀ s)
    (h : s.workers 1 = some (begun, terrainWorkerPoll 1)) (hactive : s.mem.shared.active = 1)
    (hcount : 2 ≤ s.mem.shared.workerCount.toNat ∧ s.mem.shared.workerCount.toNat ≤ 8)
    (hdone : s.mem.shared.doneMask = 0) (hjob : s.mem.shared.job = {}) :
    ∃ t k, TerrainRun s₀ t ∧ t.call = s.call ∧ t.workers 1 = some (begun, Dialog.ask .getJob k) ∧
      ∀ job, ∃ buffer p k', k job = Dialog.ask (.paint buffer p) k' := by
  obtain ⟨s₁, hrun, hcall₁, hmem₁, h⟩ := worker_advances .getActive hrun h
  change s₁.workers 1 = some (begun, if s.mem.shared.active = 0 then _ else _) at h
  rw [hactive, if_neg (by decide)] at h
  obtain ⟨s₂, hrun, hcall₂, hmem₂, h⟩ := worker_advances .getWorkerCount hrun h
  rw [show s₁.mem = s.mem from hmem₁] at hmem₂ h
  have hslice : ¬ ((1 : BitVec 32) = 0 ∨ 1 ≥ s.mem.shared.workerCount ∨
      (1 : BitVec 32) ≥ terrainMaxWorkers) := by
    unfold terrainMaxWorkers
    bv_omega
  change s₂.workers 1 = some (begun,
    if (1 : BitVec 32) = 0 ∨ 1 ≥ s.mem.shared.workerCount ∨ (1 : BitVec 32) ≥ terrainMaxWorkers
    then _ else _) at h
  rw [if_neg hslice] at h
  obtain ⟨s₃, hrun, hcall₃, hmem₃, h⟩ := worker_advances .getDone hrun h
  rw [show s₂.mem = s.mem from hmem₂] at hmem₃ h
  change s₃.workers 1 = some (begun, if s.mem.shared.doneMask &&& _ ≠ 0 then _ else _) at h
  rw [hdone, if_neg (by decide)] at h
  obtain ⟨s₄, hrun, hcall₄, hmem₄, h⟩ := worker_advances (.orStarted _) hrun h
  change s₄.workers 1 = some (begun, renderSlice 1 s.mem.shared.workerCount >>= _) at h
  rw [renderSlice_bind] at h
  obtain ⟨s₅, hrun, hcall₅, hmem₅, h⟩ := worker_advances .getBuffer hrun h
  obtain ⟨s₆, hrun, hcall₆, hmem₆, h⟩ := worker_advances .getJob hrun h
  have hfirst : (s₅.mem.access 1 begun (s₅.call.map (·.1)) .getJob).1 = ({} : OreTerrainJob) := by
    rw [hmem₅, hmem₄, show s₃.mem = s.mem from hmem₃]
    exact hjob
  obtain ⟨row, rows, hrows⟩ : ∃ row rows, sliceRows {} = row :: rows := ⟨_, _, rfl⟩
  rw [hfirst, hrows, each_renderRow_bind] at h
  refine ⟨s₆, _, hrun, ?_, h, fun job => ?_⟩
  · rw [hcall₆, hcall₅, hcall₄, hcall₃, hcall₂, hcall₁]
  · obtain ⟨p, ps, hp⟩ := voxelRow_cons job (sliceHorizon {}) row
      (sliceStart_lt hcount.1 hcount.2)
    rw [hp]
    exact ⟨_, p, _, rfl⟩

theorem call_starts (cpus : BitVec 32) (job : OreTerrainJob) (buffer len : Word) :
    ∃ s, TerrainRun (terrainBoot cpus) s ∧
      s.call = some (⟨1, job, buffer⟩, terrainRenderUser job buffer len) ∧
      s.mem = { cpus := cpus } ∧ s.workers = (fun _ => none) ∧ s.calls = 1 :=
  ⟨_, Run.snoc (e := .call job buffer len) .refl trivial rfl, rfl, rfl, rfl, rfl⟩

/-- The boot CPU has set a call up and the worker has looked. -/
theorem call_begins (cpus : BitVec 32) :
    ∃ s rest, TerrainRun (terrainBoot cpus) s ∧ s.call = some (⟨1, {}, 0x1000⟩, rest) ∧
      s.workers 1 = some (1, terrainWorkerPoll 1) ∧ s.mem.shared.active = 1 ∧
      s.mem.shared.workerCount = workersOf cpus ∧ s.mem.shared.doneMask = 0 ∧
      s.mem.shared.job = {} := by
  obtain ⟨s₁, hrun, hcall, hmem, hworkers, hcalls⟩ := call_starts cpus {} 0x1000 307200
  obtain ⟨s₂, hrun, hworkers₂, hcalls₂, hmem₂, hcall⟩ := boot_runs _ _ hrun hcall
  have hidle : s₂.workers 1 = none := by
    rw [hworkers₂, hworkers]
  obtain ⟨s₃, hrun, hcall₃, hmem₃, hworker⟩ := worker_polls 1 hrun (by decide) hidle
  rw [hcalls₂, hcalls] at hworker
  obtain ⟨-, hshared⟩ := exec_terrainSetup {} 0x1000 ⟨1, {}, 0x1000⟩ s₁.mem
  rw [← hmem₂, ← hmem₃, hmem] at hshared
  refine ⟨s₃, _, hrun, hcall₃.trans hcall, hworker, ?_⟩
  rw [hshared]
  exact ⟨rfl, rfl, rfl, rfl⟩

/-- A call and one worker, which sleeps inside its slice until the call has
returned and paints then. -/
theorem sleeper_run (h : 1 < cpus) :
    ∃ s buffer p, TerrainRun (terrainBoot cpus) s ∧ .painted 1 none buffer p ∈ s.mem.events := by
  obtain ⟨s, rest, hrun, hcall, hworker, hactive, hcount, hdone, hjob⟩ := call_begins cpus
  obtain ⟨t, k, hrun, hunder, hworker, hpaint⟩ := worker_begins hrun hworker hactive
    (hcount ▸ workersOf_bounds h) hdone hjob
  -- The boot CPU gives up, finishes and returns; then the worker wakes up.
  obtain ⟨u, hrun, hidle, hworkers⟩ := boot_returns hrun (hunder.trans hcall)
  obtain ⟨v, hrun, hidle', -, hworker⟩ := worker_advances .getJob hrun
    ((congrFun hworkers 1).trans hworker)
  obtain ⟨buffer, p, k', hk⟩ := hpaint (u.mem.access 1 1 (u.call.map (·.1)) .getJob).1
  rw [hk] at hworker
  obtain ⟨w, hrun, -, hmem, -⟩ := worker_advances (.paint buffer p) hrun hworker
  refine ⟨w, buffer, p, hrun, ?_⟩
  rw [hmem, hidle', hidle]
  exact List.mem_append_right _ (List.mem_singleton_self _)

theorem not_isolated_of_late {buffer : Word} {p : Pixel}
    (h : .painted 1 none buffer p ∈ s.mem.events) : ¬ s.Isolated := by
  intro hisolated
  obtain ⟨c, hc, -⟩ := hisolated.inTime _ _ _ _ h (by decide)
  cases hc

/-! ## The boot CPU alone -/

/-- The clock ticks between two accesses. -/
def Ticks (m m' : TerrainMem) : Prop := m' = { m with ticks := m.ticks + 1 }

/-- With one CPU, and a record in which nothing is wrong so far. -/
structure Quietly (cpus : BitVec 32) (m : TerrainMem) : Prop where
  cpus : m.cpus = cpus
  observed : Observed m.events
  inTime : InTime m.events

theorem Quietly.congr {m m' : TerrainMem} (h : Quietly cpus m) (hcpus : m'.cpus = m.cpus)
    (hevents : m'.events = m.events) : Quietly cpus m' :=
  ⟨hcpus.trans h.cpus, hevents ▸ h.observed, hevents ▸ h.inTime⟩

/-- The job of the call is posted, and the bits of `done_mask` are its own. -/
structure Working (cpus : BitVec 32) (call : RenderCall) (m : TerrainMem) : Prop extends
    Quietly cpus m where
  job : m.shared.job = call.job
  buffer : m.shared.buffer = call.buffer
  marked : ∀ i, m.shared.doneMask.getLsbD i = true →
    ∃ bit : BitVec 32, (bit, call.number) ∈ m.marks ∧ bit.getLsbD i = true

/-- The pixels have been stored in the buffer of the call. -/
def Painted (call : RenderCall) (pixels : List Pixel) (m : TerrainMem) : Prop :=
  ∀ p ∈ pixels, ∃ cpu, .painted cpu (some call) call.buffer p ∈ m.events

section Boot

variable {cpus : BitVec 32} {call : RenderCall} {m : TerrainMem} {op : TerrainOp}

/-- The accesses of the boot CPU. -/
abbrev RenderCall.access (call : RenderCall) (op : TerrainOp) (m : TerrainMem) :
    op.Answer × TerrainMem :=
  m.access 0 call.number (some call) op

/-- Accesses of `terrain_render_user` once the job is posted. -/
def AfterPost : TerrainOp → Prop
  | .setJob _ | .setBuffer _ | .setWorkerCount _ | .setDone _ => False
  | _ => True

variable {pixels : List Pixel}

theorem painted_nil : Painted call [] m :=
  fun _ hp => absurd hp List.not_mem_nil

theorem Painted.access {cpu number : Nat} {under : Option RenderCall} (h : Painted call pixels m) :
    Painted call pixels (m.access cpu number under op).2 := by
  obtain ⟨es, hes, -⟩ := access_events m cpu number under op
  intro p hp
  obtain ⟨c, hc⟩ := h p hp
  exact ⟨c, hes ▸ List.mem_append_left es hc⟩

theorem Observed.snoc {es : List TerrainEvent} {e : TerrainEvent} (h : Observed es)
    (he : ∀ number mask marks, e = .observed number mask marks → ∀ i, mask.getLsbD i = true →
      ∃ bit : BitVec 32, (bit, number) ∈ marks ∧ bit.getLsbD i = true) : Observed (es ++ [e]) := by
  intro number mask marks hmem
  rcases List.mem_append.mp hmem with hmem | hmem
  · exact h number mask marks hmem
  · exact he number mask marks (List.mem_singleton.mp hmem).symm

theorem InTime.snoc {es : List TerrainEvent} {e : TerrainEvent} (h : InTime es)
    (he : ∀ cpu under buffer p, e = .painted cpu under buffer p → cpu = 0) : InTime (es ++ [e]) := by
  intro cpu under buffer p hmem hcpu
  rcases List.mem_append.mp hmem with hmem | hmem
  · exact h cpu under buffer p hmem hcpu
  · exact absurd (he cpu under buffer p (List.mem_singleton.mp hmem).symm) hcpu

theorem Quietly.paint {number : Nat} {under : Option RenderCall} {buffer : Word} {p : Pixel}
    (h : Quietly cpus m) : Quietly cpus (m.access 0 number under (.paint buffer p)).2 :=
  ⟨h.cpus, h.observed.snoc nofun, h.inTime.snoc fun _ _ _ _ heq => by cases heq; rfl⟩

theorem Working.access (h : Working cpus call m) (hop : AfterPost op) :
    Working cpus call (call.access op m).2 := by
  cases op
  case getDone =>
    refine ⟨⟨h.cpus, h.observed.snoc ?_, h.inTime.snoc nofun⟩, h.job, h.buffer, h.marked⟩
    intro number mask marks heq
    cases heq
    exact h.marked
  case paint buffer p => exact ⟨h.toQuietly.paint, h.job, h.buffer, h.marked⟩
  case orDone bit =>
    refine ⟨h.toQuietly.congr rfl rfl, h.job, h.buffer, fun i hi => ?_⟩
    change (m.shared.doneMask ||| bit).getLsbD i = true at hi
    rw [BitVec.getLsbD_or, Bool.or_eq_true] at hi
    rcases hi with hi | hi
    · obtain ⟨b, hb, hbit⟩ := h.marked i hi
      exact ⟨b, List.mem_append_left _ hb, hbit⟩
    · exact ⟨bit, List.mem_append_right _ (List.mem_singleton_self _), hi⟩
  all_goals first
    | exact hop.elim
    | exact ⟨h.toQuietly.congr rfl rfl, h.job, h.buffer, h.marked⟩

theorem stable_working : Stable Ticks fun m => Working cpus call m ∧ Painted call pixels m := by
  rintro m m' rfl ⟨h, hpainted⟩
  exact ⟨⟨h.toQuietly.congr rfl rfl, h.job, h.buffer, h.marked⟩, hpainted⟩

/-- What is painted stays so while the boot CPU goes on. -/
theorem meets_working {α : Type} {p : Render α} (hp : p.All (fun _ _ => True) AfterPost)
    (h : Working cpus call m) (hpainted : Painted call pixels m) :
    p.Meets (call.access) Ticks
      (fun _ t => Working cpus call t ∧ Painted call pixels t) m :=
  hp.meets (P := fun t => Working cpus call t ∧ Painted call pixels t) stable_working
    (fun _ _ _ => trivial) (fun _ hop _ ht => ⟨ht.1.access hop, ht.2.access⟩) ⟨h, hpainted⟩

theorem afterPost_of_quiet (h : Quiet op) : AfterPost op := by
  cases op
  all_goals first | exact trivial | exact h.elim

theorem meets_paintAll {done : List Pixel} (h : Working cpus call m)
    (hpainted : Painted call done m) :
    (paintAll call.buffer pixels).Meets (call.access) Ticks
      (fun _ t => Working cpus call t ∧ Painted call (done ++ pixels) t) m := by
  induction pixels generalizing m done with
  | nil => exact meets_ret stable_working ⟨h, by rwa [List.append_nil]⟩
  | cons p pixels ih =>
    refine meets_ask stable_working ⟨h, hpainted⟩ fun t ht => ?_
    have hnext : Painted call (done ++ [p])
        (call.access (.paint call.buffer p) t).2 := by
      intro q hq
      rcases List.mem_append.mp hq with hq | hq
      · exact ht.2.access q hq
      · rw [List.mem_singleton.mp hq]
        exact ⟨0, List.mem_append_right _ (List.mem_singleton_self _)⟩
    have hwork : Working cpus call
        (call.access (.paint call.buffer p) t).2 := ht.1.access trivial
    have hrest := ih hwork hnext
    rw [List.append_assoc] at hrest
    exact hrest

theorem meets_rows {done : List Pixel} {worker count : BitVec 32} {horizon : Int}
    (rows : List Nat) (h : Working cpus call m) (hpainted : Painted call done m) :
    (each rows (renderRow call.buffer horizon worker count)).Meets
      (call.access) Ticks
      (fun _ t => Working cpus call t ∧ Painted call
        (done ++ rows.flatMap (voxelRow call.job horizon (sliceStart worker count)
          (sliceStart (worker + 1) count))) t) m := by
  induction rows generalizing m done with
  | nil => exact meets_ret stable_working ⟨h, by rwa [List.flatMap_nil, List.append_nil]⟩
  | cons row rows ih =>
    refine meets_ask stable_working ⟨h, hpainted⟩ fun t ht => ?_
    have hjob : (call.access .getJob t).1 = call.job := ht.1.job
    rw [hjob]
    refine ((meets_paintAll ht.1 ht.2).mono fun _ u hu => ?_).bind
    have hrest := ih hu.1 hu.2
    rw [List.append_assoc, ← List.flatMap_cons] at hrest
    exact hrest

/-- The stores of a slice, row by row. -/
theorem slicePixels_rows (job : OreTerrainJob) (worker count : BitVec 32) :
    slicePixels job worker count = (sliceRows job).flatMap
      (voxelRow job (sliceHorizon job) (sliceStart worker count)
        (sliceStart (worker + 1) count)) := by
  have hrows : ∀ (horizon : Int) (x0 x1 n y : Nat),
      (Voxel.renderRows Arith.wrapping job horizon x0 x1 n y).run =
        (voxelRows job horizon n y).flatMap (voxelRow job horizon x0 x1) := by
    intro horizon x0 x1 n
    induction n with
    | zero => exact fun _ => rfl
    | succ n ih =>
      intro y
      rw [Voxel.renderRows, voxelRows]
      split
      · rw [List.flatMap_cons, ← ih]
        rfl
      · rfl
  exact hrows _ _ _ _ _

/-- The slice is rendered with the job of the call. -/
theorem meets_renderSlice {worker count : BitVec 32} (h : Working cpus call m) :
    (renderSlice worker count).Meets (call.access) Ticks
      (fun _ t => Working cpus call t ∧ Painted call (slicePixels call.job worker count) t) m := by
  refine meets_ask stable_working ⟨h, painted_nil⟩ fun t ht => ?_
  have hbuffer : (call.access .getBuffer t).1 = call.buffer := ht.1.buffer
  rw [hbuffer]
  refine meets_ask stable_working ⟨ht.1, painted_nil⟩ fun u hu => ?_
  have hjob : (call.access .getJob u).1 = call.job := hu.1.job
  rw [hjob]
  rw [slicePixels_rows]
  exact meets_rows (sliceRows call.job) hu.1 painted_nil

theorem spinWait_all (mask : BitVec 32) (n : Nat) :
    (spinWait mask n).All (fun _ _ => True) AfterPost := by
  induction n with
  | zero => exact trivial
  | succ n ih =>
    refine ⟨trivial, fun done _ => ?_⟩
    change Dialog.All _ _ (if done &&& mask = mask then _ else _)
    split
    · exact trivial
    · exact ih

theorem renderMissing_all (workers : BitVec 32) (cpuIds : List Nat) :
    (renderMissing workers cpuIds).All (fun _ _ => True) AfterPost := by
  induction cpuIds with
  | nil => exact trivial
  | cons cpu cpuIds ih =>
    refine ⟨trivial, fun done _ => ?_⟩
    change Dialog.All _ _ (if done &&& _ = 0 then _ else _)
    split
    · refine ⟨trivial, fun _ _ => ?_⟩
      refine (renderSlice_all (fun _ => afterPost_of_quiet) _ _).bind fun _ => ?_
      exact ⟨trivial, fun _ _ => ih⟩
    · exact ih

/-- With one worker the boot CPU has nothing else to render. -/
theorem meets_terrainFinish {len : Word} (h : Working cpus call m) :
    (terrainFinish call.job call.buffer len 1).Meets
      (call.access) Ticks
      (fun r t => Working cpus call t ∧ r.workersUsed = 1 ∧
        Painted call (slicePixels call.job 0 1) t) m := by
  have hnone : Painted call [] m := painted_nil
  refine meets_ask stable_working ⟨h, hnone⟩ fun t ht => ?_
  refine ((meets_renderSlice ht.1).mono fun _ t ht => ?_).bind
  refine meets_ask stable_working ht fun t ht => ?_
  have hwork : Working cpus call (call.access (.orDone 1) t).2 :=
    ht.1.access trivial
  refine ((meets_working (spinWait_all _ _) hwork ht.2.access).mono fun _ t ht => ?_).bind
  refine ((meets_working (renderMissing_all _ _) ht.1 ht.2).mono fun _ t ht => ?_).bind
  refine ((meets_working (paintAll_all (fun _ => afterPost_of_quiet) _ _) ht.1 ht.2).mono
    fun _ t ht => ?_).bind
  refine meets_ask stable_working ht fun t ht => ?_
  refine meets_ask stable_working ⟨ht.1.access trivial, ht.2.access⟩ fun t ht => ?_
  have hwork : Working cpus call (call.access (.setActive 0) t).2 :=
    ht.1.access trivial
  refine ((meets_working (checksumFrom_all (fun _ => afterPost_of_quiet) _ _ _) hwork
    ht.2.access).mono fun _ t ht => ?_).bind
  refine meets_ask stable_working ht fun t ht => ?_
  refine meets_ask stable_working ht fun t ht => ?_
  refine meets_ret (fun t u hstep ht => ?_) ⟨ht.1, rfl, ht.2⟩
  obtain ⟨hwork, hpainted⟩ := stable_working hstep ⟨ht.1, ht.2.2⟩
  exact ⟨hwork, ht.2.1, hpainted⟩

theorem stable_quietly (φ : TerrainSharedJob → Prop) :
    Stable Ticks fun m => Quietly cpus m ∧ φ m.shared := by
  rintro m m' rfl ⟨h, hφ⟩
  exact ⟨h.congr rfl rfl, hφ⟩

theorem meets_sky {buffer : Word} (h : Working cpus call m) :
    (paintAll buffer pixels).Meets (call.access) Ticks
      (fun _ t => Working cpus call t ∧ Painted call [] t) m :=
  meets_working (paintAll_all (fun _ => afterPost_of_quiet) buffer pixels) h
    painted_nil

theorem meets_terrainSetup (hcpus : workersOf cpus = 1) (h : Quietly cpus m) :
    (terrainSetup call.job call.buffer).Meets (call.access) Ticks
      (fun workers t => workers = 1 ∧ Working cpus call t) m := by
  unfold terrainSetup
  generalize (Voxel.clearSky Arith.wrapping call.job 0 terrainH).run = sky
  refine meets_ask (stable_quietly fun _ => True) ⟨h, trivial⟩ fun t ht => ?_
  have hcount : (call.access .cpuCount t).1 = cpus := ht.1.cpus
  rw [hcount]
  refine meets_ask (stable_quietly fun _ => True) ht fun t ht => ?_
  refine meets_ask (stable_quietly fun j => j.job = call.job) ⟨ht.1.congr rfl rfl, rfl⟩
    fun t ht => ?_
  refine meets_ask (stable_quietly fun j => j.job = call.job ∧ j.buffer = call.buffer)
    ⟨ht.1.congr rfl rfl, ht.2, rfl⟩ fun t ht => ?_
  refine meets_ask (stable_quietly fun j => j.job = call.job ∧ j.buffer = call.buffer)
    ⟨ht.1.congr rfl rfl, ht.2⟩ fun t ht => ?_
  refine meets_ask (stable_quietly fun j => j.job = call.job ∧ j.buffer = call.buffer)
    ⟨ht.1.congr rfl rfl, ht.2⟩ fun t ht => ?_
  have hposted : Working cpus call (call.access (.setDone 0) t).2 :=
    ⟨ht.1.congr rfl rfl, ht.2.1, ht.2.2, fun i hi => absurd hi (by
      change ¬ (0 : BitVec 32).getLsbD i = true
      simp)⟩
  have hnone : Painted call [] (call.access (.setDone 0) t).2 :=
    painted_nil
  refine meets_ask stable_working ⟨hposted, hnone⟩ fun t ht => ?_
  refine meets_ask stable_working ⟨ht.1.access trivial, ht.2.access⟩ fun t ht => ?_
  have hwork : Working cpus call (call.access .bumpGeneration t).2 :=
    ht.1.access trivial
  refine ((meets_sky hwork).mono fun _ t ht => ?_).bind
  refine meets_ask stable_working ht fun t ht => ?_
  have hwork : Working cpus call (call.access (.setActive 1) t).2 :=
    ht.1.access trivial
  refine meets_ret (fun t u hstep ht => ?_) ⟨hcpus, hwork⟩
  exact ⟨ht.1, (stable_working hstep ⟨ht.2, painted_nil⟩).1⟩

/-- What a call leaves, and what it has done if it returns 0. -/
def CallDone (cpus : BitVec 32) (call : RenderCall) (r : Option OreTerrainResult)
    (m : TerrainMem) : Prop :=
  Quietly cpus m ∧ ∀ result ∈ r, result.workersUsed = 1 ∧
    Painted call (slicePixels call.job 0 1) m

theorem meets_terrainRenderUser {len : Word} (hcpus : workersOf cpus = 1) (h : Quietly cpus m) :
    (terrainRenderUser call.job call.buffer len).Meets
      (call.access) Ticks (CallDone cpus call) m := by
  have hstable : ∀ r, Stable Ticks (CallDone cpus call r) := by
    rintro r m m' rfl ⟨hquiet, hdone⟩
    exact ⟨hquiet.congr rfl rfl, hdone⟩
  unfold terrainRenderUser
  split
  · exact meets_ret (hstable none) ⟨h, nofun⟩
  · refine ((meets_terrainSetup hcpus h).mono fun workers t ht => ?_).bind
    rw [ht.1]
    refine ((meets_terrainFinish ht.2).mono fun result t ht => ?_).bind
    refine meets_ret (hstable _) ⟨ht.1.toQuietly, fun r hr => ?_⟩
    cases hr
    exact ht.2

end Boot

/-! ## One CPU -/

/-- The answers of a machine with `cpus` CPUs. -/
def CpusAre (cpus : BitVec 32) : (op : TerrainOp) → op.Answer → Prop
  | .cpuCount, n => n = cpus
  | _, _ => True

/-- No access posts more than one worker. -/
def PostsOne : TerrainOp → Prop
  | .setWorkerCount n => n.toNat ≤ 1
  | _ => True

/-- The answers while no more than one worker is posted. -/
def FewWorkers : (op : TerrainOp) → op.Answer → Prop
  | .getWorkerCount, n => n.toNat ≤ 1
  | _, _ => True

/-- The accesses of a worker that has no slice. -/
def Looks : TerrainOp → Prop
  | .getActive | .getWorkerCount => True
  | _ => False

theorem postsOne_of_afterPost {op : TerrainOp} (h : AfterPost op) : PostsOne op := by
  cases op
  all_goals first | exact trivial | exact h.elim

theorem terrainSetup_postsOne (hcpus : workersOf cpus = 1) (job : OreTerrainJob) (buffer : Word) :
    (terrainSetup job buffer).All (CpusAre cpus) PostsOne := by
  unfold terrainSetup
  generalize (Voxel.clearSky Arith.wrapping job 0 terrainH).run = sky
  refine ⟨trivial, fun n hn => ⟨trivial, fun _ _ => ⟨trivial, fun _ _ => ⟨?_, fun _ _ => ?_⟩⟩⟩⟩
  · change (workersOf n).toNat ≤ 1
    rw [show n = cpus from hn, hcpus]
    decide
  · refine ⟨trivial, fun _ _ => ⟨trivial, fun _ _ => ⟨trivial, fun _ _ => ⟨trivial, fun _ _ =>
      ?_⟩⟩⟩⟩
    have hquiet : ∀ op, Quiet op → PostsOne op := fun _ h =>
      postsOne_of_afterPost (afterPost_of_quiet h)
    exact (paintAll_all hquiet _ _).bind fun _ => ⟨trivial, fun _ _ => trivial⟩

theorem terrainFinish_all (job : OreTerrainJob) (buffer len : Word) (workers : BitVec 32) :
    (terrainFinish job buffer len workers).All (fun _ _ => True) AfterPost := by
  have hquiet : ∀ op, Quiet op → AfterPost op := fun _ => afterPost_of_quiet
  refine ⟨trivial, fun _ _ => (renderSlice_all hquiet _ _).bind fun _ => ⟨trivial, fun _ _ => ?_⟩⟩
  refine (spinWait_all _ _).bind fun _ => (renderMissing_all _ _).bind fun _ => ?_
  refine (paintAll_all hquiet _ _).bind fun _ => ⟨trivial, fun _ _ => ⟨trivial, fun _ _ => ?_⟩⟩
  exact (checksumFrom_all hquiet _ _ _).bind fun _ =>
    ⟨trivial, fun _ _ => ⟨trivial, fun _ _ => trivial⟩⟩

theorem terrainRenderUser_postsOne (hcpus : workersOf cpus = 1) (job : OreTerrainJob)
    (buffer len : Word) : (terrainRenderUser job buffer len).All (CpusAre cpus) PostsOne := by
  unfold terrainRenderUser
  split
  · exact trivial
  · refine (terrainSetup_postsOne hcpus job buffer).bind fun workers =>
      Dialog.All.bind ?_ fun _ => trivial
    exact (terrainFinish_all job buffer len workers).mono (fun _ _ _ => trivial) fun _ =>
      postsOne_of_afterPost

/-- A worker has no slice as long as one worker is posted. -/
theorem terrainWorkerPoll_looks (cpuId : BitVec 32) :
    (terrainWorkerPoll cpuId).All FewWorkers Looks := by
  refine ⟨trivial, fun active _ => ?_⟩
  change Dialog.All _ _ (if active = 0 then _ else _)
  split
  · exact trivial
  · refine ⟨trivial, fun workers hworkers => ?_⟩
    change workers.toNat ≤ 1 at hworkers
    change Dialog.All _ _ (if cpuId = 0 ∨ cpuId ≥ workers ∨ cpuId ≥ terrainMaxWorkers then _ else _)
    rw [if_pos (by bv_omega)]
    exact trivial

theorem exec_events (p : Render α) (cpu number : Nat) (call : Option RenderCall) (m : TerrainMem) :
    m.events ⊆ (p.exec (TerrainMem.access cpu number call) m).2.events := by
  induction p generalizing m with
  | ret a => exact fun _ h => h
  | ask op k ih =>
    obtain ⟨es, hes, -⟩ := access_events m cpu number call op
    exact fun e he => ih _ _ (hes ▸ List.mem_append_left es he)

/-- The machine with one CPU, between any two of its steps. -/
structure Alone (cpus : BitVec 32) (s : TerrainState) : Prop where
  rendered : Rendered s.mem.events
  quietly : Quietly cpus s.mem
  posted : s.mem.shared.workerCount.toNat ≤ 1
  workers : ∀ cpu begun p, s.workers cpu = some (begun, p) → p.All FewWorkers Looks
  postsOne : ∀ call p, s.call = some (call, p) → p.All (CpusAre cpus) PostsOne
  meets : ∀ call p, s.call = some (call, p) →
    p.Meets (call.access) Ticks (CallDone cpus call) s.mem

section Alone

variable {cpus : BitVec 32} {s : TerrainState}

theorem Rendered.grow {events es : List TerrainEvent} (h : Rendered events)
    (hes : ∀ c w, .returned c w ∉ es) : Rendered (events ++ es) := by
  intro call workers hmem i hi p hp
  rcases List.mem_append.mp hmem with hmem | hmem
  · obtain ⟨cpu, hcpu⟩ := h call workers hmem i hi p hp
    exact ⟨cpu, List.mem_append_left es hcpu⟩
  · exact absurd hmem (hes _ _)

variable {call : RenderCall}

/-- At the end of the call nothing will be wrong, so nothing is now. -/
theorem quietly_of_meets {p : Render (Option OreTerrainResult)} {m : TerrainMem}
    (hcpus : m.cpus = cpus)
    (h : p.Meets (call.access) Ticks (CallDone cpus call) m) :
    Quietly cpus m := by
  have hkept := exec_events p 0 call.number (some call) m
  obtain ⟨hend, -⟩ := h.exec
  exact ⟨hcpus, fun number mask marks hmem => hend.observed number mask marks (hkept hmem),
    fun cpu under buffer p hmem => hend.inTime cpu under buffer p (hkept hmem)⟩

variable {op : TerrainOp}

theorem access_posted {cpu number : Nat} {call : Option RenderCall} {m : TerrainMem}
    (h : m.shared.workerCount.toNat ≤ 1) (hop : PostsOne op) :
    (m.access cpu number call op).2.shared.workerCount.toNat ≤ 1 := by
  cases op
  case setWorkerCount n => exact hop
  case getDone =>
    unfold TerrainMem.access
    split <;> exact h
  all_goals exact h

theorem Alone.boot {k : op.Answer → Render (Option OreTerrainResult)} (h : Alone cpus s)
    (hcall : s.call = some (call, .ask op k)) :
    Alone cpus
      { s with
        mem := (call.access op s.mem).2
        call := some (call, k (call.access op s.mem).1) } := by
  have hmeets := (h.meets call _ hcall).ask
  obtain ⟨hop, hrest⟩ := h.postsOne call _ hcall
  have hanswer : CpusAre cpus op (call.access op s.mem).1 := by
    cases op
    case cpuCount => exact h.quietly.cpus
    all_goals exact trivial
  obtain ⟨es, hes, hnone⟩ := access_events s.mem 0 call.number (some call) op
  refine ⟨?_, quietly_of_meets (access_cpus.trans h.quietly.cpus) hmeets,
    access_posted h.posted hop, h.workers, ?_, ?_⟩
  · rw [hes]
    exact h.rendered.grow hnone
  · rintro _ _ ⟨⟩
    exact hrest _ hanswer
  · rintro _ _ ⟨⟩
    exact hmeets

theorem Alone.returns {r : Option OreTerrainResult} (h : Alone cpus s)
    (hcall : s.call = some (call, .ret r)) :
    Alone cpus
      { s with
        call := none
        mem := { s.mem with events := s.mem.events ++ returnedEvents call r } } := by
  obtain ⟨hquiet, hdone⟩ := (h.meets call _ hcall).ret
  cases r with
  | none =>
    have hsame : s.mem.events ++ returnedEvents call none = s.mem.events := List.append_nil _
    rw [hsame]
    exact ⟨h.rendered, hquiet, h.posted, h.workers, nofun, nofun⟩
  | some result =>
    obtain ⟨hused, hpainted⟩ := hdone result rfl
    refine ⟨?_, ⟨hquiet.cpus, hquiet.observed.snoc nofun, hquiet.inTime.snoc nofun⟩, h.posted,
      h.workers, nofun, nofun⟩
    intro c workers hmem i hi p hp
    rcases List.mem_append.mp hmem with hmem | hmem
    · obtain ⟨cpu, hcpu⟩ := h.rendered c workers hmem i hi p hp
      exact ⟨cpu, List.mem_append_left _ hcpu⟩
    · cases List.mem_singleton.mp hmem
      rw [hused] at hi hp
      obtain rfl : i = 0 := by bv_omega
      obtain ⟨cpu, hcpu⟩ := hpainted p hp
      exact ⟨cpu, List.mem_append_left _ hcpu⟩

theorem Alone.with_worker {w : Option (Nat × Render Unit)} (cpu : Nat) (h : Alone cpus s)
    (hw : ∀ begun p, w = some (begun, p) → p.All FewWorkers Looks) :
    Alone cpus { s with workers := Function.update s.workers cpu w } := by
  refine ⟨h.rendered, h.quietly, h.posted, fun c b p hp => ?_, h.postsOne, h.meets⟩
  change Function.update s.workers cpu w c = some (b, p) at hp
  by_cases hc : c = cpu
  · rw [hc, Function.update_self] at hp
    exact hw b p hp
  · rw [Function.update_of_ne hc] at hp
    exact h.workers c b p hp

/-- A worker sees that it has no slice. -/
theorem Alone.work {cpu begun : Nat} {k : op.Answer → Render Unit} (h : Alone cpus s)
    (hworker : s.workers cpu = some (begun, .ask op k)) :
    Alone cpus
      { s with
        mem := (s.mem.access cpu begun (s.call.map (·.1)) op).2
        workers := Function.update s.workers cpu
          (some (begun, k (s.mem.access cpu begun (s.call.map (·.1)) op).1)) } := by
  obtain ⟨hop, hrest⟩ := h.workers cpu begun _ hworker
  have hsame : (s.mem.access cpu begun (s.call.map (·.1)) op).2 = s.mem := by
    cases op
    all_goals first | rfl | exact hop.elim
  have hanswer : FewWorkers op (s.mem.access cpu begun (s.call.map (·.1)) op).1 := by
    cases op
    case getWorkerCount => exact h.posted
    all_goals exact trivial
  rw [hsame]
  refine h.with_worker cpu ?_
  rintro _ _ ⟨⟩
  exact hrest _ hanswer

theorem Alone.tick (h : Alone cpus s) :
    Alone cpus { s with mem := { s.mem with ticks := s.mem.ticks + 1 } } :=
  ⟨h.rendered, h.quietly.congr rfl rfl, h.posted, h.workers, h.postsOne,
    fun call p hcall => (h.meets call p hcall).interfere rfl⟩

theorem alone_step (hcpus : workersOf cpus = 1) {a : TerrainAct} {t : TerrainState}
    (h : Alone cpus s) (hstep : s.step a = some t) : Alone cpus t := by
  unfold TerrainState.step at hstep
  cases a with
  | call job buffer len =>
    dsimp only at hstep
    split at hstep
    · cases hstep
    · cases hstep
      refine ⟨h.rendered, h.quietly, h.posted, h.workers, ?_, ?_⟩
      · rintro _ _ ⟨⟩
        exact terrainRenderUser_postsOne hcpus job buffer len
      · rintro _ _ ⟨⟩
        exact meets_terrainRenderUser hcpus h.quietly
  | boot =>
    dsimp only at hstep
    split at hstep
    next => cases hstep
    next hcall =>
      cases hstep
      exact h.returns hcall
    next hcall =>
      cases hstep
      exact h.boot hcall
  | poll cpu =>
    dsimp only at hstep
    split at hstep
    next => cases hstep
    next =>
      split at hstep
      · cases hstep
      · cases hstep
        refine h.with_worker cpu ?_
        rintro _ _ ⟨⟩
        exact terrainWorkerPoll_looks _
  | work cpu =>
    dsimp only at hstep
    split at hstep
    next => cases hstep
    next =>
      cases hstep
      exact h.with_worker cpu nofun
    next hworker =>
      cases hstep
      exact h.work hworker
  | tick =>
    cases hstep
    exact h.tick

theorem alone_boot : Alone cpus (terrainBoot cpus) :=
  ⟨nofun, ⟨rfl, nofun, nofun⟩, Nat.zero_le 1, nofun, nofun, nofun⟩

end Alone

theorem workersOf_one (h : cpus ≤ 1) : workersOf cpus = 1 := by
  unfold workersOf terrainMaxWorkers
  dsimp only
  split_ifs <;> bv_omega

/-- Calls are isolated from one another in every interleaving exactly on a
machine without workers. -/
theorem terrain_isolated_iff (cpus : BitVec 32) :
    (∀ s, TerrainRun (terrainBoot cpus) s → s.Isolated) ↔ cpus ≤ 1 := by
  constructor
  · intro hisolated
    by_contra hmany
    obtain ⟨s, buffer, p, hrun, hlate⟩ := sleeper_run (BitVec.not_le.mp hmany)
    exact not_isolated_of_late hlate (hisolated s hrun)
  · intro hone s hrun
    have halone : Alone cpus s := hrun.invariant (P := Alone cpus) alone_boot
      fun _ _ _ h _ hstep => alone_step (workersOf_one hone) h hstep
    exact ⟨halone.rendered, halone.quietly.observed, halone.quietly.inTime⟩

/-- With two CPUs the worker can be late: it paints while no call is under
way. -/
theorem late_worker_paints :
    ∃ s buffer p, TerrainRun (terrainBoot 2) s ∧ .painted 1 none buffer p ∈ s.mem.events ∧
      ¬ s.Isolated := by
  obtain ⟨s, buffer, p, hrun, hlate⟩ := sleeper_run (show (1 : BitVec 32) < 2 by decide)
  exact ⟨s, buffer, p, hrun, hlate, not_isolated_of_late hlate⟩

end OreOS.Kernel
