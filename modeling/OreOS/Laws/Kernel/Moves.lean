import Mathlib.Data.List.Find
import OreOS.Lib.Run
import OreOS.Kernel.Board

/-!
# The kernel plays the board

What one event does to the process table, handler by handler, and from it the
refinement: on the board of the table every event is one move, except
EXEC_IMAGE, which creates a child and then waits for it.

The handlers' case lemmas (`sysExit_cases`, `sysWait_cases`, ...) say
everything a handler can do, guards included. Later modules take an event
apart with them and never unfold a handler.
-/

namespace OreOS.Kernel

open OreOS.Lib (Word Byte)

/-! ## Slots -/

namespace ProcTable

variable (t : ProcTable) (i j : Nat) (f : Process → Process)

@[simp] theorem modify_self : (t.modify i f).procs i = f (t.procs i) := by
  simp [modify, set]

theorem modify_of_ne {i j : Nat} (h : j ≠ i) : (t.modify i f).procs j = t.procs j := by
  simp [modify, set, h]

@[simp] theorem modify_count : (t.modify i f).count = t.count := rfl
@[simp] theorem modify_current : (t.modify i f).current = t.current := rfl

theorem modify_procs :
    (t.modify i f).procs j = if j = i then f (t.procs i) else t.procs j := rfl

end ProcTable

@[simp] theorem processSetCurrent_current (t : ProcTable) (i : Nat) :
    (processSetCurrent t i).current = i := rfl

@[simp] theorem processSetCurrent_count (t : ProcTable) (i : Nat) :
    (processSetCurrent t i).count = t.count := rfl

theorem processSetCurrent_procs (t : ProcTable) (i j : Nat) :
    (processSetCurrent t i).procs j =
      if j = i then { t.procs i with state := .running } else t.procs j := rfl

/-! ## Lookups -/

/-- Both copies of `next_ready_process` compute the same: the bound that
`process_table_at` checks holds of every slot they scan. -/
theorem nextReadyProcess_eq (t : ProcTable) (pid : Nat) :
    Syscall.nextReadyProcess t pid = nextReadyProcess t pid := by
  unfold Syscall.nextReadyProcess nextReadyProcess
  split
  · rfl
  · apply List.find?_congr
    intro i hi
    simp only [List.mem_map, List.mem_range, scanSlot] at hi
    obtain ⟨k, hk, rfl⟩ := hi
    rw [processTableAt, if_neg]
    split <;> split <;> omega

variable {t : ProcTable} {pid : Nat}

/-- The selected process is another user process, and READY. -/
theorem nextReadyProcess_spec {q : Nat} (h : nextReadyProcess t pid = some q) :
    1 ≤ q ∧ q < t.count ∧ (t.procs q).pid ≠ pid ∧ (t.procs q).state = .ready := by
  unfold nextReadyProcess at h
  split at h
  next => cases h
  next hcount =>
    have hp := List.find?_some h
    have hm := List.mem_of_find?_eq_some h
    simp only [List.mem_map, List.mem_range, scanSlot] at hm
    obtain ⟨k, hk, rfl⟩ := hm
    simp only [Bool.and_eq_true, bne_iff_ne, beq_iff_eq] at hp
    refine ⟨?_, ?_, hp⟩ <;> split <;> split <;> omega

/-- The scan reads pids and, outside the excluded process, states. -/
theorem nextReadyProcess_congr {u : ProcTable} (hcount : u.count = t.count)
    (hpid : ∀ i, (u.procs i).pid = (t.procs i).pid)
    (hstate : ∀ i, (t.procs i).pid ≠ pid → (u.procs i).state = (t.procs i).state) :
    nextReadyProcess u pid = nextReadyProcess t pid := by
  unfold nextReadyProcess
  rw [hcount]
  split
  · rfl
  · apply List.find?_congr
    intro i _
    by_cases hi : (t.procs i).pid = pid
    · simp [hpid, hi]
    · simp [hpid, hstate i hi]

theorem processFind_spec {i : Nat} (h : processFind t pid = some i) :
    i < t.count ∧ (t.procs i).pid = pid := by
  refine ⟨List.mem_range.mp (List.mem_of_find?_eq_some h), ?_⟩
  simpa using List.find?_some h

/-- A full table of its own pids finds every pid that is a slot. -/
theorem processFind_none (h : processFind t pid = none)
    (hpid : ∀ i < t.count, (t.procs i).pid = i) : t.count ≤ pid := by
  by_contra hlt
  have hlt : pid < t.count := Nat.lt_of_not_le hlt
  have hall := List.find?_eq_none.mp h pid (List.mem_range.mpr hlt)
  simp [hpid pid hlt] at hall

/-! ## What each handler does -/

section Handlers

open Syscall hiding nextReadyProcess

variable {t : ProcTable} {ctx : UserCtx} {r : Reply}

theorem tick_cases (t : ProcTable) (frame : InterruptFrame) :
    processScheduleUserTick t frame = (t, frame) ∨
    ∃ q, frame.cs &&& 3 = 3 ∧ (t.procs t.current).pid ≠ 1 ∧
      nextReadyProcess t (t.procs t.current).pid = some q ∧
      processScheduleUserTick t frame =
        (switchTo (restoreByTick (saveByTick t frame) q).1 q,
          (restoreByTick (saveByTick t frame) q).2) := by
  unfold processScheduleUserTick
  dsimp only
  split
  next => exact .inl rfl
  next hcs =>
    split
    next => exact .inl rfl
    next =>
      split
      next => exact .inl rfl
      next hpid =>
        split
        next => exact .inl rfl
        next q hq => exact .inr ⟨q, not_not.mp hcs, hpid, hq, rfl⟩

theorem yield_cases (ctx : UserCtx) (hrun : (t.procs t.current).state = .running) :
    scheduleNextFromSyscall t ctx = { table := t, ret := 0 } ∨
    ∃ q, nextReadyProcess t (t.procs t.current).pid = some q ∧
      scheduleNextFromSyscall t ctx = enterProcessFromSyscall (saveByYield t ctx) q 0 := by
  unfold scheduleNextFromSyscall
  rw [nextReadyProcess_eq]
  split
  next => exact .inl rfl
  next q hq => exact .inr ⟨q, hq, by rw [if_pos hrun]⟩

theorem exitToNext_cases {pid : Nat} (h : exitToNext t pid = some r) :
    ∃ q, nextReadyProcess t pid = some q ∧ r = enterProcessFromSyscall t q 0 := by
  rw [exitToNext, nextReadyProcess_eq] at h
  obtain ⟨q, hq, rfl⟩ := Option.map_eq_some_iff.mp h
  exact ⟨q, hq, rfl⟩

/-- EXIT returns to a parent with a return context, or wakes a waiting parent
without one and enters the next READY process, or just enters that. -/
theorem exitTo_cases (hpid : ∀ i < t.count, (t.procs i).pid = i) (hc : t.current < t.count)
    (h : exitTo t = some r) :
    (∃ m, (t.procs t.current).parentPid = m ∧ m ≠ 0 ∧ m < t.count ∧ (t.procs m).Pending ∧
      r = returnToParent t m ((t.procs t.current).exitCode.setWidth 64)) ∨
    (∃ m q, (t.procs t.current).parentPid = m ∧ m < t.count ∧ ¬ (t.procs m).Pending ∧
      (t.procs m).state = .blocked ∧ (t.procs m).waitingForPid = t.current ∧
      nextReadyProcess (wakeParent t m) t.current = some q ∧
      r = enterProcessFromSyscall (wakeParent t m) q 0) ∨
    (∃ q, (∀ m < t.count, m ≠ 0 → (t.procs t.current).parentPid = m →
        ¬ (t.procs m).Pending ∧
        ((t.procs m).state = .blocked → (t.procs m).waitingForPid ≠ t.current)) ∧
      nextReadyProcess t t.current = some q ∧ r = enterProcessFromSyscall t q 0) := by
  unfold exitTo at h
  dsimp only at h
  rw [hpid _ hc] at h
  split at h
  next h0 =>
    obtain ⟨q, hq, rfl⟩ := exitToNext_cases h
    exact .inr (.inr ⟨q, fun m _ hm hpm => absurd (hpm.symm.trans h0) hm, hq, rfl⟩)
  next h0 =>
    split at h
    next hf =>
      obtain ⟨q, hq, rfl⟩ := exitToNext_cases h
      refine .inr (.inr ⟨q, fun m hm _ hpm => ?_, hq, rfl⟩)
      have := processFind_none hf hpid
      omega
    next m hf =>
      obtain ⟨hm, hmp⟩ := processFind_spec hf
      rw [hpid m hm] at hmp
      split at h
      next hpend => exact .inl ⟨m, hmp.symm, hmp ▸ h0, hm, hpend, (Option.some.inj h).symm⟩
      next hpend =>
        split at h
        next hb =>
          obtain ⟨q, hq, rfl⟩ := exitToNext_cases h
          exact .inr (.inl ⟨m, q, hmp.symm, hm, hpend, hb.1, hb.2, hq, rfl⟩)
        next hb =>
          obtain ⟨q, hq, rfl⟩ := exitToNext_cases h
          refine .inr (.inr ⟨q, fun m' _ _ hpm => ?_, hq, rfl⟩)
          obtain rfl : m = m' := hmp.trans hpm
          exact ⟨hpend, fun hbl hw => hb ⟨hbl, hw⟩⟩

/-- WAIT refuses, or blocks the caller and enters a READY child, or answers at
once from a child in any other state. -/
theorem sysWait_cases (t : ProcTable) (ctx : UserCtx) (a1 : Word) :
    sysWait t ctx a1 = { table := t, ret := einval } ∨
    ∃ c < t.count, (t.procs c).pid = a1.toNat % 2 ^ 32 ∧
      (t.procs c).pid ≠ (t.procs t.current).pid ∧
      (t.procs c).parentPid = (t.procs t.current).pid ∧
      ((t.procs c).state = .ready ∧
          sysWait t ctx a1 = enterProcessFromSyscall (blockOn t ctx c) c 0 ∨
        (t.procs c).state ≠ .ready ∧
          sysWait t ctx a1 = { table := t, ret := (t.procs c).exitCode.signExtend 64 }) := by
  unfold sysWait
  split
  next => exact .inl rfl
  next c hf =>
    obtain ⟨hc, hcp⟩ := processFind_spec hf
    split
    next => exact .inl rfl
    next hne =>
      split
      next => exact .inl rfl
      next hpar =>
        refine .inr ⟨c, hc, hcp, hne, not_not.mp hpar, ?_⟩
        split
        next hs => exact .inl ⟨hs, rfl⟩
        next hs => exact .inr ⟨hs, rfl⟩

/-- `u` is `t` with one more process, READY and never run, in the next slot. -/
structure Created (t u : ProcTable) (parent : Nat) : Prop where
  count : u.count = t.count + 1
  current : u.current = t.current
  old : ∀ i, i ≠ t.count → u.procs i = t.procs i
  pid : (u.procs t.count).pid = t.count
  state : (u.procs t.count).state = .ready
  parent : (u.procs t.count).parentPid = parent
  waitingFor : (u.procs t.count).waitingForPid = 0
  ret : (u.procs t.count).waitReturnRip = 0 ∧ (u.procs t.count).waitReturnRsp = 0

variable {u : ProcTable}

theorem processCreateUser_cases {name : List Byte} {pml4 : Word} {i : Nat}
    (h : processCreateUser t name pml4 = some (i, u)) : i = t.count ∧ Created t u 0 := by
  unfold processCreateUser processCreateKernel at h
  split at h
  next => cases h
  next =>
    cases h
    refine ⟨rfl, rfl, rfl, fun i hi => ?_, ?_, ?_, ?_, ?_, ?_, ?_⟩
    · rw [ProcTable.modify_of_ne _ _ hi]
      simp [ProcTable.set, hi]
    all_goals simp [ProcTable.set]

/-- Loading and adopting the new process leaves it READY under its parent. -/
theorem Created.adopt {parent : Nat} (h : Created t u parent) (l : LoadedImage) (args : List Byte)
    (hc : t.current ≠ t.count) :
    Created t (adoptChild (setLoaded u t.count l) t.count args) (t.procs t.current).pid where
  count := h.count
  current := h.current
  old i hi := by
    rw [adoptChild, ProcTable.modify_of_ne _ _ hi, setLoaded, ProcTable.modify_of_ne _ _ hi]
    exact h.old i hi
  pid := by simp [adoptChild, setLoaded, h.pid]
  state := by simp [adoptChild, setLoaded]
  parent := by
    simp [adoptChild, setLoaded, h.current, ProcTable.modify_of_ne _ _ hc, h.old _ hc]
  waitingFor := by simp [adoptChild, setLoaded, h.waitingFor]
  ret := by simp [adoptChild, setLoaded, h.ret]

/-- Either way SPAWN goes on, the new process is READY. -/
theorem spawnChild_cases (h : Created t u 0) (args : List Byte) (load : Except Word LoadedImage)
    (hc : t.current ≠ t.count) :
    (∃ parent, Created t (spawnChild u t.count args load).table parent) ∧
      (spawnChild u t.count args load).override = none := by
  cases load with
  | error err => exact ⟨⟨0, h⟩, rfl⟩
  | ok l =>
    have had := h.adopt l args hc
    refine ⟨⟨(t.procs t.current).pid, ?_⟩, rfl⟩
    unfold spawnChild
    dsimp only
    split
    · exact { had with }
    · exact { had with }

/-- EXEC_IMAGE leaves the new process READY when the loader failed, and enters
it otherwise. -/
theorem execChild_cases (h : Created t u 0) (ctx : UserCtx) (args : List Byte)
    (load : Except Word LoadedImage) (hc : t.current ≠ t.count) :
    Created t (execChild u ctx t.count args load).table 0 ∧
      (execChild u ctx t.count args load).override = none ∨
    ∃ u', Created t u' (t.procs t.current).pid ∧
      execChild u ctx t.count args load =
        enterProcessFromSyscall (blockOn u' ctx t.count) t.count 0 := by
  cases load with
  | error err => exact .inl ⟨h, rfl⟩
  | ok l => exact .inr ⟨_, h.adopt l args hc, rfl⟩

/-- SPAWN leaves the table alone or adds one READY process, also when the
loader fails. -/
theorem sysSpawn_cases (image : Image) (hc : t.current ≠ t.count) :
    ((sysSpawn t image).table = t ∨ ∃ parent, Created t (sysSpawn t image).table parent) ∧
      (sysSpawn t image).override = none := by
  unfold sysSpawn
  split
  next => exact ⟨.inl rfl, rfl⟩
  next _ _ args _ =>
    split
    next => exact ⟨.inl rfl, rfl⟩
    next child u hu =>
      obtain ⟨rfl, hcr⟩ := processCreateUser_cases hu
      obtain ⟨h, hoverride⟩ := spawnChild_cases hcr args _ hc
      exact ⟨.inr h, hoverride⟩

/-- EXEC_IMAGE does what SPAWN does when it fails; when it succeeds it blocks
the caller on the new process and enters it. -/
theorem sysExecImage_cases (ctx : UserCtx) (image : Image) (hc : t.current ≠ t.count) :
    ((sysExecImage t ctx image).table = t ∨
        ∃ parent, Created t (sysExecImage t ctx image).table parent) ∧
      (sysExecImage t ctx image).override = none ∨
    ∃ u, Created t u (t.procs t.current).pid ∧
      sysExecImage t ctx image = enterProcessFromSyscall (blockOn u ctx t.count) t.count 0 := by
  unfold sysExecImage
  split
  next => exact .inl ⟨.inl rfl, rfl⟩
  next =>
    split
    next => exact .inl ⟨.inl rfl, rfl⟩
    next child u hu =>
      obtain ⟨rfl, hcr⟩ := processCreateUser_cases hu
      exact (execChild_cases hcr ctx _ _ hc).imp (fun h => ⟨.inr ⟨0, h.1⟩, h.2⟩) id

end Handlers

/-! ## The boards of the tables -/

section Boards

open Syscall hiding nextReadyProcess
open Function (update)

variable (t : ProcTable)

variable {i : Nat} {f : Process → Process}

theorem board_modify (hpid : ∀ p, (f p).pid = p.pid)
    (hparent : ∀ p, (f p).parentPid = p.parentPid) :
    (t.modify i f).board =
      { t.board with
        state := update t.board.state i (f (t.procs i)).state
        waitingFor := update t.board.waitingFor i (f (t.procs i)).waitingForPid
        ret := update t.board.ret i
          ((f (t.procs i)).waitReturnRip, (f (t.procs i)).waitReturnRsp) } := by
  ext1
  case count | current => rfl
  all_goals
    funext j
    by_cases hj : j = i
    · subst hj
      simp [ProcTable.board, hpid, hparent]
    · simp [ProcTable.board, ProcTable.modify_of_ne _ _ hj, Function.update_of_ne hj]

theorem board_modify_state (hpid : ∀ p, (f p).pid = p.pid)
    (hparent : ∀ p, (f p).parentPid = p.parentPid)
    (hwait : ∀ p, (f p).waitingForPid = p.waitingForPid)
    (hrip : ∀ p, (f p).waitReturnRip = p.waitReturnRip)
    (hrsp : ∀ p, (f p).waitReturnRsp = p.waitReturnRsp) :
    (t.modify i f).board =
      { t.board with state := update t.board.state i (f (t.procs i)).state } := by
  rw [board_modify t hpid hparent, hwait, hrip, hrsp]
  exact Board.ext rfl rfl rfl (Function.update_eq_self i _) (Function.update_eq_self i _) rfl rfl

theorem board_modify_eq (hpid : ∀ p, (f p).pid = p.pid) (hstate : ∀ p, (f p).state = p.state)
    (hparent : ∀ p, (f p).parentPid = p.parentPid)
    (hwait : ∀ p, (f p).waitingForPid = p.waitingForPid)
    (hrip : ∀ p, (f p).waitReturnRip = p.waitReturnRip)
    (hrsp : ∀ p, (f p).waitReturnRsp = p.waitReturnRsp) : (t.modify i f).board = t.board := by
  rw [board_modify_state t hpid hparent hwait hrip hrsp, hstate]
  exact Board.ext rfl (Function.update_eq_self i _) rfl rfl rfl rfl rfl

theorem board_countSyscall : (countSyscall t).board = t.board := by
  rw [countSyscall, board_modify_eq] <;> intros <;> rfl

theorem board_saveByTick (frame : InterruptFrame) :
    (saveByTick t frame).board =
      { t.board with state := update t.board.state t.current .ready } := by
  rw [saveByTick, board_modify_state] <;> intros <;> rfl

theorem board_saveByYield (ctx : UserCtx) :
    (saveByYield t ctx).board =
      { t.board with state := update t.board.state t.current .ready } := by
  rw [saveByYield, board_modify_state] <;> intros <;> rfl

theorem board_markExited (a1 : Word) :
    (markExited t a1).board =
      { t.board with state := update t.board.state t.current .exited } := by
  rw [markExited, board_modify_state] <;> intros <;> rfl

theorem board_restoreByTick (q : Nat) : (restoreByTick t q).1.board = t.board := by
  unfold restoreByTick
  split
  · rfl
  · rw [board_modify_eq] <;> intros <;> rfl

theorem board_wakeParent (m : Nat) : (wakeParent t m).board = t.board.wake m := by
  rw [wakeParent, board_modify]
  · exact Board.ext rfl rfl rfl rfl (Function.update_eq_self m _) rfl rfl
  · exact fun _ => rfl
  · exact fun _ => rfl

theorem board_blockOn (ctx : UserCtx) (c : Nat) :
    (blockOn t ctx c).board =
      { t.board with
        state := update t.board.state t.current .blocked
        waitingFor := update t.board.waitingFor t.current (t.procs c).pid
        ret := update t.board.ret t.current (ctx.rip, ctx.rsp) } := by
  rw [blockOn, board_modify] <;> intros <;> rfl

theorem board_switchTo (q : Nat) :
    (switchTo t q).board =
      { t.board with state := update t.board.state q .running, current := q } := by
  change { (t.modify q fun p => { p with state := .running }).board with current := q } = _
  rw [board_modify_state] <;> intros <;> rfl

theorem board_created {t u : ProcTable} {parent : Nat} (h : Created t u parent) :
    u.board = t.board.create parent := by
  ext1
  case count => exact h.count
  case current => exact h.current
  all_goals
    funext j
    by_cases hj : j = t.count
    · subst hj
      simp [ProcTable.board, Board.create, h.pid, h.state, h.parent, h.waitingFor, h.ret]
    · simp [ProcTable.board, Board.create, Function.update_of_ne hj, h.old j hj]

theorem board_switchTo_blockOn (ctx : UserCtx) {c : Nat} (hpid : (t.procs c).pid = c) :
    (switchTo (blockOn t ctx c) c).board = t.board.waitOn c (ctx.rip, ctx.rsp) := by
  rw [board_switchTo, board_blockOn, hpid]
  rfl

theorem board_returnToParent (a1 : Word) (m : Nat) (ret : Word) :
    (returnToParent (markExited t a1) m ret).table.board = t.board.exitInto m := by
  rw [returnToParent]
  rw [board_modify]
  · rw [board_switchTo, board_markExited]
    refine Board.ext rfl ?_ rfl rfl rfl rfl rfl
    exact Function.update_eq_iff.mpr
      ⟨by simp [Board.exitInto, switchTo, processSetCurrent], fun _ _ => rfl⟩
  · exact fun _ => rfl
  · exact fun _ => rfl

end Boards

/-! ## Every event is a move or two -/

section Refinement

open Syscall hiding nextReadyProcess

variable {t t' : ProcTable} {ctx : UserCtx} {request : Call}

/-- Two moves at most. -/
def Board.Moves (returns : Word × Word → Prop) (b b' : Board) : Prop :=
  ∃ c, Move returns b c ∧ Move returns c b'

theorem Board.Moves.one {returns : Word × Word → Prop} {b b' : Board} (h : Move returns b b') :
    Moves returns b b' :=
  ⟨b', h, .stay⟩

/-- The contexts an event can leave behind. -/
def Event.returns : Event → Word × Word → Prop
  | .tick _, _ => False
  | .call ctx _, r => r = (ctx.rip, ctx.rsp)

theorem Board.Inv.current_running (h : t.board.Inv) : (t.procs t.current).state = .running :=
  (h.running _ h.current_pos h.current_lt).mpr rfl

theorem Board.Inv.current_pid (h : t.board.Inv) : (t.procs t.current).pid = t.current :=
  h.pid _ h.current_lt

theorem ready_of_nextReadyProcess {pid q : Nat} (h : nextReadyProcess t pid = some q) :
    t.board.Ready q :=
  ⟨(nextReadyProcess_spec h).1, (nextReadyProcess_spec h).2.1, (nextReadyProcess_spec h).2.2.2⟩

theorem tick_moves (t : ProcTable) (frame : InterruptFrame) :
    Board.Move (Event.tick frame).returns t.board (processScheduleUserTick t frame).1.board := by
  rcases tick_cases t frame with hs | ⟨q, -, -, hq, hs⟩
  · rw [hs]
    exact .stay
  · rw [hs]
    rw [board_switchTo, board_restoreByTick, board_saveByTick]
    exact .preempt (ready_of_nextReadyProcess hq)

theorem yield_moves (h : t.board.Inv) :
    Board.Move (Event.call ctx request).returns t.board (scheduleNextFromSyscall t ctx).table.board := by
  rcases yield_cases ctx h.current_running with hs | ⟨q, hq, hs⟩
  · rw [hs]
    exact .stay
  · rw [hs, enterProcessFromSyscall]
    rw [board_switchTo, board_saveByYield]
    exact .preempt (ready_of_nextReadyProcess hq)

theorem wait_moves (h : t.board.Inv) (a1 : Word) :
    Board.Move (Event.call ctx request).returns t.board (sysWait t ctx a1).table.board := by
  rcases sysWait_cases t ctx a1 with hs | ⟨c, hc, -, hne, hpar, ⟨hst, hs⟩ | ⟨-, hs⟩⟩
  · rw [hs]
    exact .stay
  · rw [hs, enterProcessFromSyscall]
    rw [board_switchTo_blockOn t ctx (h.pid c hc)]
    have hpos : 1 ≤ c := by
      rcases Nat.eq_zero_or_pos c with rfl | hpos
      · have hk := h.kernel.symm.trans hst
        cases hk
      · exact hpos
    exact .wait rfl ⟨hpos, hc, hst⟩ (hpar.trans h.current_pid)
  · rw [hs]
    exact .stay

/-- A process that is READY once the leaving one is marked was READY before. -/
theorem ready_of_markExited {b : Board} {q : Nat}
    (h : Board.Ready { b with state := Function.update b.state b.current .exited } q) :
    b.Ready q := by
  refine ⟨h.pos, h.lt, ?_⟩
  have hq := h.ready
  dsimp only at hq
  by_cases hc : q = b.current
  · subst hc
    simp at hq
  · rwa [Function.update_of_ne hc] at hq

/-- EXIT, in terms of the table it starts from. -/
theorem sysExit_cases (h : t.board.Inv) {a1 : Word} {r : Reply} (hr : sysExit t a1 = some r) :
    (∃ m, (t.procs t.current).parentPid = m ∧ m ≠ 0 ∧ m < t.count ∧ (t.procs m).Pending ∧
      r = returnToParent (markExited t a1) m ((a1.setWidth 32).setWidth 64)) ∨
    (∃ m q, (t.procs t.current).parentPid = m ∧ m < t.count ∧ m ≠ t.current ∧
      ¬ (t.procs m).Pending ∧ (t.procs m).state = .blocked ∧
      nextReadyProcess (wakeParent (markExited t a1) m) t.current = some q ∧
      r = enterProcessFromSyscall (wakeParent (markExited t a1) m) q 0) ∨
    (∃ q, (∀ m < t.count, (t.procs t.current).parentPid = m → (t.procs m).state = .blocked →
        ¬ (t.procs m).Pending ∧ (t.procs m).waitingForPid ≠ t.current) ∧
      nextReadyProcess (markExited t a1) t.current = some q ∧
      r = enterProcessFromSyscall (markExited t a1) q 0) := by
  have hb := board_markExited t a1
  have hpid : ∀ i < (markExited t a1).count, ((markExited t a1).procs i).pid = i := fun i hi =>
    (congrFun (congrArg Board.pid hb) i).trans (h.pid i hi)
  have hparent : ((markExited t a1).procs t.current).parentPid = (t.procs t.current).parentPid :=
    congrFun (congrArg Board.parent hb) t.current
  have hpending : ∀ m, ((markExited t a1).procs m).Pending ↔ (t.procs m).Pending := fun m => by
    have hret := congrFun (congrArg Board.ret hb) m
    simp only [ProcTable.board, Prod.mk.injEq] at hret
    simp only [Process.Pending, hret]
  have hstay : ∀ m, m ≠ t.current → (markExited t a1).procs m = t.procs m := fun m hm =>
    ProcTable.modify_of_ne _ _ hm
  have hcode : ((markExited t a1).procs t.current).exitCode = a1.setWidth 32 := by
    simp [markExited]
  rcases exitTo_cases hpid h.current_lt hr with
    ⟨m, hm, h0, hlt, hpend, rfl⟩ | ⟨m, q, hm, hlt, hpend, hbl, hw, hq, rfl⟩ | ⟨q, hp, hq, rfl⟩
  · refine .inl ⟨m, hparent.symm.trans hm, h0, hlt, (hpending m).mp hpend, ?_⟩
    exact congrArg _ (congrArg _ hcode)
  · have hmc : m ≠ t.current := by
      rintro rfl
      simp [markExited] at hbl
    rw [hstay m hmc] at hbl
    exact .inr (.inl ⟨m, q, hparent.symm.trans hm, hlt, hmc, mt (hpending m).mpr hpend, hbl, hq,
      rfl⟩)
  · refine .inr (.inr ⟨q, fun m hm hmp hbl => ?_, hq, rfl⟩)
    have hne : ∀ i, (t.procs i).state = .running → m ≠ i := by
      rintro i hi rfl
      rw [hbl] at hi
      cases hi
    have hmc := hne t.current h.current_running
    have hcond := hp m hm (hne 0 h.kernel) (hparent.trans hmp)
    rw [hstay m hmc] at hcond
    exact ⟨hcond.1, hcond.2 hbl⟩

theorem exit_moves (h : t.board.Inv) {a1 : Word} {r : Reply} (hr : sysExit t a1 = some r) :
    Board.Move (Event.call ctx request).returns t.board r.table.board := by
  have hb := board_markExited t a1
  rcases sysExit_cases h hr with
    ⟨m, hm, h0, hlt, hpend, rfl⟩ | ⟨m, q, hm, hlt, hmc, hpend, hbl, hq, rfl⟩ | ⟨q, hp, hq, rfl⟩
  · rw [board_returnToParent]
    exact .exitResume hm h0 hlt hpend
  · have hrdy := ready_of_nextReadyProcess hq
    rw [enterProcessFromSyscall]
    rw [board_wakeParent, hb] at hrdy
    rw [board_switchTo, board_wakeParent, hb]
    -- waking the parent and marking the child touch different slots
    have hcomm : Board.wake { t.board with state := Function.update t.board.state t.current .exited } m
        = { t.board.wake m with
            state := Function.update (t.board.wake m).state (t.board.wake m).current .exited } :=
      Board.ext rfl (Function.update_comm hmc.symm _ _ _) rfl rfl rfl rfl rfl
    rw [hcomm] at hrdy ⊢
    exact .exitWake hm hlt hpend hbl (ready_of_markExited hrdy)
  · have hrdy := ready_of_nextReadyProcess hq
    rw [hb] at hrdy
    rw [enterProcessFromSyscall]
    rw [board_switchTo, hb]
    exact .exitNext (ready_of_markExited hrdy) fun m hm hmp hbl => (hp m hm hmp hbl).2

theorem spawn_moves (h : t.board.Inv) (image : Image) :
    Board.Move (Event.call ctx request).returns t.board (sysSpawn t image).table.board := by
  rcases (sysSpawn_cases image h.current_lt.ne).1 with hs | ⟨parent, hs⟩
  · rw [hs]
    exact .stay
  · rw [board_created hs]
    exact .spawn parent

theorem exec_moves (h : t.board.Inv) (image : Image) :
    Board.Moves (Event.call ctx request).returns t.board (sysExecImage t ctx image).table.board := by
  rcases sysExecImage_cases ctx image h.current_lt.ne with
    ⟨hs | ⟨parent, hs⟩, -⟩ | ⟨u, hu, hs⟩
  · rw [hs]
    exact .one .stay
  · rw [board_created hs]
    exact .one (.spawn parent)
  · rw [hs, enterProcessFromSyscall]
    rw [board_switchTo_blockOn u ctx hu.pid, board_created hu]
    refine ⟨_, .spawn _, .wait rfl ⟨?_, ?_, ?_⟩ ?_⟩
    · exact h.current_pos.trans h.current_lt.le
    · exact Nat.lt_succ_self t.count
    · simp [Board.create, ProcTable.board]
    · simp [Board.create, ProcTable.board]
      exact h.current_pid

/-- THE REFINEMENT: on the board every event is a move, or a creation
followed by a wait. -/
theorem step_moves (h : t.board.Inv) {e : Event} (hs : step t e = some t') :
    Board.Moves e.returns t.board t'.board := by
  obtain ⟨⟨u, ctx'⟩, hstep, rfl⟩ := Option.map_eq_some_iff.mp hs
  cases e with
  | tick frame =>
    cases hstep
    exact .one (tick_moves t frame)
  | call ctx request =>
    obtain ⟨r, hr, heq⟩ := Option.map_eq_some_iff.mp hstep
    cases heq
    have hcount := board_countSyscall t
    rw [← hcount] at h ⊢
    cases request with
    | exit a1 => exact .one (exit_moves h hr)
    | yield =>
      cases hr
      exact .one (yield_moves h)
    | wait a1 =>
      cases hr
      exact .one (wait_moves h a1)
    | spawn image =>
      cases hr
      exact .one (spawn_moves h image)
    | execImage image =>
      cases hr
      exact exec_moves h image

/-- The board of the first user process. -/
theorem inv_userInitSpawn (kernelPml4 pml4 : Word) (path : List Byte) (image : LoadedImage) :
    (userInitSpawn kernelPml4 pml4 path image).board.Inv where
  current_pos := Nat.le_refl 1
  current_lt := Nat.lt_succ_self 1
  pid := by
    rintro (_ | _ | i) hi
    · rfl
    · rfl
    · exact absurd (show i + 2 < 2 from hi) (by omega)
  running := by
    intro i h1 (hi : i < 2)
    obtain rfl : i = 1 := by omega
    exact ⟨fun _ => rfl, fun _ => rfl⟩
  kernel := rfl
  root := rfl
  used := by
    rintro (_ | _ | i) hi
    · exact nofun
    · exact nofun
    · exact absurd (show i + 2 < 2 from hi) (by omega)
  pending := by
    rintro (_ | _ | i) hi hp
    · exact absurd rfl hp.1
    · exact absurd rfl hp.1
    · exact absurd (show i + 2 < 2 from hi) (by omega)
  blocked := by
    rintro (_ | _ | i) hi hb
    · cases hb
    · cases hb
    · exact absurd (show i + 2 < 2 from hi) (by omega)

end Refinement

end OreOS.Kernel
