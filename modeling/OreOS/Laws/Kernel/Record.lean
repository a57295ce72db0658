import OreOS.Laws.Kernel.States

/-!
# What a switch does to the processes it does not switch

A step leaves every process alone that it neither leaves nor enters, except a
BLOCKED parent without a return context, which EXIT makes READY. And a process
that was READY before a step and runs after it is entered in one of two ways:
through its frame, by a tick, or through its saved pointers, by a call.
-/

namespace OreOS.Kernel

open OreOS.Lib (Word)
open Syscall hiding nextReadyProcess

variable {t t' : ProcTable} {e : Event} {ctx ctx' : UserCtx}

/-! ## Bystanders -/

variable {q i : Nat}

theorem switchTo_of_ne (h : i ≠ q) : (switchTo t q).procs i = t.procs i := by
  simp [switchTo, processSetCurrent_procs, h]

@[simp] theorem enter_current (t : ProcTable) (q : Nat) (ret : Word) :
    (enterProcessFromSyscall t q ret).table.current = q := rfl

theorem enter_of_ne {ret : Word} (h : i ≠ (enterProcessFromSyscall t q ret).table.current) :
    (enterProcessFromSyscall t q ret).table.procs i = t.procs i :=
  switchTo_of_ne h

theorem restoreByTick_of_ne (h : i ≠ q) : (restoreByTick t q).1.procs i = t.procs i := by
  unfold restoreByTick
  split
  · rfl
  · dsimp only
    rw [ProcTable.modify_of_ne _ _ h]

variable {frame : InterruptFrame}

theorem tick_frame (hc : i ≠ t.current) (hc' : i ≠ (processScheduleUserTick t frame).1.current) :
    (processScheduleUserTick t frame).1.procs i = t.procs i := by
  rcases tick_cases t frame with hs | ⟨q, -, -, -, hs⟩
  · rw [hs]
  · rw [hs] at hc' ⊢
    exact (switchTo_of_ne hc').trans
      ((restoreByTick_of_ne hc').trans (ProcTable.modify_of_ne _ _ hc))

theorem yield_frame (h : t.board.Inv) (hc : i ≠ t.current)
    (hc' : i ≠ (scheduleNextFromSyscall t ctx).table.current) :
    (scheduleNextFromSyscall t ctx).table.procs i = t.procs i := by
  rcases yield_cases ctx h.current_running with hs | ⟨q, -, hs⟩
  · rw [hs]
  · rw [hs] at hc' ⊢
    rw [enter_of_ne hc', saveByYield, ProcTable.modify_of_ne _ _ hc]

variable {a1 : Word}

theorem wait_frame (hc : i ≠ t.current) (hc' : i ≠ (sysWait t ctx a1).table.current) :
    (sysWait t ctx a1).table.procs i = t.procs i := by
  rcases sysWait_cases t ctx a1 with hs | ⟨c, -, -, -, -, ⟨-, hs⟩ | ⟨-, hs⟩⟩
  · rw [hs]
  · rw [hs] at hc' ⊢
    rw [enter_of_ne hc', blockOn, ProcTable.modify_of_ne _ _ hc]
  · rw [hs]

theorem exit_frame (h : t.board.Inv) {r : Reply} (hr : sysExit t a1 = some r) (hc : i ≠ t.current)
    (hc' : i ≠ r.table.current) (hb : (t.procs i).state = .blocked → (t.procs i).Pending) :
    r.table.procs i = t.procs i := by
  have hi : (markExited t a1).procs i = t.procs i := ProcTable.modify_of_ne _ _ hc
  rcases sysExit_cases h hr with
    ⟨m, -, -, -, -, rfl⟩ | ⟨m, q, -, -, -, hpend, hbl, -, rfl⟩ | ⟨q, -, -, rfl⟩
  · have him : i ≠ m := hc'
    rw [returnToParent]
    dsimp only
    rw [ProcTable.modify_of_ne _ _ him, switchTo_of_ne him, hi]
  · have him : i ≠ m := by
      rintro rfl
      exact hpend (hb hbl)
    rw [enter_of_ne hc', wakeParent, ProcTable.modify_of_ne _ _ him, hi]
  · rw [enter_of_ne hc', hi]

theorem exec_frame (h : t.board.Inv) {image : Image} (hi : i < t.count) (hc : i ≠ t.current) :
    (sysExecImage t ctx image).table.procs i = t.procs i := by
  have hin : i ≠ t.count := hi.ne
  rcases sysExecImage_cases ctx image h.current_lt.ne with
    ⟨hs | ⟨parent, hs⟩, -⟩ | ⟨u, hu, hs⟩
  · rw [hs]
  · exact hs.old i hin
  · rw [hs, enter_of_ne hin, blockOn, ProcTable.modify_of_ne _ _ (hu.current ▸ hc), hu.old i hin]

theorem spawn_frame (h : t.board.Inv) {image : Image} (hi : i < t.count) :
    (sysSpawn t image).table.procs i = t.procs i := by
  rcases (sysSpawn_cases image h.current_lt.ne).1 with hs | ⟨parent, hs⟩
  · rw [hs]
  · exact hs.old i hi.ne

/-- A step leaves every process alone that it neither leaves nor enters and
that it does not wake. -/
theorem stepCtx_frame (h : t.board.Inv) (hs : stepCtx t e = some (t', ctx')) (hi : i < t.count)
    (hc : i ≠ t.current) (hc' : i ≠ t'.current)
    (hb : (t.procs i).state = .blocked → (t.procs i).Pending) : t'.procs i = t.procs i := by
  cases e with
  | tick frame =>
    cases hs
    exact tick_frame hc hc'
  | call ctx request =>
    obtain ⟨r, hr, heq⟩ := Option.map_eq_some_iff.mp hs
    cases heq
    have hcount : (countSyscall t).procs i = t.procs i := ProcTable.modify_of_ne _ _ hc
    rw [← board_countSyscall t] at h
    rw [← hcount] at hb ⊢
    cases request with
    | exit a1 => exact exit_frame h hr hc hc' hb
    | yield =>
      cases hr
      exact yield_frame h hc hc'
    | wait a1 =>
      cases hr
      exact wait_frame hc hc'
    | spawn image =>
      cases hr
      exact spawn_frame h hi
    | execImage image =>
      cases hr
      exact exec_frame h hi hc

/-! ## Entering a READY process -/

/-- The process an event turns to, by the kernel's own lookups: the next READY
process for a tick, a YIELD and an EXIT that no parent takes over, the named
child for a WAIT. -/
def entering (t : ProcTable) : Event → Option Nat
  | .tick frame =>
    if frame.cs &&& 3 = 3 ∧ (t.procs t.current).pid ≠ 1 then
      nextReadyProcess t (t.procs t.current).pid
    else none
  | .call _ .yield => nextReadyProcess t (t.procs t.current).pid
  | .call _ (.wait a1) =>
    (processFind t (a1.toNat % 2 ^ 32)).filter fun c =>
      (t.procs c).parentPid = (t.procs t.current).pid
  | .call _ (.exit _) =>
    if (processFind t (t.procs t.current).parentPid).any fun m => (t.procs m).Pending then none
    else nextReadyProcess t (t.procs t.current).pid
  | .call _ (.spawn _) | .call _ (.execImage _) => none

/-- Where a tick enters `p`. -/
def resumeFrame (p : Process) : InterruptFrame :=
  if p.hasUserFrame then p.userFrame else freshFrame p

/-- Where a call enters `p`. -/
def resumePointers (p : Process) : Word × Word :=
  (if p.savedUserRip ≠ 0 then p.savedUserRip else p.userEntry,
   if p.savedUserRsp ≠ 0 then p.savedUserRsp else p.userStack)

/-- How a READY process is entered: by a tick through its frame, by a call
through its saved pointers with the caller's registers. -/
def EntersAt (p : Process) (ctx' : UserCtx) : Event → Prop
  | .tick _ => ctx' = (resumeFrame p).userCtx
  | .call _ _ => (ctx'.rip, ctx'.rsp) = resumePointers p

theorem restoreByTick_frame (q : Nat) : (restoreByTick t q).2 = resumeFrame (t.procs q) := by
  unfold restoreByTick resumeFrame
  split <;> rfl

theorem sysret_enter (ctx : UserCtx) (q : Nat) (ret : Word) :
    ((sysret ctx (enterProcessFromSyscall t q ret)).rip,
      (sysret ctx (enterProcessFromSyscall t q ret)).rsp) = resumePointers (t.procs q) :=
  rfl

/-- A predicate widened by one value finds that value or what it found
before. -/
theorem find?_widen {p q : Nat → Bool} {l : List Nat} {m x : Nat} (h : ∀ y, y ≠ m → q y = p y)
    (hm : p m = false) (hx : l.find? q = some x) : x = m ∨ l.find? p = some x := by
  induction l with
  | nil => cases hx
  | cons a l ih =>
    by_cases ha : a = m
    · subst ha
      rw [List.find?_cons] at hx
      rw [List.find?_cons_of_neg (by simp [hm])]
      split at hx
      · exact .inl (Option.some.inj hx).symm
      · exact ih hx
    · rw [List.find?_cons, h a ha] at hx
      rw [List.find?_cons]
      split at hx
      · exact .inr hx
      · exact ih hx

/-- Waking a process adds at most that process to what the scan can find. -/
theorem nextReadyProcess_wakeParent {pid m : Nat} (hm : (t.procs m).state ≠ .ready)
    (h : nextReadyProcess (wakeParent t m) pid = some q) :
    q = m ∨ nextReadyProcess t pid = some q := by
  unfold nextReadyProcess at h ⊢
  rw [show (wakeParent t m).count = t.count from rfl] at h
  split at h
  next => cases h
  next hcount =>
    rw [if_neg hcount]
    refine find?_widen (fun i hi => ?_) ?_ h
    · simp only [wakeParent, ProcTable.modify_of_ne _ _ hi]
    · simp [hm]

theorem nextReadyProcess_markExited (h : t.board.Inv) (a1 : Word) :
    nextReadyProcess (markExited t a1) t.current = nextReadyProcess t t.current := by
  have hb := board_markExited t a1
  refine nextReadyProcess_congr rfl (fun i => congrFun (congrArg Board.pid hb) i) fun i hi => ?_
  rw [markExited, ProcTable.modify_of_ne]
  rintro rfl
  exact hi h.current_pid

theorem nextReadyProcess_countSyscall (pid : Nat) :
    nextReadyProcess (countSyscall t) pid = nextReadyProcess t pid :=
  nextReadyProcess_congr rfl (fun i => congrFun (congrArg Board.pid (board_countSyscall t)) i)
    fun i _ => congrFun (congrArg Board.state (board_countSyscall t)) i

theorem processFind_countSyscall (pid : Nat) :
    processFind (countSyscall t) pid = processFind t pid := by
  refine List.find?_congr fun i _ => ?_
  rw [show ((countSyscall t).procs i).pid = (t.procs i).pid from
    congrFun (congrArg Board.pid (board_countSyscall t)) i]

theorem entering_countSyscall (e : Event) : entering (countSyscall t) e = entering t e := by
  have hpid : ∀ i, ((countSyscall t).procs i).pid = (t.procs i).pid :=
    congrFun (congrArg Board.pid (board_countSyscall t))
  have hparent : ∀ i, ((countSyscall t).procs i).parentPid = (t.procs i).parentPid :=
    congrFun (congrArg Board.parent (board_countSyscall t))
  have hpending : ∀ i, ((countSyscall t).procs i).Pending ↔ (t.procs i).Pending := fun i => by
    have hret := congrFun (congrArg Board.ret (board_countSyscall t)) i
    simp only [ProcTable.board, Prod.mk.injEq] at hret
    simp only [Process.Pending, hret]
  have hcur : (countSyscall t).current = t.current := rfl
  unfold entering
  simp only [hcur, hpid, hparent, hpending, nextReadyProcess_countSyscall,
    processFind_countSyscall]

theorem tick_enters (hne : (processScheduleUserTick t frame).1.current ≠ t.current) :
    entering t (.tick frame) = some (processScheduleUserTick t frame).1.current ∧
    (processScheduleUserTick t frame).2 =
      resumeFrame (t.procs (processScheduleUserTick t frame).1.current) := by
  rcases tick_cases t frame with hs | ⟨q, hcs, hpid, hq, hs⟩
  · rw [hs] at hne
    exact absurd rfl hne
  · rw [hs] at hne ⊢
    have hqc : q ≠ t.current := hne
    refine ⟨by rw [entering, if_pos ⟨hcs, hpid⟩]; exact hq, ?_⟩
    change (restoreByTick (saveByTick t frame) q).2 = resumeFrame (t.procs q)
    rw [restoreByTick_frame, saveByTick, ProcTable.modify_of_ne _ _ hqc]

theorem yield_enters (h : t.board.Inv)
    (hne : (scheduleNextFromSyscall t ctx).table.current ≠ t.current) :
    entering t (.call ctx .yield) = some (scheduleNextFromSyscall t ctx).table.current ∧
    EntersAt (t.procs (scheduleNextFromSyscall t ctx).table.current)
      (sysret ctx (scheduleNextFromSyscall t ctx)) (.call ctx .yield) := by
  rcases yield_cases ctx h.current_running with hs | ⟨q, hq, hs⟩
  · rw [hs] at hne
    exact absurd rfl hne
  · rw [hs] at hne ⊢
    have hqc : q ≠ t.current := hne
    refine ⟨hq, ?_⟩
    change _ = resumePointers (t.procs q)
    rw [sysret_enter, saveByYield, ProcTable.modify_of_ne _ _ hqc]

theorem wait_enters (h : t.board.Inv) (hne : (sysWait t ctx a1).table.current ≠ t.current) :
    entering t (.call ctx (.wait a1)) = some (sysWait t ctx a1).table.current ∧
    EntersAt (t.procs (sysWait t ctx a1).table.current)
      (sysret ctx (sysWait t ctx a1)) (.call ctx (.wait a1)) := by
  rcases sysWait_cases t ctx a1 with hs | ⟨c, hc, hcp, -, hpar, ⟨-, hs⟩ | ⟨-, hs⟩⟩
  · rw [hs] at hne
    exact absurd rfl hne
  · rw [hs] at hne ⊢
    have hqc : c ≠ t.current := hne
    constructor
    · rw [entering, ← hcp, show (t.procs c).pid = c from h.pid c hc, processFind_slot h hc]
      simp [hpar]
    · change _ = resumePointers (t.procs c)
      rw [sysret_enter, blockOn, ProcTable.modify_of_ne _ _ hqc]
  · rw [hs] at hne
    exact absurd rfl hne

theorem exit_enters (h : t.board.Inv) {r : Reply} (hr : sysExit t a1 = some r)
    (hst : (t.procs r.table.current).state = .ready) :
    entering t (.call ctx (.exit a1)) = some r.table.current ∧
    EntersAt (t.procs r.table.current) (sysret ctx r) (.call ctx (.exit a1)) := by
  -- the parent, if there is one, has no return context once EXIT looks further
  have hscan : (∀ m < t.count, (t.procs t.current).parentPid = m → ¬ (t.procs m).Pending) →
      entering t (.call ctx (.exit a1)) = nextReadyProcess t t.current := by
    intro hnp
    rw [entering, if_neg, h.current_pid]
    simp only [Option.any_eq_true, decide_eq_true_eq]
    rintro ⟨m, hm, hpend⟩
    obtain ⟨hlt, hpid⟩ := processFind_spec hm
    exact hnp m hlt (hpid.symm.trans (h.pid m hlt)) hpend
  have hcur : ∀ i, (t.procs i).state = .ready → i ≠ t.current := by
    rintro i hi rfl
    rw [h.current_running] at hi
    cases hi
  rcases sysExit_cases h hr with
    ⟨m, hm, h0, hlt, hpend, rfl⟩ | ⟨m, q, hm, hlt, hmc, hpend, hbl, hq, rfl⟩ | ⟨q, hp, hq, rfl⟩
  · have hbl : (t.procs m).state = .blocked := h.pending m hlt hpend
    have hrdy : (t.procs m).state = .ready := hst
    rw [hbl] at hrdy
    cases hrdy
  · have hrdy : (t.procs q).state = .ready := hst
    have hqm : q ≠ m := by
      rintro rfl
      rw [hbl] at hrdy
      cases hrdy
    have hmark : ((markExited t a1).procs m).state ≠ .ready := by
      rw [markExited, ProcTable.modify_of_ne _ _ hmc, hbl]
      decide
    constructor
    · rw [hscan fun m' _ hm' => hm'.symm.trans hm ▸ hpend]
      have hfound := (nextReadyProcess_wakeParent hmark hq).resolve_left hqm
      rwa [nextReadyProcess_markExited h] at hfound
    · change _ = resumePointers (t.procs q)
      rw [sysret_enter, wakeParent, ProcTable.modify_of_ne _ _ hqm, markExited,
        ProcTable.modify_of_ne _ _ (hcur q hrdy)]
  · have hrdy : (t.procs q).state = .ready := hst
    constructor
    · rw [hscan fun m hm hmp hpend => (hp m hm hmp (h.pending m hm hpend)).1 hpend]
      rwa [nextReadyProcess_markExited h] at hq
    · change _ = resumePointers (t.procs q)
      rw [sysret_enter, markExited, ProcTable.modify_of_ne _ _ (hcur q hrdy)]

theorem spawn_current (h : t.board.Inv) (image : Image) :
    (sysSpawn t image).table.current = t.current := by
  rcases (sysSpawn_cases image h.current_lt.ne).1 with hs | ⟨parent, hs⟩
  · rw [hs]
  · exact hs.current

theorem exec_current (h : t.board.Inv) (image : Image) :
    (sysExecImage t ctx image).table.current = t.current ∨
      (sysExecImage t ctx image).table.current = t.count := by
  rcases sysExecImage_cases ctx image h.current_lt.ne with
    ⟨hs | ⟨parent, hs⟩, -⟩ | ⟨u, hu, hs⟩
  · exact .inl (by rw [hs])
  · exact .inl hs.current
  · exact .inr (by rw [hs, enter_current])

/-- A READY process that runs after a step is the one the event turned to, and
it is entered through its frame or its saved pointers. -/
theorem stepCtx_enters (h : t.board.Inv) (hs : stepCtx t e = some (t', ctx'))
    (hne : t'.current ≠ t.current) (hlt : t'.current < t.count)
    (hst : (t.procs t'.current).state = .ready) :
    entering t e = some t'.current ∧ EntersAt (t.procs t'.current) ctx' e := by
  cases e with
  | tick frame =>
    cases hs
    obtain ⟨hent, hframe⟩ := tick_enters hne
    exact ⟨hent, congrArg InterruptFrame.userCtx hframe⟩
  | call ctx request =>
    obtain ⟨r, hr, heq⟩ := Option.map_eq_some_iff.mp hs
    cases heq
    have hcount : (countSyscall t).procs r.table.current = t.procs r.table.current :=
      ProcTable.modify_of_ne _ _ hne
    rw [← board_countSyscall t] at h
    rw [← entering_countSyscall, ← hcount]
    rw [← hcount] at hst
    cases request with
    | exit a1 => exact exit_enters h hr hst
    | yield =>
      cases hr
      exact yield_enters h hne
    | wait a1 =>
      cases hr
      exact wait_enters h hne
    | spawn image =>
      cases hr
      exact absurd (spawn_current h image) hne
    | execImage image =>
      cases hr
      rcases exec_current h image with hc | hc
      · exact absurd hc hne
      · exact absurd hc hlt.ne

/-! ## Leaving the current process -/

/-- The table holds what it takes to resume `p` as it was descheduled. -/
def Descheduled.SavedIn (p : Process) : Descheduled → Prop
  | .tick frame =>
    p.hasUserFrame = true ∧ p.userFrame = frame ∧
      p.savedUserRip = frame.rip ∧ p.savedUserRsp = frame.rsp
  | .yield rip rsp => p.savedUserRip = rip ∧ p.savedUserRsp = rsp

theorem tick_saves (hne : (processScheduleUserTick t frame).1.current ≠ t.current) :
    ((processScheduleUserTick t frame).1.procs t.current).state = .ready ∧
    (Descheduled.tick frame).SavedIn ((processScheduleUserTick t frame).1.procs t.current) := by
  rcases tick_cases t frame with hs | ⟨q, -, -, -, hs⟩
  · rw [hs] at hne
    exact absurd rfl hne
  · rw [hs] at hne ⊢
    have hcq : t.current ≠ q := Ne.symm hne
    dsimp only
    rw [switchTo_of_ne hcq, restoreByTick_of_ne hcq, saveByTick, ProcTable.modify_self]
    exact ⟨rfl, rfl, rfl, rfl, rfl⟩

theorem yield_saves (h : t.board.Inv)
    (hne : (scheduleNextFromSyscall t ctx).table.current ≠ t.current) :
    ((scheduleNextFromSyscall t ctx).table.procs t.current).state = .ready ∧
    (Descheduled.yield ctx.rip ctx.rsp).SavedIn
      ((scheduleNextFromSyscall t ctx).table.procs t.current) := by
  rcases yield_cases ctx h.current_running with hs | ⟨q, -, hs⟩
  · rw [hs] at hne
    exact absurd rfl hne
  · rw [hs] at hne ⊢
    rw [enter_of_ne (Ne.symm hne), saveByYield, ProcTable.modify_self]
    exact ⟨rfl, rfl, rfl⟩

/-- What a tick or a YIELD that switches leaves behind. -/
theorem stepCtx_saves (h : t.board.Inv) (hs : stepCtx t e = some (t', ctx'))
    (hne : t'.current ≠ t.current) {d : Descheduled} (hd : e.descheduled = some d) :
    (t'.procs t.current).state = .ready ∧ d.SavedIn (t'.procs t.current) := by
  cases e with
  | tick frame =>
    cases hd
    cases hs
    exact tick_saves hne
  | call ctx request =>
    obtain ⟨r, hr, heq⟩ := Option.map_eq_some_iff.mp hs
    cases heq
    rw [← board_countSyscall t] at h
    cases request with
    | yield =>
      cases hd
      cases hr
      exact yield_saves h hne
    | _ => cases hd

end OreOS.Kernel
