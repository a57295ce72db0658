import OreOS.Laws.Kernel.Resume

/-!
# What a WAIT comes back with

EXIT looks for a return context in the parent of the process that leaves and
does not ask which child the parent named. A WAIT that names a child that is not
READY answers at once with its `exit_code` field. `wait_answers` says that this
is all that can go wrong, besides a caller without an instruction or stack
pointer. It speaks of the low half of `rax`; for the upper half see
`exit_code_widened_alike`.
-/

namespace OreOS.Kernel

open OreOS.Lib (Word Byte Run runList)
open Syscall hiding nextReadyProcess

namespace Recorded

variable {w w' : Recorded} {e : Event} {ctx ctx' : UserCtx}

/-- The step brings a successful WAIT for `pid` back to its caller: the caller
of an unfinished WAIT runs again, or a WAIT that names a child of the caller
does not switch. -/
def WaitReturns (w : Recorded) (e : Event) (w' : Recorded) (pid : Nat) : Prop :=
  (w'.table.current ≠ w.table.current ∧ w.waiting w'.table.current = some pid) ∨
  (w'.table.current = w.table.current ∧ e.waitFor = some pid ∧
    ∃ c, processFind w.table pid = some c ∧ c ≠ w.table.current ∧
      (w.table.procs c).parentPid = (w.table.procs w.table.current).pid)

/-- The child has exited and the caller holds its exit code in the low half of
`rax`. -/
def Answered (w' : Recorded) (ctx' : UserCtx) (pid : Nat) : Prop :=
  ∃ c, processFind w'.table pid = some c ∧ (w'.table.procs c).state = .exited ∧
    ctx'.regs.rax.setWidth 32 = (w'.table.procs c).exitCode

/-- Nobody leaves while its parent waits for another child, and nobody waits
for a BLOCKED child or from a null context. -/
def InOrder (w : Recorded) : Event → Prop
  | .call _ (.exit _) =>
    ∀ m ∈ processFind w.table (w.table.procs w.table.current).parentPid,
      ∀ pid ∈ w.waiting m, pid = (w.table.procs w.table.current).pid
  | .call ctx (.wait a1) =>
    ctx.rip ≠ 0 ∧ ctx.rsp ≠ 0 ∧
    ∀ c ∈ processFind w.table (a1.toNat % 2 ^ 32),
      (w.table.procs c).parentPid = (w.table.procs w.table.current).pid →
      (w.table.procs c).state ≠ .blocked
  | _ => True

instance (w : Recorded) (e : Event) : Decidable (w.InOrder e) :=
  match e with
  | .call _ (.exit _) => inferInstanceAs (Decidable (∀ m ∈ _, ∀ pid ∈ _, _))
  | .call _ (.wait _) => inferInstanceAs (Decidable (_ ∧ _ ∧ ∀ c ∈ _, _))
  | .tick _ | .call _ .yield | .call _ (.spawn _) | .call _ (.execImage _) =>
    inferInstanceAs (Decidable True)

/-- Every unfinished WAIT is in the table: its caller is BLOCKED on the child
it named, with a return context. -/
structure Waiting (w : Recorded) : Prop where
  inv : w.table.board.Inv
  waiting : ∀ i pid, w.waiting i = some pid →
    i < w.table.count ∧ (w.table.procs i).state = .blocked ∧
      (w.table.procs i).waitingForPid = pid ∧ (w.table.procs i).Pending

theorem waiting_init (t : ProcTable) (h : t.board.Inv) : (init t).Waiting :=
  ⟨h, nofun⟩

end Recorded

/-! ## Blocking and resuming in the table -/

variable {t t' : ProcTable} {e : Event} {ctx ctx' : UserCtx}

/-- A WAIT that switches leaves its caller BLOCKED on the child it named. -/
theorem wait_blocks {a1 : Word} (hne : (sysWait t ctx a1).table.current ≠ t.current) :
    ((sysWait t ctx a1).table.procs t.current).state = .blocked ∧
    ((sysWait t ctx a1).table.procs t.current).waitingForPid = a1.toNat % 2 ^ 32 ∧
    ((sysWait t ctx a1).table.procs t.current).waitReturnRip = ctx.rip ∧
    ((sysWait t ctx a1).table.procs t.current).waitReturnRsp = ctx.rsp := by
  rcases sysWait_cases t ctx a1 with hs | ⟨c, -, hcp, -, -, ⟨-, hs⟩ | ⟨-, hs⟩⟩
  · rw [hs] at hne
    exact absurd rfl hne
  · rw [hs] at hne ⊢
    rw [enter_of_ne (Ne.symm hne), blockOn, ProcTable.modify_self]
    exact ⟨rfl, hcp, rfl, rfl⟩
  · rw [hs] at hne
    exact absurd rfl hne

/-- A tick, a YIELD and a WAIT enter READY processes only. -/
theorem tick_ready {frame : InterruptFrame}
    (hne : (processScheduleUserTick t frame).1.current ≠ t.current) :
    (t.procs (processScheduleUserTick t frame).1.current).state = .ready := by
  rcases tick_cases t frame with hs | ⟨q, -, -, hq, hs⟩
  · rw [hs] at hne
    exact absurd rfl hne
  · rw [hs]
    exact (nextReadyProcess_spec hq).2.2.2

theorem yield_ready (h : t.board.Inv)
    (hne : (scheduleNextFromSyscall t ctx).table.current ≠ t.current) :
    (t.procs (scheduleNextFromSyscall t ctx).table.current).state = .ready := by
  rcases yield_cases ctx h.current_running with hs | ⟨q, hq, hs⟩
  · rw [hs] at hne
    exact absurd rfl hne
  · rw [hs]
    exact (nextReadyProcess_spec hq).2.2.2

theorem wait_ready {a1 : Word} (hne : (sysWait t ctx a1).table.current ≠ t.current) :
    (t.procs (sysWait t ctx a1).table.current).state = .ready := by
  rcases sysWait_cases t ctx a1 with hs | ⟨c, -, -, -, -, ⟨hst, hs⟩ | ⟨-, hs⟩⟩
  · rw [hs] at hne
    exact absurd rfl hne
  · rw [hs]
    exact hst
  · rw [hs] at hne
    exact absurd rfl hne

/-- EXIT enters a process with a return context only as the parent of the one
that leaves. -/
theorem exit_resumes (h : t.board.Inv) {a1 : Word} {r : Reply} (hr : sysExit t a1 = some r)
    (hlt : r.table.current < t.count) (hpend : (t.procs r.table.current).Pending) :
    (t.procs t.current).parentPid = r.table.current ∧
      (r.table.procs t.current).state = .exited ∧
      (r.table.procs t.current).exitCode = a1.setWidth 32 ∧
      (sysret ctx r).regs.rax = (a1.setWidth 32).setWidth 64 := by
  have hblocked : (t.procs r.table.current).state = .blocked := h.pending _ hlt hpend
  have hmc : r.table.current ≠ t.current := h.pending_ne_current hlt hpend
  have hnext : ∀ q, q ≠ t.current → (t.procs q).state = .blocked →
      nextReadyProcess (markExited t a1) t.current ≠ some q := by
    intro q hq hb hsome
    rw [nextReadyProcess_markExited h] at hsome
    rw [(nextReadyProcess_spec hsome).2.2.2] at hb
    cases hb
  rcases sysExit_cases h hr with
    ⟨m, hm, -, -, -, rfl⟩ | ⟨m, q, -, -, hm, hnp, hbl, hq, rfl⟩ | ⟨q, -, hq, rfl⟩
  · have hcm : t.current ≠ m := Ne.symm hmc
    refine ⟨hm, ?_⟩
    rw [returnToParent]
    rw [ProcTable.modify_of_ne _ _ hcm, switchTo_of_ne hcm, markExited, ProcTable.modify_self]
    exact ⟨rfl, rfl, rfl⟩
  · have hqm : q ≠ m := by
      rintro rfl
      exact hnp hpend
    have hmark : ((markExited t a1).procs m).state ≠ .ready := by
      rw [markExited, ProcTable.modify_of_ne _ _ hm, hbl]
      decide
    exact absurd ((nextReadyProcess_wakeParent hmark hq).resolve_left hqm)
      (hnext q hmc hblocked)
  · exact absurd hq (hnext q hmc hblocked)

/-- A process with a return context runs again only when a child of its
exits. -/
theorem stepCtx_resumes (h : t.board.Inv) (hs : stepCtx t e = some (t', ctx'))
    (hne : t'.current ≠ t.current) (hlt : t'.current < t.count)
    (hpend : (t.procs t'.current).Pending) :
    ∃ ctx a1, e = .call ctx (.exit a1) ∧ (t.procs t.current).parentPid = t'.current ∧
      (t'.procs t.current).state = .exited ∧ (t'.procs t.current).exitCode = a1.setWidth 32 ∧
      ctx'.regs.rax = (a1.setWidth 32).setWidth 64 := by
  have hnotready : (t.procs t'.current).state ≠ .ready := by
    rw [show (t.procs t'.current).state = .blocked from h.pending _ hlt hpend]
    exact nofun
  cases e with
  | tick frame =>
    cases hs
    exact absurd (tick_ready hne) hnotready
  | call ctx request =>
    obtain ⟨r, hr, heq⟩ := Option.map_eq_some_iff.mp hs
    cases heq
    have hcount : (countSyscall t).procs r.table.current = t.procs r.table.current :=
      ProcTable.modify_of_ne _ _ hne
    have hparent : ((countSyscall t).procs t.current).parentPid = (t.procs t.current).parentPid :=
      congrFun (congrArg Board.parent (board_countSyscall t)) _
    rw [← board_countSyscall t] at h
    rw [← hcount] at hpend hnotready
    cases request with
    | exit a1 =>
      rw [← hparent]
      exact ⟨ctx, a1, rfl, exit_resumes h hr hlt hpend⟩
    | yield =>
      cases hr
      exact absurd (yield_ready h hne) hnotready
    | wait a1 =>
      cases hr
      exact absurd (wait_ready hne) hnotready
    | spawn image =>
      cases hr
      exact absurd (spawn_current h image) hne
    | execImage image =>
      cases hr
      rcases exec_current h image with hc | hc
      · exact absurd hc hne
      · exact absurd hc hlt.ne

section

variable {a1 : Word} {c : Nat} (hf : processFind t (a1.toNat % 2 ^ 32) = some c)
  (hpid : (t.procs c).pid ≠ (t.procs t.current).pid)
  (hpar : (t.procs c).parentPid = (t.procs t.current).pid)
include hf hpid hpar

theorem wait_of_not_ready (hready : (t.procs c).state ≠ .ready) :
    sysWait t ctx a1 = { table := t, ret := (t.procs c).exitCode.signExtend 64 } := by
  unfold sysWait
  rw [hf]
  dsimp only
  rw [if_neg hpid, if_neg (not_not.mpr hpar), if_neg hready]

theorem wait_immediate (hne : c ≠ t.current)
    (hstay : (sysWait t ctx a1).table.current = t.current) :
    (t.procs c).state ≠ .ready ∧
    sysWait t ctx a1 = { table := t, ret := (t.procs c).exitCode.signExtend 64 } := by
  have hready : (t.procs c).state ≠ .ready := by
    intro hready
    unfold sysWait at hstay
    rw [hf] at hstay
    dsimp only at hstay
    rw [if_neg hpid, if_neg (not_not.mpr hpar), if_pos hready] at hstay
    exact hne hstay
  exact ⟨hready, wait_of_not_ready hf hpid hpar hready⟩

end

/-- A child that is neither READY nor BLOCKED nor current has exited. -/
theorem exited_of_child (h : t.board.Inv) {c : Nat} (hc : c < t.count) (hne : c ≠ t.current)
    (hpar : (t.procs c).parentPid = (t.procs t.current).pid) (hr : (t.procs c).state ≠ .ready)
    (hb : (t.procs c).state ≠ .blocked) : (t.procs c).state = .exited := by
  have hpos : 1 ≤ c := by
    rcases Nat.eq_zero_or_pos c with rfl | hpos
    · have hroot : (t.procs 0).parentPid = 0 := h.root
      have hpid := h.current_pid
      omega
    · exact hpos
  have hrun : (t.procs c).state ≠ .running := fun hrun => hne ((h.running c hpos hc).mp hrun)
  have hused : (t.procs c).state ≠ .unused := h.used c hc
  generalize (t.procs c).state = s at *
  cases s with
  | exited => rfl
  | unused => exact absurd rfl hused
  | ready => exact absurd rfl hr
  | running => exact absurd rfl hrun
  | blocked => exact absurd rfl hb

/-- A WAIT that answers at once for a child that is not BLOCKED answers with the
exit code of a child that has exited. -/
theorem wait_now (h : t.board.Inv) {a1 : Word} {c : Nat}
    (hf : processFind t (a1.toNat % 2 ^ 32) = some c) (hne : c ≠ t.current)
    (hpar : (t.procs c).parentPid = (t.procs t.current).pid)
    (hb : (t.procs c).state ≠ .blocked)
    (hstay : (sysWait t ctx a1).table.current = t.current) :
    (t.procs c).state = .exited ∧ (sysWait t ctx a1).table = t ∧
      (sysret ctx (sysWait t ctx a1)).regs.rax.setWidth 32 = (t.procs c).exitCode := by
  obtain ⟨hlt, -⟩ := processFind_spec hf
  have hpid : (t.procs c).pid ≠ (t.procs t.current).pid := by
    rw [h.current_pid, show (t.procs c).pid = c from h.pid c hlt]
    exact hne
  obtain ⟨hready, hs⟩ := wait_immediate hf hpid hpar hne hstay
  refine ⟨exited_of_child h hlt hne hpar hready hb, by rw [hs], ?_⟩
  rw [hs]
  change ((t.procs c).exitCode.signExtend 64).setWidth 32 = _
  grind

namespace Recorded

variable {w w' : Recorded}

theorem step_table (hs : w.stepCtx e = some (w', ctx')) :
    OreOS.Kernel.stepCtx w.table e = some (w'.table, ctx') := by
  obtain ⟨t', ht, rfl⟩ := stepCtx_inv hs
  rwa [next_table]

theorem waitFor_eq {pid : Nat} (h : e.waitFor = some pid) :
    ∃ ctx a1, e = .call ctx (.wait a1) ∧ a1.toNat % 2 ^ 32 = pid := by
  cases e with
  | tick frame => cases h
  | call ctx request =>
    cases request with
    | wait a1 => exact ⟨ctx, a1, rfl, Option.some.inj h⟩
    | _ => cases h

theorem waiting_step (h : w.Waiting) (hok : w.InOrder e) (hs : w.step e = some w') :
    w'.Waiting := by
  obtain ⟨⟨w', ctx'⟩, hctx, rfl⟩ := Option.map_eq_some_iff.mp hs
  obtain ⟨t', ht, rfl⟩ := stepCtx_inv hctx
  have hstep : OreOS.Kernel.step w.table e = some t' := by
    rw [OreOS.Kernel.step, ht]
    rfl
  have hcount := count_le_step h.inv hstep
  have hinv' : (w.next e t').table.board.Inv := by
    rw [next_table]
    exact inv_step h.inv hstep
  constructor
  · exact hinv'
  intro i pid hi
  rw [next_table]
  rcases next_waiting hi with ⟨hold, hne⟩ | ⟨hne, rfl, hwait⟩
  · obtain ⟨hlt, hblk, hfor, hpend⟩ := h.waiting i pid hold
    have hcur : i ≠ w.table.current := h.inv.pending_ne_current hlt hpend
    have hcur' : i ≠ t'.current := by omega
    rw [stepCtx_frame h.inv ht hlt hcur hcur' fun _ => hpend]
    exact ⟨Nat.lt_of_lt_of_le hlt hcount, hblk, hfor, hpend⟩
  · have hlt : w.table.current < t'.count := Nat.lt_of_lt_of_le h.inv.current_lt hcount
    refine ⟨hlt, ?_⟩
    obtain ⟨ctx, a1, rfl, rfl⟩ := waitFor_eq hwait
    obtain ⟨rfl, -⟩ := Prod.mk.inj (Option.some.inj ht)
    obtain ⟨hblk, hfor, hrip, hrsp⟩ := wait_blocks (t := countSyscall w.table) hne
    exact ⟨hblk, hfor, hrip.trans_ne hok.1, hrsp.trans_ne hok.2.1⟩

/-- In every run whose steps are in order, a successful WAIT comes back after
the child it named has exited, with the child's exit code. -/
theorem wait_answers {kernelPml4 pml4 : Word} {path : List Byte} {image : LoadedImage} {pid : Nat}
    (hrun : Run step InOrder (init (userInitSpawn kernelPml4 pml4 path image)) w)
    (hok : w.InOrder e) (hs : w.stepCtx e = some (w', ctx')) (hret : w.WaitReturns e w' pid) :
    w'.Answered ctx' pid := by
  have hwaits : w.Waiting :=
    hrun.invariant (waiting_init _ (inv_userInitSpawn kernelPml4 pml4 path image))
      fun _ _ _ h hok hs => waiting_step h hok hs
  have ht := step_table hs
  have hstep : OreOS.Kernel.step w.table e = some w'.table := by
    rw [OreOS.Kernel.step, ht]
    rfl
  have hinv' := inv_step hwaits.inv hstep
  have hcount := count_le_step hwaits.inv hstep
  rcases hret with ⟨hne, hwait⟩ | ⟨hstay, hfor, c, hfind, hne, hpar⟩
  · -- somebody's EXIT gave the caller its return context back
    obtain ⟨hlt, -, -, hpend⟩ := hwaits.waiting _ pid hwait
    obtain ⟨ctx, a1, rfl, hparent, hexited, hcode, hrax⟩ :=
      stepCtx_resumes hwaits.inv ht hne hlt hpend
    have hfind := processFind_slot hwaits.inv hlt
    rw [← hparent] at hfind
    have hpid : pid = w.table.current := by
      rw [← hwaits.inv.current_pid]
      exact hok _ hfind pid (hparent ▸ hwait)
    subst hpid
    refine ⟨w.table.current, ?_, hexited, ?_⟩
    · exact processFind_slot hinv' (Nat.lt_of_lt_of_le hwaits.inv.current_lt hcount)
    · rw [hcode, hrax]
      simp
  · -- the WAIT answered at once
    obtain ⟨ctx, a1, rfl, rfl⟩ := waitFor_eq hfor
    obtain ⟨htable, hctx⟩ := Prod.mk.inj (Option.some.inj ht)
    have hinv := hwaits.inv
    rw [← board_countSyscall] at hinv
    have hsame : (countSyscall w.table).procs c = w.table.procs c := ProcTable.modify_of_ne _ _ hne
    have hcurpid : ((countSyscall w.table).procs w.table.current).pid =
        (w.table.procs w.table.current).pid :=
      congrFun (congrArg Board.pid (board_countSyscall w.table)) w.table.current
    have hblk := hok.2.2 c hfind hpar
    rw [← processFind_countSyscall] at hfind
    rw [← hsame, ← hcurpid] at hpar
    rw [← hsame] at hblk
    rw [← htable] at hstay
    obtain ⟨hexited, htab, hrax⟩ := wait_now hinv hfind hne hpar hblk hstay
    have hw' : w'.table = countSyscall w.table := htable.symm.trans htab
    refine ⟨c, ?_, ?_, ?_⟩
    · rwa [hw']
    · rwa [hw']
    · rw [hw', ← hctx, hrax]

/-- The first process spawns a child and waits for it. -/
theorem wait_answers_child :
    ∃ w w' ctx', Run step InOrder start w ∧
      w.stepCtx (.call (ctxAt 0x40) (.exit 7)) = some (w', ctx') ∧
      w.WaitReturns (.call (ctxAt 0x40) (.exit 7)) w' 2 ∧ w'.Answered ctx' 2 := by
  have hlist : runList step InOrder start [spawnAny, .call (ctxAt 0x20) (.wait 2)] = some _ := rfl
  have hrun := Run.ofList hlist
  refine ⟨_, _, _, hrun, rfl, .inl ⟨by decide, rfl⟩, ?_⟩
  exact wait_answers hrun (e := .call (ctxAt 0x40) (.exit 7)) (by decide) rfl
    (.inl ⟨by decide, rfl⟩)

/-- The first process waits for pid 2, which yields to its sibling 3; the exit
of 3 answers the WAIT while 2 is READY. -/
theorem siblingAnswers :
    ∃ w w' ctx', Run step (fun _ _ => True) start w ∧
      w.stepCtx (.call (ctxAt 0x40) (.exit 7)) = some (w', ctx') ∧
      w.WaitReturns (.call (ctxAt 0x40) (.exit 7)) w' 2 ∧
      ctx'.regs.rax = 7 ∧ (w'.table.procs 2).state = .ready ∧ ¬ w'.Answered ctx' 2 := by
  have hlist : runList step (fun _ _ => True) start
      [spawnAny, spawnAny, .call (ctxAt 0x20) (.wait 2), .call (ctxAt 0x30) .yield] = some _ := rfl
  refine ⟨_, _, _, Run.ofList hlist, rfl, .inl ⟨by decide, rfl⟩, rfl, rfl, ?_⟩
  rintro ⟨c, hc, hexited, -⟩
  cases hc
  cases hexited

end Recorded

/-! ## The two widenings of an exit code -/

/-- `v` is what a parent that is blocked in a WAIT for the running child finds
in `rax` when the child's EXIT resumes it. -/
inductive ExitAnswers (status : Word) : Word → Prop
  | intro {kernelPml4 pml4 : Word} {path : List Byte} {image : LoadedImage} {w w' : Recorded}
      {ctx ctx' : UserCtx} {parent : Nat}
      (run : Run Recorded.step (fun _ _ => True)
        (Recorded.init (userInitSpawn kernelPml4 pml4 path image)) w)
      (isParent : processFind w.table (w.table.procs w.table.current).parentPid = some parent)
      (waits : w.waiting parent = some (w.table.procs w.table.current).pid)
      (pending : (w.table.procs parent).Pending)
      (exits : w.stepCtx (.call ctx (.exit status)) = some (w', ctx'))
      (resumes : w'.table.current = parent) :
      ExitAnswers status ctx'.regs.rax

/-- `v` is what a parent finds in `rax` after a WAIT for a child that called
EXIT some time before. -/
inductive WaitAnswers (status : Word) : Word → Prop
  | intro {kernelPml4 pml4 : Word} {path : List Byte} {image : LoadedImage}
      {t u v v' : ProcTable} {ctx ctx' ctx'' : UserCtx} {a1 : Word}
      (run : Run step (fun _ _ => True) (userInitSpawn kernelPml4 pml4 path image) t)
      (exits : step t (.call ctx (.exit status)) = some u)
      (later : Run step (fun _ _ => True) u v)
      (isChild : processFind v (a1.toNat % 2 ^ 32) = some t.current)
      (isParent : (v.procs t.current).parentPid = (v.procs v.current).pid)
      (waits : stepCtx v (.call ctx' (.wait a1)) = some (v', ctx'')) :
      WaitAnswers status ctx''.regs.rax

theorem exited_frame (h : t.board.Inv) (hs : step t e = some t') {i : Nat} (hi : i < t.count)
    (hx : (t.procs i).state = .exited) : t'.procs i = t.procs i := by
  obtain ⟨⟨u, ctx'⟩, hstep, rfl⟩ := Option.map_eq_some_iff.mp hs
  obtain ⟨-, -, hne⟩ := exited_step h hs hi hx
  refine stepCtx_frame h hstep hi ?_ (Ne.symm hne) ?_
  · rintro rfl
    rw [h.current_running] at hx
    cases hx
  · intro hb
    rw [hb] at hx
    cases hx

theorem exitCode_run {ok : ProcTable → Event → Prop} (h : t.board.Inv) {i : Nat}
    (hi : i < t.count) (hx : (t.procs i).state = .exited) (hrun : Run step ok t t') :
    (t'.procs i).exitCode = (t.procs i).exitCode := by
  have hinv := by
    refine hrun.invariant (P := fun u => u.board.Inv ∧ i < u.count ∧
      u.procs i = t.procs i) ⟨h, hi, rfl⟩ ?_
    rintro u e v ⟨hu, hiu, hsame⟩ - hs
    have hxu : (u.procs i).state = .exited := by rw [hsame, hx]
    exact ⟨inv_step hu hs, (exited_step hu hs hiu hxu).1, (exited_frame hu hs hiu hxu).trans hsame⟩
  rw [hinv.2.2]

theorem sysExit_leaves (h : t.board.Inv) {a1 : Word} {r : Reply} (hr : sysExit t a1 = some r) :
    r.table.procs t.current = (markExited t a1).procs t.current := by
  have hnext : ∀ u q, u.board.pid = t.board.pid → nextReadyProcess u t.current = some q →
      t.current ≠ q := by
    rintro u q hpid hq rfl
    obtain ⟨-, -, hne, -⟩ := nextReadyProcess_spec hq
    exact hne ((congrFun hpid t.current).trans h.current_pid)
  have hpid : (markExited t a1).board.pid = t.board.pid := by rw [board_markExited]
  rcases sysExit_cases h hr with
    ⟨m, -, -, hlt, hpend, rfl⟩ | ⟨m, q, -, -, hm, -, -, hq, rfl⟩ | ⟨q, -, hq, rfl⟩
  · have hcm : t.current ≠ m := Ne.symm (h.pending_ne_current hlt hpend)
    rw [returnToParent]
    rw [ProcTable.modify_of_ne _ _ hcm, switchTo_of_ne hcm]
  · have hpid' : (wakeParent (markExited t a1) m).board.pid = t.board.pid := by
      rw [board_wakeParent]
      exact hpid
    rw [enter_of_ne (hnext _ q hpid' hq), wakeParent, ProcTable.modify_of_ne _ _ (Ne.symm hm)]
  · exact enter_of_ne (hnext _ q hpid hq)

theorem exit_leaves (h : t.board.Inv) {status : Word}
    (hs : step t (.call ctx (.exit status)) = some t') :
    (t'.procs t.current).state = .exited ∧
      (t'.procs t.current).exitCode = status.setWidth 32 := by
  obtain ⟨⟨u, ctx'⟩, hstep, rfl⟩ := Option.map_eq_some_iff.mp hs
  obtain ⟨r, hr, heq⟩ := Option.map_eq_some_iff.mp hstep
  cases heq
  rw [← board_countSyscall t] at h
  have hleft := sysExit_leaves h hr
  change r.table.procs t.current = _ at hleft
  rw [hleft, markExited]
  exact ⟨congrArg Process.state (ProcTable.modify_self ..),
    congrArg Process.exitCode (ProcTable.modify_self ..)⟩

/-- EXIT resumes the parent with the code zero-extended. -/
theorem ExitAnswers.zeroExtended {status v : Word} (h : ExitAnswers status v) :
    v = (status.setWidth 32).setWidth 64 := by
  obtain ⟨hrun, hparent, -, hpend, hexits, rfl⟩ := h
  have hinv := by
    refine hrun.invariant (P := fun w => w.table.board.Inv) (inv_userInitSpawn ..) ?_
    intro w e w' hw _ hs
    obtain ⟨⟨w', ctx'⟩, hstep, rfl⟩ := Option.map_eq_some_iff.mp hs
    exact inv_step hw (by rw [step, Recorded.step_table hstep]; rfl)
  obtain ⟨hlt, -⟩ := processFind_spec hparent
  obtain ⟨_, _, heq, -, -, -, hrax⟩ := stepCtx_resumes hinv (Recorded.step_table hexits)
    (hinv.pending_ne_current hlt hpend) hlt hpend
  cases heq
  exact hrax

/-- A WAIT for a child that has exited answers with the code sign-extended. -/
theorem WaitAnswers.signExtended {status v : Word} (h : WaitAnswers status v) :
    v = (status.setWidth 32).signExtend 64 := by
  obtain @⟨_, _, _, _, t, u, v, v', ctx, ctx', ctx'', a1, hrun, hexits, hlater, hchild, hparent,
    hwaits⟩ := h
  have hinv := inv_run (inv_userInitSpawn ..) hrun
  obtain ⟨hexited, hcode⟩ := exit_leaves hinv hexits
  have hinvu := inv_step hinv hexits
  have hlt : t.current < u.count :=
    Nat.lt_of_lt_of_le hinv.current_lt (count_le_step hinv hexits)
  obtain ⟨hexited', hne⟩ := exited_run hinvu hlt hexited hlater
  have hcode' := (exitCode_run hinvu hlt hexited hlater).trans hcode
  have hinvv := inv_run hinvu hlater
  rw [← board_countSyscall v] at hinvv
  -- the call is counted first, which leaves the child alone
  have hsame : (countSyscall v).procs t.current = v.procs t.current :=
    ProcTable.modify_of_ne _ _ (Ne.symm hne)
  have hcurpid : ((countSyscall v).procs v.current).pid = (v.procs v.current).pid :=
    congrFun (congrArg Board.pid (board_countSyscall v)) v.current
  rw [← processFind_countSyscall] at hchild
  rw [← hsame, ← hcurpid] at hparent
  rw [← hsame] at hexited' hcode'
  have hpid : ((countSyscall v).procs t.current).pid ≠ ((countSyscall v).procs v.current).pid := by
    have hparentPid : ((countSyscall v).procs v.current).pid = v.current := hinvv.current_pid
    have hchildPid : ((countSyscall v).procs t.current).pid = t.current :=
      hinvv.pid _ (processFind_spec hchild).1
    rw [hparentPid, hchildPid]
    exact Ne.symm hne
  have hwait := @wait_of_not_ready _ ctx' _ _ hchild hpid hparent (by rw [hexited']; decide)
  obtain ⟨-, rfl⟩ := Prod.mk.inj (Option.some.inj hwaits)
  rw [hwait, ← hcode']
  rfl

theorem widenings_agree (code : BitVec 32) :
    code.setWidth 64 = code.signExtend 64 ↔ code.msb = false := by
  constructor
  · intro h
    have htop := congrArg (fun v => v.getLsbD 63) h
    simpa [BitVec.getElem_signExtend] using htop.symm
  · intro h
    exact (BitVec.signExtend_eq_setWidth_of_msb_false h).symm

/-- Each of the two ways is taken in some run, whatever the status. -/
theorem exitAnswers_child (status : Word) :
    ExitAnswers status ((status.setWidth 32).setWidth 64) := by
  have hlist : runList Recorded.step (fun _ _ => True) Recorded.start
      [Recorded.spawnAny, .call (Recorded.ctxAt 0x20) (.wait 2)] = some _ := rfl
  exact @ExitAnswers.intro _ _ _ _ _ _ _ (Recorded.ctxAt 0x40) _ _ (Run.ofList hlist) rfl rfl
    (by decide) rfl rfl

theorem waitAnswers_child (status : Word) :
    WaitAnswers status ((status.setWidth 32).signExtend 64) := by
  have hlist : runList step (fun _ _ => True) Recorded.start.table
      [Recorded.spawnAny, .call (Recorded.ctxAt 0x20) .yield] = some _ := rfl
  exact @WaitAnswers.intro _ _ _ _ _ _ _ _ _ (Recorded.ctxAt 0x40) (Recorded.ctxAt 0x20) _ 2
    (Run.ofList hlist) rfl .refl rfl rfl rfl

/-- Whether the child exits under a blocked parent or before the parent's WAIT,
the parent is given the same value exactly for the exit statuses whose bit 31
is clear. -/
theorem exit_code_widened_alike (status : Word) :
    (∀ v v', ExitAnswers status v → WaitAnswers status v' → v = v') ↔
      status.getLsbD 31 = false := by
  have hmsb : (status.setWidth 32).msb = status.getLsbD 31 := by
    simp [BitVec.msb_eq_getLsbD_last]
  rw [← hmsb, ← widenings_agree]
  constructor
  · intro h
    exact h _ _ (exitAnswers_child status) (waitAnswers_child status)
  · rintro h v v' hv hv'
    rw [hv.zeroExtended, hv'.signExtended, h]

/-- A child that exits with -1 gives its parent `0xffffffff` or -1. -/
theorem exit_minus_one :
    ExitAnswers (-1) 0xffffffff ∧ WaitAnswers (-1) (-1) ∧ (0xffffffff : Word) ≠ -1 :=
  ⟨exitAnswers_child (-1), waitAnswers_child (-1), by decide⟩

end OreOS.Kernel
