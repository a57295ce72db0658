import OreOS.Kernel.Spawn
import OreOS.Laws.Kernel.States
import OreOS.Laws.Kernel.Boot

/-!
# What a failed SPAWN or EXEC_IMAGE leaves behind

`process_create_user` publishes the new process as READY, and nothing takes it
back: a call that fails later leaves in the table a READY process without an
image. Whether it fails before or after depends on the checks before the
creation and on the number of processes only. On the process table a call is one
of the requests of `dispatch` (`LoadCall.dispatch_run`).
-/

namespace OreOS.Kernel

open OreOS.Lib (Word Byte Exec Run Space)
open Syscall (LoadedImage)

/-! ## The calls on the process table -/

section Run

variable {services : Services} {kernelPml4 : Word} {t : ProcTable} {ctx : UserCtx}
  {call : LoadCall} {s s' : Machine} {r : Reply}

/-- A process is created unless the table is full. -/
theorem createUser_cases {name : List Byte} {res : Option (Nat × ProcTable)}
    (h : createUser kernelPml4 t name s = (.ok res, s')) :
    t.count ≥ maxProcesses ∧ res = none ∨
      t.count < maxProcesses ∧ ∃ pml4 child u, processCreateUser t name pml4 = some (child, u) ∧
        res = some (child, u) := by
  rw [createUser] at h
  by_cases hcount : t.count ≥ maxProcesses
  · rw [processCreateKernel, if_pos hcount] at h
    cases h
    exact .inl ⟨hcount, rfl⟩
  · rw [processCreateKernel, if_neg hcount] at h
    dsimp only at h
    rcases hrun : vmmCreateUserPml4 kernelPml4 s with ⟨e | pml4, s₁⟩
    · rw [Exec.bind_error hrun] at h
      cases h
    · rw [Exec.bind_ok hrun] at h
      cases h
      refine .inr ⟨Nat.lt_of_not_ge hcount, pml4, ?_⟩
      rw [processCreateUser, processCreateKernel, if_neg hcount]
      exact ⟨_, _, rfl, rfl⟩

/-- How a call can end. Nothing after the checks and the creation decides
whether a process is added. -/
theorem LoadCall.run_cases (h : call.run services kernelPml4 t ctx s = (.ok r, s')) :
    (∃ err, call.prepare services t.cr3 s = .error err ∧
      r = { table := t, ret := BitVec.ofInt 64 err }) ∨
    ∃ p, call.prepare services t.cr3 s = .ok p ∧
      (t.count ≥ maxProcesses ∧ r = { table := t, ret := call.noSlot } ∨
        t.count < maxProcesses ∧ ∃ pml4 child u loaded,
          processCreateUser t p.name pml4 = some (child, u) ∧
          r = call.finish u ctx child p.args loaded) := by
  unfold LoadCall.run at h
  rw [Exec.bind_ok (show (get : Kern Machine) s = (.ok s, s) from rfl)] at h
  cases hprep : call.prepare services t.cr3 s with
  | error err =>
    rw [hprep] at h
    cases h
    exact .inl ⟨err, rfl, rfl⟩
  | ok p =>
    refine .inr ⟨p, rfl, ?_⟩
    rw [hprep] at h
    dsimp only at h
    rw [Exec.bind_ok (show (modify services.settle : Kern PUnit) s = (.ok ⟨⟩, services.settle s)
      from rfl)] at h
    rcases hcreate : createUser kernelPml4 t p.name (services.settle s) with ⟨e | res, s₁⟩
    · rw [Exec.bind_error hcreate] at h
      cases h
    · rw [Exec.bind_ok hcreate] at h
      rcases createUser_cases hcreate with ⟨hfull, rfl⟩ | ⟨hfree, pml4, child, u, hu, rfl⟩
      · cases h
        exact .inl ⟨hfull, rfl⟩
      · dsimp only at h
        rcases hload : call.load (u.procs child).addressSpace.pml4Phys p s₁ with ⟨e | loaded, s₂⟩
        · rw [Exec.bind_error hload] at h
          cases h
        · rw [Exec.bind_ok hload] at h
          cases h
          exact .inr ⟨hfree, pml4, child, u, _, hu, rfl⟩

/-- The ending that is reached when all steps return. -/
theorem LoadCall.run_created {p : Prepared} {child : Nat} {u : ProcTable} {s₁ s₂ : Machine}
    {loaded : Except Int LoadedImage} (hprep : call.prepare services t.cr3 s = .ok p)
    (hcreate : createUser kernelPml4 t p.name (services.settle s) = (.ok (some (child, u)), s₁))
    (hload : call.load (u.procs child).addressSpace.pml4Phys p s₁ = (.ok loaded, s₂)) :
    call.run services kernelPml4 t ctx s =
      (.ok (call.finish u ctx child p.args (loaded.mapError (BitVec.ofInt 64))), s₂) := by
  rw [LoadCall.run, Exec.bind_ok (show (get : Kern Machine) s = (.ok s, s) from rfl), hprep]
  refine (Exec.bind_ok (show (modify services.settle : Kern PUnit) s = (.ok ⟨⟩, services.settle s)
    from rfl)).trans ?_
  rw [Exec.bind_ok hcreate]
  exact Exec.bind_ok hload

/-- A call that returns is a request of the scheduler's machine, with some
image. -/
theorem LoadCall.dispatch_run (h : call.run services kernelPml4 t ctx s = (.ok r, s')) :
    ∃ image, dispatch t ctx (call.request image) = some r := by
  rcases call.run_cases h with ⟨err, -, rfl⟩ | ⟨p, -, ⟨hfull, rfl⟩ | ⟨-, pml4, child, u, loaded, hu, rfl⟩⟩
  · refine ⟨.refused (BitVec.ofInt 64 err), ?_⟩
    cases call <;> rfl
  · have hnone : processCreateUser t p.name 0 = none := by
      unfold processCreateUser processCreateKernel
      rw [if_pos hfull]
      rfl
    refine ⟨.created p.name 0 p.args (.error 0), ?_⟩
    cases call with
    | spawn => simp only [request, dispatch, Syscall.sysSpawn, hnone, noSlot]
    | execImage => simp only [request, dispatch, Syscall.sysExecImage, hnone, noSlot]
  · refine ⟨.created p.name pml4 p.args loaded, ?_⟩
    cases call with
    | spawn => simp only [request, dispatch, Syscall.sysSpawn, hu, finish]
    | execImage => simp only [request, dispatch, Syscall.sysExecImage, hu, finish]

end Run

/-! ## An image on the caller's stack -/

/-- A heap without end, and no files. -/
def heapOnly : Services where
  stat := fun _ => none
  kmalloc := fun _ => some fun _ => 0
  readFile := fun _ buffer _ => (-1, buffer)
  settle := id

/-- The first user process, as `user_init_spawn` leaves the table. -/
def initTable (k g : Frame) : ProcTable :=
  userInitSpawn k.val g.val [] { entry := userBase, stack := stackTop - 16, segments := 1 }

/-- The same with no slot left. -/
def fullTable (g : Frame) : ProcTable :=
  { initTable bootRoot g with count := maxProcesses }

theorem not_accepted_header (hdr : OreImageHeader) : ¬ hdr.Accepted 56 := by
  rintro ⟨-, -, -, hlow, hhigh, htext, htextMax, hdata, -, hrelocs, -, -, hend, -⟩
  have htext' : hdr.textSize.toNat ≠ 0 := fun h0 => htext (BitVec.eq_of_toNat_eq h0)
  have htextOff : hdr.textOff.toNat = hdr.headerSize.toNat + 24 * hdr.relocCount.toNat := by
    unfold OreImageHeader.textOff
    bv_omega
  have hdataOff : hdr.dataOff.toNat = hdr.textOff.toNat + hdr.textSize.toNat := by
    unfold OreImageHeader.dataOff
    bv_omega
  have hsum : (hdr.dataOff + hdr.dataSize).toNat = hdr.dataOff.toNat + hdr.dataSize.toNat := by
    bv_omega
  bv_omega

/-- A header with nothing behind it is no image. -/
theorem LoadCall.load_refused (root a1 a3 : Word) {p : Prepared} (hsize : p.size = 56) (s : Machine) :
    (LoadCall.execImage a1 56 a3).load root p s = (.ok (.error (-oreEinval)), s) := by
  rw [LoadCall.load, hsize, loadOreImageIntoProcess, if_neg (not_accepted_header _)]
  rfl

/-- There is a process whose stack is mapped: EXEC_IMAGE of 56 bytes of it passes the checks, and
there is a frame for a new root. -/
theorem exists_stackImage :
    ∃ (g : Frame) (users : Frame → Prop) (s₀ s : Machine) (p : Prepared),
      FreshProcess bootRoot users g s₀ ∧ mapStack g true (-oreEnomem) (-oreEinval) s₀ = (.ok 0, s) ∧
      (LoadCall.execImage (stackTop - 4096) 56 0).prepare heapOnly g s = .ok p ∧ p.size = 56 ∧
      ∃ page s', vmmCreateUserPml4 bootRoot s = (.ok page, s') := by
  have hboot : Good bootRoot (bootMachine 4096 64) := good_boot (by decide) (by decide) (by decide)
  obtain ⟨g, s₀, hfresh, hpool, -, -⟩ := exists_freshProcess hboot (by decide)
  have hlen := congrArg List.length hpool
  rw [length_boot, List.length_cons] at hlen
  have hstack : Outcome (mapStack g true (-oreEnomem) (-oreEinval)) s₀ _ _ :=
    mapStack_shows hfresh.shows (by decide)
  obtain ⟨s, hstack, hshows, hframes⟩ := hstack.answers fun s' hb => by have := hb.2; omega
  have hload := hshows.loading
  -- the last page of the stack is mapped
  have hmapped : ∀ i : Nat, i < 4096 →
      vmmVirtToPhys g s (stackTop - 4096 + BitVec.ofNat 64 i) ≠ 0 := by
    intro i hi
    have hpage : pageOf (stackTop - 4096 + BitVec.ofNat 64 i) =
        pageOf (roundAddr (stackTop - 8 * 4096) 7) := by
      unfold pageOf roundAddr stackTop
      bv_omega
    obtain ⟨phys, hrun, hzero, -⟩ :=
      hload.translates ((private_congr hpage).mpr (topPages_stack 7 (by decide)))
    rw [vmmVirtToPhys, hrun]
    exact fun h0 => hzero.mp h0 ((Space.mapped_maps _).mpr (.inl (mem_rounds.mpr ⟨7, by decide, hpage⟩)))
  have hrange : userRangeOk g s (stackTop - 4096) 56 = true := by
    have hfirst := hmapped 0 (by decide)
    have hlast := hmapped 55 (by decide)
    rw [userRangeOk, if_neg (by decide), if_neg (by decide)]
    simp only [Bool.and_eq_true]
    refine ⟨by simpa using hfirst, ?_⟩
    rw [show stackTop - 4096 + 56 - 1 = stackTop - 4096 + BitVec.ofNat 64 55 by decide]
    simpa using hlast
  have hprep : ∃ p, (LoadCall.execImage (stackTop - 4096) 56 0).prepare heapOnly g s = .ok p ∧
      p.size = 56 := by
    rw [LoadCall.prepare, prepareExecImage, if_neg (by rw [hrange]; decide), copyFromUser,
      if_neg (by decide), if_neg (by rw [hrange]; decide)]
    exact ⟨_, rfl, rfl⟩
  obtain ⟨p, hprep, hsize⟩ := hprep
  obtain ⟨page, pool, hcons⟩ : ∃ page pool, s.pool = page :: pool :=
    List.exists_cons_of_length_pos (by omega)
  obtain ⟨s', hcreate, -⟩ := hload.owner.isolated.kernel.vmmCreateUserPml4 hcons
  exact ⟨g, _, s₀, s, p, hfresh, hstack, hprep, hsize, page, s', hcreate⟩

section Failure

variable {services : Services} {kernelPml4 : Word} {t : ProcTable} {ctx : UserCtx}
  {call : LoadCall} {s s' : Machine} {r : Reply}

/-! ## After a failure -/

/-- The table has the processes it had, and none of them became READY. -/
def TableAsBefore (t t' : ProcTable) : Prop :=
  t'.count = t.count ∧
    ∀ i < t'.count, (t'.procs i).state = .ready → i < t.count ∧ (t.procs i).state = .ready

/-- The checks before `process_create_user` pass: the caller's strings are
readable and end in time; for SPAWN there is a file of 1 to 512 KiB, it fits
the heap and is read whole; for EXEC_IMAGE the 56 bytes to 1 MiB given are
mapped and fit the heap. -/
def LoadCall.Checked (services : Services) (cr3 : Word) (s : Machine) (call : LoadCall) : Prop :=
  ∃ p, call.prepare services cr3 s = .ok p

theorem LoadCall.count_finish {name args : List Byte} {pml4 : Word} {child : Nat} {u : ProcTable}
    (hu : processCreateUser t name pml4 = some (child, u)) (loaded : Except Word LoadedImage) :
    (call.finish u ctx child args loaded).table.count = t.count + 1 := by
  obtain ⟨rfl, hcr⟩ := processCreateUser_cases hu
  rw [← hcr.count]
  cases loaded with
  | error err => cases call <;> rfl
  | ok l =>
    cases call with
    | spawn =>
      simp only [finish, Syscall.spawnChild]
      split <;> rfl
    | execImage => rfl

/-- A call that returns an error leaves the table as before exactly when a
check before the creation turned it down or the table was full. -/
theorem failed_load_keeps_table_iff (services : Services) (kernelPml4 : Word) (t : ProcTable)
    (ctx : UserCtx) (call : LoadCall) {s s' : Machine} {r : Reply}
    (h : call.run services kernelPml4 (countSyscall t) ctx s = (.ok r, s')) :
    r.ret.toInt < 0 →
      (TableAsBefore t r.table ↔ ¬ (call.Checked services t.cr3 s ∧ t.count < maxProcesses)) := by
  intro _
  have hsame : TableAsBefore t (countSyscall t) := by
    refine ⟨rfl, fun i hi hready => ⟨hi, ?_⟩⟩
    rw [countSyscall] at hready
    by_cases hcur : i = t.current
    · subst hcur
      simpa using hready
    · rwa [ProcTable.modify_of_ne _ _ hcur] at hready
  rcases call.run_cases h with ⟨err, hprep, rfl⟩ | ⟨p, hprep, hend⟩
  · refine iff_of_true hsame ?_
    rintro ⟨⟨p, hp⟩, -⟩
    cases hprep.symm.trans hp
  · rcases hend with ⟨hfull, rfl⟩ | ⟨hfree, pml4, child, u, loaded, hu, rfl⟩
    · exact iff_of_true hsame fun hno => absurd hno.2 (Nat.not_lt.mpr hfull)
    · refine iff_of_false (fun hkeep => ?_) (not_not.mpr ⟨⟨p, hprep⟩, hfree⟩)
      have hcount := hkeep.1
      rw [LoadCall.count_finish hu loaded] at hcount
      exact absurd hcount (Nat.succ_ne_self t.count)

end Failure

/-- EXEC_IMAGE of 56 bytes of the caller's stack, which are copied, with no slot left for a
process. -/
theorem failed_load_keeps_table_full :
    ∃ (g : Frame) (s : Machine) (r : Reply),
      (LoadCall.execImage (stackTop - 4096) 56 0).Checked heapOnly g s ∧
      (LoadCall.execImage (stackTop - 4096) 56 0).run heapOnly bootRoot
        (countSyscall (fullTable g)) {} s = (.ok r, s) ∧
      TableAsBefore (fullTable g) r.table := by
  obtain ⟨g, _, _, s, p, -, -, hprep, -, -⟩ := exists_stackImage
  have hrun : (LoadCall.execImage (stackTop - 4096) 56 0).run heapOnly bootRoot
      (countSyscall (fullTable g)) {} s =
        (.ok { table := countSyscall (fullTable g), ret := enomem }, s) := by
    rw [LoadCall.run, Exec.bind_ok (Exec.get_apply s), show (countSyscall (fullTable g)).cr3 = g from
      rfl, hprep]
    rfl
  refine ⟨g, s, _, ⟨p, hprep⟩, hrun, ?_⟩
  exact (failed_load_keeps_table_iff heapOnly bootRoot (fullTable g) {} _ hrun
    (show enomem.toInt < 0 by decide)).mpr fun hno => absurd hno.2 (Nat.lt_irrefl maxProcesses)

/-! ## Runs -/

theorem kernelStep_load {services : Services} {kernelPml4 : Word} {t : ProcTable} {ctx : UserCtx}
    {call : LoadCall} {s s' : Machine} {r : Reply}
    (h : call.run services kernelPml4 (countSyscall t) ctx s = (.ok r, s')) :
    kernelStep kernelPml4 t (.load ctx call services s) = some r.table := by
  rw [kernelStep, h]

theorem kernelStep_refines {kernelPml4 : Word} {t t' : ProcTable} {e : KernelEvent}
    (h : kernelStep kernelPml4 t e = some t') : ∃ e', step t e' = some t' := by
  cases e with
  | load ctx call services memory =>
    dsimp only [kernelStep] at h
    split at h
    next hrun =>
      cases h
      obtain ⟨image, hdispatch⟩ := LoadCall.dispatch_run hrun
      refine ⟨.call ctx (call.request image), ?_⟩
      rw [step, stepCtx, hdispatch]
      rfl
    next => cases h
  | tick | exit | yield | wait => exact ⟨_, h⟩

/-- The board `b'` is reached from `b` by moves. -/
def Board.Leads : Board → Board → Prop :=
  Relation.ReflTransGen fun b b' => ∃ returns, Board.Move returns b b'

/-- On the board, every run of the kernel is a sequence of moves. -/
theorem run_refines_board {kernelPml4 pml4 : Word} {path : List Byte} {image : LoadedImage}
    {ok : ProcTable → KernelEvent → Prop} {t : ProcTable}
    (hrun : Run (kernelStep kernelPml4) ok (userInitSpawn kernelPml4 pml4 path image) t) :
    (userInitSpawn kernelPml4 pml4 path image).board.Leads t.board ∧ t.board.Inv := by
  have hinit := inv_userInitSpawn kernelPml4 pml4 path image
  generalize userInitSpawn kernelPml4 pml4 path image = s at hinit hrun
  refine hrun.invariant (P := fun u : ProcTable => s.board.Leads u.board ∧ u.board.Inv) ?_ ?_
  · exact ⟨.refl, hinit⟩
  · rintro u e v ⟨hleads, hu⟩ - hstep
    obtain ⟨e', hs⟩ := kernelStep_refines hstep
    obtain ⟨b, h1, h2⟩ := step_moves hu hs
    exact ⟨(hleads.tail ⟨_, h1⟩).tail ⟨_, h2⟩, inv_step hu hs⟩

/-- The first process makes one with EXEC_IMAGE and yields to it. -/
theorem run_refines_board_exec :
    ∃ (g : Frame) (t : ProcTable), t.count = 3 ∧ t.current = 2 ∧
      (initTable bootRoot g).board.Leads t.board := by
  obtain ⟨g, _, _, s, p, -, -, hprep, hsize, page, s', hcreate⟩ := exists_stackImage
  have hexec : (LoadCall.execImage (stackTop - 4096) 56 0).run heapOnly bootRoot
      (countSyscall (initTable bootRoot g)) {} s = _ :=
    LoadCall.run_created hprep (Exec.bind_ok hcreate) (LoadCall.load_refused _ _ _ hsize s')
  have hload := kernelStep_load hexec
  exact ⟨g, _, rfl, rfl, (@run_refines_board _ _ _ _ (fun _ _ => True) _
    (.snoc (.snoc .refl trivial hload) trivial
      (show kernelStep bootRoot _ (.yield {}) = some _ from rfl))).1⟩

/-- EXEC_IMAGE of 56 bytes of the caller's stack: there is room for the process
and not for an image. The scheduler would enter the process next. -/
theorem failed_exec_leaves_process :
    ∃ (k g : Frame) (users : Frame → Prop) (s₀ s s' : Machine) (r : Reply),
      FreshProcess k users g s₀ ∧ mapStack g true (-oreEnomem) (-oreEinval) s₀ = (.ok 0, s) ∧
      (LoadCall.execImage (stackTop - 4096) 56 0).run heapOnly k (countSyscall (initTable k g)) {} s =
        (.ok r, s') ∧
      r.ret.toInt < 0 ∧ ¬ TableAsBefore (initTable k g) r.table ∧
      Syscall.nextReadyProcess r.table 1 = some 2 := by
  obtain ⟨g, users, s₀, s, p, hfresh, hstack, hprep, hsize, page, s', hcreate⟩ := exists_stackImage
  refine ⟨bootRoot, g, users, s₀, s, s', _, hfresh, hstack,
    LoadCall.run_created hprep (Exec.bind_ok hcreate) (LoadCall.load_refused _ _ _ hsize s'),
    show (BitVec.ofInt 64 (-oreEinval)).toInt < 0 by decide, ?_, rfl⟩
  exact fun hsame => absurd (show 3 = 2 from hsame.1) (by decide)

end OreOS.Kernel
