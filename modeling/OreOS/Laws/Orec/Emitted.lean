import OreOS.Laws.Orec.Program

/-!
# System calls of kernel modules (`user/orec.c`)

What can be in the log of a run follows from what the emitters log
(`plain_of_events`). A kernel module has no system calls as far as its
statements go. What is left is the end of a function of the name `main`, which
the kernel target allows and which leaves through the system call on both
targets.
-/

namespace OreOS.Orec

open OreOS.Lib (Exec)

/-! ## Events -/

/-- What can be logged for a target: system calls in `main` only, and what a
pointer points to in unsafe code only, if it is the kernel's. -/
def Emittable (kmod : Bool) (g : Globals) : Event → Prop
  | .syscall => kmod = false ∨ inMain g = true
  | .access a => a.place = .pointee → kmod = true → a.isUnsafe = true
  | _ => True

/-- A property of the function that is compiled, and of every event that can be
logged in it. -/
theorem plain_of_events {kmod : Bool} {J : Globals → Prop} {E : Event → Prop}
    (hJ : ∀ g g', g'.funcs = g.funcs → g'.currentFunc = g.currentFunc → J g → J g')
    (hE : ∀ g e, J g → Emittable kmod g e → E e) :
    Plain kmod fun g => g.kmodTarget = kmod ∧ J g ∧ ∀ e ∈ g.log, E e := by
  -- everything an emitter does is to log one event or none
  have hsame : ∀ {g g' : Globals}, Extends g g' → g'.log = g.log →
      (g.kmodTarget = kmod ∧ J g ∧ ∀ e ∈ g.log, E e) →
      g'.kmodTarget = kmod ∧ J g' ∧ ∀ e ∈ g'.log, E e := fun hext hlog hg =>
    ⟨hext.target.trans hg.1, hJ _ _ hext.funcs hext.current hg.2.1, by rw [hlog]; exact hg.2.2⟩
  have hone : ∀ {g g' : Globals} {e : Event}, Extends g g' → g'.log = g.log ++ [e] →
      Emittable kmod g e → (g.kmodTarget = kmod ∧ J g ∧ ∀ e ∈ g.log, E e) →
      g'.kmodTarget = kmod ∧ J g' ∧ ∀ e ∈ g'.log, E e := by
    intro g g' e hext hlog he hg
    refine ⟨hext.target.trans hg.1, hJ _ _ hext.funcs hext.current hg.2.1, fun e' hmem => ?_⟩
    rw [hlog] at hmem
    rcases List.mem_append.mp hmem with hmem | hmem
    · exact hg.2.2 e' hmem
    · rw [List.mem_singleton.mp hmem]
      exact hE g e hg.2.1 he
  exact
    { target := fun g hg => hg.1
      puts := fun s g hg => ⟨hg.1, hJ g _ rfl rfl hg.2.1, hg.2.2⟩
      emit8 := fun b g hg => hsame (extends_emit8 b g) (by rw [emit8_eq]; rfl) hg
      call := fun fn g hg => by
        have hext := extends_emitCall fn g
        rw [emitCall_eq] at hext ⊢
        exact hone hext rfl trivial hg
      addData := fun bytes g hg => hone (extends_addData bytes g) rfl trivial hg
      leaData := fun opcode off g hg _ => by
        have hext := extends_emitLeaData opcode off g
        obtain ⟨out, hrun⟩ := emitLeaData_eq opcode off g
        rw [hrun] at hext ⊢
        exact hone hext rfl trivial hg
      syscall := fun g hg hwhere => hone (extends_note .syscall g) rfl hwhere hg
      access := fun g a hg ha hplace =>
        hone (extends_note (.access a) g) rfl (fun hp hk => ha.trans (hplace hp hk)) hg
      hole := fun g hg => by
        have hext := extends_emitHole .hole g
        rw [emitHole_eq] at hext ⊢
        exact hone hext rfl trivial hg
      addVar := fun name t g hg => by
        refine hsame (extends_addVarType name t g) ?_ hg
        change ((if g.vars.length ≥ maxVars then _ else _ : Compile (Option Var)) g).2.log = _
        split <;> rfl
      blind := fun g text loops isUnsafe hg => ⟨hg.1, hJ g _ rfl rfl hg.2.1, hg.2.2⟩ }

/-! ## Runs that answer -/

/-- What every function keeps: the target, and the holes of breaks. -/
theorem stable_target (kmod : Bool) :
    StableStmt kmod fun g => g.kmodTarget = kmod ∧ BreaksLogged g g.loops := by
  have hplain : Plain kmod fun g => g.kmodTarget = kmod ∧ True ∧ ∀ e ∈ g.log, True :=
    plain_of_events (fun _ _ _ _ _ => trivial) fun _ _ _ _ => trivial
  have heq : (fun g : Globals => (g.kmodTarget = kmod ∧ True ∧ ∀ e ∈ g.log, True) ∧
      BreaksLogged g g.loops) = fun g => g.kmodTarget = kmod ∧ BreaksLogged g g.loops :=
    funext fun g => propext (by simp)
  have h := hplain.stableStmt
  rwa [heq] at h

/-- What is in the log after one of the functions is there at the end. -/
theorem compileFunctions_logs {kmod : Bool} {n index : Nat} {fns : List Function} {g g' : Globals}
    {fn : Function} {e : Event} (hrun : compileFunctions n index fns g = (.ok (), g'))
    (hmem : fn ∈ fns) (hdef : fn.isExtern = false)
    (hone : ∀ index g g', compileFunction n index fn g = (.ok (), g') → e ∈ g'.log)
    (hlen : index + fns.length ≤ g.funcs.length)
    (hg : g.kmodTarget = kmod ∧ BreaksLogged g g.loops) : e ∈ g'.log := by
  induction fns generalizing index g with
  | nil => exact absurd hmem List.not_mem_nil
  | cons f fns ih =>
    rw [List.length_cons] at hlen
    change (if f.isExtern then _ else _ : Compile Unit) g = _ at hrun
    split at hrun
    next himported =>
      rcases List.mem_cons.mp hmem with rfl | hmem
      · rw [himported] at hdef
        cases hdef
      · exact ih hrun hmem (by omega) hg
    next =>
      obtain ⟨_, g₁, hf, hrest⟩ := Exec.bind_eq_ok hrun
      have hlength : StableStmt kmod fun g' =>
          (g'.kmodTarget = kmod ∧ BreaksLogged g' g'.loops) ∧ g'.funcs.length = g.funcs.length :=
        (stable_target kmod).within fun _ _ hfuncs _ hl => by rw [hfuncs, hl]
      have h₁ := hlength.compileFunction (show index < g.funcs.length by omega)
        ⟨hg, List.length_set⟩ hf
      have hlen₁ : index + 1 + fns.length ≤ g₁.funcs.length := by bv_omega
      rcases List.mem_cons.mp hmem with rfl | hmem
      · exact (((stable_target kmod).logged e).compileFunctions (fun _ _ _ _ _ hg => hg)
          (fun _ hg => hg) hlen₁ ⟨h₁.1, hone index g g₁ hf⟩ hrest).2
      · exact ih hrest hmem hlen₁ h₁.1

/-- `main` ends with a system call. -/
theorem compileFunction_main_logs {n index : Nat} {fn : Function} {g g' : Globals}
    (hmain : fn.name = mainName) (hrun : compileFunction n index fn g = (.ok (), g')) :
    Event.syscall ∈ g'.log := by
  obtain ⟨_, _, _, hrun⟩ := Exec.bind_eq_ok hrun
  obtain ⟨framePatch, _, _, hrun⟩ := Exec.bind_eq_ok hrun
  obtain ⟨_, _, _, hrun⟩ := Exec.bind_eq_ok hrun
  obtain ⟨_, _, _, hrun⟩ := Exec.bind_eq_ok hrun
  obtain ⟨_, g₄, hend, hrun⟩ := Exec.bind_eq_ok hrun
  have hlog : Event.syscall ∈ g₄.log := by
    rw [emitFunctionEnd, if_pos hmain, emitExitConst, Exec.bind_ok (emit_eq _ _),
      emitSyscall, Exec.bind_ok (note_eq _ _), emit_eq] at hend
    cases hend
    exact List.mem_append_right _ (List.mem_singleton_self _)
  cases hrun
  exact hlog

/-- The functions of a kernel module are compiled from the start of the text. -/
theorem compileSource_kmod {n : Nat} {p : Source} {g₀ g : Globals} (hkmod : g₀.kmodTarget = true)
    (h : compileSource n p g₀ = (.ok (), g)) :
    ∃ g₂ g₃, Fresh true g₂ ∧ g₂.funcs = declared n p g₀ ∧
      compileFunctions n 0 g₂.funcs g₂ = (.ok (), g₃) ∧ g.log = g₃.log := by
  obtain ⟨g₁, g₂, g₃, g₄, hscan, hvalid, hfuncs, hstub, hcalls⟩ := compileSource_ok h
  obtain ⟨hfresh, hdecl⟩ := fresh_of_scan hscan hvalid
  rw [hkmod] at hfresh
  refine ⟨g₂, g₃, hfresh, hdecl, ?_, ?_⟩
  · have hstart : startStub g₂ = (.ok (), g₂) := by
      change (if g₂.kmodTarget then _ else _ : Compile Unit) g₂ = _
      rw [hfresh.target]
      rfl
    rw [← hfuncs, Exec.bind_ok hstart]
    rfl
  · obtain ⟨text, rfl⟩ := patchStub_ok hstub
    obtain ⟨text', rfl⟩ := patchCalls_ok hcalls
    rfl

/-! ## System calls -/

theorem inMain_beginFunction_of_ne {index : Nat} {fn : Function} {g : Globals}
    (hname : fn.name ≠ mainName) : inMain (beginFunction index fn g) = false := by
  by_cases hindex : index < g.funcs.length
  · rw [StableStmt.inMain_beginFunction hindex, decide_eq_false hname]
  · simp [inMain, beginFunction, hindex]

/-- A function that is not `main` adds no system call to a kernel module. -/
theorem stable_no_syscall : StableStmt true fun g =>
    (g.kmodTarget = true ∧ inMain g = false ∧ ∀ e ∈ g.log, e ≠ Event.syscall) ∧
      BreaksLogged g g.loops := by
  refine (plain_of_events (fun g g' hfuncs hcurrent hmain => ?_) fun g e hmain he => ?_).stableStmt
  · rw [← hmain, inMain, inMain, hfuncs, hcurrent]
  · rintro rfl
    rcases he with hk | hm
    · cases hk
    · rw [hmain] at hm
      cases hm

/-- A module of the kernel target that compiles has a system call in its text
exactly when it defines a function `main`. -/
theorem kmod_syscall_iff {n : Nat} {p : Source} {g₀ g : Globals} (hkmod : g₀.kmodTarget = true)
    (h : compileSource n p g₀ = (.ok (), g)) :
    Event.syscall ∉ g.log ↔ ∀ f ∈ declared n p g₀, f.name = mainName → f.isExtern = true := by
  obtain ⟨g₂, g₃, hfresh, hdecl, hrun, hlog⟩ := compileSource_kmod hkmod h
  have hlen : 0 + g₂.funcs.length ≤ g₂.funcs.length := Nat.le_of_eq (Nat.zero_add _)
  rw [hlog, ← hdecl]
  constructor
  · intro hno f hf hname
    by_contra hdef
    exact hno (compileFunctions_logs hrun hf (Bool.eq_false_iff.mpr hdef)
      (fun _ _ _ hone => compileFunction_main_logs hname hone) hlen ⟨hfresh.target, hfresh.breaksLogged⟩)
  · intro hmain hmem
    refine (stable_no_syscall.compileFunctions
      (P := fun g => g.kmodTarget = true ∧ (∀ e ∈ g.log, e ≠ Event.syscall) ∧
        BreaksLogged g g.loops)
      (fun index fn g hfn hdef hg => ⟨⟨hg.1, ?_, hg.2.1⟩, hg.2.2⟩)
      (fun g hg => ⟨hg.1.1, hg.1.2.2, hg.2⟩) hlen ⟨hfresh.target, fun e he =>
        absurd he (hfresh.not_mem_log e), hfresh.breaksLogged⟩ hrun).2.1 _ hmem rfl
    refine inMain_beginFunction_of_ne fun hname => ?_
    rw [hmain fn hfn hname] at hdef
    cases hdef

/-- A kernel module with its entry and nothing else. -/
def plainModule : Source :=
  "fn module_init(api: ptr<u8>) -> int \x7b return 0; \x7d".toList

theorem kmod_syscall_plainModule :
    Event.syscall ∉ (compileSource 60 plainModule { kmodTarget := true }).2.log :=
  (kmod_syscall_iff rfl (compileSource_of_ok (by decide +kernel))).mpr (by decide +kernel)

/-- A kernel module with a `main` beside its entry. -/
def moduleWithMain : Source :=
  plainModule ++ "fn main() -> int \x7b return 0; \x7d".toList

/-- It compiles, and `main` leaves through the system call `0F 05`. -/
theorem kmod_main_emits_syscall :
    (compileSource 100 moduleWithMain { kmodTarget := true }).1 = .ok () ∧
      Event.syscall ∈ (compileSource 100 moduleWithMain { kmodTarget := true }).2.log ∧
      (compileSource 100 moduleWithMain { kmodTarget := true }).2.text 110 = 0x0F ∧
      (compileSource 100 moduleWithMain { kmodTarget := true }).2.text 111 = 0x05 := by
  decide +kernel

end OreOS.Orec
