import OreOS.Laws.Orec.Emission
import OreOS.Orec.Syntax

/-!
# What generation keeps (`user/orec.c`)

Everything the compiler does to its globals goes through a few emitters and
table operations. A property that each of them keeps is kept by the code of every
expression, statement and block, however its generation ends. This is proved here
once, by induction on the trees; each invariant is then a question about the
emitters (`Stable` for expressions, `StableStmt` for statements).
-/

namespace OreOS.Orec

open OreOS.Lib (Byte Word Exec)
open OreOS.Lib.Exec (Keeps)

/-! ## What the emitters leave alone -/

/-- What comes later in one function: its log and its text go on from what they were, and
some of the globals are as they were. -/
structure Extends (g g' : Globals) : Prop where
  target : g'.kmodTarget = g.kmodTarget
  flag : g'.functionUnsafe = g.functionUnsafe
  funcs : g'.funcs = g.funcs
  current : g'.currentFunc = g.currentFunc
  loops : g'.loops = g.loops
  log : g.log <+: g'.log
  textLen : g.textLen ≤ g'.textLen
  text : ∀ i < g.textLen, g'.text i = g.text i

theorem Extends.refl (g : Globals) : Extends g g :=
  ⟨rfl, rfl, rfl, rfl, rfl, List.prefix_rfl, Nat.le_refl _, fun _ _ => rfl⟩

theorem Extends.trans {g g₁ g₂ : Globals} (h : Extends g g₁) (h' : Extends g₁ g₂) :
    Extends g g₂ :=
  ⟨h'.target.trans h.target, h'.flag.trans h.flag, h'.funcs.trans h.funcs,
    h'.current.trans h.current, h'.loops.trans h.loops, h.log.trans h'.log,
    h.textLen.trans h'.textLen,
    fun i hi => (h'.text i (Nat.lt_of_lt_of_le hi h.textLen)).trans (h.text i hi)⟩

theorem Extends.mem {g g' : Globals} (h : Extends g g') {e : Event} (he : e ∈ g.log) :
    e ∈ g'.log :=
  h.log.mem he

/-- Bytes go behind the text. -/
theorem extends_append (g : Globals) (bs : List Byte) : Extends g (g.append bs) :=
  ⟨rfl, rfl, rfl, rfl, rfl, List.prefix_rfl, Nat.le_add_right _ _, fun _ => OreOS.Lib.Buf.put_below⟩

theorem extends_note (e : Event) (g : Globals) : Extends g (note e g).2 :=
  ⟨rfl, rfl, rfl, rfl, rfl, List.prefix_append _ _, Nat.le_refl _, fun _ _ => rfl⟩

theorem extends_puts (s : String) (g : Globals) : Extends g (puts s g).2 :=
  ⟨rfl, rfl, rfl, rfl, rfl, List.prefix_rfl, Nat.le_refl _, fun _ _ => rfl⟩

theorem extends_emit (bs : List Byte) (g : Globals) : Extends g (emit bs g).2 := by
  rw [emit_eq]
  exact extends_append g bs

theorem extends_emit8 (b : Byte) (g : Globals) : Extends g (emit8 b g).2 := by
  rw [emit8_eq]
  exact extends_append g [b]

theorem extends_emitHole (e : Nat → Event) (g : Globals) : Extends g (emitHole e g).2 := by
  rw [emitHole_eq]
  exact (extends_append g _).trans (extends_note _ _)

theorem extends_addDataRef (patch dataOff : Nat) (g : Globals) :
    Extends g (addDataRef patch dataOff g).2 := by
  change Extends g ((if g.dataRefs.length ≥ maxDataRefs then _ else _ : Compile Unit) g).2
  split
  · exact extends_puts _ g
  · exact ⟨rfl, rfl, rfl, rfl, rfl, List.prefix_rfl, Nat.le_refl _, fun _ _ => rfl⟩

/-- One after the other. -/
theorem extends_bind {α β : Type} {x : Compile α} {f : α → Compile β} {g : Globals}
    (hx : Extends g (x g).2) (hf : ∀ a g, Extends g (f a g).2) : Extends g ((x >>= f) g).2 :=
  Exec.after_bind hx fun a g' h => h.trans (hf a g')

theorem extends_emitCall (fn : Nat) (g : Globals) : Extends g (emitCall fn g).2 :=
  extends_bind (extends_emit _ g) fun _ g => extends_bind (extends_emitHole _ g) fun _ _ =>
    ⟨rfl, rfl, rfl, rfl, rfl, List.prefix_rfl, Nat.le_refl _, fun _ _ => rfl⟩

theorem extends_emitLeaData (opcode : List Byte) (dataOff : Nat) (g : Globals) :
    Extends g (emitLeaData opcode dataOff g).2 :=
  extends_bind (extends_emit _ g) fun _ g => extends_bind (extends_emitHole _ g) fun patch g =>
    extends_addDataRef patch dataOff g

theorem extends_emitAccess (place : Place) (t : Ty) (store : Bool) (g : Globals) :
    Extends g (emitAccess place t store g).2 :=
  extends_bind (Extends.refl g) fun _ g => extends_bind (extends_note _ g) fun _ g => extends_emit _ g

theorem extends_addVarType (name : Name) (t : Ty) (g : Globals) :
    Extends g (addVarType name t g).2 := by
  change Extends g ((if g.vars.length ≥ maxVars then _ else _ : Compile (Option Var)) g).2
  split
  · exact Extends.refl g
  · exact ⟨rfl, rfl, rfl, rfl, rfl, List.prefix_rfl, Nat.le_refl _, fun _ _ => rfl⟩

theorem extends_addData (bytes : List Byte) (g : Globals) : Extends g (addData bytes g).2 :=
  ⟨rfl, rfl, rfl, rfl, rfl, List.prefix_append _ _, Nat.le_refl _, fun _ _ => rfl⟩

theorem addData_run (bytes : List Byte) (g : Globals) :
    addData bytes g = (.ok g.dataLen, (addData bytes g).2) :=
  rfl

theorem addData_logs (bytes : List Byte) (g : Globals) :
    ∃ bytes', Event.literal g.dataLen bytes' ∈ (addData bytes g).2.log :=
  ⟨bytes, List.mem_append_right _ (List.mem_singleton_self _)⟩

/-! ## Expressions -/

/-- A property that is kept by what all code is emitted with: bytes, calls, literals and, where
they may stand, system calls. -/
structure Emits (kmod : Bool) (I : Globals → Prop) : Prop where
  target : ∀ g, I g → g.kmodTarget = kmod
  puts : ∀ s, Keeps I (puts s)
  emit8 : ∀ b, Keeps I (emit8 b)
  call : ∀ fn, Keeps I (emitCall fn)
  addData : ∀ bytes, Keeps I (addData bytes)
  leaData : ∀ opcode off g, I g → (∃ bytes, Event.literal off bytes ∈ g.log) →
    I (emitLeaData opcode off g).2
  syscall : ∀ g, I g → kmod = false ∨ inMain g = true → I (note .syscall g).2

/-- Emitters only extend what there is, so they also keep what is kept by extension. -/
theorem Emits.and {kmod : Bool} {I J : Globals → Prop} (h : Emits kmod I)
    (hJ : ∀ {g g' : Globals}, Extends g g' → J g → J g') : Emits kmod fun g => I g ∧ J g where
  target g hg := h.target g hg.1
  puts s g hg := ⟨h.puts s g hg.1, hJ (extends_puts s g) hg.2⟩
  emit8 b g hg := ⟨h.emit8 b g hg.1, hJ (extends_emit8 b g) hg.2⟩
  call fn g hg := ⟨h.call fn g hg.1, hJ (extends_emitCall fn g) hg.2⟩
  addData bytes g hg := ⟨h.addData bytes g hg.1, hJ (extends_addData bytes g) hg.2⟩
  leaData opcode off g hg hlit :=
    ⟨h.leaData opcode off g hg.1 hlit, hJ (extends_emitLeaData opcode off g) hg.2⟩
  syscall g hg hwhere := ⟨h.syscall g hg.1 hwhere, hJ (extends_note _ g) hg.2⟩

namespace Emits

variable {kmod : Bool} {I : Globals → Prop} (h : Emits kmod I)
include h

theorem emit (bs : List Byte) : Keeps I (emit bs) := by
  induction bs with
  | nil => exact .pure ()
  | cons b bs ih => exact (h.emit8 b).bind fun _ => ih

/-- A system call where it may stand. -/
theorem emitSyscall {g : Globals} (hg : I g) (hwhere : kmod = false ∨ inMain g = true) :
    I (emitSyscall g).2 :=
  Exec.after_bind (h.syscall g hg hwhere) fun _ => h.emit _

/-- Code before a system call leaves the function that is compiled alone. -/
theorem emit_emitSyscall {bs : List Byte} {g : Globals} (hg : I g)
    (hwhere : kmod = false ∨ inMain g = true) :
    I ((do Orec.emit bs; Orec.emitSyscall : Compile Unit) g).2 := by
  have hkept := h.emit bs g hg
  rw [emit_eq] at hkept
  rw [Exec.bind_ok (emit_eq bs g)]
  exact h.emitSyscall hkept hwhere

end Emits

/-- A property that the emitters of expressions keep, for one target and one
setting of `current_function_unsafe`. Expressions load and never store. -/
structure Stable (kmod isUnsafe : Bool) (I : Globals → Prop) : Prop extends Emits kmod I where
  flag : ∀ g, I g → g.functionUnsafe = isUnsafe
  load : ∀ g a, I g → a.store = false → a.isUnsafe = isUnsafe →
    (a.place = .pointee → kmod = true → isUnsafe = true) → I (note (.access a) g).2

section Expressions

variable {kmod isUnsafe : Bool} {I : Globals → Prop} {α β : Type}

theorem rejectIf_of {p : Prop} [Decidable p] (hp : p) (message : String) (g : Globals) :
    rejectIf p message g = (.error .rejected, (puts message g).2) := by
  rw [rejectIf, if_pos hp]
  rfl

theorem rejectIf_of_not {p : Prop} [Decidable p] (hp : ¬ p) (message : String) (g : Globals) :
    rejectIf p message g = (.ok (), g) := by
  rw [rejectIf, if_neg hp]
  rfl

theorem keeps_textPos : Keeps I textPos :=
  fun _ hg => hg

theorem keeps_genType (t : TypeExpr) : Keeps I (genType t) := by
  refine .get_bind fun g hg => ?_
  cases t.ty g.structs with
  | none => exact hg
  | some t => exact hg

theorem keeps_genField (t : Ty) (field : Name) : Keeps I (genField t field) := by
  refine .ite (fun _ => .throw _) fun _ => .get_bind fun g hg => ?_
  cases findField g.structs[t.struc.toNat]? field with
  | none => exact hg
  | some f => exact hg

section

variable (hputs : ∀ s, Keeps I (puts s))
include hputs

theorem keeps_reject (message : String) : Keeps I (reject message : Compile α) :=
  (hputs message).bind fun _ => .throw _

theorem keeps_rejectName (message : String) (name : Name) :
    Keeps I (rejectName message name : Compile α) :=
  keeps_reject hputs _

theorem keeps_rejectIf (p : Prop) [Decidable p] (message : String) : Keeps I (rejectIf p message) :=
  Keeps.ite (fun _ => keeps_reject hputs message) fun _ => .pure ()

theorem keeps_lookupVar (name : Name) : Keeps I (lookupVar name) := by
  refine .get_bind fun g hg => ?_
  cases findVar name g.vars with
  | none => exact keeps_rejectName hputs _ _ g hg
  | some v => exact hg

end

namespace Stable

variable (h : Stable kmod isUnsafe I)
include h

/-- A load through a pointer of a module needs `unsafe`; others do not. -/
theorem emitLoad {place : Place} (hplace : place = .pointee → kmod = true → isUnsafe = true)
    (t : Ty) : Keeps I (emitLoad place t) := by
  refine .get_bind fun g hg => ?_
  exact Exec.after_bind (h.load g _ hg rfl (h.flag g hg) hplace) fun _ => h.emit _

theorem emitLoad_var {place : Place} (hplace : place ≠ .pointee) (t : Ty) :
    Keeps I (Orec.emitLoad place t) :=
  h.emitLoad (fun hp => absurd hp hplace) t

theorem emitBuiltin (huser : kmod = false) (argc expected : Nat) (message : String)
    (code : List Byte) : Keeps I (emitBuiltin argc expected message code) :=
  (keeps_rejectIf h.puts _ _).bind fun _ _ hg => h.emit_emitSyscall hg (.inl huser)

/-- An extern function is a system call of the process. -/
theorem emitExternCall (huser : kmod = false) (name : Name) (argc : Nat) :
    Keeps I (emitExternCall name argc) := by
  have hbuiltin := h.emitBuiltin huser argc
  refine .ite (fun _ => hbuiltin _ _ _) fun _ => ?_
  refine .ite (fun _ => hbuiltin _ _ _) fun _ => ?_
  refine .ite (fun _ => hbuiltin _ _ _) fun _ => ?_
  refine .ite (fun _ => hbuiltin _ _ _) fun _ => ?_
  refine .ite (fun _ => hbuiltin _ _ _) fun _ => ?_
  exact .ite (fun _ => hbuiltin _ _ _) fun _ => keeps_rejectName h.puts _ _

/-- A call of an extern function, which only a process may have, or of a defined one. -/
theorem genCall (name : Name) (fnIndex : Nat) (fn : Function) (argc : Nat) :
    Keeps I (genCall name fnIndex fn argc) := by
  refine .ite (fun _ => .throw _) fun _ => .get_bind fun g hg => ?_
  split
  next => exact hg
  next hkmod =>
    refine Keeps.ite (fun himported => ?_) (fun _ => ?_) g hg
    · -- an `extern` call that got here is for the user target
      have huser : kmod = false := by
        rw [← h.target g hg]
        exact Bool.eq_false_iff.mpr fun htrue => hkmod ⟨htrue, himported⟩
      exact (h.emitExternCall huser name argc).bind fun _ => .pure _
    · exact (h.emit _).bind fun _ => (h.call fnIndex).bind fun _ => .pure _

/-- The bytes of a string are in the data before the code refers to them. -/
theorem genString (chars : Name) : Keeps I (genExpr (.string chars)) := by
  intro g hg
  have hadd := h.addData (asciiBytes (chars ++ [nul])) g hg
  rw [genExpr, Exec.bind_ok (addData_run _ g)]
  exact Exec.after_bind (h.leaData _ _ _ hadd (addData_logs _ g)) fun _ => .pure _

/-- Behind the check, a kernel module is in unsafe code. -/
theorem requireUnsafe_bind {message : String} {f : Unit → Compile α}
    (hf : (kmod = true → isUnsafe = true) → Keeps I (f ())) :
    Keeps I (requireUnsafe message >>= f) := by
  intro g hg
  by_cases hsafe : g.kmodTarget = true ∧ g.functionUnsafe = false
  · have hrun : requireUnsafe message g = _ := rejectIf_of hsafe message g
    rw [Exec.bind_error hrun]
    exact h.puts message g hg
  · have hrun : requireUnsafe message g = _ := rejectIf_of_not hsafe message g
    rw [Exec.bind_ok hrun]
    rw [h.target g hg, h.flag g hg] at hsafe
    exact hf (fun hk => (Bool.not_eq_false _).mp fun hu => hsafe ⟨hk, hu⟩) g hg

mutual

/-- Expressions keep what their emitters keep. -/
theorem genExpr : ∀ e : Expr, Keeps I (Orec.genExpr e)
  | .literal _ => (h.emit _).bind fun _ => .pure _
  | .string chars => h.genString chars
  | .sizeOf _ => (keeps_genType _).bind fun _ => (h.emit _).bind fun _ => .pure _
  | .alignOf _ => (keeps_genType _).bind fun _ => (h.emit _).bind fun _ => .pure _
  | .offsetOf _ _ => (keeps_genType _).bind fun _ => (keeps_genField _ _).bind fun _ =>
      (h.emit _).bind fun _ => .pure _
  | .call name args => by
    refine .get_bind fun g hg => ?_
    cases findFunc name g.funcs with
    | none => exact hg
    | some found => exact ((genArgs args).bind fun _ => h.genCall _ _ _ _) g hg
  | .var _ => (keeps_lookupVar h.puts _).bind fun _ =>
      (h.emitLoad_var (by simp) _).bind fun _ => .pure _
  | .element _ index => (keeps_lookupVar h.puts _).bind fun _ => (genExpr index).bind fun _ =>
      (h.emit _).bind fun _ => (h.emitLoad_var (by simp) _).bind fun _ => .pure _
  | .field _ _ => (keeps_lookupVar h.puts _).bind fun _ => (keeps_genField _ _).bind fun _ =>
      (h.emit _).bind fun _ => (h.emitLoad_var (by simp) _).bind fun _ => .pure _
  | .addressOf _ => (keeps_lookupVar h.puts _).bind fun _ => (h.emit _).bind fun _ => .pure _
  | .addressOfElement _ index => (keeps_lookupVar h.puts _).bind fun _ =>
      (genExpr index).bind fun _ => (h.emit _).bind fun _ => .pure _
  | .addressOfField _ _ => (keeps_lookupVar h.puts _).bind fun _ =>
      (keeps_genField _ _).bind fun _ => (h.emit _).bind fun _ => .pure _
  | .not e => (genExpr e).bind fun _ => (h.emit _).bind fun _ => .pure _
  | .compl e => (genExpr e).bind fun _ => (h.emit _).bind fun _ => .pure _
  | .neg e => (genExpr e).bind fun _ => (h.emit _).bind fun _ => .pure _
  | .deref e => h.requireUnsafe_bind fun hunsafety => (genExpr e).bind fun _ =>
      (h.emitLoad (fun _ => hunsafety) _).bind fun _ => .pure _
  | .binary _ lhs rhs => (genExpr lhs).bind fun _ => (h.emit _).bind fun _ =>
      (genExpr rhs).bind fun _ => (h.emit _).bind fun _ => .pure _

theorem genArgs : ∀ args : List Expr, Keeps I (Orec.genArgs args)
  | [] => .pure ()
  | arg :: args => (genExpr arg).bind fun _ => (h.emit _).bind fun _ => genArgs args

end

end Stable

end Expressions

/-! ## Statements -/

/-- The holes of the breaks that wait on the loop stack. -/
def BreaksLogged (g : Globals) (loops : List (List Nat)) : Prop :=
  ∀ breaks ∈ loops, ∀ patch ∈ breaks, Event.hole patch ∈ g.log

/-- Statements also emit accesses under the flag that is set, holes and variables. -/
structure EmitsStmt (kmod : Bool) (I : Globals → Prop) : Prop extends Emits kmod I where
  access : ∀ g a, I g → a.isUnsafe = g.functionUnsafe →
    (a.place = .pointee → kmod = true → g.functionUnsafe = true) → I (note (.access a) g).2
  hole : Keeps I (emitHole .hole)
  addVar : ∀ name t, Keeps I (addVarType name t)

theorem EmitsStmt.and {kmod : Bool} {I J : Globals → Prop} (h : EmitsStmt kmod I)
    (hJ : ∀ {g g' : Globals}, Extends g g' → J g → J g') : EmitsStmt kmod fun g => I g ∧ J g where
  toEmits := h.toEmits.and hJ
  access g a hg ha hplace := ⟨h.access g a hg.1 ha hplace, hJ (extends_note _ g) hg.2⟩
  hole g hg := ⟨h.hole g hg.1, hJ (extends_emitHole _ g) hg.2⟩
  addVar name t g hg := ⟨h.addVar name t g hg.1, hJ (extends_addVarType name t g) hg.2⟩

/-- A property that the emitters of statements keep, for one target. -/
structure StableStmt (kmod : Bool) (I : Globals → Prop) : Prop extends EmitsStmt kmod I where
  patch : ∀ patch value g, I g → Event.hole patch ∈ g.log → I (patch32 patch value g).2
  setUnsafe : ∀ g isUnsafe, I g → I { g with functionUnsafe := isUnsafe }
  breaks : ∀ g, I g → BreaksLogged g g.loops
  setLoops : ∀ g loops, I g → BreaksLogged g loops → I { g with loops := loops }

namespace StableStmt

section

variable {kmod : Bool} {I : Globals → Prop} {α : Type} (h : StableStmt kmod I)
include h

/-- Inside a statement the flag of the function is fixed. -/
theorem stable (isUnsafe : Bool) :
    Stable kmod isUnsafe fun g => I g ∧ g.functionUnsafe = isUnsafe where
  toEmits := h.toEmits.and fun hext hflag => hext.flag.trans hflag
  flag _ hg := hg.2
  load g a hg _ ha hplace :=
    ⟨h.access g a hg.1 (ha.trans hg.2.symm) fun hp hk => hg.2.trans (hplace hp hk), hg.2⟩

/-- What was logged stays logged. -/
theorem logged (e : Event) : StableStmt kmod fun g => I g ∧ e ∈ g.log where
  toEmitsStmt := h.toEmitsStmt.and fun hext hmem => hext.mem hmem
  patch patch value g hg hlog := ⟨h.patch patch value g hg.1 hlog, hg.2⟩
  setUnsafe g isUnsafe hg := ⟨h.setUnsafe g isUnsafe hg.1, hg.2⟩
  breaks g hg := h.breaks g hg.1
  setLoops g loops hg hlog := ⟨h.setLoops g loops hg.1 hlog, hg.2⟩

theorem genExpr (e : Expr) : Keeps I (genExpr e) :=
  fun g hg => ((h.stable g.functionUnsafe).genExpr e g ⟨hg, rfl⟩).1

/-- A store through a pointer of a module needs `unsafe`. -/
theorem emitStore {place : Place} {t : Ty} {g : Globals} (hg : I g)
    (hplace : place = .pointee → kmod = true → g.functionUnsafe = true) :
    I (emitStore place t g).2 :=
  Exec.after_bind (x := note (.access ⟨place, t, true, g.functionUnsafe⟩))
    (h.access g _ hg rfl hplace) fun _ => h.emit _

theorem emitStore_var {place : Place} (hplace : place ≠ .pointee) (t : Ty) :
    Keeps I (Orec.emitStore place t) :=
  fun _ hg => h.emitStore hg fun hp => absurd hp hplace

/-- A hole, and what is done with it. -/
theorem leaves_emitHole :
    Exec.Leaves I (fun patch g => Event.hole patch ∈ g.log) (emitHole .hole) := by
  refine fun g hg => ⟨h.hole g hg, fun patch g' hrun => ?_⟩
  cases hrun.symm.trans (emitHole_eq .hole g)
  exact List.mem_append_right _ (List.mem_singleton_self _)

theorem patchHere {patch : Nat} (hlog : ∀ g, I g → Event.hole patch ∈ g.log) :
    Keeps I (patchHere patch) :=
  fun g hg => h.patch patch _ g hg (hlog g hg)

/-! ### Each kind of statement -/

theorem genPlaceValue {place : Place} (hplace : place ≠ .pointee) (t : Ty) (e : Expr) :
    Keeps I (genPlaceValue place t e) :=
  (h.emit _).bind fun _ => (h.genExpr e).bind fun _ => (h.emit _).bind fun _ =>
    h.emitStore_var hplace t

/-- The check for unsafe code holds until the value is stored. -/
theorem genStore (address value : Expr) : Keeps I (genStmt (.store address value)) := by
  intro g hg
  have hs := h.stable g.functionUnsafe
  refine (hs.requireUnsafe_bind (fun hunsafety => ?_) g ⟨hg, rfl⟩).1
  refine (hs.genExpr address).bind fun t => (hs.emit _).bind fun _ => ?_
  refine (hs.genExpr value).bind fun _ => (hs.emit _).bind fun _ g' hg' => ⟨?_, ?_⟩
  · exact h.emitStore hg'.1 fun _ hk => hg'.2.trans (hunsafety hk)
  · exact (extends_emitAccess _ _ _ g').flag.trans hg'.2

theorem declareVar (name : Name) (t : Ty) : Keeps I (declareVar name t) := by
  refine .get_bind fun g hg => ?_
  cases findVar name g.vars with
  | some v => exact hg
  | none =>
    refine Exec.after_bind (h.addVar name t g hg) fun found => ?_
    cases found with
    | some v => exact .pure _
    | none => exact .throw _

theorem clearSlots (v : Var) (slots i : Nat) : Keeps I (clearSlots v slots i) := by
  induction slots generalizing i with
  | zero => exact .pure ()
  | succ slots ih => exact (h.emitStore_var (by simp) _).bind fun _ => ih (i + 1)

theorem genLet (name : Name) (type : Option TypeExpr) (init : Option Expr) :
    Keeps I (genStmt (.declare name type init)) := by
  refine Keeps.bind ?_ fun t => (h.declareVar name t).bind fun v => ?_
  · cases type with
    | none => exact .pure _
    | some t => exact keeps_genType t
  · cases init with
    | none => exact (h.emit _).bind fun _ => h.clearSlots v _ _
    | some e => exact (h.genExpr e).bind fun _ => h.emitStore_var (by simp) _

/-- A condition leaves a hole for the jump over what it guards. -/
theorem leaves_genCondition (cond : Expr) :
    Exec.Leaves I (fun je g => Event.hole je ∈ g.log) (genCondition cond) :=
  (h.genExpr cond).bind_leaves fun _ => (h.emit _).bind_leaves fun _ => h.leaves_emitHole

theorem pushLoop : Keeps I pushLoop := by
  refine .get_bind fun g hg => Exec.after_bind (keeps_rejectIf h.puts _ _ g hg) ?_
  intro _ g hg
  refine h.setLoops g _ hg fun breaks hb => ?_
  rcases List.mem_cons.mp hb with rfl | hb
  · exact fun _ hp => absurd hp List.not_mem_nil
  · exact h.breaks g hg breaks hb

/-- The loop that patches the breaks of a loop. -/
theorem patchBreaks (target : Nat) (breaks : List Nat)
    (hlog : ∀ g, I g → ∀ patch ∈ breaks, Event.hole patch ∈ g.log) :
    Keeps I (patchBreaks target breaks) := by
  induction breaks with
  | nil => exact .pure ()
  | cons patch breaks ih =>
    refine Keeps.bind (fun g hg => h.patch patch _ g hg (hlog g hg patch List.mem_cons_self)) ?_
    exact fun _ => ih fun g hg p hp => hlog g hg p (List.mem_cons_of_mem _ hp)

/-- Everything in a list of events that is in the log stays there. -/
theorem loggedAll (es : List Event) : StableStmt kmod fun g => I g ∧ ∀ e ∈ es, e ∈ g.log := by
  induction es with
  | nil =>
    have heq : (fun g => I g ∧ ∀ e ∈ ([] : List Event), e ∈ g.log) = I :=
      funext fun g => propext ⟨And.left, fun hg => ⟨hg, fun e he => absurd he List.not_mem_nil⟩⟩
    rw [heq]
    exact h
  | cons e es ih =>
    have heq : (fun g => I g ∧ ∀ e' ∈ e :: es, e' ∈ g.log) =
        fun g => (I g ∧ ∀ e ∈ es, e ∈ g.log) ∧ e ∈ g.log :=
      funext fun g => propext (by rw [List.forall_mem_cons]; tauto)
    rw [heq]
    exact ih.logged e

/-- The end of a loop patches its breaks, which are logged, and drops them. -/
theorem patchLoopBreaks : Keeps I patchLoopBreaks := by
  refine .get_bind fun g hg => ?_
  have hbreaks := h.breaks g hg
  cases hloops : g.loops with
  | nil => exact hg
  | cons breaks outer =>
    rw [hloops] at hbreaks
    -- the holes of all loops are in the log, also while it grows
    have hes : ∀ e ∈ ((breaks :: outer).flatten.map Event.hole), e ∈ g.log := by
      intro e he
      obtain ⟨patch, hpatch, rfl⟩ := List.mem_map.mp he
      obtain ⟨ps, hps, hp⟩ := List.mem_flatten.mp hpatch
      exact hbreaks ps hps patch hp
    have hall := h.loggedAll ((breaks :: outer).flatten.map Event.hole)
    have hhole : ∀ g', (I g' ∧ ∀ e ∈ ((breaks :: outer).flatten.map Event.hole), e ∈ g'.log) →
        BreaksLogged g' (breaks :: outer) := fun g' hg' ps hps patch hp =>
      hg'.2 _ (List.mem_map_of_mem (List.mem_flatten_of_mem hps hp))
    have hpop : Keeps (fun g' => I g' ∧ ∀ e ∈ ((breaks :: outer).flatten.map Event.hole), e ∈ g'.log)
        (modify fun g' => { g' with loops := outer } : Compile Unit) := fun g' hg' =>
      hall.setLoops g' outer hg' fun ps hps => hhole g' hg' ps (List.mem_cons_of_mem _ hps)
    refine (Keeps.bind keeps_textPos (fun pos => Keeps.bind ?_ fun _ => hpop) g ⟨hg, hes⟩).1
    exact hall.patchBreaks pos breaks fun g' hg' => hhole g' hg' breaks List.mem_cons_self

/-- A break is added to the innermost loop, with its hole logged. -/
theorem addBreakPatch {patch : Nat} (hlog : ∀ g, I g → Event.hole patch ∈ g.log) :
    Keeps I (addBreakPatch patch) := by
  refine .get_bind fun g hg => ?_
  have hbreaks := h.breaks g hg
  cases hloops : g.loops with
  | nil => exact keeps_reject h.puts _ g hg
  | cons breaks outer =>
    rw [hloops] at hbreaks
    by_cases hfull : breaks.length ≥ maxBreaksPerLoop
    · dsimp only
      rw [Exec.bind_error (rejectIf_of hfull _ g)]
      exact h.puts _ g hg
    · dsimp only
      rw [Exec.bind_ok (rejectIf_of_not hfull _ g)]
      refine h.setLoops g _ hg fun ps hps p hp => ?_
      rcases List.mem_cons.mp hps with rfl | hps
      · rcases List.mem_append.mp hp with hp | hp
        · exact hbreaks breaks List.mem_cons_self p hp
        · rw [List.mem_singleton.mp hp]
          exact hlog g hg
      · exact hbreaks ps (List.mem_cons_of_mem _ hps) p hp

theorem genLeave : Keeps I (genStmt .leave) := by
  refine (h.emit _).bind fun _ => h.leaves_emitHole.bind_keeps fun jend => ?_
  exact (h.logged (.hole jend)).addBreakPatch fun g hg => hg.2

theorem emitReturnRax : Keeps I emitReturnRax := by
  refine .get_bind fun g hg => ?_
  split
  next hmain => exact h.emit_emitSyscall hg (.inr hmain)
  next => exact h.emit _ g hg

/-- Behind the check, the target is the user's. -/
theorem requireUser_bind {message : String} {f : Unit → Compile α}
    (hf : kmod = false → Keeps I (f ())) : Keeps I (requireUser message >>= f) := by
  intro g hg
  by_cases hkernel : g.kmodTarget = true
  · have hrun : requireUser message g = _ := rejectIf_of hkernel message g
    rw [Exec.bind_error hrun]
    exact h.puts message g hg
  · have hrun : requireUser message g = _ := rejectIf_of_not hkernel message g
    rw [Exec.bind_ok hrun]
    rw [h.target g hg] at hkernel
    exact hf (Bool.eq_false_iff.mpr hkernel) g hg

/-- The address of data that was stored before some code. -/
theorem emitWriteData (huser : kmod = false) {off : Nat}
    (hlog : ∀ g, I g → ∃ bytes, Event.literal off bytes ∈ g.log) (len : Word) :
    Keeps I (emitWriteData off len) := by
  refine (h.emit _).bind fun _ => Keeps.bind (fun g hg => h.leaData _ _ g hg (hlog g hg)) fun _ => ?_
  exact (h.emit _).bind fun _ _ hg => h.emitSyscall hg (.inl huser)

theorem genPrint (chars : Name) : Keeps I (genStmt (.print chars)) := by
  refine h.requireUser_bind fun huser g hg => ?_
  rw [Exec.bind_ok (addData_run _ g)]
  obtain ⟨bytes, hlit⟩ := addData_logs (asciiBytes chars) g
  have hl := h.logged (.literal g.dataLen bytes)
  exact (hl.emitWriteData huser (fun g hg => ⟨bytes, hg.2⟩) _ _ ⟨h.addData _ g hg, hlit⟩).1

/-- `puti` has jumps of its own, to holes of its own. -/
theorem emitPutiRax (huser : kmod = false) : Keeps I emitPutiRax := by
  refine (h.emit _).bind fun _ => (h.emit _).bind fun _ => (h.emit _).bind fun _ => ?_
  refine (h.emit _).bind fun _ => (h.emit _).bind fun _ => h.leaves_emitHole.bind_keeps fun jne => ?_
  have hj := h.logged (.hole jne)
  refine (hj.emit _).bind fun _ => (hj.emit _).bind fun _ => (hj.emit _).bind fun _ => ?_
  refine (hj.emit _).bind fun _ => hj.leaves_emitHole.bind_keeps fun jwrite => ?_
  have hw := hj.logged (.hole jwrite)
  refine keeps_textPos.bind fun loop => (hw.patchHere fun g hg => hg.1.2).bind fun _ => ?_
  refine (hw.emit _).bind fun _ => (hw.emit _).bind fun _ => (hw.emit _).bind fun _ => ?_
  refine (hw.emit _).bind fun _ => (hw.emit _).bind fun _ => (hw.emit _).bind fun _ => ?_
  refine (hw.emit _).bind fun _ => keeps_textPos.bind fun pos => (hw.emit _).bind fun _ => ?_
  refine (hw.emit _).bind fun _ => (hw.emit _).bind fun _ => ?_
  refine (hw.patchHere fun g hg => hg.2).bind fun _ => (hw.emit _).bind fun _ => ?_
  exact (hw.emit _).bind fun _ => Keeps.bind (fun _ hg => hw.emitSyscall hg (.inl huser)) fun _ =>
    hw.emit _

end

variable {kmod : Bool}

mutual

/-- Statements keep what their emitters keep. A property is kept together with the hole of a
jump over the statements within. -/
theorem genStmt : ∀ (st : Stmt) {I : Globals → Prop}, StableStmt kmod I → Keeps I (Orec.genStmt st)
  | .store address value, _, h => h.genStore address value
  | .trusted body, _, h => .get_bind fun g hg =>
      Exec.after_bind (h.setUnsafe g true hg) fun _ => (genBlock body h).bind fun _ g' hg' =>
        h.setUnsafe g' _ hg'
  | .declare name type init, _, h => h.genLet name type init
  | .loop cond body, _, h => by
    refine keeps_textPos.bind fun start => (h.leaves_genCondition cond).bind_keeps fun je => ?_
    have hje := h.logged (.hole je)
    refine hje.pushLoop.bind fun _ => (genBlock body hje).bind fun _ => (hje.emit _).bind fun _ => ?_
    refine keeps_textPos.bind fun pos => (hje.emit _).bind fun _ => ?_
    exact (hje.patchHere fun g hg => hg.2).bind fun _ => hje.patchLoopBreaks
  | .leave, _, h => h.genLeave
  | .branch cond body, _, h => by
    refine (h.leaves_genCondition cond).bind_keeps fun je => ?_
    have hje := h.logged (.hole je)
    exact (genBlock body hje).bind fun _ => hje.patchHere fun g hg => hg.2
  | .branchElse cond body other, _, h => by
    refine (h.leaves_genCondition cond).bind_keeps fun je => ?_
    have hje := h.logged (.hole je)
    refine (genBlock body hje).bind fun _ => (hje.emit _).bind fun _ => ?_
    refine hje.leaves_emitHole.bind_keeps fun jend => ?_
    have hj := hje.logged (.hole jend)
    refine (hj.patchHere fun g hg => hg.1.2).bind fun _ => (genBlock other hj).bind fun _ => ?_
    exact hj.patchHere fun g hg => hg.2
  | .block body, _, h => genBlock body h
  | .answer e, _, h => (h.genExpr e).bind fun _ => h.emitReturnRax
  | .print chars, _, h => h.genPrint chars
  | .puti e, _, h => h.requireUser_bind fun huser => (h.genExpr e).bind fun _ => h.emitPutiRax huser
  | .effect e, _, h => (h.genExpr e).bind fun _ => .pure _
  | .assign _ e, _, h => (keeps_lookupVar h.puts _).bind fun _ => (h.genExpr e).bind fun _ =>
      h.emitStore_var (by simp) _
  | .assignElement _ index e, _, h => (keeps_lookupVar h.puts _).bind fun _ =>
      (h.genExpr index).bind fun _ => (h.emit _).bind fun _ => h.genPlaceValue (by simp) _ e
  | .assignField _ _ e, _, h => (keeps_lookupVar h.puts _).bind fun _ =>
      (keeps_genField _ _).bind fun _ => (h.emit _).bind fun _ => h.genPlaceValue (by simp) _ e

/-- Whatever the statements of a block are, it keeps what each emitter keeps. -/
theorem genBlock : ∀ (body : List Stmt) {I : Globals → Prop}, StableStmt kmod I →
    Keeps I (Orec.genBlock body)
  | [], _, _ => .pure ()
  | st :: body, _, h => (genStmt st h).bind fun _ => genBlock body h

end

end StableStmt

end OreOS.Orec
