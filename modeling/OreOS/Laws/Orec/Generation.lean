import OreOS.Laws.Orec.Stable
import OreOS.Laws.Orec.Syntax

/-!
# What generation does to the frame (`user/orec.c`)

Only a `let` changes the variables of a function, and only a `let`, an assignment and
the entry of the function store to a variable without an address in a register.
Everything else is `Silent`. What a block does follows from its `let`s alone (`Lays`).
-/

namespace OreOS.Orec

open OreOS.Lib (Byte Word Exec)

/-! ## Code that leaves the frame alone -/

/-- A store to a variable with its place in the instruction. -/
def Access.isDirect (a : Access) : Bool :=
  a.store && match a.place with
    | .whole _ | .word _ _ | .argument _ _ => true
    | _ => false

def Event.direct? : Event → Option Access
  | .access a => if a.isDirect then some a else none
  | _ => none

/-- The direct stores of a log. -/
def directOf (log : List Event) : List Access :=
  log.filterMap Event.direct?

theorem directOf_append (log new : List Event) : directOf (log ++ new) = directOf log ++ directOf new :=
  List.filterMap_append

/-- The variables and the structs are as they were, and no direct store came. -/
structure Quiet (g g' : Globals) : Prop where
  structs : g'.structs = g.structs
  vars : g'.vars = g.vars
  stackSize : g'.stackSize = g.stackSize
  log : ∃ new, g'.log = g.log ++ new ∧ directOf new = []

variable {g g₁ g₂ : Globals}

theorem Quiet.of_log (hstructs : g₁.structs = g.structs) (hvars : g₁.vars = g.vars)
    (hstack : g₁.stackSize = g.stackSize) (hlog : g₁.log = g.log) : Quiet g g₁ :=
  ⟨hstructs, hvars, hstack, [], hlog.trans (List.append_nil _).symm, rfl⟩

theorem Quiet.refl (g : Globals) : Quiet g g :=
  .of_log rfl rfl rfl rfl

theorem Quiet.trans (h : Quiet g g₁) (h' : Quiet g₁ g₂) : Quiet g g₂ := by
  obtain ⟨new, hnew, hquiet⟩ := h.log
  obtain ⟨new', hnew', hquiet'⟩ := h'.log
  refine ⟨h'.structs.trans h.structs, h'.vars.trans h.vars, h'.stackSize.trans h.stackSize,
    new ++ new', ?_, ?_⟩
  · rw [hnew', hnew, List.append_assoc]
  · rw [directOf_append, hquiet, hquiet', List.append_nil]

/-- Whatever the outcome, the frame is left alone. -/
def Silent {α : Type} (x : Compile α) : Prop :=
  ∀ g, Quiet g (x g).2

namespace Silent

variable {α β : Type} {x : Compile α} {f : α → Compile β}

theorem pure (a : α) : Silent (Pure.pure a : Compile α) :=
  Quiet.refl

theorem bind (hx : Silent x) (hf : ∀ a, Silent (f a)) : Silent (x >>= f) :=
  fun g => Exec.after_bind (hx g) fun a g' h => h.trans (hf a g')

theorem get_bind {f : Globals → Compile β} (hf : ∀ g, Silent (f g)) : Silent (get >>= f) :=
  fun g => hf g g

theorem ite {p : Prop} [Decidable p] {y : Compile α} (hx : Silent x) (hy : Silent y) :
    Silent (if p then x else y) := by
  split
  · exact hx
  · exact hy

end Silent

/-! ### Emitters -/

theorem silent_note {e : Event} (he : e.direct? = none) : Silent (note e) := fun g =>
  ⟨rfl, rfl, rfl, [e], rfl, by rw [directOf, List.filterMap_cons_none he, List.filterMap_nil]⟩

theorem silent_emit (bs : List Byte) : Silent (emit bs) := fun g => by
  rw [emit_eq]
  exact .of_log rfl rfl rfl rfl

theorem Silent.emit_bind {β : Type} {bs : List Byte} {f : Unit → Compile β} (hf : ∀ a, Silent (f a)) :
    Silent (emit bs >>= f) :=
  (silent_emit bs).bind hf

theorem silent_puts (message : String) : Silent (puts message) := fun _ =>
  .of_log rfl rfl rfl rfl

theorem silent_patch32 (patch : Nat) (value : U32) : Silent (patch32 patch value) := fun _ =>
  .of_log rfl rfl rfl rfl

/-- What keeps every property that messages keep leaves the frame alone. -/
theorem silent_of_keeps {α : Type} {x : Compile α}
    (h : ∀ I : Globals → Prop, (∀ s, Exec.Keeps I (puts s)) → Exec.Keeps I x) : Silent x :=
  fun g => h (Quiet g) (fun s g' hg => hg.trans (silent_puts s g')) g (Quiet.refl g)

theorem silent_reject {α : Type} (message : String) : Silent (reject message : Compile α) :=
  silent_of_keeps fun _ hputs => keeps_reject hputs message

theorem silent_rejectIf (p : Prop) [Decidable p] (message : String) : Silent (rejectIf p message) :=
  silent_of_keeps fun _ hputs => keeps_rejectIf hputs p message

theorem silent_emitHole {e : Nat → Event} (he : ∀ patch, (e patch).direct? = none) :
    Silent (emitHole e) :=
  .get_bind fun _ => .emit_bind fun _ => (silent_note (he _)).bind fun _ => .pure _

theorem silent_textPos : Silent textPos :=
  .get_bind fun _ => .pure _

theorem silent_patchHere (patch : Nat) : Silent (patchHere patch) :=
  silent_textPos.bind fun _ => silent_patch32 _ _

theorem silent_emitSyscall : Silent emitSyscall :=
  (silent_note rfl).bind fun _ => silent_emit _

theorem silent_addData (bytes : List Byte) : Silent (addData bytes) := by
  refine .get_bind fun g₀ => Silent.bind (fun g => ?_) fun _ => (silent_note rfl).bind fun _ => .pure _
  exact .of_log rfl rfl rfl rfl

theorem silent_emitLeaData (opcode : List Byte) (dataOff : Nat) :
    Silent (emitLeaData opcode dataOff) := by
  refine .emit_bind fun _ => (silent_emitHole fun _ => rfl).bind fun _ =>
    .get_bind fun _ => .ite (silent_puts _) fun g => ?_
  exact .of_log rfl rfl rfl rfl

theorem silent_emitCall (fn : Nat) : Silent (emitCall fn) := by
  refine .emit_bind fun _ => (silent_emitHole fun _ => rfl).bind fun _ g => ?_
  exact .of_log rfl rfl rfl rfl

theorem silent_setLoops (f : Globals → List (List Nat)) :
    Silent (modify fun g => { g with loops := f g }) := fun _ =>
  .of_log rfl rfl rfl rfl

theorem silent_setUnsafe (isUnsafe : Bool) :
    Silent (modify fun g => { g with functionUnsafe := isUnsafe }) := fun _ =>
  .of_log rfl rfl rfl rfl

theorem silent_pushLoop : Silent pushLoop :=
  .get_bind fun _ => (silent_rejectIf _ _).bind fun _ => silent_setLoops _

theorem silent_addBreakPatch (patch : Nat) : Silent (addBreakPatch patch) := by
  refine .get_bind fun g => ?_
  cases g.loops with
  | nil => exact silent_reject _
  | cons breaks outer =>
    exact (silent_rejectIf _ _).bind fun _ => silent_setLoops fun _ => (breaks ++ [patch]) :: outer

theorem silent_patchBreaks (target : Nat) (breaks : List Nat) : Silent (patchBreaks target breaks) := by
  induction breaks with
  | nil => exact .pure ()
  | cons patch breaks ih => exact (silent_patch32 _ _).bind fun _ => ih

theorem silent_patchLoopBreaks : Silent patchLoopBreaks := by
  refine .get_bind fun g => ?_
  cases g.loops with
  | nil => exact .pure ()
  | cons breaks outer =>
    exact silent_textPos.bind fun _ => (silent_patchBreaks _ _).bind fun _ =>
      silent_setLoops fun _ => outer

theorem silent_emitExitRax : Silent emitExitRax :=
  .emit_bind fun _ => silent_emitSyscall

theorem silent_emitReturnRax : Silent emitReturnRax :=
  .get_bind fun _ => .ite silent_emitExitRax (silent_emit _)

theorem silent_emitWriteData (dataOff : Nat) (len : Word) : Silent (emitWriteData dataOff len) :=
  .emit_bind fun _ => (silent_emitLeaData _ _).bind fun _ =>
    .emit_bind fun _ => silent_emitSyscall

theorem silent_emitPutiRax : Silent emitPutiRax := by
  have hhole := silent_emitHole (e := Event.hole) fun _ => rfl
  refine .emit_bind fun _ => .emit_bind fun _ => .emit_bind fun _ => ?_
  refine .emit_bind fun _ => .emit_bind fun _ => hhole.bind fun _ => ?_
  refine .emit_bind fun _ => .emit_bind fun _ => .emit_bind fun _ => ?_
  refine .emit_bind fun _ => hhole.bind fun _ => silent_textPos.bind fun _ => ?_
  refine (silent_patchHere _).bind fun _ => .emit_bind fun _ => ?_
  refine .emit_bind fun _ => .emit_bind fun _ => .emit_bind fun _ => ?_
  refine .emit_bind fun _ => .emit_bind fun _ => .emit_bind fun _ => ?_
  refine silent_textPos.bind fun _ => .emit_bind fun _ => .emit_bind fun _ => ?_
  refine .emit_bind fun _ => (silent_patchHere _).bind fun _ => .emit_bind fun _ => ?_
  exact .emit_bind fun _ => silent_emitSyscall.bind fun _ => silent_emit _

/-! ### Expressions -/

theorem silent_requireUnsafe (message : String) : Silent (requireUnsafe message) :=
  .get_bind fun _ => silent_rejectIf _ _

theorem silent_requireUser (message : String) : Silent (requireUser message) :=
  .get_bind fun _ => silent_rejectIf _ _

theorem silent_lookupVar (name : Name) : Silent (lookupVar name) :=
  silent_of_keeps fun _ hputs => keeps_lookupVar hputs name

theorem silent_genField (t : Ty) (field : Name) : Silent (genField t field) :=
  silent_of_keeps fun _ _ => keeps_genField t field

/-- Expressions load, and loads are no stores. -/
theorem stable_quiet (g₀ : Globals) : Stable g₀.kmodTarget g₀.functionUnsafe fun g =>
    Quiet g₀ g ∧ g.kmodTarget = g₀.kmodTarget ∧ g.functionUnsafe = g₀.functionUnsafe := by
  have hstep : ∀ {g g' : Globals}, Extends g g' → Quiet g g' →
      (Quiet g₀ g ∧ g.kmodTarget = g₀.kmodTarget ∧ g.functionUnsafe = g₀.functionUnsafe) →
      Quiet g₀ g' ∧ g'.kmodTarget = g₀.kmodTarget ∧ g'.functionUnsafe = g₀.functionUnsafe :=
    fun hext hquiet hg =>
      ⟨hg.1.trans hquiet, hext.target.trans hg.2.1, hext.flag.trans hg.2.2⟩
  exact
    { target := fun _ hg => hg.2.1
      flag := fun _ hg => hg.2.2
      puts := fun s g => hstep (extends_puts s g) (silent_puts s g)
      emit8 := fun b g => hstep (extends_emit8 b g) (by rw [emit8_eq]; exact .of_log rfl rfl rfl rfl)
      call := fun fn g => hstep (extends_emitCall fn g) (silent_emitCall fn g)
      addData := fun bytes g => hstep (extends_addData bytes g) (silent_addData bytes g)
      leaData := fun opcode off g hg _ =>
        hstep (extends_emitLeaData opcode off g) (silent_emitLeaData opcode off g) hg
      syscall := fun g hg _ => hstep (extends_note _ g) (silent_note rfl g) hg
      load := fun g a hg hload _ _ => by
        have hdirect : Event.direct? (.access a) = none := if_neg (by simp [Access.isDirect, hload])
        exact hstep (extends_note _ g) (silent_note hdirect g) hg }

/-- An expression leaves the frame alone. -/
theorem silent_genExpr (e : Expr) : Silent (genExpr e) :=
  fun g => ((stable_quiet g).genExpr e g ⟨Quiet.refl g, rfl, rfl⟩).1

/-! ## The lets of a block -/

/-- A `let`: the type written there, and whether it clears the variable. -/
structure Declared where
  name : Name
  type : Ty
  cleared : Bool

/-- The type of a `let`, with the structs that there are. -/
def declaredTy (structs : List StructDef) : Option TypeExpr → Option Ty
  | none => some tyInt
  | some t => t.ty structs

mutual

/-- The `let`s of a statement, in their order. -/
def Stmt.lets (structs : List StructDef) : Stmt → Option (List Declared)
  | .declare name type init => (declaredTy structs type).map fun t => [⟨name, t, init.isNone⟩]
  | .trusted body => letsOf structs body
  | .loop _ body => letsOf structs body
  | .branch _ body => letsOf structs body
  | .branchElse _ body other => do
    let ds ← letsOf structs body
    let ds' ← letsOf structs other
    return ds ++ ds'
  | .block body => letsOf structs body
  | _ => some []

def letsOf (structs : List StructDef) : List Stmt → Option (List Declared)
  | [] => some []
  | st :: body => do
    let ds ← st.lets structs
    let ds' ← letsOf structs body
    return ds ++ ds'

end

/-- The variables of a function, and the bytes that they take. -/
structure Frame where
  vars : List Var
  size : U32

/-- The variable that `add_var_type` makes. -/
def Frame.fresh (frame : Frame) (name : Name) (t : Ty) : Var :=
  ⟨name.take 31, frame.size + alignUpU32 (orElse t.size 8) 8, t⟩

def Frame.add (frame : Frame) (name : Name) (t : Ty) : Frame :=
  ⟨frame.vars ++ [frame.fresh name t], (frame.fresh name t).offset⟩

/-- The variable of a `let`. -/
def Frame.varOf (frame : Frame) (d : Declared) : Var :=
  (findVar d.name frame.vars).getD (frame.fresh d.name d.type)

def Frame.declare (frame : Frame) (d : Declared) : Frame :=
  match findVar d.name frame.vars with
  | some _ => frame
  | none => frame.add d.name d.type

def Frame.declareAll (frame : Frame) (ds : List Declared) : Frame :=
  ds.foldl Frame.declare frame

/-- Each `let` with its variable. -/
def Frame.placed (frame : Frame) : List Declared → List (Var × Declared)
  | [] => []
  | d :: ds => (frame.varOf d, d) :: (frame.declare d).placed ds

def Globals.frame (g : Globals) : Frame :=
  ⟨g.vars, g.stackSize⟩

namespace Frame

theorem declareAll_append (frame : Frame) (ds ds' : List Declared) :
    frame.declareAll (ds ++ ds') = (frame.declareAll ds).declareAll ds' :=
  List.foldl_append

theorem placed_append (frame : Frame) (ds ds' : List Declared) :
    frame.placed (ds ++ ds') = frame.placed ds ++ (frame.declareAll ds).placed ds' := by
  induction ds generalizing frame with
  | nil => rfl
  | cons d ds ih => exact congrArg ((frame.varOf d, d) :: ·) (ih (frame.declare d))

theorem prefix_declare (frame : Frame) (d : Declared) : frame.vars <+: (frame.declare d).vars := by
  unfold declare
  split
  next => exact List.prefix_rfl
  next => exact List.prefix_append _ _

theorem prefix_declareAll (frame : Frame) (ds : List Declared) :
    frame.vars <+: (frame.declareAll ds).vars := by
  induction ds generalizing frame with
  | nil => exact List.prefix_rfl
  | cons d ds ih => exact (frame.prefix_declare d).trans (ih _)

theorem varOf_mem (frame : Frame) (d : Declared) : frame.varOf d ∈ (frame.declare d).vars := by
  unfold varOf declare
  cases hfind : findVar d.name frame.vars with
  | some v => exact List.mem_of_find?_eq_some hfind
  | none => exact List.mem_append_right _ (List.mem_singleton_self _)

end Frame

/-- A direct store that is due to an assignment or to a `let`. -/
def Due (vars : List Var) (placed : List (Var × Declared)) (a : Access) : Prop :=
  (∃ v ∈ vars, a.place = .whole v ∧ a.type = v.type) ∨
    ∃ p ∈ placed, p.2.cleared = true ∧ ∃ i < slotsOf p.2.type, a.place = .word p.1 i

/-- What a block with these `let`s does to the frame. -/
structure Lays (ds : List Declared) (g g' : Globals) : Prop where
  structs : g'.structs = g.structs
  frame : g'.frame = g.frame.declareAll ds
  log : ∃ new, g'.log = g.log ++ new ∧
    (∀ a ∈ directOf new, Due g'.vars (g.frame.placed ds) a) ∧
    ∀ p ∈ g.frame.placed ds, p.2.cleared = true → ∀ i < slotsOf p.2.type,
      ∃ a ∈ directOf new, a.place = .word p.1 i

variable {g' : Globals}

theorem Quiet.lays (h : Quiet g g') : Lays [] g g' := by
  obtain ⟨new, hnew, hquiet⟩ := h.log
  refine ⟨h.structs, ?_, new, hnew, ?_, fun p hp => absurd hp List.not_mem_nil⟩
  · rw [Globals.frame, h.vars, h.stackSize]
    rfl
  · rw [hquiet]
    exact fun a ha => absurd ha List.not_mem_nil

variable {ds : List Declared}

/-- Two blocks, one after the other. -/
theorem Lays.trans {ds' : List Declared} (h : Lays ds g g₁) (h' : Lays ds' g₁ g₂) :
    Lays (ds ++ ds') g g₂ := by
  obtain ⟨new, hnew, hdue, hall⟩ := h.log
  obtain ⟨new', hnew', hdue', hall'⟩ := h'.log
  have hgrow : g₁.vars <+: g₂.vars := by
    have := Frame.prefix_declareAll g₁.frame ds'
    rwa [← h'.frame] at this
  have hplaced : g.frame.placed (ds ++ ds') = g.frame.placed ds ++ g₁.frame.placed ds' := by
    rw [Frame.placed_append, h.frame]
  refine ⟨h'.structs.trans h.structs, ?_, new ++ new', ?_, ?_, ?_⟩
  · rw [h'.frame, h.frame, Frame.declareAll_append]
  · rw [hnew', hnew, List.append_assoc]
  · rw [directOf_append, hplaced]
    intro a ha
    rcases List.mem_append.mp ha with ha | ha
    · rcases hdue a ha with ⟨v, hv, hplace⟩ | ⟨p, hp, hword⟩
      · exact .inl ⟨v, hgrow.mem hv, hplace⟩
      · exact .inr ⟨p, List.mem_append_left _ hp, hword⟩
    · rcases hdue' a ha with hwhole | ⟨p, hp, hword⟩
      · exact .inl hwhole
      · exact .inr ⟨p, List.mem_append_right _ hp, hword⟩
  · rw [directOf_append, hplaced]
    intro p hp hcleared i hi
    rcases List.mem_append.mp hp with hp | hp
    · obtain ⟨a, ha, hplace⟩ := hall p hp hcleared i hi
      exact ⟨a, List.mem_append_left _ ha, hplace⟩
    · obtain ⟨a, ha, hplace⟩ := hall' p hp hcleared i hi
      exact ⟨a, List.mem_append_right _ ha, hplace⟩

/-- Code that leaves the frame alone, before and after. -/
theorem Quiet.trans_lays (h : Quiet g g₁) (h' : Lays ds g₁ g₂) : Lays ds g g₂ :=
  h.lays.trans h'

theorem Lays.trans_quiet (h : Lays ds g g₁) (h' : Quiet g₁ g₂) : Lays ds g g₂ := by
  have hboth := h.trans h'.lays
  rwa [List.append_nil] at hboth

/-! ### Stores -/

variable {v : Var}

/-- An assignment stores to its variable. -/
theorem lays_emitStore (hv : v ∈ g.vars) : Lays [] g (emitStore (.whole v) v.type g).2 := by
  rw [emitStore, emitAccess_eq]
  refine ⟨rfl, rfl, [.access ⟨.whole v, v.type, true, g.functionUnsafe⟩], rfl, fun a ha => ?_,
    fun p hp => absurd hp List.not_mem_nil⟩
  rw [List.mem_singleton.mp ha]
  exact .inl ⟨v, hv, rfl, rfl⟩

/-- `let` without a value clears every word of the variable. -/
theorem clearSlots_run (v : Var) (slots i : Nat) (g : Globals) :
    ∃ g' new, clearSlots v slots i g = (.ok (), g') ∧ g'.structs = g.structs ∧
      g'.frame = g.frame ∧ g'.log = g.log ++ new ∧
      (∀ a ∈ directOf new, ∃ k, i ≤ k ∧ k < i + slots ∧ a.place = .word v k) ∧
      ∀ k, i ≤ k → k < i + slots → ∃ a ∈ directOf new, a.place = .word v k := by
  induction slots generalizing i g with
  | zero =>
    exact ⟨g, [], rfl, rfl, rfl, (List.append_nil _).symm, fun a ha => absurd ha List.not_mem_nil,
      fun k hk hk' => absurd hk' (by omega)⟩
  | succ slots ih =>
    obtain ⟨g', new, hrest, hstructs, hframe, hlog, hdue, hall⟩ := ih (i + 1) _
    refine ⟨g', .access ⟨.word v i, tyInt, true, g.functionUnsafe⟩ :: new,
      (Exec.bind_ok (emitAccess_eq (.word v i) tyInt true g)).trans hrest, hstructs, hframe, ?_, ?_, ?_⟩
    · rw [hlog]
      exact List.append_assoc _ _ _
    · intro a ha
      rcases List.mem_cons.mp ha with rfl | ha
      · exact ⟨i, Nat.le_refl _, by omega, rfl⟩
      · obtain ⟨k, hk, hk', hplace⟩ := hdue a ha
        exact ⟨k, by omega, by omega, hplace⟩
    · intro k hk hk'
      rcases Nat.eq_or_lt_of_le hk with rfl | hk
      · exact ⟨_, List.mem_cons_self, rfl⟩
      · obtain ⟨a, ha, hplace⟩ := hall k hk (by omega)
        exact ⟨a, List.mem_cons_of_mem _ ha, hplace⟩

/-! ### Declarations -/

variable {t : Ty}

/-- A new variable is behind the others. -/
theorem addVarType_ok {name : Name} (h : addVarType name t g = (.ok (some v), g')) :
    v = g.frame.fresh name t ∧ g'.frame = g.frame.add name t ∧ g'.structs = g.structs ∧
      g'.log = g.log := by
  change (if g.vars.length ≥ maxVars then _ else _ : Compile (Option Var)) g = _ at h
  split at h
  · cases h
  · cases h
    exact ⟨rfl, rfl, rfl, rfl⟩

/-- A name that is known keeps its variable. -/
theorem declareVar_ok {d : Declared} (h : declareVar d.name d.type g = (.ok v, g')) :
    v = g.frame.varOf d ∧ g'.frame = g.frame.declare d ∧ g'.structs = g.structs ∧
      g'.log = g.log := by
  change (match findVar d.name g.vars with
    | some v => pure v
    | none => addVarType d.name d.type >>= fun
      | some v => pure v
      | none => fail : Compile Var) g = _ at h
  change v = (findVar d.name g.vars).getD _ ∧ g'.frame = (match findVar d.name g.vars with
    | some _ => g.frame
    | none => g.frame.add d.name d.type) ∧ _
  cases hfind : findVar d.name g.vars with
  | some v' =>
    rw [hfind] at h
    cases h
    exact ⟨rfl, rfl, rfl, rfl⟩
  | none =>
    rw [hfind] at h
    obtain ⟨found, g₁, hadd, hrest⟩ := Exec.bind_eq_ok h
    cases found with
    | none => cases hrest
    | some v' =>
      cases hrest
      exact addVarType_ok hadd

/-- The value of a `let`, in the frame that has its variable. -/
theorem lays_genInit {d : Declared} {init : Option Expr}
    (hdecl : declareVar d.name d.type g = (.ok (g.frame.varOf d), g₁))
    (hcleared : d.cleared = init.isNone)
    (hinit : genInit (g.frame.varOf d) d.type init g₁ = (.ok (), g')) : Lays [d] g g' := by
  obtain ⟨-, hframe, hstructs, hlog⟩ := declareVar_ok hdecl
  have hmem : g.frame.varOf d ∈ g₁.vars := by
    have := g.frame.varOf_mem d
    rwa [← hframe] at this
  cases init with
  | some e =>
    obtain ⟨t, g₂, hexpr, hstore⟩ := Exec.bind_eq_ok hinit
    have hquiet := silent_genExpr e g₁
    rw [hexpr] at hquiet
    have hlays := @lays_emitStore g₂ (g.frame.varOf d) (by rw [hquiet.vars]; exact hmem)
    rw [hstore] at hlays
    have hrest := hquiet.trans_lays hlays
    obtain ⟨new, hnew, hdue, -⟩ := hrest.log
    refine ⟨hrest.structs.trans hstructs, hrest.frame.trans hframe, new, by rw [hnew, hlog], ?_, ?_⟩
    · intro a ha
      rcases hdue a ha with hwhole | ⟨p, hp, -⟩
      · exact .inl hwhole
      · exact absurd hp List.not_mem_nil
    · intro p hp hc
      rw [List.mem_singleton.mp hp, hcleared] at hc
      cases hc
  | none =>
    obtain ⟨_, g₂, hmov, hclear⟩ := Exec.bind_eq_ok hinit
    have hquiet := silent_emit (movRax 0) g₁
    rw [hmov] at hquiet
    obtain ⟨new₀, hnew₀, hquiet₀⟩ := hquiet.log
    obtain ⟨g₃, new, hrun, hstructs', hframe', hlog', hdue, hall⟩ :=
      clearSlots_run (g.frame.varOf d) (slotsOf d.type) 0 g₂
    cases hrun.symm.trans hclear
    refine ⟨(hstructs'.trans hquiet.structs).trans hstructs, ?_, new₀ ++ new, ?_, ?_, ?_⟩
    · rw [hframe', Globals.frame, hquiet.vars, hquiet.stackSize]
      exact hframe
    · rw [hlog', hnew₀, hlog, List.append_assoc]
    · rw [directOf_append, hquiet₀, List.nil_append]
      intro a ha
      obtain ⟨k, -, hk, hplace⟩ := hdue a ha
      rw [Nat.zero_add] at hk
      exact .inr ⟨_, List.mem_singleton_self _, hcleared, k, hk, hplace⟩
    · rw [directOf_append, hquiet₀, List.nil_append]
      intro p hp _ i hi
      rw [List.mem_singleton.mp hp] at hi ⊢
      exact hall i (Nat.zero_le _) (by rw [Nat.zero_add]; exact hi)

/-! ### Statements -/

theorem genType_ok {t : TypeExpr} {ty : Ty} (h : genType t g = (.ok ty, g')) :
    t.ty g.structs = some ty ∧ g' = g := by
  have hanswer := Exec.answer_eq_some.mpr h
  rw [answer_genType, Option.map_eq_some_iff] at hanswer
  obtain ⟨_, hty, heq⟩ := hanswer
  cases heq
  exact ⟨hty, rfl⟩

theorem genDeclaredType_ok {type : Option TypeExpr} (h : genDeclaredType type g = (.ok t, g')) :
    declaredTy g.structs type = some t ∧ g' = g := by
  cases type with
  | none =>
    cases h
    exact ⟨rfl, rfl⟩
  | some t => exact genType_ok h

theorem silent_genPlaceValue {place : Place}
    (hplace : ∀ isUnsafe, (⟨place, t, true, isUnsafe⟩ : Access).isDirect = false) (e : Expr) :
    Silent (genPlaceValue place t e) := by
  refine .emit_bind fun _ => (silent_genExpr e).bind fun _ => .emit_bind fun _ => ?_
  refine .get_bind fun g => (silent_note ?_).bind fun _ => silent_emit _
  exact if_neg (by rw [hplace]; exact Bool.false_ne_true)

theorem silent_genCondition (cond : Expr) : Silent (genCondition cond) :=
  (silent_genExpr cond).bind fun _ => .emit_bind fun _ => silent_emitHole fun _ => rfl

theorem Silent.ok {α : Type} {x : Compile α} {a : α} (hx : Silent x) (h : x g = (.ok a, g')) :
    Quiet g g' := by
  have := hx g
  rwa [h] at this

theorem lays_of_silent {st : Stmt} (hnone : st.lets g.structs = some [])
    (h : genStmt st g = (.ok (), g')) (hst : Silent (genStmt st)) :
    ∃ ds, st.lets g.structs = some ds ∧ Lays ds g g' :=
  ⟨[], hnone, (hst.ok h).lays⟩

/-- A block between code that leaves the frame alone. -/
theorem lays_between {body : List Stmt} (hbefore : Quiet g g₁)
    (hbody : ∃ ds, letsOf g₁.structs body = some ds ∧ Lays ds g₁ g₂) (hafter : Quiet g₂ g') :
    ∃ ds, letsOf g.structs body = some ds ∧ Lays ds g g' := by
  obtain ⟨ds, hlets, hlays⟩ := hbody
  rw [hbefore.structs] at hlets
  exact ⟨ds, hlets, (hbefore.trans_lays hlays).trans_quiet hafter⟩

mutual

/-- A statement does to the frame what its `let`s do. -/
theorem lays_genStmt : ∀ (st : Stmt) {g g' : Globals}, genStmt st g = (.ok (), g') →
    ∃ ds, st.lets g.structs = some ds ∧ Lays ds g g'
  | .store address value, g, g', h => lays_of_silent rfl h <|
      (silent_requireUnsafe _).bind fun _ => (silent_genExpr address).bind fun _ =>
        silent_genPlaceValue (fun _ => rfl) value
  | .trusted body, g, g', h => by
    obtain ⟨_, _, hget, h⟩ := Exec.bind_eq_ok h
    cases hget
    obtain ⟨_, g₁, hset, h⟩ := Exec.bind_eq_ok h
    obtain ⟨_, g₂, hbody, h⟩ := Exec.bind_eq_ok h
    exact lays_between ((silent_setUnsafe true).ok hset) (lays_genBlock body hbody)
      ((silent_setUnsafe _).ok h)
  | .declare name type init, g, g', h => by
    obtain ⟨t, _, htype, hrest⟩ := Exec.bind_eq_ok h
    obtain ⟨hty, rfl⟩ := genDeclaredType_ok htype
    obtain ⟨v, g₁, hdecl, hinit⟩ := Exec.bind_eq_ok hrest
    obtain ⟨hv, -⟩ := @declareVar_ok _ _ _ ⟨name, t, init.isNone⟩ hdecl
    subst hv
    refine ⟨[⟨name, t, init.isNone⟩], ?_, lays_genInit hdecl rfl hinit⟩
    rw [Stmt.lets, hty]
    rfl
  | .loop cond body, g, g', h => by
    obtain ⟨_, _, hpos, h⟩ := Exec.bind_eq_ok h
    cases hpos
    obtain ⟨je, ga, hcond, h⟩ := Exec.bind_eq_ok h
    obtain ⟨_, gb, hpush, h⟩ := Exec.bind_eq_ok h
    obtain ⟨_, gc, hbody, h⟩ := Exec.bind_eq_ok h
    have hafter : Silent (do
        emit jmpOpcode
        emit32 (rel32 g.textLen (← textPos))
        patchHere je
        patchLoopBreaks) :=
      .emit_bind fun _ => silent_textPos.bind fun _ => .emit_bind fun _ =>
        (silent_patchHere _).bind fun _ => silent_patchLoopBreaks
    exact lays_between (((silent_genCondition cond).ok hcond).trans (silent_pushLoop.ok hpush))
      (lays_genBlock body hbody) (hafter.ok h)
  | .leave, g, g', h => lays_of_silent rfl h <|
      .emit_bind fun _ => (silent_emitHole fun _ => rfl).bind fun _ => silent_addBreakPatch _
  | .branch cond body, g, g', h => by
    obtain ⟨je, ga, hcond, h⟩ := Exec.bind_eq_ok h
    obtain ⟨_, gb, hbody, h⟩ := Exec.bind_eq_ok h
    exact lays_between ((silent_genCondition cond).ok hcond) (lays_genBlock body hbody)
      ((silent_patchHere je).ok h)
  | .branchElse cond body other, g, g', h => by
    obtain ⟨je, ga, hcond, h⟩ := Exec.bind_eq_ok h
    obtain ⟨_, gb, hbody, h⟩ := Exec.bind_eq_ok h
    obtain ⟨_, gc, hjmp, h⟩ := Exec.bind_eq_ok h
    obtain ⟨jend, gd, hhole, h⟩ := Exec.bind_eq_ok h
    obtain ⟨_, ge, hpatch, h⟩ := Exec.bind_eq_ok h
    obtain ⟨_, gf, hother, h⟩ := Exec.bind_eq_ok h
    have hbetween := (((silent_emit _).ok hjmp).trans ((silent_emitHole fun _ => rfl).ok hhole)).trans
      ((silent_patchHere je).ok hpatch)
    obtain ⟨ds, hlets, hlays⟩ :=
      lays_between ((silent_genCondition cond).ok hcond) (lays_genBlock body hbody) hbetween
    obtain ⟨ds', hlets', hlays'⟩ :=
      lays_between (Quiet.refl ge) (lays_genBlock other hother) ((silent_patchHere jend).ok h)
    rw [hlays.structs] at hlets'
    refine ⟨ds ++ ds', ?_, hlays.trans hlays'⟩
    rw [Stmt.lets, hlets, hlets']
    rfl
  | .block body, g, g', h => lays_genBlock body h
  | .answer e, g, g', h => lays_of_silent rfl h <|
      (silent_genExpr e).bind fun _ => silent_emitReturnRax
  | .print chars, g, g', h => lays_of_silent rfl h <|
      (silent_requireUser _).bind fun _ => (silent_addData _).bind fun _ =>
        silent_emitWriteData _ _
  | .puti e, g, g', h => lays_of_silent rfl h <|
      (silent_requireUser _).bind fun _ => (silent_genExpr e).bind fun _ => silent_emitPutiRax
  | .effect e, g, g', h => lays_of_silent rfl h <|
      (silent_genExpr e).bind fun _ => .pure _
  | .assign name e, g, g', h => by
    obtain ⟨v, ga, hlook, h⟩ := Exec.bind_eq_ok h
    obtain ⟨_, gb, hexpr, h⟩ := Exec.bind_eq_ok h
    have hbefore := ((silent_lookupVar name).ok hlook).trans ((silent_genExpr e).ok hexpr)
    have hv : v ∈ gb.vars := by
      have hanswer := Exec.answer_eq_some.mpr hlook
      rw [answer_lookupVar, Option.map_eq_some_iff] at hanswer
      obtain ⟨_, hfind, heq⟩ := hanswer
      cases heq
      rw [hbefore.vars]
      exact List.mem_of_find?_eq_some hfind
    have hstore := lays_emitStore hv
    rw [h] at hstore
    exact ⟨[], rfl, hbefore.trans_lays hstore⟩
  | .assignElement name index e, g, g', h => lays_of_silent rfl h <|
      (silent_lookupVar _).bind fun _ => (silent_genExpr index).bind fun _ => .emit_bind fun _ =>
        silent_genPlaceValue (fun _ => rfl) e
  | .assignField name field e, g, g', h => lays_of_silent rfl h <|
      (silent_lookupVar _).bind fun _ => (silent_genField _ _).bind fun _ => .emit_bind fun _ =>
        silent_genPlaceValue (fun _ => rfl) e

/-- What a block does to the frame follows from its `let`s. -/
theorem lays_genBlock : ∀ (body : List Stmt) {g g' : Globals}, genBlock body g = (.ok (), g') →
    ∃ ds, letsOf g.structs body = some ds ∧ Lays ds g g'
  | [], g, g', h => by
    cases h
    exact ⟨[], rfl, (Quiet.refl g).lays⟩
  | st :: body, g, g', h => by
    obtain ⟨_, g₁, hst, hbody⟩ := Exec.bind_eq_ok h
    obtain ⟨ds, hlets, hlays⟩ := lays_genStmt st hst
    obtain ⟨ds', hlets', hlays'⟩ := lays_genBlock body hbody
    rw [hlays.structs] at hlets'
    refine ⟨ds ++ ds', ?_, hlays.trans hlays'⟩
    rw [letsOf, hlets, hlets']
    rfl

end

end OreOS.Orec
