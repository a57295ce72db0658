import OreOS.Laws.Orec.Stable
import OreOS.Laws.Orec.Syntax

/-!
# What whole runs of the compiler keep (`user/orec.c`)

The scans, the functions and the last patches, on top of the rule for blocks. A function that
is compiled is one whose body is read and generated.
The rule for a property of what was emitted (`Plain`) asks nothing about the
places of patches: that the breaks of the loop stack have their holes in the log
is carried along.
-/

namespace OreOS.Orec

open OreOS.Lib (Exec)
open OreOS.Lib.Exec (Keeps)

/-! ## Scans -/

section Types

variable {I : Globals → Prop} {α : Type} (hputs : ∀ s, Keeps I (puts s))
include hputs

theorem keeps_expect (found : Option α) (message : String) : Keeps I (expect found message) := by
  cases found with
  | none => exact keeps_reject hputs message
  | some a => exact .pure a

theorem keeps_arrayCount (s : Source) : Keeps I (arrayCount s) :=
  (keeps_expect hputs _ _).bind fun _ => .pure _

theorem keeps_namedType {type : Parser} (htype : ∀ s, Keeps I (type s)) (name : Name) (s : Source) :
    Keeps I (namedType type name s) := by
  unfold namedType
  cases scalarType name with
  | some t => exact .pure _
  | none =>
    refine .ite (fun _ => ?_) fun _ => ?_
    · refine (keeps_expect hputs _ _).bind fun s => (htype s).bind fun ⟨base, s⟩ => ?_
      exact (keeps_expect hputs _ _).bind fun _ => .pure _
    · refine .get_bind fun g hg => ?_
      cases findStruct name g.structs with
      | none => exact keeps_rejectName hputs _ _ g hg
      | some found => exact hg

theorem keeps_parseType (n : Nat) (p : Source) : Keeps I (parseType n p) := by
  induction n generalizing p with
  | zero => exact .throw _
  | succ n ih =>
    refine .ite (fun _ => ?_) fun _ => ?_
    · refine (keeps_arrayCount hputs _).bind fun ⟨count, s⟩ => ?_
      refine (ih s).bind fun ⟨elem, s⟩ => ?_
      exact .pure _
    · split
      next => exact .throw _
      next name s _ =>
        refine (keeps_namedType hputs ih name s).bind fun ⟨t, s⟩ => ?_
        refine .ite (fun _ => ?_) fun _ => .pure _
        refine (keeps_arrayCount hputs _).bind fun ⟨count, s⟩ => ?_
        exact .pure _

end Types

/-- A property that the scans keep. A function has no address when it is entered
in the table. -/
structure StableScan (I : Globals → Prop) : Prop where
  puts : ∀ s, Keeps I (puts s)
  setStructs : ∀ g structs, I g → I { g with structs := structs }
  noFuncs : ∀ g, I g → I { g with funcs := [] }
  addFunc : ∀ f : Function, f.addr = 0 → Keeps I (addFunc f)

namespace StableScan

variable {I : Globals → Prop}

section

variable (h : StableScan I)
include h

theorem readAttr (attrs : Attrs) (attr : Name) : Keeps I (readAttr attrs attr) := by
  refine .ite (fun _ => .pure _) fun _ => .ite (fun _ => .pure _) fun _ => ?_
  refine .ite (fun _ => .pure _) fun _ => .ite (fun _ => .pure _) fun _ => ?_
  exact .ite (fun _ => .pure _) fun _ => keeps_rejectName h.puts _ _

theorem scanAttrs (n : Nat) (attrs : Attrs) (p : Source) : Keeps I (scanAttrs n attrs p) := by
  induction n generalizing attrs p with
  | zero => exact .throw _
  | succ n ih =>
    refine .ite (fun _ => ?_) fun _ => .pure _
    split
    next => exact (h.readAttr attrs _).bind fun attrs => ih attrs _
    next => exact (Keeps.pure _).bind fun attrs => ih attrs _

/-- A type that is followed by a message of its own when it is bad. -/
theorem tryType (n : Nat) (p : Source) (message : String) (fn : Name) :
    Keeps I (tryCatch (parseType n p) fun stop =>
      match stop with
      | .fuel => throw .fuel
      | .rejected => rejectName message fn) := by
  refine .tryCatch (keeps_parseType h.puts n p) fun stop => ?_
  cases stop with
  | fuel => exact .throw _
  | rejected => exact keeps_rejectName h.puts _ _

theorem scanParams (fn : Name) (n room : Nat) (params : List (Name × Ty)) (p : Source) :
    Keeps I (scanParams fn n room params p) := by
  induction room generalizing params p with
  | zero => exact keeps_reject h.puts _
  | succ room ih =>
    unfold Orec.scanParams
    split
    next => exact keeps_rejectName h.puts _ _
    next param p _ =>
      refine Keeps.bind ?_ ?_
      · exact .ite (fun _ => h.tryType n _ _ fn) fun _ => .pure _
      rintro ⟨t, p⟩
      refine .ite (fun _ => .pure _) fun _ => ?_
      exact .ite (fun _ => keeps_rejectName h.puts _ _) fun _ => ih _ _

theorem scanParamList (fn : Name) (n : Nat) (p : Source) : Keeps I (scanParamList fn n p) := by
  have hend : ∀ (params : List (Name × Ty)) (p : Source),
      Keeps I (if peek p ≠ ')' then rejectName "orec: expected ) in " fn
        else return (params, p.tail) : Compile (List (Name × Ty) × Source)) := fun _ _ =>
    .ite (fun _ => keeps_rejectName h.puts _ _) fun _ => .pure _
  refine .ite (fun _ => (h.scanParams fn n _ _ _).bind ?_) fun _ =>
    (Keeps.pure _).bind fun _ => hend _ _
  rintro ⟨params, p⟩
  exact hend params p

theorem scanBody {f : Function} (hf : f.addr = 0) (p : Source) : Keeps I (scanBody f p) := by
  refine .ite (fun _ => ?_) fun _ => ?_
  · exact (h.addFunc f hf).bind fun _ => .pure _
  · refine .ite (fun _ => keeps_rejectName h.puts _ _) fun _ => ?_
    split
    next => exact keeps_rejectName h.puts _ _
    next => exact (h.addFunc { f with isExtern := false, body := _ } hf).bind fun _ => .pure _

theorem scanFunction (n : Nat) (attrs : Attrs) (isExtern : Bool) (p : Source) :
    Keeps I (scanFunction n attrs isExtern p) := by
  refine .get_bind fun g hg => Exec.after_bind (keeps_rejectIf h.puts _ _ g hg) fun _ => ?_
  refine (keeps_expect h.puts _ _).bind fun ⟨name, p⟩ => ?_
  refine (keeps_expect h.puts _ _).bind fun p => (h.scanParamList name n p).bind fun ⟨params, p⟩ => ?_
  refine Keeps.bind ?_ ?_
  · exact .ite (fun _ => h.tryType n _ _ name) fun _ => .pure _
  rintro ⟨retType, p⟩
  exact h.scanBody rfl p

theorem scanFunctionsLoop (n : Nat) (p : Source) : Keeps I (scanFunctionsLoop n p) := by
  induction n generalizing p with
  | zero => exact .throw _
  | succ n ih =>
    refine .ite (fun _ => .pure _) fun _ => .ite (fun _ => ih _) fun _ => ?_
    refine .ite (fun _ => ih _) fun _ => (h.scanAttrs n _ _).bind fun ⟨attrs, p⟩ => ?_
    refine .ite (fun _ => ih _) fun _ => .ite (fun _ => ?_) fun _ => ih _
    exact (h.scanFunction n attrs _ _).bind fun p => ih p

theorem scanFunctions_empty (n : Nat) (p : Source) {g : Globals} (hg : I { g with funcs := [] }) :
    I (scanFunctions n p g).2 := by
  refine @Exec.after_bind _ _ _ _ (modify fun g : Globals => { g with funcs := [] }) _ g I hg
    fun _ => ?_
  refine (h.scanFunctionsLoop n p).bind fun _ => .get_bind fun g hg => ?_
  cases findFunc (if g.kmodTarget then moduleInitName else mainName) g.funcs with
  | none => exact hg
  | some found => exact hg

theorem scanFunctions (n : Nat) (p : Source) : Keeps I (scanFunctions n p) :=
  fun g hg => h.scanFunctions_empty n p (h.noFuncs g hg)

end

end StableScan

/-! ## Targets -/

section Targets

variable {I : Globals → Prop}

section

variable (hputs : ∀ s, Keeps I (puts s))
include hputs

theorem keeps_checkKernelFunctions (fs : List Function) : Keeps I (checkKernelFunctions fs) := by
  induction fs with
  | nil => exact .pure ()
  | cons f fs ih =>
    refine .ite (fun _ => keeps_rejectName hputs _ _) fun _ => ?_
    exact .ite (fun _ => keeps_rejectName hputs _ _) fun _ => ih

theorem keeps_checkUserFunctions (fs : List Function) : Keeps I (checkUserFunctions fs) := by
  induction fs with
  | nil => exact .pure ()
  | cons f fs ih => exact .ite (fun _ => keeps_rejectName hputs _ _) fun _ => ih

theorem keeps_validateKernelTarget : Keeps I validateKernelTarget := by
  refine .get_bind fun g hg => ?_
  cases findFunc moduleInitName g.funcs with
  | none => exact keeps_reject hputs _ g hg
  | some found =>
    refine Exec.after_bind (keeps_rejectIf hputs _ _ g hg) fun _ => ?_
    refine (keeps_rejectIf hputs _ _).bind fun _ => (keeps_rejectIf hputs _ _).bind fun _ => ?_
    exact keeps_checkKernelFunctions hputs _

theorem keeps_validateTarget : Keeps I validateTarget := by
  refine .get_bind fun g hg => ?_
  split
  · exact keeps_validateKernelTarget hputs g hg
  · exact keeps_checkUserFunctions hputs _ g hg

end

end Targets

/-! ## Functions -/

theorem genFunction_of_ok {n index : Nat} {fn : Function} {g g' : Globals}
    (h : compileFunction n index fn g = (.ok (), g')) :
    ∃ r, readBlock n fn.body = some r ∧ genFunction index fn r.1 g = (.ok (), g') := by
  have hanswer := Exec.answer_eq_some.mpr h
  rw [answer_compileFunction] at hanswer
  obtain ⟨r, hread, hgen⟩ := Option.bind_eq_some_iff.mp hanswer
  exact ⟨r, hread, Exec.answer_eq_some.mp hgen⟩

namespace StableStmt

variable {kmod : Bool} {I : Globals → Prop}

/-- Together with a property of the function table and the function that is
compiled, which statements leave alone. -/
theorem within (h : StableStmt kmod I) {J : Globals → Prop}
    (hJ : ∀ g g', g'.funcs = g.funcs → g'.currentFunc = g.currentFunc → J g → J g') :
    StableStmt kmod fun g => I g ∧ J g where
  toEmitsStmt := h.toEmitsStmt.and fun hext => hJ _ _ hext.funcs hext.current
  patch patch value g hg hlog := ⟨h.patch patch value g hg.1 hlog, hJ g _ rfl rfl hg.2⟩
  setUnsafe g isUnsafe hg := ⟨h.setUnsafe g isUnsafe hg.1, hJ g _ rfl rfl hg.2⟩
  breaks g hg := h.breaks g hg.1
  setLoops g loops hg hlog := ⟨h.setLoops g loops hg.1 hlog, hJ g _ rfl rfl hg.2⟩

theorem leaves_emitPrologue (h : StableStmt kmod I) :
    Exec.Leaves I (fun patch g => Event.hole patch ∈ g.log) emitPrologue := by
  refine (h.emit _).bind_leaves fun _ => h.leaves_emitHole.bind fun patch => ?_
  exact ((h.logged _).emit _).bind_leaves fun _ => Exec.Leaves.pure fun g hg => hg.2

theorem compileParams (h : StableStmt kmod I) (i : Nat) (params : List (Name × Ty)) :
    Keeps I (compileParams i params) := by
  induction params generalizing i with
  | nil => exact .pure ()
  | cons param params ih =>
    refine (h.addVar param.1 param.2).bind fun found => ?_
    cases found with
    | none => exact .throw _
    | some v => exact (h.emitStore_var (by simp) _).bind fun _ => ih (i + 1)

/-- The end of `main` is in `main`. -/
theorem emitFunctionEnd (h : StableStmt kmod I) {name : Name}
    (hmain : ∀ g, I g → name = mainName → inMain g = true) : Keeps I (emitFunctionEnd name) := by
  refine .ite (fun hname g hg => ?_) fun _ => h.emit _
  exact h.emit_emitSyscall hg (.inr (hmain g hg hname))

variable {index : Nat} {fn : Function} {g : Globals}

/-- The function that was begun is the one that is compiled. -/
theorem inMain_beginFunction (hindex : index < g.funcs.length) :
    inMain (beginFunction index fn g) = decide (fn.name = mainName) := by
  simp [inMain, beginFunction, hindex]

/-- The parts of a function that was compiled, with what holds before its end. -/
theorem compileFunction_ok (h : StableStmt kmod I) {n : Nat} {g' : Globals}
    (hbegin : I (beginFunction index fn g))
    (hrun : Orec.compileFunction n index fn g = (.ok (), g')) :
    ∃ framePatch g₁ g₂ value, I g₁ ∧ Event.hole framePatch ∈ g₁.log ∧
      Orec.emitFunctionEnd fn.name g₁ = (.ok (), g₂) ∧
      g' = { (patch32 framePatch value g₂).2 with functionUnsafe := false } := by
  obtain ⟨⟨body, _⟩, -, hrun⟩ := genFunction_of_ok hrun
  obtain ⟨_, _, hset, hrun⟩ := Exec.bind_eq_ok hrun
  cases hset
  obtain ⟨framePatch, ga, hprologue, hrun⟩ := Exec.bind_eq_ok hrun
  obtain ⟨_, gb, hparams, hrun⟩ := Exec.bind_eq_ok hrun
  obtain ⟨_, g₁, hblock, hrun⟩ := Exec.bind_eq_ok hrun
  obtain ⟨_, g₂, hend, hrun⟩ := Exec.bind_eq_ok hrun
  obtain ⟨ha, hlog⟩ := h.leaves_emitPrologue _ hbegin
  rw [hprologue] at ha
  have hb := (h.logged _).compileParams 0 fn.params ga ⟨ha, hlog framePatch ga hprologue⟩
  rw [hparams] at hb
  have h₁ := genBlock body (h.logged _) gb hb
  rw [hblock] at h₁
  cases hrun
  exact ⟨framePatch, g₁, g₂, _, h₁.1, h₁.2, hend, rfl⟩

/-- A function keeps what holds when it was begun. -/
theorem compileFunction (h : StableStmt kmod I) {n : Nat} {g' : Globals}
    (hindex : index < g.funcs.length) (hbegin : I (beginFunction index fn g))
    (hrun : Orec.compileFunction n index fn g = (.ok (), g')) : I g' := by
  -- the name of the function is known throughout, for the end of `main`
  have hin : StableStmt kmod fun g' => I g' ∧ inMain g' = decide (fn.name = mainName) :=
    h.within fun g g' hfuncs hcurrent hmain => by
      rw [← hmain, inMain, inMain, hfuncs, hcurrent]
  obtain ⟨framePatch, g₁, g₂, value, h₁, hhole, hend, rfl⟩ :=
    hin.compileFunction_ok ⟨hbegin, inMain_beginFunction hindex⟩ hrun
  have h₂ := (hin.logged (.hole framePatch)).emitFunctionEnd
    (fun g' hg' hname => hg'.1.2.trans (decide_eq_true hname)) g₁ ⟨h₁, hhole⟩
  rw [hend] at h₂
  exact h.setUnsafe _ false (h.patch framePatch value g₂ h₂.1.1 h₂.2)

end StableStmt

variable {n : Nat} {g g' : Globals}

/-- What each function leaves is left by all. -/
theorem compileFunctions_ok {P : Globals → Prop} {size : Nat} {fns : List Function}
    (hstep : ∀ index fn g g', index < size → fn ∈ fns → fn.isExtern = false → P g →
      compileFunction n index fn g = (.ok (), g') → P g') {index : Nat}
    (hlen : index + fns.length ≤ size) (hg : P g)
    (hrun : compileFunctions n index fns g = (.ok (), g')) : P g' := by
  induction fns generalizing index g with
  | nil =>
    cases hrun
    exact hg
  | cons fn fns ih =>
    rw [List.length_cons] at hlen
    have htail := fun index fn' g g' hindex hmem =>
      hstep index fn' g g' hindex (List.mem_cons_of_mem fn hmem)
    change (if fn.isExtern then _ else _ : Compile Unit) g = _ at hrun
    split at hrun
    next => exact ih htail (by omega) hg hrun
    next hdef =>
      obtain ⟨_, g₁, hone, hrest⟩ := Exec.bind_eq_ok hrun
      have h₁ := hstep index fn g g₁ (by omega) List.mem_cons_self (Bool.eq_false_iff.mpr hdef) hg hone
      exact ih htail (by omega) h₁ hrest

/-- What holds between the functions, when each of them begins with what its
statements keep and ends with it. -/
theorem StableStmt.compileFunctions {kmod : Bool} {I P : Globals → Prop} (h : StableStmt kmod I)
    {index : Nat} {fns : List Function}
    (hbegin : ∀ index fn g, fn ∈ fns → fn.isExtern = false → P g → I (beginFunction index fn g))
    (hend : ∀ g, I g → P g) (hlen : index + fns.length ≤ g.funcs.length) (hg : P g)
    (hrun : Orec.compileFunctions n index fns g = (.ok (), g')) : P g' := by
  -- the table keeps its length
  have hlength : StableStmt kmod fun g' => I g' ∧ g'.funcs.length = g.funcs.length :=
    h.within fun _ _ hfuncs _ hl => by rw [hfuncs, hl]
  refine (compileFunctions_ok (P := fun g' => P g' ∧ g'.funcs.length = g.funcs.length)
    (fun index fn g₁ g₂ hindex hmem hdef hg₁ hone => ?_) hlen ⟨hg, rfl⟩ hrun).1
  obtain ⟨hI, hl⟩ := hlength.compileFunction (hg₁.2 ▸ hindex)
    ⟨hbegin index fn g₁ hmem hdef hg₁.1, List.length_set.trans hg₁.2⟩ hone
  exact ⟨hend g₂ hI, hl⟩

/-! ## Properties of what was emitted -/

/-- A property that does not look at the text, the loop stack or the flag, and
that the emitters keep. -/
structure Plain (kmod : Bool) (I : Globals → Prop) : Prop extends EmitsStmt kmod I where
  blind : ∀ g text loops isUnsafe, I g →
    I { g with text := text, loops := loops, functionUnsafe := isUnsafe }

theorem BreaksLogged.extends (h : BreaksLogged g g.loops) (he : Extends g g') :
    BreaksLogged g' g'.loops := by
  rw [he.loops]
  exact fun breaks hb patch hp => he.mem (h breaks hb patch hp)

/-- The breaks of the loop stack are carried along. -/
theorem Plain.stableStmt {kmod : Bool} {I : Globals → Prop} (h : Plain kmod I) :
    StableStmt kmod fun g => I g ∧ BreaksLogged g g.loops where
  toEmitsStmt := h.toEmitsStmt.and fun hext hbreaks => hbreaks.extends hext
  patch _ _ g hg _ := ⟨h.blind g _ g.loops g.functionUnsafe hg.1, hg.2⟩
  setUnsafe g isUnsafe hg := ⟨h.blind g g.text g.loops isUnsafe hg.1, hg.2⟩
  breaks _ hg := hg.2
  setLoops g loops hg hlog := ⟨h.blind g g.text loops g.functionUnsafe hg.1, hlog⟩

/-! ## The phases of `compile_source` -/

theorem validateTarget_ok (h : validateTarget g = (.ok (), g')) :
    ∃ out, g' = { g with out := out } := by
  have hkeeps : Keeps (fun g' => ∃ out, g' = { g with out := out }) validateTarget :=
    keeps_validateTarget fun s g' ⟨out, hout⟩ => ⟨out ++ s, by rw [hout]; rfl⟩
  have hg := hkeeps g ⟨g.out, rfl⟩
  rwa [h] at hg

/-- Nothing has been emitted yet. -/
structure Fresh (kmod : Bool) (g : Globals) : Prop where
  target : g.kmodTarget = kmod
  textLen : g.textLen = 0
  dataLen : g.dataLen = 0
  calls : g.calls = []
  dataRefs : g.dataRefs = []
  loops : g.loops = []
  log : g.log = []

theorem Fresh.not_mem_log {kmod : Bool} (h : Fresh kmod g) (e : Event) : e ∉ g.log := by
  rw [h.log]
  exact List.not_mem_nil

theorem Fresh.breaksLogged {kmod : Bool} (h : Fresh kmod g) : BreaksLogged g g.loops := by
  rw [h.loops]
  exact fun _ hb => absurd hb List.not_mem_nil

theorem stableScan_fresh (kmod : Bool) : StableScan (Fresh kmod) where
  puts _ _ hg := ⟨hg.1, hg.2, hg.3, hg.4, hg.5, hg.6, hg.7⟩
  setStructs _ _ hg := ⟨hg.1, hg.2, hg.3, hg.4, hg.5, hg.6, hg.7⟩
  noFuncs _ hg := ⟨hg.1, hg.2, hg.3, hg.4, hg.5, hg.6, hg.7⟩
  addFunc _ _ _ hg := ⟨hg.1, hg.2, hg.3, hg.4, hg.5, hg.6, hg.7⟩

theorem stableScan_addr : StableScan fun g => ∀ f ∈ g.funcs, f.addr = 0 where
  puts _ _ hg := hg
  setStructs _ _ hg := hg
  noFuncs _ _ := fun _ hf => absurd hf List.not_mem_nil
  addFunc f hf g hg := fun f' hf' => by
    rcases List.mem_append.mp hf' with hf' | hf'
    · exact hg f' hf'
    · rw [List.mem_singleton.mp hf', hf]

theorem scanned_ok {scan : Compile Unit} {message : String}
    (h : scanned scan message g = (.ok (), g')) : scan g = (.ok (), g') := by
  rcases hrun : scan g with ⟨stop | _, g₁⟩
  · rw [scanned, Exec.tryCatch_error hrun] at h
    cases stop with
    | fuel => cases h
    | rejected => cases h
  · rw [scanned, Exec.tryCatch_ok hrun] at h
    exact h

variable {p : Source}

/-- The structs are laid out as they are read, and the functions are entered. -/
theorem StableScan.scanSource_ok {I : Globals → Prop} (h : StableScan I) {g₁ : Globals}
    (hrun : scanSource n p g = (.ok (), g₁)) (hg : I g) : I g₁ := by
  obtain ⟨_, gs, hstructs, hfuncs⟩ := Exec.bind_eq_ok hrun
  have hanswer := Exec.answer_eq_some.mpr (scanned_ok hstructs)
  rw [answer_scanStructs] at hanswer
  obtain ⟨ds, -, hlay⟩ := Option.bind_eq_some_iff.mp hanswer
  obtain ⟨structs, -, heq⟩ := Option.map_eq_some_iff.mp hlay
  cases heq
  have hkept := h.scanFunctions n p _ (h.setStructs g structs hg)
  rwa [scanned_ok hfuncs] at hkept

/-- The functions of the table have no address before they are compiled. -/
theorem scanSource_addr {g₁ : Globals} (h : scanSource n p g = (.ok (), g₁)) :
    ∀ f ∈ g₁.funcs, f.addr = 0 := by
  obtain ⟨_, g', _, hfuncs⟩ := Exec.bind_eq_ok h
  have haddr := stableScan_addr.scanFunctions_empty n p (g := g') fun f hf =>
    absurd hf List.not_mem_nil
  rw [scanned_ok hfuncs] at haddr
  exact haddr

variable {g₀ : Globals}

/-- The functions are compiled from a fresh start, as the scans found them. -/
theorem fresh_of_scan {g₁ g₂ : Globals} (hscan : scanSource n p (reset g₀) = (.ok (), g₁))
    (hvalid : validateTarget g₁ = (.ok (), g₂)) :
    Fresh g₀.kmodTarget g₂ ∧ g₂.funcs = declared n p g₀ := by
  have hfresh := (stableScan_fresh g₀.kmodTarget).scanSource_ok hscan
    ⟨rfl, rfl, rfl, rfl, rfl, rfl, rfl⟩
  obtain ⟨out, rfl⟩ := validateTarget_ok hvalid
  rw [declared, hscan]
  exact ⟨⟨hfresh.1, hfresh.2, hfresh.3, hfresh.4, hfresh.5, hfresh.6, hfresh.7⟩, rfl⟩

theorem patchStub_ok (h : patchStub g = (.ok (), g')) : ∃ text, g' = { g with text := text } := by
  change (if g.kmodTarget then _ else _ : Compile Unit) g = _ at h
  split at h
  · cases h
    exact ⟨g.text, rfl⟩
  · cases h
    exact ⟨_, rfl⟩

theorem patchCalls_ok {calls : List CallPatch} (h : patchCalls calls g = (.ok (), g')) :
    ∃ text, g' = { g with text := text } := by
  induction calls generalizing g with
  | nil => exact ⟨g.text, (congrArg Prod.snd h).symm⟩
  | cons c calls ih =>
    obtain ⟨text, hg'⟩ :=
      @ih { g with text := g.text.put c.patch (disp32 (rel32 (funcAddr g c.fn) c.patch)) } h
    exact ⟨text, hg'⟩

/-- The phases of a run that answers, with the globals between them. -/
theorem compileSource_ok (h : compileSource n p g₀ = (.ok (), g)) :
    ∃ g₁ g₂ g₃ g₄, scanSource n p (reset g₀) = (.ok (), g₁) ∧ validateTarget g₁ = (.ok (), g₂) ∧
      (do startStub; compileFunctions n 0 (← get).funcs : Compile Unit) g₂ = (.ok (), g₃) ∧
      patchStub g₃ = (.ok (), g₄) ∧ patchCalls g₄.calls g₄ = (.ok (), g) := by
  obtain ⟨_, _, hreset, h⟩ := Exec.bind_eq_ok h
  cases hreset
  obtain ⟨_, g₁, hscan, h⟩ := Exec.bind_eq_ok h
  obtain ⟨_, g₂, hvalid, h⟩ := Exec.bind_eq_ok h
  obtain ⟨_, gs, hstub, h⟩ := Exec.bind_eq_ok h
  obtain ⟨_, g₃, hfuncs, h⟩ := Exec.bind_eq_ok (x := compileFunctions n 0 gs.funcs) h
  obtain ⟨_, g₄, hpatch, h⟩ := Exec.bind_eq_ok h
  exact ⟨g₁, g₂, g₃, g₄, hscan, hvalid, (Exec.bind_ok hstub).trans hfuncs, hpatch, h⟩

theorem compileSource_of_ok (h : (compileSource n p g₀).1 = .ok ()) :
    compileSource n p g₀ = (.ok (), (compileSource n p g₀).2) :=
  Prod.ext h rfl

end OreOS.Orec
