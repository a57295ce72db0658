import OreOS.Laws.Orec.Frames
import OreOS.Laws.Orec.Generation
import OreOS.Laws.Orec.Holes

/-!
# The slots of a frame (`user/orec.c`)

`add_var_type` gives each variable the bytes below those of the last one, in
sums of 32 bits, which are right as long as the frame has less than 2 GiB. A
`let` of a name that is there takes the slot of that name, whatever type is
written, and clears as many words as the written type has: a larger type clears
other variables, the saved registers and the return address.
-/

namespace OreOS.Orec

open OreOS.Lib (Buf Exec)

/-! ## Bytes of variables -/

/-- The bytes of a variable of this type: its size, or 8 for none, in whole words. -/
def Ty.need (t : Ty) : Nat :=
  ((if t.size = 0 then 8 else t.size.toNat) + 7) / 8 * 8

theorem Ty.need_bounds (t : Ty) : 8 ≤ t.need ∧ t.size.toNat ≤ t.need ∧ t.need ≤ 2 ^ 32 := by
  have hlt := t.size.isLt
  unfold Ty.need
  split
  next hzero => simp [hzero]
  next hsize =>
    have hpos : t.size.toNat ≠ 0 := fun h => hsize (BitVec.eq_of_toNat_eq h)
    omega

/-- What `add_var_type` reserves is this, in 32 bits. -/
theorem alignUpU32_eq_need (t : Ty) : alignUpU32 (orElse t.size 8) 8 = BitVec.ofNat 32 t.need := by
  apply BitVec.eq_of_toNat_eq
  unfold alignUpU32 orElse Ty.need
  by_cases hzero : t.size = 0
  · rw [if_neg (not_not_intro hzero), if_pos hzero]
    rfl
  · rw [if_pos hzero, if_neg hzero, if_neg (by decide)]
    simp
    omega

theorem slotsOf_eq (t : Ty) : 8 * slotsOf t = t.need % 2 ^ 32 := by
  unfold slotsOf
  rw [alignUpU32_eq_need]
  have hneed : t.need % 8 = 0 := Nat.mul_mod_left _ _
  simp
  omega

/-- The bytes of a frame: the saved `rbx` and the variables. -/
def Frame.bytes (frame : Frame) : Nat :=
  8 + (frame.vars.map fun v => v.type.need).sum

theorem Frame.bytes_add (frame : Frame) (name : Name) (t : Ty) :
    (frame.add name t).bytes = frame.bytes + t.need := by
  rw [bytes, bytes, add, List.map_append, List.sum_append, ← Nat.add_assoc]
  rfl

/-- A frame that variables were added to. -/
inductive Stacked : Frame → Prop
  | empty : Stacked ⟨[], 8⟩
  | add {frame : Frame} (h : Stacked frame) (name : Name) (t : Ty) : Stacked (frame.add name t)

theorem Stacked.declareAll {frame : Frame} (h : Stacked frame) (ds : List Declared) :
    Stacked (frame.declareAll ds) := by
  induction ds generalizing frame with
  | nil => exact h
  | cons d ds ih =>
    refine ih ?_
    unfold Frame.declare
    split
    next => exact h
    next => exact h.add _ _

/-- The frame that a function begins with. -/
def paramFrame (params : List (Name × Ty)) : Frame :=
  params.foldl (fun frame p => frame.add p.1 p.2) ⟨[], 8⟩

theorem stacked_paramFrame (params : List (Name × Ty)) : Stacked (paramFrame params) := by
  have hfold : ∀ (params : List (Name × Ty)) (frame : Frame), Stacked frame →
      Stacked (params.foldl (fun frame p => frame.add p.1 p.2) frame) := by
    intro params
    induction params with
    | nil => exact fun _ h => h
    | cons p params ih => exact fun frame h => ih _ (h.add p.1 p.2)
  exact hfold params _ .empty

theorem Stacked.size_eq {frame : Frame} (h : Stacked frame) :
    frame.size = BitVec.ofNat 32 frame.bytes := by
  induction h with
  | empty => rfl
  | @add frame h name t ih =>
    rw [Frame.bytes_add, BitVec.ofNat_add, ← ih, ← alignUpU32_eq_need]
    rfl

/-! ## Where the slots are -/

/-- Where a variable begins, relative to `rbp`. -/
def Var.start (v : Var) : Int :=
  (-v.offset).toInt

theorem toInt_neg_ofNat (b : Nat) : (-(BitVec.ofNat 32 b)).toInt = Int.bmod (-(b : Int)) (2 ^ 32) := by
  have hint : -(BitVec.ofNat 32 b) = BitVec.ofInt 32 (-(b : Int)) := by
    rw [BitVec.ofInt_neg, BitVec.ofInt_natCast]
  rw [hint, BitVec.toInt_ofInt]

theorem Stacked.start_fresh {frame : Frame} (h : Stacked frame) (name : Name) (t : Ty) :
    (frame.fresh name t).start = Int.bmod (-((frame.bytes + t.need : Nat) : Int)) (2 ^ 32) := by
  have hoffset : (frame.fresh name t).offset = BitVec.ofNat 32 (frame.bytes + t.need) := by
    rw [BitVec.ofNat_add, ← h.size_eq, ← alignUpU32_eq_need]
    rfl
  rw [Var.start, hoffset, toInt_neg_ofNat]

/-- The slots of a frame that is not too large are one below the other. -/
theorem Stacked.slots {frame : Frame} (h : Stacked frame) (hsize : frame.bytes ≤ 2 ^ 31) :
    (∀ v ∈ frame.vars, -(frame.bytes : Int) ≤ v.start ∧ v.start + v.type.need ≤ -8) ∧
      frame.vars.Pairwise fun v w : Var => w.start + w.type.need ≤ v.start := by
  induction h with
  | empty => exact ⟨fun v hv => absurd hv List.not_mem_nil, List.Pairwise.nil⟩
  | @add frame h name t ih =>
    rw [Frame.bytes_add] at hsize ⊢
    obtain ⟨hin, hpair⟩ := ih (by omega)
    have hstart : (frame.fresh name t).start = -((frame.bytes + t.need : Nat) : Int) := by
      rw [h.start_fresh, Int.bmod_eq_of_le (by omega) (by omega)]
    have hbytes : 8 ≤ frame.bytes := Nat.le_add_right _ _
    have htype : (frame.fresh name t).type = t := rfl
    refine ⟨fun v hv => ?_, List.pairwise_append.mpr ⟨hpair, List.pairwise_singleton _ _, ?_⟩⟩
    · rcases List.mem_append.mp hv with hv | hv
      · have := hin v hv
        omega
      · rw [List.mem_singleton.mp hv, hstart, htype]
        omega
    · intro v hv w hw
      have := hin v hv
      rw [List.mem_singleton.mp hw, hstart, htype]
      omega

/-- A frame whose slots are below the saved `rbx` is not too large. -/
theorem Stacked.bytes_le {frame : Frame} (h : Stacked frame)
    (hin : ∀ v ∈ frame.vars, v.start + v.type.need ≤ -8) : frame.bytes ≤ 2 ^ 31 := by
  induction h with
  | empty => exact (by decide : 8 ≤ 2 ^ 31)
  | @add frame h name t ih =>
    have hbytes := ih fun v hv => hin v (List.mem_append_left _ hv)
    have hlast := hin _ (List.mem_append_right _ (List.mem_singleton_self _))
    have hneed := t.need_bounds
    have htype : (frame.fresh name t).type = t := rfl
    rw [h.start_fresh, htype, Int.bmod_def] at hlast
    rw [Frame.bytes_add]
    split at hlast <;> omega

/-! ## The frame of a function -/

/-- The bytes that the prologue reserves. -/
def frameSize (size : U32) : U32 :=
  alignUpU32 (size + 32) 16

theorem Stacked.toInt_frameSize {frame : Frame} (h : Stacked frame) (hsize : frame.bytes ≤ 2 ^ 31) :
    (frameSize frame.size).toInt = Int.bmod ((frame.bytes + 47) / 16 * 16 : Nat) (2 ^ 32) := by
  have hnat : (frameSize frame.size).toNat = (frame.bytes + 47) / 16 * 16 := by
    rw [frameSize, alignUpU32, if_neg (by decide), h.size_eq]
    simp
    omega
  rw [BitVec.toInt_eq_toNat_bmod, hnat]

/-- The slots of the variables, which cover the size of their types, are apart, in the
frame and below the saved `rbx`, and a direct store is in the slot of its variable. -/
structure SlotsKept (frame : U32) (vars : List Var) (stores : List Access) : Prop where
  apart : vars.Pairwise fun v w : Var =>
    v.start + v.type.need ≤ w.start ∨ w.start + w.type.need ≤ v.start
  inside : ∀ v ∈ vars, -frame.toInt ≤ v.start ∧ v.start + v.type.need ≤ -8
  stored : ∀ a ∈ stores, ∃ v ∈ vars, a.place.var = some v ∧
    ∃ o, a.place.disp = some o ∧ v.start ≤ o ∧ o + a.width ≤ v.start + v.type.need

/-- The frame is below 2 GiB, and a `let` that clears is of a type that is not larger
than that of its variable. -/
def FrameFits (params : List (Name × Ty)) (ds : List Declared) : Prop :=
  ((paramFrame params).declareAll ds).bytes ≤ 2 ^ 31 - 48 ∧
    ∀ p ∈ (paramFrame params).placed ds, p.2.cleared = true → 8 * slotsOf p.2.type ≤ p.1.type.need

/-! ## What a function does to its frame -/

theorem compileParams_ok {i : Nat} {params : List (Name × Ty)} {g g' : Globals}
    (h : compileParams i params g = (.ok (), g')) :
    g'.structs = g.structs ∧
      g'.frame = params.foldl (fun frame p => frame.add p.1 p.2) g.frame ∧
      g.vars <+: g'.vars ∧ ∃ new, g'.log = g.log ++ new ∧
        ∀ a ∈ directOf new, ∃ v ∈ g'.vars, ∃ k, a.place = .argument v k := by
  induction params generalizing i g with
  | nil =>
    cases h
    exact ⟨rfl, rfl, List.prefix_rfl, [], (List.append_nil _).symm,
      fun a ha => absurd ha List.not_mem_nil⟩
  | cons p params ih =>
    obtain ⟨found, g₁, hadd, hrest⟩ := Exec.bind_eq_ok h
    cases found with
    | none => cases hrest
    | some v =>
      obtain ⟨hv, hframe, hstructs, hlog⟩ := addVarType_ok hadd
      have hmem : v ∈ g₁.vars := by
        have hvars : g₁.vars = g.vars ++ [g.frame.fresh p.1 p.2] := congrArg Frame.vars hframe
        rw [hvars, hv]
        exact List.mem_append_right _ (List.mem_singleton_self _)
      have hgrow : g.vars <+: g₁.vars := by
        have hvars : g₁.vars = g.vars ++ [g.frame.fresh p.1 p.2] := congrArg Frame.vars hframe
        rw [hvars]
        exact List.prefix_append _ _
      have hrun : emitStore (.argument v i) p.2 g₁ =
          (.ok (), (g₁.logged (.access ⟨.argument v i, p.2, true, g₁.functionUnsafe⟩)).append
            (storeArg v.offset i)) :=
        (Exec.bind_ok (Exec.get_apply g₁)).trans ((Exec.bind_ok (note_eq _ _)).trans (emit_eq _ _))
      have hparams := (Exec.bind_ok hrun).symm.trans hrest
      obtain ⟨hstructs', hframe', hgrow', new, hnew, hall⟩ := ih hparams
      refine ⟨hstructs'.trans hstructs, ?_, hgrow.trans hgrow',
        .access ⟨.argument v i, p.2, true, g₁.functionUnsafe⟩ :: new, ?_, ?_⟩
      · rw [hframe', List.foldl_cons, ← hframe]
        rfl
      · rw [hnew, ← hlog]
        exact List.append_assoc _ _ _
      · intro a ha
        rcases List.mem_cons.mp ha with rfl | ha
        · exact ⟨v, hgrow'.mem hmem, i, rfl⟩
        · exact hall a ha

/-- The `let`s of a function. -/
def Function.lets (fn : Function) (n : Nat) (structs : List StructDef) : Option (List Declared) :=
  (readBlock n fn.body).bind fun r => letsOf structs r.1

/-- The direct stores of a function: those of its parameters, and what is due. -/
structure Stores (params : List (Name × Ty)) (ds : List Declared) (vars : List Var)
    (stores : List Access) : Prop where
  due : ∀ a ∈ stores, (∃ v ∈ vars, ∃ k, a.place = .argument v k) ∨
    Due vars ((paramFrame params).placed ds) a
  all : ∀ p ∈ (paramFrame params).placed ds, p.2.cleared = true → ∀ i < slotsOf p.2.type,
    ∃ a ∈ stores, a.place = .word p.1 i

theorem silent_emitFunctionEnd (name : Name) : Silent (emitFunctionEnd name) :=
  .ite ((silent_emit _).bind fun _ => silent_emitSyscall) (silent_emit _)

/-- What a function does to its frame. -/
theorem compileFunction_frame {n index : Nat} {fn : Function} {g g' : Globals}
    (h : compileFunction n index fn g = (.ok (), g')) :
    ∃ ds new, fn.lets n g.structs = some ds ∧ g'.log = g.log ++ new ∧
      g'.frame = (paramFrame fn.params).declareAll ds ∧ Stores fn.params ds g'.vars (directOf new) ∧
      (g.textLen + 11 ≤ textMax →
        g'.text.Holds (g.textLen + 7) (disp32 (frameSize g'.stackSize))) := by
  obtain ⟨⟨body, rest⟩, hread, h⟩ := genFunction_of_ok h
  obtain ⟨_, _, hbegin, h⟩ := Exec.bind_eq_ok h
  cases hbegin
  obtain ⟨framePatch, ga, hprologue, h⟩ := Exec.bind_eq_ok h
  obtain ⟨_, gb, hparams, h⟩ := Exec.bind_eq_ok h
  obtain ⟨_, gc, hblock, h⟩ := Exec.bind_eq_ok h
  obtain ⟨_, gd, hend, h⟩ := Exec.bind_eq_ok h
  cases h
  have hsilent : Silent emitPrologue :=
    (silent_emit _).bind fun _ => (silent_emitHole fun _ => rfl).bind fun _ =>
      (silent_emit _).bind fun _ => .pure _
  have ha := hsilent.ok hprologue
  obtain ⟨hstructs, hframe, -, new₁, hnew₁, hargs⟩ := compileParams_ok hparams
  obtain ⟨ds, hlets, hlays⟩ := lays_genBlock body hblock
  have hd := (silent_emitFunctionEnd fn.name).ok hend
  obtain ⟨new₀, hnew₀, hquiet₀⟩ := ha.log
  obtain ⟨new₂, hnew₂, hdue, hall⟩ := (hlays.trans_quiet hd).log
  have hga : ga.frame = ⟨[], 8⟩ := by
    rw [Globals.frame, ha.vars, ha.stackSize]
    rfl
  have hgb : gb.frame = paramFrame fn.params := by
    rw [hframe, hga]
    rfl
  have hvars : gb.vars <+: gd.vars := by
    have := Frame.prefix_declareAll gb.frame ds
    rw [← (hlays.trans_quiet hd).frame] at this
    exact this
  refine ⟨ds, new₀ ++ new₁ ++ new₂, ?_, ?_, ?_, ⟨?_, ?_⟩, fun hroom => ?_⟩
  · rw [hstructs, ha.structs] at hlets
    rw [Function.lets, hread]
    exact hlets
  · change gd.log = _
    simp only [hnew₂, hnew₁, hnew₀, List.append_assoc]
    rfl
  · change gd.frame = _
    rw [(hlays.trans_quiet hd).frame, hgb]
  · rw [directOf_append, directOf_append, hquiet₀, List.nil_append, ← hgb]
    intro a ha
    rcases List.mem_append.mp ha with ha | ha
    · obtain ⟨v, hv, hplace⟩ := hargs a ha
      exact .inl ⟨v, hvars.mem hv, hplace⟩
    · exact .inr (hdue a ha)
  · rw [directOf_append, ← hgb]
    intro p hp hcleared i hi
    obtain ⟨a, ha, hplace⟩ := hall p hp hcleared i hi
    exact ⟨a, List.mem_append_right _ ha, hplace⟩
  · have hpatch : framePatch = g.textLen + 7 := by
      rw [emitPrologue, Exec.bind_ok (emit_eq _ _), Exec.bind_ok (emitHole_eq _ _),
        Exec.bind_ok (emit_eq _ _)] at hprologue
      cases hprologue
      rw [Globals.textLen_append]
      change g.textLen + min 7 (textMax - g.textLen) = _
      omega
    rw [← hpatch]
    exact Buf.holds_put _ _ _

/-! ## When the slots are kept -/

theorem Frame.placed_mem {frame : Frame} {ds : List Declared} {p : Var × Declared}
    (h : p ∈ frame.placed ds) : p.1 ∈ (frame.declareAll ds).vars := by
  induction ds generalizing frame with
  | nil => exact absurd h List.not_mem_nil
  | cons d ds ih =>
    rcases List.mem_cons.mp h with rfl | h
    · exact ((frame.declare d).prefix_declareAll ds).mem (frame.varOf_mem d)
    · exact ih h

/-- A store to a whole variable or of a parameter is at the slot and not larger. -/
theorem width_le_need {a : Access} {v : Var}
    (hplace : a.place = .whole v ∨ ∃ k, a.place = .argument v k) :
    a.place.var = some v ∧ a.place.disp = some v.start ∧ a.width ≤ v.type.need := by
  have hneed := v.type.need_bounds
  rcases hplace with hplace | ⟨k, hplace⟩
  · refine ⟨by rw [hplace]; rfl, by rw [hplace]; rfl, ?_⟩
    rw [Access.width, hplace]
    dsimp only
    split
    · omega
    · split <;> omega
  · refine ⟨by rw [hplace]; rfl, by rw [hplace]; rfl, ?_⟩
    rw [Access.width, hplace]
    exact hneed.1

/-- Where a word of a variable is. -/
theorem disp_word (v : Var) (i : Nat) :
    Place.disp (.word v i) = some (Int.bmod (v.start + 8 * i) (2 ^ 32)) := by
  have hneg : -(v.offset - BitVec.ofNat 32 (8 * i)) = -v.offset + BitVec.ofNat 32 (8 * i) := by
    rw [BitVec.neg_sub, BitVec.add_comm]
  have hword : (BitVec.ofNat 32 (8 * i)).toInt = Int.bmod (8 * i) (2 ^ 32) := by
    rw [← BitVec.ofInt_natCast, BitVec.toInt_ofInt]
    rfl
  rw [Place.disp, hneg, BitVec.toInt_add, hword, Int.add_bmod_bmod]
  rfl

section

variable {params : List (Name × Ty)} {ds : List Declared} {stores : List Access}
  (hstores : Stores params ds ((paramFrame params).declareAll ds).vars stores)
include hstores

/-- A frame that fits keeps its slots. -/
theorem FrameFits.slotsKept (h : FrameFits params ds) :
    SlotsKept (frameSize ((paramFrame params).declareAll ds).size)
      ((paramFrame params).declareAll ds).vars stores := by
  obtain ⟨hbytes, hcleared⟩ := h
  have hstacked := (stacked_paramFrame params).declareAll ds
  obtain ⟨hin, hpair⟩ := hstacked.slots (by omega)
  have hframe := hstacked.toInt_frameSize (by omega)
  rw [Int.bmod_eq_of_le (by omega) (by omega)] at hframe
  refine ⟨hpair.imp fun h => .inr h, fun v hv => ?_, fun a ha => ?_⟩
  · have := hin v hv
    omega
  · have hwhole : ∀ v ∈ ((paramFrame params).declareAll ds).vars,
        (a.place = .whole v ∨ ∃ k, a.place = .argument v k) →
        ∃ v ∈ ((paramFrame params).declareAll ds).vars, a.place.var = some v ∧
          ∃ o, a.place.disp = some o ∧ v.start ≤ o ∧ o + a.width ≤ v.start + v.type.need := by
      intro v hv hplace
      obtain ⟨hvar, hdisp, hwidth⟩ := width_le_need hplace
      exact ⟨v, hv, hvar, _, hdisp, Int.le_refl _, by omega⟩
    rcases hstores.due a ha with ⟨v, hv, hplace⟩ | ⟨v, hv, hplace, -⟩ |
      ⟨p, hp, hclear, i, hi, hplace⟩
    · exact hwhole v hv (.inr hplace)
    · exact hwhole v hv (.inl hplace)
    · have hmem := Frame.placed_mem hp
      have hneed := hcleared p hp hclear
      have hslot := hin _ hmem
      have hwidth : a.width = 8 := by rw [Access.width, hplace]
      refine ⟨p.1, hmem, by rw [hplace]; rfl, _, by rw [hplace]; exact disp_word _ _, ?_⟩
      rw [Int.bmod_eq_of_le (by omega) (by omega)]
      omega

/-- Slots that are kept are in a frame that fits. -/
theorem SlotsKept.frameFits (h : SlotsKept (frameSize ((paramFrame params).declareAll ds).size)
      ((paramFrame params).declareAll ds).vars stores) : FrameFits params ds := by
  have hstacked := (stacked_paramFrame params).declareAll ds
  have hbytes := hstacked.bytes_le fun v hv => (h.inside v hv).2
  refine ⟨?_, fun p hp hclear => ?_⟩
  · cases hvars : ((paramFrame params).declareAll ds).vars with
    | nil =>
      rw [Frame.bytes, hvars]
      decide
    | cons v vs =>
      -- the frame is a positive number of 32 bits
      have hin := h.inside v (hvars ▸ List.mem_cons_self)
      rw [hstacked.toInt_frameSize hbytes, Int.bmod_def] at hin
      split at hin <;> omega
  · by_cases hnone : slotsOf p.2.type = 0
    · rw [hnone]
      exact Nat.zero_le _
    · obtain ⟨a, ha, hplace⟩ := hstores.all p hp hclear (slotsOf p.2.type - 1) (by omega)
      obtain ⟨v, hv, hvar, o, hdisp, hlow, hhigh⟩ := h.stored a ha
      rw [hplace] at hvar hdisp
      cases hvar
      rw [disp_word] at hdisp
      cases hdisp
      have hwidth : a.width = 8 := by rw [Access.width, hplace]
      have hslots := slotsOf_eq p.2.type
      have hslot := (hstacked.slots hbytes).1 _ hv
      -- behind 2 GiB the word would be below the slot
      rw [Int.bmod_def] at hlow hhigh
      split at hlow <;> split at hhigh <;> omega

end

/-- The slots of a function that is compiled are kept if and only if its frame fits. -/
theorem slots_kept_iff {n index : Nat} {fn : Function} {g g' : Globals}
    (h : compileFunction n index fn g = (.ok (), g')) :
    ∃ ds new, fn.lets n g.structs = some ds ∧ g'.log = g.log ++ new ∧
      (g.textLen + 11 ≤ textMax →
        g'.text.Holds (g.textLen + 7) (disp32 (frameSize g'.stackSize))) ∧
      (SlotsKept (frameSize g'.stackSize) g'.vars (directOf new) ↔ FrameFits fn.params ds) := by
  obtain ⟨ds, new, hlets, hlog, hframe, hstores, hholds⟩ := compileFunction_frame h
  have hvars : g'.vars = ((paramFrame fn.params).declareAll ds).vars := congrArg Frame.vars hframe
  have hsize : g'.stackSize = ((paramFrame fn.params).declareAll ds).size :=
    congrArg Frame.size hframe
  refine ⟨ds, new, hlets, hlog, hholds, ?_⟩
  rw [hvars] at hstores
  rw [hvars, hsize]
  exact ⟨SlotsKept.frameFits hstores, FrameFits.slotsKept hstores⟩

theorem compileFunction_of_ok {n index : Nat} {fn : Function} {g : Globals}
    (h : (compileFunction n index fn g).1 = .ok ()) :
    compileFunction n index fn g = (.ok (), (compileFunction n index fn g).2) :=
  Prod.ext h rfl

/-- A function with a value and an array. -/
def slotsFunction : Function :=
  ⟨⟨"main".toList, [("n".toList, tyInt)], tyInt, false⟩,
    "let x: char = 1; let a: [2]int; return n; \x7d".toList, 0, false, false, false, false⟩

theorem slots_kept_function :
    ∃ new, (compileFunction 60 0 slotsFunction {}).2.log = new ∧
      SlotsKept (frameSize (compileFunction 60 0 slotsFunction {}).2.stackSize)
        (compileFunction 60 0 slotsFunction {}).2.vars (directOf new) := by
  have hok : (compileFunction 60 0 slotsFunction {}).1 = .ok () := by decide +kernel
  obtain ⟨ds, new, hlets, hlog, -, hiff⟩ :=
    slots_kept_iff (compileFunction_of_ok hok)
  have hds : slotsFunction.lets 60 [] =
      some [⟨"x".toList, tyChar, false⟩, ⟨"a".toList, arrayOf tyInt 2, true⟩] := by rfl
  cases hds.symm.trans hlets
  refine ⟨new, hlog, hiff.mpr ⟨by decide, fun p hp _ => ?_⟩⟩
  have hplaced : (paramFrame slotsFunction.params).placed
      [⟨"x".toList, tyChar, false⟩, ⟨"a".toList, arrayOf tyInt 2, true⟩] =
      [(⟨"x".toList, 24, tyChar⟩, ⟨"x".toList, tyChar, false⟩),
        (⟨"a".toList, 40, arrayOf tyInt 2⟩, ⟨"a".toList, arrayOf tyInt 2, true⟩)] := rfl
  rw [hplaced] at hp
  rcases List.mem_cons.mp hp with rfl | hp
  · decide
  · rw [List.mem_singleton.mp hp]
    decide

/-- A program that declares a variable again, as an array. -/
def againSource : Source :=
  "fn main() -> int \x7b let x: int; let x: [4]int; return 0; \x7d".toList

def againVar : Var := ⟨"x".toList, 16, tyInt⟩

/-- The program compiles. Its last `let` clears the word at `rbp+8`, the return address,
for a variable of 8 bytes. -/
theorem again_let_clears_return :
    (compileSource 80 againSource {}).1 = .ok () ∧
      (compileSource 80 againSource {}).2.vars = [againVar] ∧
      Event.access ⟨.word againVar 3, tyInt, true, false⟩ ∈
        (compileSource 80 againSource {}).2.log ∧
      againVar.type.need = 8 ∧ againVar.start = -16 ∧
      Place.disp (.word againVar 3) = some 8 := by
  refine ⟨by decide +kernel, by decide +kernel, by decide +kernel, by decide, by decide,
    by decide⟩

end OreOS.Orec
