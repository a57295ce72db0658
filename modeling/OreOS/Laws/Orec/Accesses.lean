import OreOS.Laws.Orec.Frames

/-!
# Values in memory (`user/orec.c`)

A value of a scalar type is kept in memory in as many bytes as its type has and is
computed with in 64 bits. Stores and loads go by the size of the type alone, so a
load fills the rest of the register with zeros, also for `i32`, whose values are
kept sign-extended (`scalar_kept_iff`).
-/

namespace OreOS.Orec

open OreOS.Lib (Byte Word Mem Exec)
open OreOS.Lib.X86 (State Width Addr exec decode runCode runCode_cons runCode_append)

/-! ## Scalar types -/

inductive Scalar
  | bool
  | char
  | u8
  | i32
  | u32
  | int
  | u64
  | ptr (base : Ty)

def Scalar.type : Scalar → Ty
  | .bool => tyBool
  | .char => tyChar
  | .u8 => ⟨.u8, 1, 1, 0, 0, 0⟩
  | .i32 => ⟨.i32, 4, 4, 0, 0, 0⟩
  | .u32 => ⟨.u32, 4, 4, 0, 0, 0⟩
  | .int => tyInt
  | .u64 => ⟨.u64, 8, 8, 0, 0, 0⟩
  | .ptr base => tyPtr base

/-- The words that stand for the values of a type. -/
def Scalar.Value : Scalar → Word → Prop
  | .bool, v => v = 0 ∨ v = 1
  | .char, v | .u8, v => v.toNat < 2 ^ 8
  | .i32, v => (v.setWidth 32).signExtend 64 = v
  | .u32, v => v.toNat < 2 ^ 32
  | .int, _ | .u64, _ | .ptr _, _ => True

/-- A location of a type, as assignments and expressions name it. -/
inductive Location (t : Ty)
  | whole (v : Var) (hv : v.type = t)
  | field (v : Var) (f : Field) (hf : f.type = t)
  | element (v : Var) (count : U32) (hv : v.type = arrayOf t count)
  | pointee

namespace Location

variable {t : Ty}

def place : Location t → Place
  | .whole v _ => .whole v
  | .field v f _ => .field v f
  | .element v _ _ => .element v
  | .pointee => .pointee

/-- The type that selects the instruction of the store. -/
def storeType : Location t → Ty
  | .whole v _ => v.type
  | .field _ f _ => f.type
  | .element v _ _ =>
    let size := typePointeeSize v.type
    { v.type with size := size, align := if size < 8 then size else 8 }
  | .pointee => pointeeType (tyPtr t)

/-- The type that selects the instruction of the load. -/
def loadType : Location t → Ty
  | .element v _ _ =>
    let size := typePointeeSize v.type
    { v.type with kind := .int, size := size, align := if size < 8 then size else 8 }
  | loc => loc.storeType

/-- What an assignment emits behind the code of the value: the address of a variable
is part of the instruction, every other one waits on the stack. -/
def storeCode (loc : Location t) : List Byte :=
  match loc with
  | .whole _ _ => Access.code ⟨loc.place, loc.storeType, true, false⟩
  | _ => popRcx ++ Access.code ⟨loc.place, loc.storeType, true, false⟩

/-- What reading the location emits, behind the code of an index or a pointer. -/
def loadCode (loc : Location t) : List Byte :=
  loc.place.address ++ Access.code ⟨loc.place, loc.loadType, false, false⟩

/-- The address that an assignment stores to. -/
def storesAt (loc : Location t) (s : State) : Word :=
  match loc with
  | .whole _ _ => loc.place.at s
  | _ => s.mem.load64 (s.reg .rsp)

end Location

/-! ## What is emitted

An expression ends in the load of the location it reads, and an assignment in the store. -/

namespace Location

variable {t : Ty} {loc : Location t} {g g₁ : Globals}

/-- The expression reads the location; the code before the load leaves `g₁`. -/
inductive ReadBy (g : Globals) : {t : Ty} → Location t → Expr → Globals → Prop
  | whole {name v} (hv : lookupVar name g = (.ok v, g)) : ReadBy g (.whole v rfl) (.var name) g
  | field {name field v f} (hv : lookupVar name g = (.ok v, g))
    (hf : genField v.type field g = (.ok f, g)) :
    ReadBy g (.field v f rfl) (.field name field) g
  | element {name index v t count ti g₁} (hv : lookupVar name g = (.ok v, g))
    (hindex : genExpr index g = (.ok ti, g₁)) (harray : v.type = arrayOf t count) :
    ReadBy g (.element v count harray) (.element name index) g₁
  | pointee {e t g₁} (hsafe : ¬ (g.kmodTarget = true ∧ g.functionUnsafe = false))
    (he : genExpr e g = (.ok (tyPtr t), g₁)) : ReadBy g (.pointee : Location t) (.deref e) g₁

/-- The assignment is to the location; the code before the store leaves `g₁`. -/
inductive AssignedBy (g : Globals) : {t : Ty} → Location t → Stmt → Globals → Prop
  | whole {name v e te g₁} (hv : lookupVar name g = (.ok v, g)) (he : genExpr e g = (.ok te, g₁)) :
    AssignedBy g (.whole v rfl) (.assign name e) g₁
  | field {name field v f e te g₁} (hv : lookupVar name g = (.ok v, g))
    (hf : genField v.type field g = (.ok f, g))
    (he : genExpr e ((g.append (fieldAddress v f)).append pushRax) = (.ok te, g₁)) :
    AssignedBy g (.field v f rfl) (.assignField name field e) g₁
  | element {name index v t count ti g₀ e te g₁} (hv : lookupVar name g = (.ok v, g))
    (hindex : genExpr index g = (.ok ti, g₀)) (harray : v.type = arrayOf t count)
    (he : genExpr e ((g₀.append (indexCode v)).append pushRax) = (.ok te, g₁)) :
    AssignedBy g (.element v count harray) (.assignElement name index e) g₁
  | pointee {address t g₀ e te g₁} (hsafe : ¬ (g.kmodTarget = true ∧ g.functionUnsafe = false))
    (haddress : genExpr address g = (.ok (tyPtr t), g₀))
    (he : genExpr e (g₀.append pushRax) = (.ok te, g₁)) :
    AssignedBy g (.pointee : Location t) (.store address e) g₁

theorem requireUnsafe_ok (message : String)
    (hsafe : ¬ (g.kmodTarget = true ∧ g.functionUnsafe = false)) :
    requireUnsafe message g = (.ok (), g) :=
  (Exec.bind_ok (Exec.get_apply g)).trans (rejectIf_of_not hsafe message g)

theorem ReadBy.genExpr_eq {e : Expr} (h : loc.ReadBy g e g₁) :
    genExpr e g = (.ok loc.loadType, (g₁.append loc.loadCode).logged
      (.access ⟨loc.place, loc.loadType, false, g₁.functionUnsafe⟩)) := by
  cases h with
  | whole hv =>
    rw [genExpr, Exec.bind_ok hv]
    exact Exec.bind_ok (emitAccess_eq _ _ _ g)
  | field hv hf =>
    rw [genExpr, Exec.bind_ok hv, Exec.bind_ok hf, Exec.bind_ok (emit_eq _ g), emitLoad,
      Exec.bind_ok (emitAccess_eq _ _ _ _), Globals.append_append]
    rfl
  | element hv hindex =>
    rw [genExpr, Exec.bind_ok hv, Exec.bind_ok hindex, Exec.bind_ok (emit_eq _ g₁), emitLoad,
      Exec.bind_ok (emitAccess_eq _ _ _ _), Globals.append_append]
    rfl
  | pointee hsafe he =>
    rw [genExpr, Exec.bind_ok (requireUnsafe_ok _ hsafe), Exec.bind_ok he]
    exact Exec.bind_ok (emitAccess_eq _ _ _ g₁)

theorem AssignedBy.genStmt_eq {st : Stmt} (h : loc.AssignedBy g st g₁) :
    genStmt st g = (.ok (), (g₁.append loc.storeCode).logged
      (.access ⟨loc.place, loc.storeType, true, g₁.functionUnsafe⟩)) := by
  cases h with
  | whole hv he =>
    rw [genStmt, Exec.bind_ok hv, Exec.bind_ok he]
    exact emitAccess_eq _ _ _ g₁
  | field hv hf he =>
    rw [genStmt, Exec.bind_ok hv, Exec.bind_ok hf, Exec.bind_ok (emit_eq _ g), genPlaceValue,
      Exec.bind_ok (emit_eq _ _), Exec.bind_ok he, Exec.bind_ok (emit_eq _ g₁), emitStore,
      emitAccess_eq, Globals.append_append]
    rfl
  | element hv hindex harray he =>
    rw [genStmt, Exec.bind_ok hv, Exec.bind_ok hindex, Exec.bind_ok (emit_eq _ _), genPlaceValue,
      Exec.bind_ok (emit_eq _ _), Exec.bind_ok he, Exec.bind_ok (emit_eq _ g₁), emitStore,
      emitAccess_eq, Globals.append_append]
    rfl
  | pointee hsafe haddress he =>
    rw [genStmt, Exec.bind_ok (requireUnsafe_ok _ hsafe), Exec.bind_ok haddress, genPlaceValue,
      Exec.bind_ok (emit_eq _ _), Exec.bind_ok he, Exec.bind_ok (emit_eq _ g₁), emitStore,
      emitAccess_eq, Globals.append_append]
    rfl

end Location

/-! ## Stores and loads -/

theorem low_low (w : Width) (v : Word) : State.low w (State.low w v) = State.low w v := by
  cases w with
  | byte => exact congrArg (BitVec.setWidth 64) (BitVec.setWidth_setWidth_of_le _ (by decide))
  | dword => exact congrArg (BitVec.setWidth 64) (BitVec.setWidth_setWidth_of_le _ (by decide))
  | qword => rfl

theorem low_setWidth {k : Nat} (hk : k ≤ 32) (x : BitVec k) (z : Width) (hz : z ≠ .byte) :
    State.low z (x.setWidth 64) = x.setWidth 64 := by
  cases z with
  | byte => exact absurd rfl hz
  | qword => rfl
  | dword =>
    have hlt : x.toNat < 2 ^ 32 := Nat.lt_of_lt_of_le x.isLt (Nat.pow_le_pow_right (by decide) hk)
    apply BitVec.eq_of_toNat_eq
    show (((x.setWidth 64).setWidth 32).setWidth 64).toNat = _
    simp only [BitVec.toNat_setWidth]
    omega

theorem exec_loadInstr (s : State) {z : Width} (hz : z ≠ .byte) (w : Width) (a : Addr) :
    exec s (loadInstr z w (.mem a)) = some (s.set .rax (s.load (s.address a) w)) := by
  have hreg (v : Word) : s.write z (.reg .rax) v = s.set .rax (State.low z v) := by
    cases z with
    | byte => exact absurd rfl hz
    | dword => rfl
    | qword => rfl
  cases w with
  | byte =>
    show some (s.write z (.reg .rax) ((s.mem (s.address a)).setWidth 64)) = _
    rw [hreg, low_setWidth (by decide) _ z hz]
    rfl
  | dword =>
    show some (s.set .rax (State.low .dword ((s.mem.load32 (s.address a)).setWidth 64))) = _
    rw [low_setWidth (by decide) _ .dword (by decide)]
    rfl
  | qword => rfl

theorem load_congr {s s' : State} (h : s.mem = s'.mem) (a : Word) (w : Width) :
    s.load a w = s'.load a w := by
  cases w <;> simp only [State.load, h]

/-- The bytes of a scalar type select the width. -/
theorem Location.size_eq (T : Scalar) (loc : Location T.type) :
    loc.storeType.size = T.type.size ∧ loc.loadType.size = T.type.size := by
  cases loc with
  | whole v hv => exact ⟨congrArg Ty.size hv, congrArg Ty.size hv⟩
  | field v f hf => exact ⟨congrArg Ty.size hf, congrArg Ty.size hf⟩
  | element v count hv =>
    have hsize : typePointeeSize v.type = T.type.size := by
      rw [hv]
      cases T <;> rfl
    exact ⟨hsize, hsize⟩
  | pointee =>
    have hsize : (pointeeType (tyPtr T.type)).size = T.type.size := by cases T <;> rfl
    exact ⟨hsize, hsize⟩

theorem bytes_scalar (T : Scalar) : (widthOf T.type.size).bytes = T.type.size.toNat := by
  cases T <;> rfl

/-- The store writes the low bytes of the value. -/
theorem Location.runCode_storeCode {t : Ty} (loc : Location t) (s : State) :
    ∃ s₁, runCode 2 loc.storeCode s = some s₁ ∧
      s₁.mem = s.mem.write (loc.storesAt s)
        (Mem.leBytes (widthOf loc.storeType.size).bytes
          (State.low (widthOf loc.storeType.size) (s.reg .rax))) := by
  have hpointer (t : Ty) : ∃ s₁, runCode 2 (popRcx ++ storePtrT t) s = some s₁ ∧
      s₁.mem = s.mem.write (s.mem.load64 (s.reg .rsp))
        (Mem.leBytes (widthOf t.size).bytes (State.low (widthOf t.size) (s.reg .rax))) := by
    have hpop : decode (popRcx ++ storePtrT t) = some (.pop .rcx, storePtrT t) := rfl
    rw [runCode_cons hpop rfl, runCode_cons (decode_storePtrT t) rfl]
    refine ⟨_, rfl, ?_⟩
    show s.mem.write (s.mem.load64 (s.reg .rsp) + 0#64) _ = _
    rw [BitVec.add_zero]
    rfl
  cases loc with
  | whole v hv =>
    have hstore : decode (Location.whole v hv).storeCode = _ := decode_storeVarT v.offset v.type
    rw [runCode_cons hstore rfl]
    exact ⟨_, rfl, rfl⟩
  | field v f hf => exact hpointer f.type
  | element v count hv => exact hpointer _
  | pointee => exact hpointer _

/-- The load reads in the width of the type. -/
theorem Location.runCode_loadCode {t : Ty} (loc : Location t) (s : State) :
    ∃ s₁, runCode 4 loc.loadCode s = some s₁ ∧ s₁.mem = s.mem ∧
      s₁.reg .rax = s.load (loc.place.at s) (widthOf loc.loadType.size) := by
  have hpointer (place : Place) (t : Ty) :
      ∃ s₁, runCode 4 (place.address ++ loadPtrT t) s = some s₁ ∧ s₁.mem = s.mem ∧
        s₁.reg .rax = s.load (place.target s) (widthOf t.size) := by
    obtain ⟨s₀, haddress, hmem, htarget⟩ := place.runCode_address s
    have hload : runCode 1 (loadPtrT t) s₀ = some _ :=
      runCode_cons (decode_loadPtrT t) (exec_loadInstr _ (by decide) _ _)
    refine ⟨_, runCode_append haddress hload, hmem, ?_⟩
    show State.load _ (s₀.reg .rax + 0#64) (widthOf t.size) = _
    rw [BitVec.add_zero, htarget]
    exact load_congr hmem _ _
  cases loc with
  | whole v hv =>
    have hload : decode (Location.whole v hv).loadCode = _ := decode_loadVarT v.offset v.type
    rw [runCode_cons hload (exec_loadInstr _ (by decide) _ _)]
    exact ⟨_, rfl, rfl, rfl⟩
  | field v f hf => exact hpointer (.field v f) f.type
  | element v count hv => exact hpointer (.element v) _
  | pointee => exact hpointer .pointee _

/-! ## What is kept -/

theorem low_of_lt {w : Width} {v : Word} (h : v.toNat < 2 ^ (8 * w.bytes)) : State.low w v = v := by
  apply BitVec.eq_of_toNat_eq
  cases w with
  | byte =>
    have hlt : v.toNat < 256 := h
    show ((v.setWidth 8).setWidth 64).toNat = _
    simp only [BitVec.toNat_setWidth]
    omega
  | dword =>
    have hlt : v.toNat < 2 ^ 32 := h
    show ((v.setWidth 32).setWidth 64).toNat = _
    simp only [BitVec.toNat_setWidth]
    omega
  | qword => rfl

/-- A value in four bytes that is kept sign-extended. -/
theorem low_dword_iff {v : Word} (hv : (v.setWidth 32).signExtend 64 = v) :
    State.low .dword v = v ↔ ¬ v.toInt < 0 := by
  have hint : v.toInt = (v.setWidth 32).toInt := by
    rw [← hv, BitVec.toInt_signExtend_of_le (by decide), hv]
  have hlow := BitVec.le_toInt (v.setWidth 32)
  have hhigh := BitVec.toInt_lt (x := v.setWidth 32)
  constructor
  · intro h hneg
    have hlt : v.toNat < 2 ^ 32 := by
      rw [← h]
      show ((v.setWidth 32).setWidth 64).toNat < _
      simp only [BitVec.toNat_setWidth]
      omega
    rw [BitVec.toInt_eq_toNat_of_lt (by omega)] at hneg
    omega
  · intro h
    refine low_of_lt ?_
    show v.toNat < 2 ^ 32
    have hpos : v.toInt = v.toNat := BitVec.toInt_eq_toNat_of_msb (by
      rw [BitVec.msb_eq_toInt]
      exact decide_eq_false h)
    omega

/-- The bytes of a type hold every value but the negative ones of `i32`. -/
theorem Scalar.low_iff (T : Scalar) {v : Word} (hv : T.Value v) :
    State.low (widthOf T.type.size) v = v ↔ ¬ (T = .i32 ∧ v.toInt < 0) := by
  have hother (hT : T ≠ .i32) (h : v.toNat < 2 ^ (8 * (widthOf T.type.size).bytes)) :
      State.low (widthOf T.type.size) v = v ↔ ¬ (T = .i32 ∧ v.toInt < 0) :=
    iff_of_true (low_of_lt h) fun h => hT h.1
  cases T with
  | i32 =>
    rw [show widthOf (Scalar.i32).type.size = .dword from rfl, low_dword_iff hv]
    exact ⟨fun h h' => h h'.2, fun h h' => h ⟨rfl, h'⟩⟩
  | bool =>
    refine hother (by intro h; cases h) ?_
    rcases hv with rfl | rfl <;> decide
  | char => exact hother (by intro h; cases h) hv
  | u8 => exact hother (by intro h; cases h) hv
  | u32 => exact hother (by intro h; cases h) hv
  | int => exact hother (by intro h; cases h) v.isLt
  | u64 => exact hother (by intro h; cases h) v.isLt
  | ptr base => exact hother (by intro h; cases h) v.isLt

/-- A value is read back from where it was assigned, except for negative values of
`i32`; nothing else in memory changes. -/
theorem scalar_kept_iff (T : Scalar) (loc : Location T.type) {v : Word} (hv : T.Value v) {s : State}
    (hrax : s.reg .rax = v) :
    ∃ s₁, runCode 2 loc.storeCode s = some s₁ ∧
      (∀ x, T.type.size.toNat ≤ (x - loc.storesAt s).toNat → s₁.mem x = s.mem x) ∧
      ∀ s₂ : State, s₂.mem = s₁.mem → loc.place.at s₂ = loc.storesAt s →
        ∃ s₃, runCode 4 loc.loadCode s₂ = some s₃ ∧ s₃.mem = s₂.mem ∧
          (s₃.reg .rax = v ↔ ¬ (T = .i32 ∧ v.toInt < 0)) := by
  obtain ⟨hstoresize, hloadsize⟩ := loc.size_eq T
  obtain ⟨s₁, hstore, hmem₁⟩ := loc.runCode_storeCode s
  rw [hstoresize, hrax] at hmem₁
  refine ⟨s₁, hstore, fun x hx => ?_, fun s₂ hmem₂ hat => ?_⟩
  · rw [hmem₁]
    exact Mem.write_outside (by rw [Mem.length_leBytes, bytes_scalar]; exact hx)
  · obtain ⟨s₃, hload, hmem₃, hrax₃⟩ := loc.runCode_loadCode s₂
    refine ⟨s₃, hload, hmem₃, ?_⟩
    rw [hrax₃, hloadsize, hat, State.load_write s₂ _ _ _ (hmem₂.trans hmem₁), low_low, T.low_iff hv]

/-- A state with a value in `rax` and a frame. -/
def holding (v : Word) : State where
  reg r := match r with
    | .rax => v
    | .rbp => 0x8000
    | .rsp => 0x7000
    | _ => 0
  rip := 0
  flags := none
  mem _ := 0

def byteVar : Var := ⟨"b".toList, 16, ⟨.u8, 1, 1, 0, 0, 0⟩⟩

theorem scalar_kept_byteVar :
    ∃ s₁, runCode 2 (Location.whole byteVar rfl : Location (Scalar.u8).type).storeCode (holding 200) =
        some s₁ ∧
      ∃ s₃, runCode 4 (Location.whole byteVar rfl : Location (Scalar.u8).type).loadCode s₁ = some s₃ ∧
        s₃.reg .rax = 200 := by
  have hvalue : (Scalar.u8).Value 200 := by
    show (200 : Word).toNat < 2 ^ 8
    decide
  have hrbp : ∀ s₁, runCode 2 (Location.whole byteVar rfl : Location (Scalar.u8).type).storeCode
      (holding 200) = some s₁ → s₁.reg .rbp = 0x8000 := by
    rintro _ ⟨⟩
    rfl
  obtain ⟨s₁, hstore, -, hload⟩ :=
    scalar_kept_iff .u8 (.whole byteVar rfl) hvalue (s := holding 200) rfl
  have hat : Place.at (.whole byteVar) s₁ = Place.at (.whole byteVar) (holding 200) := by
    show s₁.reg .rbp + _ = _
    rw [hrbp s₁ hstore]
    rfl
  obtain ⟨s₃, hrun, -, hrax⟩ := hload s₁ rfl hat
  exact ⟨s₁, hstore, s₃, hrun, hrax.mpr fun h => by cases h.1⟩

/-- A program with a negative `i32`. -/
def negativeSource : Source :=
  "fn main() -> int \x7b let x: i32 = 0 - 1; return x; \x7d".toList

def i32Var : Var := ⟨"x".toList, 16, (Scalar.i32).type⟩

/-- The program compiles; storing -1 and loading it again gives another value. -/
theorem negative_i32_lost :
    (compileSource 80 negativeSource {}).1 = .ok () ∧
      Event.access ⟨.whole i32Var, (Scalar.i32).type, true, false⟩ ∈
        (compileSource 80 negativeSource {}).2.log ∧
      Event.access ⟨.whole i32Var, (Scalar.i32).type, false, false⟩ ∈
        (compileSource 80 negativeSource {}).2.log ∧
      (Scalar.i32).Value (-1) ∧
      ((runCode 2 (Location.whole i32Var rfl : Location (Scalar.i32).type).storeCode
          (holding (-1))).bind fun s =>
        (runCode 4 (Location.whole i32Var rfl : Location (Scalar.i32).type).loadCode s).map
          (·.reg .rax)) = some 0xffffffff := by
  refine ⟨by decide +kernel, by decide +kernel, by decide +kernel, ?_, by decide +kernel⟩
  show ((-1 : Word).setWidth 32).signExtend 64 = -1
  decide

end OreOS.Orec
