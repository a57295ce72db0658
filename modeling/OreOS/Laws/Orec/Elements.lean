import OreOS.Laws.Orec.Accesses

/-!
# Elements of arrays and pointers (`user/orec.c`)

An index is multiplied by the size of an element with an instruction that takes eight
bits of it, as a signed number (`scaledBy`). Sizes up to 127 are what they are; larger
ones become others.

Indexing a variable that is not an array takes the variable itself for the start of
words of 8 bytes. For a pointer this is not what it points to.
-/

namespace OreOS.Orec

open OreOS.Lib (Word)
open OreOS.Lib.Exec (Answers)
open OreOS.Lib.X86 (State decode runCode runCode_cons runCode_append)

/-! ## Types that are written -/

/-- The sizes of scalar types. -/
def Ty.Proper (t : Ty) : Prop :=
  match t.kind with
  | .void => t.size = 0
  | .bool | .char | .u8 => t.size = 1
  | .i32 | .u32 => t.size = 4
  | .int | .u64 | .ptr => t.size = 8
  | .array | .struct => True

theorem proper_scalarType {name : Name} {t : Ty} (h : scalarType name = some t) : t.Proper := by
  unfold scalarType at h
  repeat' split at h
  all_goals first | cases h; rfl | cases h

theorem answers_reject {α : Type} {P : α → Prop} (message : String) :
    Answers P (reject message : Compile α) :=
  .after fun _ => .throw _

theorem answers_namedType (type : Parser) (name : Name) (s : Source) :
    Answers (fun r => r.1.Proper) (namedType type name s) := by
  unfold namedType
  cases hscalar : scalarType name with
  | some t => exact .pure (proper_scalarType hscalar)
  | none =>
    refine .ite (.after fun _ => .after fun _ => .after fun _ => .pure rfl) (.after fun g => ?_)
    cases findStruct name g.structs with
    | none => exact answers_reject _
    | some found => exact .pure trivial

/-- The sizes of scalar types are their own, however a type is written. -/
theorem answers_parseType (n : Nat) (p : Source) :
    Answers (fun r => r.1.Proper) (parseType n p) := by
  cases n with
  | zero => exact .throw _
  | succ n =>
    unfold parseType
    refine .ite (.after fun _ => .after fun _ => .pure trivial) ?_
    cases parseIdent (skipWs p) with
    | none => exact .throw _
    | some found =>
      refine (answers_namedType _ _ _).bind fun r hr => ?_
      exact .ite (.after fun _ => .pure trivial) (.pure hr)

/-! ## Scales -/

/-- What the elements of an array are scaled by. -/
def arrayScale (t : Ty) : U32 :=
  orElse t.size 1

/-- What an integer is scaled by that is added to a pointer. -/
def pointerScale (t : Ty) : U32 :=
  if t.size ≠ 0 then t.size else if t.kind = .void then 1 else 8

theorem typePointeeSize_arrayOf (t : Ty) (count : U32) :
    typePointeeSize (arrayOf t count) = arrayScale t := by
  show orElse (orElse t.size 1) 1 = _
  unfold arrayScale orElse
  by_cases h : t.size = 0
  · rw [h]
    rfl
  · rw [if_pos h, if_pos h]

theorem typePointeeSize_tyPtr {t : Ty} (ht : t.Proper) :
    typePointeeSize (tyPtr t) = pointerScale t := by
  unfold Ty.Proper at ht
  have hwords : (if t.size = 0 then (8 : U32) else t.size) ≠ 0 := by
    split
    next => decide
    next h => exact h
  unfold typePointeeSize tyPtr pointerScale orElse
  cases hkind : t.kind <;> rw [hkind] at ht <;> simp_all

/-! ## Addresses -/

/-- The address of a variable. -/
def Var.address (v : Var) (s : State) : Word :=
  s.reg .rbp + (-v.offset).signExtend 64

/-- An integer is added to a pointer that waits on the stack. -/
theorem runCode_addCode {lhs rhs : Ty} (hlhs : typeIsPtr lhs = true) (hrhs : typeIsPtr rhs = false)
    (s : State) :
    ∃ s₁, runCode 3 (BinOp.add.code lhs rhs) s = some s₁ ∧
      s₁.reg .rax = s.mem.load64 (s.reg .rsp) + s.reg .rax * scaledBy (typePointeeSize lhs) := by
  have hadd : decode [0x48, 0x01, 0xC8] = some (.alu .add .qword (.reg .rax) (.reg .rcx), []) := rfl
  have hpop : decode (popRcx ++ [0x48, 0x01, 0xC8]) = some (.pop .rcx, [0x48, 0x01, 0xC8]) := rfl
  obtain ⟨s₀, hscale, hmem, hreg⟩ := runCode_scaleRax (typePointeeSize lhs) s
  obtain ⟨s₁, htail, hrax⟩ : ∃ s₁, runCode 2 (popRcx ++ [0x48, 0x01, 0xC8]) s₀ = some s₁ ∧
      s₁.reg .rax = s₀.reg .rax + s₀.mem.load64 (s₀.reg .rsp) := by
    rw [runCode_cons hpop rfl, runCode_cons hadd rfl, runCode]
    exact ⟨_, rfl, rfl⟩
  have hcode : BinOp.add.code lhs rhs =
      scaleRax (typePointeeSize lhs) ++ (popRcx ++ [0x48, 0x01, 0xC8]) := by
    rw [BinOp.code, scaleOperand, hlhs, hrhs, if_pos (by decide), List.append_assoc]
  rw [hcode]
  refine ⟨s₁, runCode_append hscale htail, ?_⟩
  rw [hrax, hreg, hmem, BitVec.add_comm]
  rfl

/-- What the code for `a[i]` and `&a[i]`, for `p + i` and for `p[i]` computes, and when
this is what is meant, for every type that can be written. -/
theorem element_address_iff {n : Nat} {text rest : Source} {g g' : Globals} {T : Ty}
    (hT : parseType n text g = (.ok (T, rest), g')) {a p : Var} {count : U32}
    (ha : a.type = arrayOf T count) (hp : p.type = tyPtr T) (s : State) :
    (∃ s₁, runCode 3 (indexCode a) s = some s₁ ∧
      (s₁.reg .rax = a.address s + s.reg .rax * T.size.setWidth 64 ↔
        s.reg .rax * scaledBy (arrayScale T) = s.reg .rax * T.size.setWidth 64)) ∧
    ∀ rhs, typeIsPtr rhs = false →
      ∃ s₂, runCode 3 (BinOp.add.code p.type rhs) s = some s₂ ∧
        (s₂.reg .rax = s.mem.load64 (s.reg .rsp) + s.reg .rax * T.size.setWidth 64 ↔
          s.reg .rax * scaledBy (pointerScale T) = s.reg .rax * T.size.setWidth 64) ∧
        ∃ s₃, runCode 3 (indexCode p) s = some s₃ ∧
          (s₃.reg .rax = s₂.reg .rax ↔
            p.address s + s.reg .rax * 8 =
              s.mem.load64 (s.reg .rsp) + s.reg .rax * scaledBy (pointerScale T)) := by
  have hproper : T.Proper := answers_parseType n text g _ g' hT
  have hstridea : a.stride.signExtend 64 = scaledBy (arrayScale T) := by
    rw [Var.stride, ha, if_pos (show (arrayOf T count).kind = .array from rfl),
      typePointeeSize_arrayOf]
    rfl
  have hstridep : p.stride.signExtend 64 = (8 : Word) := by
    rw [Var.stride, hp, if_neg (show (tyPtr T).kind ≠ .array by intro h; cases h)]
    rfl
  refine ⟨?_, fun rhs hrhs => ?_⟩
  · obtain ⟨s₁, hrun, -, hrax⟩ := runCode_indexCode a s
    refine ⟨s₁, hrun, ?_⟩
    rw [hrax, hstridea, BitVec.add_comm]
    exact BitVec.add_right_inj _
  · obtain ⟨s₂, hadd, hrax₂⟩ := runCode_addCode (show typeIsPtr p.type = true by rw [hp]; rfl) hrhs s
    obtain ⟨s₃, hindex, -, hrax₃⟩ := runCode_indexCode p s
    rw [hp, typePointeeSize_tyPtr hproper] at hrax₂
    refine ⟨s₂, hadd, ?_, s₃, hindex, ?_⟩
    · rw [hrax₂]
      exact BitVec.add_right_inj _
    · rw [hrax₃, hrax₂, hstridep, BitVec.add_comm]
      rfl

def intArray : Var := ⟨"a".toList, 40, arrayOf tyInt 4⟩

def intPointer : Var := ⟨"p".toList, 48, tyPtr tyInt⟩

theorem element_address_intArray :
    ∃ s₁, runCode 3 (indexCode intArray) (holding 3) = some s₁ ∧
      s₁.reg .rax = intArray.address (holding 3) + 3 * 8 := by
  have hint : parseType 1 "int".toList {} = (.ok (tyInt, []), {}) := rfl
  obtain ⟨⟨s₁, hrun, hrax⟩, -⟩ :=
    element_address_iff hint (a := intArray) (p := intPointer) rfl rfl (holding 3)
  exact ⟨s₁, hrun, hrax.mpr rfl⟩

/-- A program with an array of large elements and a pointer that is indexed. -/
def largeSource : Source :=
  ("struct S \x7b w: [25]int; \x7d fn main(p: ptr<int>) -> int " ++
    "\x7b let a: [2]S; let q: ptr<S> = &a[1]; return p[0]; \x7d").toList

def largeArray : Var := ⟨"a".toList, 416, arrayOf ⟨.struct, 200, 8, 0, 0, 0⟩ 2⟩

def parameterPointer : Var := ⟨"p".toList, 16, tyPtr tyInt⟩

/-- The program compiles. The address of element 1 is 56 bytes below the array, whose
elements have 200 bytes; element 0 of the pointer is the pointer itself. -/
theorem large_element_below :
    (compileSource 120 largeSource {}).1 = .ok () ∧
      largeArray ∈ (compileSource 120 largeSource {}).2.vars ∧
      Event.access ⟨.element parameterPointer, ⟨.int, 8, 8, 8, 0, 0⟩, false, false⟩ ∈
        (compileSource 120 largeSource {}).2.log ∧
      (runCode 3 (indexCode largeArray) (holding 1)).map (·.reg .rax) =
        some (largeArray.address (holding 1) - 56) ∧
      (runCode 3 (indexCode parameterPointer) (holding 0)).map (·.reg .rax) =
        some (parameterPointer.address (holding 0)) := by
  refine ⟨by decide +kernel, by decide +kernel, by decide +kernel, by decide +kernel,
    by decide +kernel⟩

end OreOS.Orec
