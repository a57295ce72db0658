import OreOS.Laws.Orec.Emitted
import OreOS.Lib.X86Forms

/-!
# Accesses to variables (`user/orec.c`)

In safe code a kernel module still has variables, their fields and their
elements; what the instruction of such an access touches is computed here, for
all values of registers and memory. It stays in the slot of the variable as far
as the offsets and sizes of the compiler let it (`Access.Fits`). An index is not
looked at, so the access to an element can be anywhere.
-/

namespace OreOS.Orec

open OreOS.Lib (Byte Word)
open OreOS.Lib.X86 (State Instr Width Operand Addr decode runCode decode_disp32
  runCode_cons runCode_append)

/-! ## Slots -/

/-- The variable that a place names. -/
def Place.var : Place → Option Var
  | .whole v | .element v | .field v _ | .word v _ | .argument v _ => some v
  | .pointee => none

/-- The bytes that `add_var_type` reserves. -/
def Var.slotSize (v : Var) : Nat :=
  (alignUpU32 (orElse v.type.size 8) 8).toNat

/-- A range of memory is in the slot of a variable, in the frame below `rbp`. -/
def Var.InSlot (v : Var) (rbp : Word) (range : Word × Nat) : Prop :=
  ∃ i : Nat, range.1 = rbp - v.offset.setWidth 64 + BitVec.ofNat 64 i ∧
    i + range.2 ≤ min v.slotSize v.offset.toNat

/-- An access touches the slot of the variable only, whatever is in the registers
and in memory. For a store the address is kept while the value is computed, and is
in `rcx` then. -/
def Access.Confined (a : Access) (v : Var) : Prop :=
  ∀ s : State, ∃ s₁, runCode 3 a.place.address s = some s₁ ∧
    ∀ s₂ : State, s₂.reg .rbp = s.reg .rbp →
      s₂.reg (if a.store then .rcx else .rax) = s₁.reg .rax →
      ∃ i, decode a.code = some (i, []) ∧ ∀ range ∈ i.ranges s₂, v.InSlot (s.reg .rbp) range

/-! ## Instructions of accesses -/

/-- How many bytes an access has. -/
def Access.width (a : Access) : Nat :=
  match a.place with
  | .word _ _ | .argument _ _ => 8
  | _ => if a.type.size = 1 then 1 else if a.type.size = 4 then 4 else 8

/-- Where an access is. -/
def Access.addr (a : Access) (s : State) : Word :=
  match a.place with
  | .whole v | .argument v _ => s.reg .rbp + (-v.offset).signExtend 64
  | .word v i => s.reg .rbp + (-(v.offset - BitVec.ofNat 32 (8 * i))).signExtend 64
  | _ => s.reg (if a.store then .rcx else .rax)

/-- There is a register for the argument. -/
def Place.InRegister : Place → Prop
  | .argument _ i => i < maxParams
  | _ => True

theorem decode_rbpOff {opcode : List Byte} {f : Word → Instr}
    (h : ∀ b₀ b₁ b₂ b₃ bs, decode (opcode ++ ([b₀, b₁, b₂, b₃] ++ bs)) =
      some (f ((b₃ ++ b₂ ++ b₁ ++ b₀).signExtend 64), bs)) (off : U32) :
    decode (rbpOff opcode off) = some (f ((-off).signExtend 64), []) := by
  have hdecode := decode_disp32 h (-off) []
  exact hdecode

/-- The width of an access, by the size of its type. -/
def widthOf (size : U32) : Width :=
  if size = 1 then .byte else if size = 4 then .dword else .qword

/-- A load into `rax`; bytes are extended to `z`. -/
def loadInstr (z : Width) : Width → Operand → Instr
  | .byte, o => .movzx z .rax o
  | w, o => .mov w (.reg .rax) o

theorem bytes_widthOf (size : U32) :
    (widthOf size).bytes = if size = 1 then 1 else if size = 4 then 4 else 8 := by
  unfold widthOf
  split
  · rfl
  · split <;> rfl

theorem ranges_loadInstr (s : State) (z w : Width) (a : Addr) :
    (loadInstr z w (.mem a)).ranges s = [(s.address a, w.bytes)] := by
  cases w <;> rfl

theorem decode_loadVarT (off : U32) (t : Ty) :
    decode (loadVarT off t) =
      some (loadInstr .dword (widthOf t.size) (.mem (.base .rbp ((-off).signExtend 64))), []) := by
  unfold loadVarT widthOf
  split
  next =>
    exact decode_rbpOff (f := fun d => .movzx .dword .rax (.mem (.base .rbp d)))
      (fun _ _ _ _ _ => rfl) off
  next =>
    split
    next =>
      exact decode_rbpOff (f := fun d => .mov .dword (.reg .rax) (.mem (.base .rbp d)))
        (fun _ _ _ _ _ => rfl) off
    next =>
      exact decode_rbpOff (f := fun d => .mov .qword (.reg .rax) (.mem (.base .rbp d)))
        (fun _ _ _ _ _ => rfl) off

theorem decode_storeVar (off : U32) :
    decode (storeVar off) =
      some (.mov .qword (.mem (.base .rbp ((-off).signExtend 64))) (.reg .rax), []) :=
  decode_rbpOff (f := fun d => .mov .qword (.mem (.base .rbp d)) (.reg .rax))
    (fun _ _ _ _ _ => rfl) off

theorem decode_storeVarT (off : U32) (t : Ty) :
    decode (storeVarT off t) =
      some (.mov (widthOf t.size) (.mem (.base .rbp ((-off).signExtend 64))) (.reg .rax), []) := by
  unfold storeVarT widthOf
  split
  next =>
    exact decode_rbpOff (f := fun d => .mov .byte (.mem (.base .rbp d)) (.reg .rax))
      (fun _ _ _ _ _ => rfl) off
  next =>
    split
    next =>
      exact decode_rbpOff (f := fun d => .mov .dword (.mem (.base .rbp d)) (.reg .rax))
        (fun _ _ _ _ _ => rfl) off
    next => exact decode_storeVar off

/-- The registers of the arguments. -/
def argReg : Nat → OreOS.Lib.X86.Reg
  | 0 => .rdi
  | 1 => .rsi
  | 2 => .rdx
  | 3 => .rcx
  | 4 => .r8
  | _ => .r9

theorem decode_storeArg (off : U32) {i : Nat} (hi : i < maxParams) :
    decode (storeArg off i) =
      some (.mov .qword (.mem (.base .rbp ((-off).signExtend 64))) (.reg (argReg i)), []) := by
  have hform : ∀ {opcode : List Byte} {r : OreOS.Lib.X86.Reg},
      (∀ b₀ b₁ b₂ b₃ bs, decode (opcode ++ ([b₀, b₁, b₂, b₃] ++ bs)) =
        some (.mov .qword (.mem (.base .rbp ((b₃ ++ b₂ ++ b₁ ++ b₀).signExtend 64))) (.reg r), bs)) →
      decode (rbpOff opcode off) =
        some (.mov .qword (.mem (.base .rbp ((-off).signExtend 64))) (.reg r), []) :=
    fun {_ r} h => decode_rbpOff (f := fun d => .mov .qword (.mem (.base .rbp d)) (.reg r)) h off
  rcases i with _ | _ | _ | _ | _ | _ | i
  · exact hform fun _ _ _ _ _ => rfl
  · exact hform fun _ _ _ _ _ => rfl
  · exact hform fun _ _ _ _ _ => rfl
  · exact hform fun _ _ _ _ _ => rfl
  · exact hform fun _ _ _ _ _ => rfl
  · exact hform fun _ _ _ _ _ => rfl
  · exact absurd hi (by change ¬ i + 6 < 6; omega)

theorem decode_loadPtrT (t : Ty) :
    decode (loadPtrT t) =
      some (loadInstr .qword (widthOf t.size) (.mem (.base .rax 0)), []) := by
  unfold loadPtrT widthOf
  split
  next => rfl
  next => split <;> rfl

theorem decode_storePtrT (t : Ty) :
    decode (storePtrT t) =
      some (.mov (widthOf t.size) (.mem (.base .rcx 0)) (.reg .rax), []) := by
  unfold storePtrT widthOf
  split
  next => rfl
  next => split <;> rfl

/-- An access is one instruction, with one range of memory. -/
theorem Access.decode_code {a : Access} (hplace : a.place.InRegister) :
    ∃ i, decode a.code = some (i, []) ∧ ∀ s : State, i.ranges s = [(a.addr s, a.width)] := by
  obtain ⟨place, type, store, isUnsafe⟩ := a
  have hpointer : ∃ i, decode (if store then storePtrT type else loadPtrT type) = some (i, []) ∧
      ∀ s : State, i.ranges s = [(s.reg (if store then .rcx else .rax),
        if type.size = 1 then 1 else if type.size = 4 then 4 else 8)] := by
    rw [← bytes_widthOf]
    cases store with
    | true =>
      refine ⟨_, decode_storePtrT type, fun s => ?_⟩
      change [(s.reg .rcx + 0#64, _)] = _
      rw [BitVec.add_zero]
      rfl
    | false =>
      refine ⟨_, decode_loadPtrT type, fun s => ?_⟩
      rw [ranges_loadInstr]
      change [(s.reg .rax + 0#64, _)] = _
      rw [BitVec.add_zero]
      rfl
  cases place with
  | whole v =>
    cases store with
    | true =>
      refine ⟨_, decode_storeVarT v.offset type, fun s => ?_⟩
      change [(_, (widthOf type.size).bytes)] = _
      rw [bytes_widthOf]
      rfl
    | false =>
      refine ⟨_, decode_loadVarT v.offset type, fun s => ?_⟩
      rw [ranges_loadInstr, bytes_widthOf]
      rfl
  | word v i => exact ⟨_, decode_storeVar _, fun _ => rfl⟩
  | argument v i => exact ⟨_, decode_storeArg v.offset hplace, fun _ => rfl⟩
  | element v => exact hpointer
  | field v f => exact hpointer
  | pointee => exact hpointer

/-! ## Addresses -/

/-- What an index is multiplied with: the size of an element, of which the
instruction takes eight bits. -/
def Var.stride (v : Var) : BitVec 8 :=
  (if v.type.kind = .array then typePointeeSize v.type else 8).setWidth 8

/-- The address that the code of a place leaves in `rax`. -/
def Place.target (place : Place) (s : State) : Word :=
  match place with
  | .field v f => s.reg .rbp + (-v.offset).signExtend 64 + f.offset.signExtend 64
  | .element v =>
    s.reg .rax * v.stride.signExtend 64 + (s.reg .rbp + (-v.offset).signExtend 64)
  | _ => s.reg .rax

theorem decode_addrVar (off : U32) (bs : List Byte) :
    decode (addrVar off ++ bs) = some (.lea .rax (.base .rbp ((-off).signExtend 64)), bs) := by
  rw [addrVar, rbpOff, List.append_assoc]
  exact decode_disp32 (f := fun d => .lea .rax (.base .rbp d)) (fun _ _ _ _ _ => rfl) (-off) bs

theorem decode_leaRcxVar (off : U32) (bs : List Byte) :
    decode (leaRcxVar off ++ bs) = some (.lea .rcx (.base .rbp ((-off).signExtend 64)), bs) := by
  rw [leaRcxVar, rbpOff, List.append_assoc]
  exact decode_disp32 (f := fun d => .lea .rcx (.base .rbp d)) (fun _ _ _ _ _ => rfl) (-off) bs

theorem decode_addOffset {off : U32} (hoff : off ≠ 0) :
    decode (addOffset off) = some (.alu .add .qword (.reg .rax) (.imm (off.signExtend 64)), []) := by
  have hdecode := @decode_disp32 [0x48, 0x05] (fun d => .alu .add .qword (.reg .rax) (.imm d))
    (fun _ _ _ _ _ => rfl) off []
  rw [addOffset, if_pos hoff]
  exact hdecode

theorem runCode_fieldAddress (v : Var) (f : Field) (s : State) :
    ∃ s₁, runCode 3 (fieldAddress v f) s = some s₁ ∧ s₁.mem = s.mem ∧
      s₁.reg .rax = s.reg .rbp + (-v.offset).signExtend 64 + f.offset.signExtend 64 := by
  have hlea := decode_addrVar v.offset (addOffset f.offset)
  by_cases hoff : f.offset = 0
  · have hnil : addOffset f.offset = [] := by
      rw [addOffset, if_neg (not_not_intro hoff)]
    rw [fieldAddress, runCode_cons hlea rfl, hnil]
    refine ⟨_, rfl, rfl, ?_⟩
    rw [hoff]
    exact (BitVec.add_zero _).symm
  · rw [fieldAddress, runCode_cons hlea rfl, runCode_cons (decode_addOffset hoff) rfl]
    exact ⟨_, rfl, rfl, rfl⟩

/-- What `rax` is multiplied by for a size: its low byte, as a signed number. -/
def scaledBy (size : U32) : Word :=
  (size.setWidth 8).signExtend 64

/-- `rax` is scaled, or left as it is for a size of one byte. -/
theorem runCode_scaleRax (size : U32) (s : State) :
    ∃ s₁, runCode 1 (scaleRax size) s = some s₁ ∧ s₁.mem = s.mem ∧
      s₁.reg = (s.set .rax (s.reg .rax * scaledBy size)).reg := by
  unfold scaleRax
  split
  next h8 =>
    have himul : decode [0x48, 0x6B, 0xC0, 0x08] = some (.imul .rax (.reg .rax) (.imm 8), []) := rfl
    rw [runCode_cons himul rfl, h8]
    exact ⟨_, rfl, rfl, rfl⟩
  next =>
    split
    next =>
      exact ⟨_, rfl, rfl, rfl⟩
    next h1 =>
      refine ⟨s, rfl, rfl, funext fun r => ?_⟩
      have hone : s.reg .rax * scaledBy 1 = s.reg .rax := BitVec.mul_one _
      rw [not_not.mp h1, hone]
      show _ = if r = .rax then s.reg .rax else s.reg r
      split
      next hr => rw [hr]
      next => rfl

/-- The index is scaled, and added to the address of the variable. -/
theorem runCode_indexCode (v : Var) (s : State) :
    ∃ s₁, runCode 3 (indexCode v) s = some s₁ ∧ s₁.mem = s.mem ∧ s₁.reg .rax =
      s.reg .rax * v.stride.signExtend 64 + (s.reg .rbp + (-v.offset).signExtend 64) := by
  have hadd : decode addRaxRcx = some (.alu .add .qword (.reg .rax) (.reg .rcx), []) := rfl
  obtain ⟨s₀, hscale, hmem, hreg⟩ :=
    runCode_scaleRax (if v.type.kind = .array then typePointeeSize v.type else 8) s
  obtain ⟨s₁, htail, hmem₁, hrax⟩ : ∃ s₁, runCode 2 (leaRcxVar v.offset ++ addRaxRcx) s₀ = some s₁ ∧
      s₁.mem = s₀.mem ∧
      s₁.reg .rax = s₀.reg .rax + (s₀.reg .rbp + (-v.offset).signExtend 64) := by
    rw [runCode_cons (decode_leaRcxVar v.offset addRaxRcx) rfl, runCode_cons hadd rfl, runCode]
    exact ⟨_, rfl, rfl, rfl⟩
  rw [indexCode, List.append_assoc]
  refine ⟨s₁, runCode_append hscale htail, hmem₁.trans hmem, ?_⟩
  rw [hrax, hreg]
  rfl

theorem Place.runCode_address (place : Place) (s : State) :
    ∃ s₁, runCode 3 place.address s = some s₁ ∧ s₁.mem = s.mem ∧ s₁.reg .rax = place.target s := by
  cases place with
  | field v f => exact runCode_fieldAddress v f s
  | element v => exact runCode_indexCode v s
  | whole v => exact ⟨s, rfl, rfl, rfl⟩
  | word v i => exact ⟨s, rfl, rfl, rfl⟩
  | argument v i => exact ⟨s, rfl, rfl, rfl⟩
  | pointee => exact ⟨s, rfl, rfl, rfl⟩

/-- Where an access to a place is, in terms of the registers before its address
is computed. -/
def Place.at (place : Place) (s : State) : Word :=
  match place with
  | .whole v | .argument v _ => s.reg .rbp + (-v.offset).signExtend 64
  | .word v i => s.reg .rbp + (-(v.offset - BitVec.ofNat 32 (8 * i))).signExtend 64
  | _ => place.target s

theorem exists_addressed (store : Bool) (s : State) (a : Word) :
    ∃ s₂ : State, s₂.reg .rbp = s.reg .rbp ∧ s₂.reg (if store then .rcx else .rax) = a := by
  have hne : (.rbp : OreOS.Lib.X86.Reg) ≠ if store then .rcx else .rax := by
    cases store <;> decide
  exact ⟨s.set (if store then .rcx else .rax) a, if_neg hne, if_pos rfl⟩

theorem Access.confined_iff {a : Access} {v : Var} (hplace : a.place.InRegister) :
    a.Confined v ↔ ∀ s : State, v.InSlot (s.reg .rbp) (a.place.at s, a.width) := by
  obtain ⟨i, hi, hranges⟩ := Access.decode_code hplace
  have haddr : ∀ {s s₂ : State}, s₂.reg .rbp = s.reg .rbp →
      s₂.reg (if a.store then .rcx else .rax) = a.place.target s → a.addr s₂ = a.place.at s := by
    intro s s₂ hrbp htarget
    unfold Access.addr Place.at
    cases hp : a.place with
    | whole v => rw [hrbp]
    | word v i => rw [hrbp]
    | argument v i => rw [hrbp]
    | field v f => rw [hp] at htarget; exact htarget
    | element v => rw [hp] at htarget; exact htarget
    | pointee => rw [hp] at htarget; exact htarget
  constructor
  · intro hconf s
    obtain ⟨s₁, hrun, hall⟩ := hconf s
    obtain ⟨s₁', hrun', -, htarget⟩ := a.place.runCode_address s
    cases hrun.symm.trans hrun'
    obtain ⟨s₂, hrbp, hset⟩ := exists_addressed a.store s (s₁.reg .rax)
    obtain ⟨i', hi', hin⟩ := hall s₂ hrbp hset
    cases hi.symm.trans hi'
    rw [← haddr hrbp (hset.trans htarget)]
    exact hin _ (by rw [hranges]; exact List.mem_singleton_self _)
  · intro hall s
    obtain ⟨s₁, hrun, -, htarget⟩ := a.place.runCode_address s
    refine ⟨s₁, hrun, fun s₂ hrbp hreg => ⟨i, hi, fun range hrange => ?_⟩⟩
    rw [hranges, List.mem_singleton] at hrange
    rw [hrange, haddr hrbp (hreg.trans htarget)]
    exact hall s

/-! ## Static bounds -/

theorem Var.inSlot_iff (v : Var) (rbp : Word) {o : Int} (hlow : -2 ^ 62 ≤ o) (hhigh : o < 2 ^ 62)
    (w : Nat) : v.InSlot rbp (rbp + BitVec.ofInt 64 o, w) ↔
      -(v.offset.toNat : Int) ≤ o ∧
        o + w ≤ -(v.offset.toNat : Int) + (min v.slotSize v.offset.toNat : Nat) := by
  have hat : ∀ i : Nat, i < 2 ^ 32 →
      (rbp + BitVec.ofInt 64 o = rbp - v.offset.setWidth 64 + BitVec.ofNat 64 i ↔
        o + v.offset.toNat = i) := by
    intro i hi
    have hmove : rbp + BitVec.ofInt 64 o = rbp - v.offset.setWidth 64 + BitVec.ofNat 64 i ↔
        BitVec.ofInt 64 (o + v.offset.toNat) = BitVec.ofInt 64 i := by bv_omega
    rw [hmove]
    constructor
    · intro h
      have hint := congrArg BitVec.toInt h
      rwa [BitVec.toInt_ofInt, BitVec.toInt_ofInt, Int.bmod_eq_of_le (by omega) (by omega),
        Int.bmod_eq_of_le (by omega) (by omega)] at hint
    · intro h
      rw [h]
  constructor
  · rintro ⟨i, hi, hbound⟩
    have := (hat i (by omega)).mp hi
    omega
  · rintro ⟨hstart, hend⟩
    refine ⟨(o + v.offset.toNat).toNat, (hat _ (by omega)).mpr (by omega), by omega⟩

/-- The offset of a place from `rbp`, where it does not depend on an index. An
index does not count when the size of an element has no bits in the byte that
the instruction takes of it. -/
def Place.disp : Place → Option Int
  | .whole v | .argument v _ => some (-v.offset).toInt
  | .word v i => some (-(v.offset - BitVec.ofNat 32 (8 * i))).toInt
  | .field v f => some ((-v.offset).toInt + f.offset.toInt)
  | .element v => if v.stride = 0 then some (-v.offset).toInt else none
  | .pointee => none

/-- The offset and the size of an access, as the compiler has them, are those of
a part of the slot. -/
def Access.Fits (a : Access) (v : Var) : Prop :=
  a.place.InRegister ∧ ∃ o, a.place.disp = some o ∧ -(v.offset.toNat : Int) ≤ o ∧
    o + a.width ≤ -(v.offset.toNat : Int) + (min v.slotSize v.offset.toNat : Nat)

theorem toInt_bounds (d : U32) : -2 ^ 31 ≤ d.toInt ∧ d.toInt < 2 ^ 31 :=
  ⟨BitVec.le_toInt d, BitVec.toInt_lt⟩

theorem Place.at_of_disp {place : Place} {o : Int} (h : place.disp = some o) :
    (-2 ^ 62 ≤ o ∧ o < 2 ^ 62) ∧ ∀ s : State, place.at s = s.reg .rbp + BitVec.ofInt 64 o := by
  cases place with
  | whole v =>
    cases h
    have := toInt_bounds (-v.offset)
    exact ⟨by omega, fun s => rfl⟩
  | argument v i =>
    cases h
    have := toInt_bounds (-v.offset)
    exact ⟨by omega, fun s => rfl⟩
  | word v i =>
    cases h
    have := toInt_bounds (-(v.offset - BitVec.ofNat 32 (8 * i)))
    exact ⟨by omega, fun s => rfl⟩
  | field v f =>
    cases h
    have := toInt_bounds (-v.offset)
    have := toInt_bounds f.offset
    refine ⟨by omega, fun s => ?_⟩
    rw [BitVec.ofInt_add, ← BitVec.add_assoc]
    rfl
  | element v =>
    rw [Place.disp] at h
    split at h
    next hstride =>
      cases h
      have := toInt_bounds (-v.offset)
      refine ⟨by omega, fun s => ?_⟩
      change s.reg .rax * v.stride.signExtend 64 + _ = _
      rw [hstride]
      change s.reg .rax * 0#64 + _ = _
      rw [BitVec.mul_zero, BitVec.zero_add]
      rfl
    next => cases h
  | pointee => cases h

/-- An index that is scaled can be such that the element is nowhere near the
variable. -/
theorem Var.element_outside {v : Var} (hstride : v.stride ≠ 0) (w : Nat) :
    ∃ s : State, ¬ v.InSlot (s.reg .rbp) (Place.at (.element v) s, w) := by
  refine ⟨⟨fun r => if r = .rax then BitVec.ofInt 64 (2 ^ 40) else 0, 0, none, fun _ => 0⟩, ?_⟩
  have hat : Place.at (.element v)
      ⟨fun r => if r = .rax then BitVec.ofInt 64 (2 ^ 40) else 0, 0, none, fun _ => 0⟩ =
      0 + BitVec.ofInt 64 (2 ^ 40 * v.stride.toInt + (-v.offset).toInt) := by
    rw [BitVec.ofInt_add, BitVec.ofInt_mul]
    change BitVec.ofInt 64 (2 ^ 40) * BitVec.ofInt 64 v.stride.toInt +
      (0#64 + BitVec.ofInt 64 (-v.offset).toInt) = 0#64 + _
    rw [BitVec.zero_add, BitVec.zero_add]
  have hoff := toInt_bounds (-v.offset)
  have hlow : -2 ^ 7 ≤ v.stride.toInt := BitVec.le_toInt _
  have hhigh : v.stride.toInt < 2 ^ 7 := BitVec.toInt_lt
  have hne : v.stride.toInt ≠ 0 := fun h => hstride (BitVec.toInt_inj.mp h)
  rw [hat]
  intro hin
  have := (v.inSlot_iff 0 (by omega) (by omega) w).mp hin
  omega

/-- An access of safe code stays in the slot of its variable exactly when it
fits. -/
theorem Access.confined_iff_fits {a : Access} {v : Var} (hvar : a.place.var = some v) :
    a.Confined v ↔ a.Fits v := by
  by_cases hplace : a.place.InRegister
  · rw [Access.confined_iff hplace, Access.Fits]
    cases hdisp : a.place.disp with
    | some o =>
      obtain ⟨⟨hlow, hhigh⟩, hat⟩ := Place.at_of_disp hdisp
      have hbounds : (∀ s : State, v.InSlot (s.reg .rbp) (a.place.at s, a.width)) ↔
          -(v.offset.toNat : Int) ≤ o ∧
            o + a.width ≤ -(v.offset.toNat : Int) + (min v.slotSize v.offset.toNat : Nat) := by
        constructor
        · intro h
          have h₀ := h ⟨fun _ => 0, 0, none, fun _ => 0⟩
          rw [hat, v.inSlot_iff _ hlow hhigh] at h₀
          exact h₀
        · intro h s
          rw [hat, v.inSlot_iff _ hlow hhigh]
          exact h
      rw [hbounds]
      exact ⟨fun h => ⟨hplace, o, rfl, h⟩, fun ⟨_, _, ho, h⟩ => by cases ho; exact h⟩
    | none =>
      refine iff_of_false (fun h => ?_) fun ⟨_, _, ho, _⟩ => by cases ho
      cases hp : a.place with
      | element v' =>
        rw [hp] at hvar hdisp
        cases hvar
        have hstride : v.stride ≠ 0 := fun h0 => by
          rw [Place.disp, if_pos h0] at hdisp
          cases hdisp
        obtain ⟨s, hs⟩ := Var.element_outside hstride a.width
        exact hs (hp ▸ h s)
      | whole v' => rw [hp] at hdisp; cases hdisp
      | word v' i => rw [hp] at hdisp; cases hdisp
      | field v' f => rw [hp] at hdisp; cases hdisp
      | argument v' i => rw [hp] at hdisp; cases hdisp
      | pointee => rw [hp] at hvar; cases hvar
  · refine iff_of_false (fun h => ?_) fun h => hplace h.1
    obtain ⟨s₁, -, hall⟩ := h ⟨fun _ => 0, 0, none, fun _ => 0⟩
    obtain ⟨s₂, hrbp, hset⟩ := exists_addressed a.store ⟨fun _ => 0, 0, none, fun _ => 0⟩ (s₁.reg .rax)
    obtain ⟨i, hi, -⟩ := hall s₂ hrbp hset
    cases hp : a.place with
    | argument v' k =>
      rw [hp] at hplace
      have hcode : a.code = storeArg v'.offset k := by rw [Access.code, hp]
      obtain ⟨j, rfl⟩ := Nat.exists_eq_add_of_le' (Nat.not_lt.mp hplace)
      rw [hcode] at hi
      cases hi
    | whole v' => rw [hp] at hplace; exact hplace trivial
    | word v' i => rw [hp] at hplace; exact hplace trivial
    | field v' f => rw [hp] at hplace; exact hplace trivial
    | element v' => rw [hp] at hplace; exact hplace trivial
    | pointee => rw [hp] at hplace; exact hplace trivial

/-! ## Kernel modules -/

/-- A kernel module goes through a pointer in unsafe code only. -/
theorem kmod_pointee_not_safe {n : Nat} {p : Source} {g₀ g : Globals} (hkmod : g₀.kmodTarget = true)
    (h : compileSource n p g₀ = (.ok (), g)) {a : Access} (ha : Event.access a ∈ g.log)
    (hplace : a.place = .pointee) : a.isUnsafe = true := by
  obtain ⟨g₂, g₃, hfresh, -, hrun, hlog⟩ := compileSource_kmod hkmod h
  have hplain : Plain true fun g => g.kmodTarget = true ∧ True ∧
      ∀ e ∈ g.log, ∀ a, e = Event.access a → a.place = .pointee → a.isUnsafe = true := by
    refine plain_of_events (fun _ _ _ _ _ => trivial) ?_
    rintro g e - he a rfl hp
    exact he hp rfl
  rw [hlog] at ha
  exact (hplain.stableStmt.compileFunctions (fun _ _ _ _ _ hg => hg) (fun _ hg => hg)
    (Nat.le_of_eq (Nat.zero_add _)) ⟨⟨hfresh.target, trivial, fun e he =>
      absurd he (hfresh.not_mem_log e)⟩, hfresh.breaksLogged⟩ hrun).1.2.2 _ ha a rfl hplace

/-- A load or a store in safe code of a kernel module names a variable, and it
stays in the slot of the variable exactly when it fits there. -/
theorem kmod_safe_access_iff {n : Nat} {p : Source} {g₀ g : Globals}
    (hkmod : g₀.kmodTarget = true) (h : compileSource n p g₀ = (.ok (), g)) {a : Access}
    (ha : Event.access a ∈ g.log) (hsafe : a.isUnsafe = false) :
    ∃ v, a.place.var = some v ∧ (a.Confined v ↔ a.Fits v) := by
  cases hvar : a.place.var with
  | some v => exact ⟨v, rfl, Access.confined_iff_fits hvar⟩
  | none =>
    have hpointee : a.place = .pointee := by
      cases hp : a.place with
      | pointee => rfl
      | _ => rw [hp] at hvar; cases hvar
    rw [kmod_pointee_not_safe hkmod h ha hpointee] at hsafe
    cases hsafe

/-- A kernel module with a local variable. -/
def localModule : Source :=
  "fn module_init(api: ptr<u8>) -> int \x7b let x: int = 1; return x; \x7d".toList

def localVar : Var := ⟨"x".toList, 24, tyInt⟩

theorem kmod_safe_access_local : (⟨.whole localVar, tyInt, false, false⟩ : Access).Confined localVar := by
  have hmem : Event.access ⟨.whole localVar, tyInt, false, false⟩ ∈
      (compileSource 80 localModule { kmodTarget := true }).2.log := by decide +kernel
  obtain ⟨v, hv, hiff⟩ := kmod_safe_access_iff rfl (compileSource_of_ok (by decide +kernel)) hmem rfl
  cases hv
  exact hiff.mpr ⟨trivial, -24, rfl, by decide, by decide⟩

/-- A kernel module that reads behind an array, in safe code. -/
def indexModule : Source :=
  "fn module_init(api: ptr<u8>) -> int \x7b let a: [2]int; return a[9]; \x7d".toList

def indexVar : Var := ⟨"a".toList, 32, arrayOf tyInt 2⟩

def indexAccess : Access :=
  ⟨.element indexVar, { arrayOf tyInt 2 with kind := .int, size := 8, align := 8 }, false, false⟩

/-- The module compiles, and its load can touch memory outside of the array. -/
theorem kmod_index_unconfined :
    (compileSource 80 indexModule { kmodTarget := true }).1 = .ok () ∧
      Event.access indexAccess ∈ (compileSource 80 indexModule { kmodTarget := true }).2.log ∧
      ¬ indexAccess.Confined indexVar := by
  refine ⟨by decide +kernel, by decide +kernel, fun hconf => ?_⟩
  obtain ⟨s, hs⟩ := Var.element_outside (v := indexVar) (by decide) 8
  have hplace : indexAccess.place.InRegister := trivial
  exact hs ((Access.confined_iff hplace).mp hconf s)

end OreOS.Orec
