import OreOS.Lib.Memory
import OreOS.Orec.Source

/-!
# Instructions (`user/orec.c`)

The bytes of the instructions, under the names of the functions that emit them:
`emit_x` of the source is `emit x` here. Only what needs the state of the
compiler (a hole to be patched, the function that is being compiled) is left to
the emitters themselves.
-/

namespace OreOS.Orec

open OreOS.Lib (Word Byte Mem)

/-! ## Types

Sizes, alignments and offsets are `uint32_t` and wrap. A type carries what code generation
asks of it: the size of a value, and of what a pointer points to or an array consists of. -/

/-- `uint32_t`, and `int32_t` where only sums and bits matter. -/
abbrev U32 := BitVec 32

inductive TypeKind
  | void
  | bool
  | char
  | u8
  | i32
  | u32
  | int
  | u64
  | ptr
  | array
  | struct
  deriving DecidableEq

structure Ty where
  kind : TypeKind
  size : U32
  align : U32
  base : U32 := 0
  count : U32 := 0
  struc : U32 := 0
  deriving DecidableEq

def tyInt : Ty := ⟨.int, 8, 8, 0, 0, 0⟩
def tyChar : Ty := ⟨.char, 1, 1, 0, 0, 0⟩
def tyVoid : Ty := ⟨.void, 0, 1, 0, 0, 0⟩
def tyBool : Ty := ⟨.bool, 1, 1, 0, 0, 0⟩

/-- `x ? x : y`. -/
def orElse (x y : U32) : U32 :=
  if x ≠ 0 then x else y

def tyPtr (base : Ty) : Ty :=
  { kind := .ptr, size := 8, align := 8
    base :=
      if base.kind = .char ∨ base.kind = .u8 then 1
      else if base.kind = .i32 ∨ base.kind = .u32 then 4
      else if base.kind = .void then 1
      else orElse base.size 8 }

/-- A value of `size` bytes as loads and stores through pointers see it. -/
def tyOfSize (size : U32) : Ty :=
  { tyInt with
    size := size
    align := if size < 8 then size else 8
    kind := if size = 1 then .u8 else if size = 4 then .u32 else .int }

def tyArrayElement (array : Ty) : Ty :=
  tyOfSize (orElse array.base 1)

def alignUpU32 (v a : U32) : U32 :=
  if a = 0 then v else (v + a - 1) / a * a

def typeIsPtr (t : Ty) : Bool :=
  t.kind = .ptr || t.kind = .array

def typeIsIntLike (t : Ty) : Bool :=
  t.kind = .int || t.kind = .u64 || t.kind = .i32 || t.kind = .u32 || t.kind = .char ||
    t.kind = .u8 || t.kind = .bool

def typePointeeSize (t : Ty) : U32 :=
  if t.kind = .array then orElse t.base 1
  else if t.kind = .ptr then orElse t.base 1
  else 1

/-- The array type of `count` elements, as `parse_type` makes it of the
element's. -/
def arrayOf (elem : Ty) (count : U32) : Ty :=
  { elem with
    kind := .array
    count := count
    base := orElse elem.size 1
    size := orElse elem.size 1 * count
    align := orElse elem.align 1 }

def oreSysWrite : Word := 1
def oreSysExit : Word := 3

/-- A displacement. -/
def disp32 (d : U32) : List Byte := Mem.leBytes 4 d

def movRax (v : Word) : List Byte := [0x48, 0xB8] ++ Mem.leBytes 8 v
def movRdi (v : Word) : List Byte := [0x48, 0xBF] ++ Mem.leBytes 8 v
def movRdx (v : Word) : List Byte := [0x48, 0xBA] ++ Mem.leBytes 8 v

def syscall : List Byte := [0x0F, 0x05]
def pushRax : List Byte := [0x50]
def popRcx : List Byte := [0x59]
def popRax : List Byte := [0x58]
def popRdi : List Byte := [0x5F]
def popRsi : List Byte := [0x5E]
def popRdx : List Byte := [0x5A]
def popR8 : List Byte := [0x41, 0x58]
def popR9 : List Byte := [0x41, 0x59]
def popR10 : List Byte := [0x41, 0x5A]

/-- `push rbp; mov rbp,rsp; sub rsp,?`, up to the hole. -/
def enterFrame : List Byte := [0x55, 0x48, 0x89, 0xE5, 0x48, 0x81, 0xEC]

/-- `mov [rbp-8],rbx`. -/
def saveRbx : List Byte := [0x48, 0x89, 0x9D] ++ disp32 0xFFFFFFF8

/-- `mov rbx,[rbp-8]; mov rsp,rbp; pop rbp; ret`. -/
def epilogueRet : List Byte :=
  [0x48, 0x8B, 0x9D] ++ disp32 0xFFFFFFF8 ++ [0x48, 0x89, 0xEC, 0x5D, 0xC3]

/-! ## Variables -/

/-- An instruction on the variable at `[rbp-off]`. -/
def rbpOff (opcode : List Byte) (off : U32) : List Byte := opcode ++ disp32 (-off)

def loadVar (off : U32) : List Byte := rbpOff [0x48, 0x8B, 0x85] off
def storeVar (off : U32) : List Byte := rbpOff [0x48, 0x89, 0x85] off
def addrVar (off : U32) : List Byte := rbpOff [0x48, 0x8D, 0x85] off
def leaRcxVar (off : U32) : List Byte := rbpOff [0x48, 0x8D, 0x8D] off

def loadVarT (off : U32) (t : Ty) : List Byte :=
  if t.size = 1 then rbpOff [0x0F, 0xB6, 0x85] off
  else if t.size = 4 then rbpOff [0x8B, 0x85] off
  else loadVar off

def storeVarT (off : U32) (t : Ty) : List Byte :=
  if t.size = 1 then rbpOff [0x88, 0x85] off
  else if t.size = 4 then rbpOff [0x89, 0x85] off
  else storeVar off

/-- The store of argument register `arg`: `emit_store_arg_reg` for the first
four, `emit_store_r8_arg` and `emit_store_r9_arg` for the others. -/
def storeArg (off : U32) : Nat → List Byte
  | 0 => rbpOff [0x48, 0x89, 0xBD] off
  | 1 => rbpOff [0x48, 0x89, 0xB5] off
  | 2 => rbpOff [0x48, 0x89, 0x95] off
  | 3 => rbpOff [0x48, 0x89, 0x8D] off
  | 4 => rbpOff [0x4C, 0x89, 0x85] off
  | 5 => rbpOff [0x4C, 0x89, 0x8D] off
  | _ => []

/-- The pop into argument register `arg`. -/
def popArg : Nat → List Byte
  | 0 => popRdi
  | 1 => popRsi
  | 2 => popRdx
  | 3 => popRcx
  | 4 => popR8
  | 5 => popR9
  | _ => []

/-- Pop the arguments into their registers, the last one first. -/
def popArgs : Nat → List Byte
  | 0 => []
  | a + 1 => popArg a ++ popArgs a

/-! ## Pointers -/

/-- Load through `rax`, by the size of the value. -/
def loadPtrT (t : Ty) : List Byte :=
  if t.size = 1 then [0x48, 0x0F, 0xB6, 0x00]
  else if t.size = 4 then [0x8B, 0x00]
  else [0x48, 0x8B, 0x00]

/-- Store `rax` through `rcx`, by the size of the value. -/
def storePtrT (t : Ty) : List Byte :=
  if t.size = 1 then [0x88, 0x01]
  else if t.size = 4 then [0x89, 0x01]
  else [0x48, 0x89, 0x01]

/-- Multiply `rax` by an element size. -/
def scaleRax (scale : U32) : List Byte :=
  if scale = 8 then [0x48, 0x6B, 0xC0, 0x08]
  else if scale ≠ 1 then [0x48, 0x6B, 0xC0, scale.setWidth 8]
  else []

def addRaxRcx : List Byte := [0x48, 0x01, 0xC8]

/-- `add rax,imm32` of a field's offset, or nothing. -/
def addOffset (off : U32) : List Byte :=
  if off ≠ 0 then [0x48, 0x05] ++ disp32 off else []

/-! ## Operators -/

/-- `cmp rax,0; sete al; movzx rax,al`. -/
def notCode : List Byte :=
  [0x48, 0x83, 0xF8, 0x00, 0x0F, 0x94, 0xC0, 0x48, 0x0F, 0xB6, 0xC0]

def complCode : List Byte := [0x48, 0xF7, 0xD0]
def negCode : List Byte := [0x48, 0xF7, 0xD8]

/-- `mov rbx,rax; mov rax,rcx; cqo; idiv rbx`. -/
def divCode : List Byte :=
  [0x48, 0x89, 0xC3, 0x48, 0x89, 0xC8, 0x48, 0x99, 0x48, 0xF7, 0xFB]

/-- `emit_cmp_set`: `pop rcx; cmp rcx,rax; setcc al; movzx rax,al`, with the
second byte of `setcc`. -/
def cmpSet (setcc : Byte) : List Byte :=
  popRcx ++ [0x48, 0x39, 0xC1] ++ [0x0F, setcc, 0xC0] ++ [0x48, 0x0F, 0xB6, 0xC0]

/-- An integer is scaled when it is added to a pointer. -/
def scaleOperand (lhs rhs : Ty) : List Byte :=
  if typeIsPtr lhs && !typeIsPtr rhs then scaleRax (typePointeeSize lhs) else []

/-- What combines the left value, on the stack, with the right one, in
`rax`. -/
def BinOp.code (lhs rhs : Ty) : BinOp → List Byte
  | .mul => popRcx ++ [0x48, 0x0F, 0xAF, 0xC1]
  | .div => popRcx ++ divCode
  | .mod => popRcx ++ divCode ++ [0x48, 0x89, 0xD0]
  | .add => scaleOperand lhs rhs ++ popRcx ++ [0x48, 0x01, 0xC8]
  | .sub => scaleOperand lhs rhs ++ popRcx ++ [0x48, 0x29, 0xC1, 0x48, 0x89, 0xC8]
  | .shl => [0x48, 0x89, 0xC1] ++ popRax ++ [0x48, 0xD3, 0xE0]
  | .shr => [0x48, 0x89, 0xC1] ++ popRax ++ [0x48, 0xD3, 0xF8]
  | .bitand => popRcx ++ [0x48, 0x21, 0xC8]
  | .bitor => popRcx ++ [0x48, 0x09, 0xC8]
  | .eq => cmpSet 0x94
  | .ne => cmpSet 0x95
  | .le => cmpSet 0x9E
  | .ge => cmpSet 0x9D
  | .lt => cmpSet 0x9C
  | .gt => cmpSet 0x9F

/-- The type of the result, by the type of the left value. -/
def BinOp.type (lhs : Ty) : BinOp → Ty
  | .add | .sub => lhs
  | .eq | .ne | .le | .ge | .lt | .gt => tyBool
  | _ => tyInt

/-! ## Jumps, up to their displacement -/

def callOpcode : List Byte := [0xE8]
def jmpOpcode : List Byte := [0xE9]

/-- `cmp rax,0; je`. -/
def jumpIfZero : List Byte := [0x48, 0x83, 0xF8, 0x00, 0x0F, 0x84]

end OreOS.Orec
