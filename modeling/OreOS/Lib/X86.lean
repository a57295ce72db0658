import OreOS.Lib.Memory

/-!
# A part of the x86-64 instruction set

Registers, memory operands, a decoder for the integer instructions that a simple
code generator emits, and what each of them does. Prefixes other than REX, index
registers and the high byte registers do not decode. Flags are known after a
comparison or a subtraction only. Division errors, system calls and conditions
on unknown flags have no successor.
-/

namespace OreOS.Lib.X86

/-! ## State -/

inductive Reg
  | rax | rcx | rdx | rbx | rsp | rbp | rsi | rdi
  | r8 | r9 | r10 | r11 | r12 | r13 | r14 | r15
  deriving DecidableEq

structure Flags where
  zf : Bool
  sf : Bool
  cf : Bool
  of : Bool
  deriving DecidableEq

structure State where
  reg : Reg → Word
  rip : Word
  flags : Option Flags
  mem : Mem

/-! ## Instructions -/

/-- How many bytes an operand has. -/
inductive Width
  | byte
  | dword
  | qword
  deriving DecidableEq

def Width.bytes : Width → Nat
  | .byte => 1
  | .dword => 4
  | .qword => 8

/-- The address of a memory operand. -/
inductive Addr
  | base (r : Reg) (disp : Word)
  | rip (disp : Word)
  deriving DecidableEq

inductive Operand
  | reg (r : Reg)
  | mem (a : Addr)
  | imm (v : Word)
  deriving DecidableEq

inductive Alu
  | add
  | or
  | and
  | sub
  | xor
  | cmp
  deriving DecidableEq

inductive Cond
  | e
  | ne
  | l
  | ge
  | le
  | g
  deriving DecidableEq

inductive Instr
  | mov (w : Width) (dst src : Operand)
  /-- Zero extension of a byte. -/
  | movzx (w : Width) (dst : Reg) (src : Operand)
  | lea (dst : Reg) (a : Addr)
  | alu (op : Alu) (w : Width) (dst src : Operand)
  /-- The product of `src` and `y`. -/
  | imul (dst : Reg) (src y : Operand)
  | not (dst : Operand)
  | neg (dst : Operand)
  | dec (dst : Operand)
  | div (src : Operand)
  | idiv (src : Operand)
  | shl (dst : Operand)
  | sar (dst : Operand)
  | cqo
  | setcc (c : Cond) (dst : Operand)
  | push (r : Reg)
  | pop (r : Reg)
  | call (rel : Word)
  | jmp (rel : Word)
  | jcc (c : Cond) (rel : Word)
  | ret
  | syscall
  deriving DecidableEq

/-! ## Decoding -/

/-- The REX prefix: 64-bit operands, and the fourth bits of the registers. -/
structure Rex where
  present : Bool := false
  w : Bool := false
  r : Bool := false
  b : Bool := false

def Reg.ofNum : Nat → Reg
  | 0 => .rax | 1 => .rcx | 2 => .rdx | 3 => .rbx | 4 => .rsp | 5 => .rbp | 6 => .rsi | 7 => .rdi
  | 8 => .r8 | 9 => .r9 | 10 => .r10 | 11 => .r11 | 12 => .r12 | 13 => .r13 | 14 => .r14
  | _ => .r15

def Reg.ofBits (high : Bool) (low : Nat) : Reg :=
  Reg.ofNum (if high then low + 8 else low)

/-- A signed byte. -/
def imm8 : List Byte → Option (Word × List Byte)
  | b :: bs => some (b.signExtend 64, bs)
  | _ => none

/-- Four signed bytes. -/
def imm32 : List Byte → Option (Word × List Byte)
  | b₀ :: b₁ :: b₂ :: b₃ :: bs => some ((b₃ ++ b₂ ++ b₁ ++ b₀).signExtend 64, bs)
  | _ => none

def imm64 : List Byte → Option (Word × List Byte)
  | b₀ :: b₁ :: b₂ :: b₃ :: b₄ :: b₅ :: b₆ :: b₇ :: bs =>
    some (b₇ ++ b₆ ++ b₅ ++ b₄ ++ b₃ ++ b₂ ++ b₁ ++ b₀, bs)
  | _ => none

/-- The base of a memory operand: `rsp` has a byte of its own. -/
def baseReg (rex : Rex) (rm : Nat) (bs : List Byte) : Option (Reg × List Byte) :=
  if rm = 4 then
    match bs with
    | sib :: bs => if sib = 0x24 then some (Reg.ofBits rex.b 4, bs) else none
    | [] => none
  else some (Reg.ofBits rex.b rm, bs)

/-- The operands of a ModRM byte: the number in its middle, and the register or
memory operand. -/
def modRM (rex : Rex) : List Byte → Option (Nat × Operand × List Byte)
  | [] => none
  | m :: bs =>
    let mode := m.toNat / 64
    let mid := m.toNat / 8 % 8
    let rm := m.toNat % 8
    if mode = 3 then some (mid, .reg (Reg.ofBits rex.b rm), bs)
    else if mode = 0 ∧ rm = 5 then do
      let (disp, bs) ← imm32 bs
      return (mid, .mem (.rip disp), bs)
    else do
      let (base, bs) ← baseReg rex rm bs
      if mode = 0 then return (mid, .mem (.base base 0), bs)
      else if mode = 1 then
        let (disp, bs) ← imm8 bs
        return (mid, .mem (.base base disp), bs)
      else
        let (disp, bs) ← imm32 bs
        return (mid, .mem (.base base disp), bs)

/-- The width of an instruction that has no byte form. -/
def Rex.width (rex : Rex) : Width :=
  if rex.w then .qword else .dword

def Alu.ofNum : Nat → Option Alu
  | 0 => some .add | 1 => some .or | 4 => some .and | 5 => some .sub | 6 => some .xor
  | 7 => some .cmp | _ => none

def Cond.ofNum : Nat → Option Cond
  | 4 => some .e | 5 => some .ne | 12 => some .l | 13 => some .ge | 14 => some .le
  | 15 => some .g | _ => none

/-- Without REX, byte registers from 4 on are not the low bytes. -/
def Operand.lowByte (rex : Rex) (o : Operand) : Bool :=
  match o with
  | .reg r => rex.present || r = .rax || r = .rcx || r = .rdx || r = .rbx
  | _ => true

/-- The two-byte opcodes, behind `0F`. -/
def decode0F (rex : Rex) : List Byte → Option (Instr × List Byte)
  | [] => none
  | op :: bs =>
    if op = 0x05 then some (.syscall, bs)
    else if op = 0xB6 then do
      let (r, o, bs) ← modRM rex bs
      if o.lowByte rex then return (.movzx rex.width (Reg.ofBits rex.r r) o, bs) else none
    else if op = 0xAF then do
      let (r, o, bs) ← modRM rex bs
      if rex.w then return (.imul (Reg.ofBits rex.r r) (.reg (Reg.ofBits rex.r r)) o, bs) else none
    else if op.toNat / 16 = 8 then do
      let c ← Cond.ofNum (op.toNat % 16)
      let (rel, bs) ← imm32 bs
      return (.jcc c rel, bs)
    else if op.toNat / 16 = 9 then do
      let c ← Cond.ofNum (op.toNat % 16)
      let (_, o, bs) ← modRM rex bs
      if o.lowByte rex then return (.setcc c o, bs) else none
    else none

/-- The group of `F7`, `FF` and `D3`, by the number in the middle. -/
def unary (op : Byte) (n : Nat) (o : Operand) : Option Instr :=
  if op = 0xF7 then
    match n with
    | 2 => some (.not o)
    | 3 => some (.neg o)
    | 6 => some (.div o)
    | 7 => some (.idiv o)
    | _ => none
  else if op = 0xFF then
    match n with
    | 1 => some (.dec o)
    | _ => none
  else
    match n with
    | 4 => some (.shl o)
    | 7 => some (.sar o)
    | _ => none

/-- The instruction of an opcode, behind the prefix. -/
def decodeOp (rex : Rex) (op : Byte) (bs : List Byte) : Option (Instr × List Byte) :=
  if op = 0x0F then decode0F rex bs
  else if op.toNat / 8 = 0x50 / 8 then some (.push (Reg.ofBits rex.b (op.toNat % 8)), bs)
  else if op.toNat / 8 = 0x58 / 8 then some (.pop (Reg.ofBits rex.b (op.toNat % 8)), bs)
  else if op = 0xC3 then some (.ret, bs)
  else if op = 0xE8 then do
    let (rel, bs) ← imm32 bs
    return (.call rel, bs)
  else if op = 0xE9 then do
    let (rel, bs) ← imm32 bs
    return (.jmp rel, bs)
  else if op.toNat / 8 = 0xB8 / 8 then
    if rex.w then do
      let (v, bs) ← imm64 bs
      return (.mov .qword (.reg (Reg.ofBits rex.b (op.toNat % 8))) (.imm v), bs)
    else none
  else if op = 0x88 then do
    let (r, o, bs) ← modRM rex bs
    let src := Operand.reg (Reg.ofBits rex.r r)
    if o.lowByte rex && src.lowByte rex then return (.mov .byte o src, bs) else none
  else if op = 0x89 then do
    let (r, o, bs) ← modRM rex bs
    return (.mov rex.width o (.reg (Reg.ofBits rex.r r)), bs)
  else if op = 0x8B then do
    let (r, o, bs) ← modRM rex bs
    return (.mov rex.width (.reg (Reg.ofBits rex.r r)) o, bs)
  else if op = 0xC6 then do
    let (r, o, bs) ← modRM rex bs
    let (v, bs) ← imm8 bs
    if r = 0 ∧ o.lowByte rex = true then return (.mov .byte o (.imm v), bs) else none
  else if op = 0x8D then do
    let (r, o, bs) ← modRM rex bs
    match rex.w, o with
    | true, .mem a => return (.lea (Reg.ofBits rex.r r) a, bs)
    | _, _ => none
  else if op = 0x99 then if rex.w then some (.cqo, bs) else none
  else if op = 0x6B then do
    let (r, o, bs) ← modRM rex bs
    let (v, bs) ← imm8 bs
    if rex.w then return (.imul (Reg.ofBits rex.r r) o (.imm v), bs) else none
  else if op = 0xF7 ∨ op = 0xFF ∨ op = 0xD3 then do
    let (n, o, bs) ← modRM rex bs
    let i ← unary op n o
    if rex.w then return (i, bs) else none
  else if op = 0x80 then do
    let (n, o, bs) ← modRM rex bs
    let (v, bs) ← imm8 bs
    let alu ← Alu.ofNum n
    if o.lowByte rex then return (.alu alu .byte o (.imm v), bs) else none
  else if op = 0x81 then do
    let (n, o, bs) ← modRM rex bs
    let (v, bs) ← imm32 bs
    let alu ← Alu.ofNum n
    return (.alu alu rex.width o (.imm v), bs)
  else if op = 0x83 then do
    let (n, o, bs) ← modRM rex bs
    let (v, bs) ← imm8 bs
    let alu ← Alu.ofNum n
    return (.alu alu rex.width o (.imm v), bs)
  else if op.toNat / 64 = 0 ∧ op.toNat % 8 = 1 then do
    let alu ← Alu.ofNum (op.toNat / 8)
    let (r, o, bs) ← modRM rex bs
    return (.alu alu rex.width o (.reg (Reg.ofBits rex.r r)), bs)
  else if op.toNat / 64 = 0 ∧ op.toNat % 8 = 5 then do
    let alu ← Alu.ofNum (op.toNat / 8)
    let (v, bs) ← imm32 bs
    return (.alu alu rex.width (.reg .rax) (.imm v), bs)
  else none

/-- The first instruction, and the bytes behind it. -/
def decode : List Byte → Option (Instr × List Byte)
  | [] => none
  | b :: bs =>
    if b.toNat / 16 = 4 then
      match bs with
      | op :: bs =>
        if b.getLsbD 1 then none
        else decodeOp { present := true, w := b.getLsbD 3, r := b.getLsbD 2, b := b.getLsbD 0 } op bs
      | [] => none
    else decodeOp {} b bs

/-! ## Execution -/

namespace State

def set (s : State) (r : Reg) (v : Word) : State :=
  { s with reg := fun r' => if r' = r then v else s.reg r' }

/-- The address of an operand; `rip` is behind the instruction. -/
def address (s : State) : Addr → Word
  | .base r disp => s.reg r + disp
  | .rip disp => s.rip + disp

/-- The low bytes of a word. -/
def low : Width → Word → Word
  | .byte, v => (v.setWidth 8).setWidth 64
  | .dword, v => (v.setWidth 32).setWidth 64
  | .qword, v => v

def load (s : State) (a : Word) : Width → Word
  | .byte => (s.mem a).setWidth 64
  | .dword => (s.mem.load32 a).setWidth 64
  | .qword => s.mem.load64 a

def read (s : State) (w : Width) : Operand → Word
  | .reg r => low w (s.reg r)
  | .mem a => s.load (s.address a) w
  | .imm v => low w v

/-- A write of 32 bits to a register clears the rest of it, one of 8 bits does
not. -/
def write (s : State) (w : Width) (o : Operand) (v : Word) : State :=
  match o with
  | .reg r =>
    match w with
    | .byte => s.set r ((s.reg r).extractLsb' 8 56 ++ v.setWidth 8)
    | _ => s.set r (low w v)
  | .mem a => { s with mem := s.mem.write (s.address a) (Mem.leBytes w.bytes v) }
  | .imm _ => s

def pushWord (s : State) (v : Word) : State :=
  { s.set .rsp (s.reg .rsp - 8) with mem := s.mem.write (s.reg .rsp - 8) (Mem.leBytes 8 v) }

def jump (s : State) (rel : Word) : State :=
  { s with rip := s.rip + rel }

def forgetFlags (s : State) : State :=
  { s with flags := none }

end State

/-- The flags of `x - y`, of operands of one width. -/
def subFlags {n : Nat} (x y : BitVec n) : Flags where
  zf := x = y
  sf := (x - y).msb
  cf := x.toNat < y.toNat
  of := x.msb != y.msb && x.msb != (x - y).msb

def subFlagsOf (w : Width) (x y : Word) : Flags :=
  match w with
  | .byte => subFlags (x.setWidth 8) (y.setWidth 8)
  | .dword => subFlags (x.setWidth 32) (y.setWidth 32)
  | .qword => subFlags x y

def Cond.holds (f : Flags) : Cond → Bool
  | .e => f.zf
  | .ne => !f.zf
  | .l => f.sf != f.of
  | .ge => f.sf == f.of
  | .le => f.zf || f.sf != f.of
  | .g => !f.zf && f.sf == f.of

def execAlu (op : Alu) (w : Width) (dst src : Operand) (s : State) : State :=
  let x := s.read w dst
  let y := s.read w src
  match op with
  | .add => (s.write w dst (x + y)).forgetFlags
  | .or => (s.write w dst (x ||| y)).forgetFlags
  | .and => (s.write w dst (x &&& y)).forgetFlags
  | .xor => (s.write w dst (x ^^^ y)).forgetFlags
  | .sub => { s.write w dst (x - y) with flags := some (subFlagsOf w x y) }
  | .cmp => { s with flags := some (subFlagsOf w x y) }

/-- Unsigned division of `rdx:rax`; none when the quotient does not fit. -/
def execDiv (y : Word) (s : State) : Option State :=
  let x := (s.reg .rdx).toNat * 2 ^ 64 + (s.reg .rax).toNat
  if y.toNat = 0 ∨ 2 ^ 64 ≤ x / y.toNat then none
  else
    some (((s.set .rax (BitVec.ofNat 64 (x / y.toNat))).set .rdx
      (BitVec.ofNat 64 (x % y.toNat))).forgetFlags)

/-- Signed division of `rdx:rax`, towards zero; none when the quotient does not
fit. -/
def execIdiv (y : Word) (s : State) : Option State :=
  let x := (s.reg .rdx).toInt * 2 ^ 64 + (s.reg .rax).toNat
  let q := x.tdiv y.toInt
  if y.toInt = 0 ∨ q < -2 ^ 63 ∨ 2 ^ 63 ≤ q then none
  else
    some (((s.set .rax (BitVec.ofInt 64 q)).set .rdx
      (BitVec.ofInt 64 (x.tmod y.toInt))).forgetFlags)

/-- What an instruction does; `rip` is behind it. -/
def exec (s : State) : Instr → Option State
  | .mov w dst src => some (s.write w dst (s.read w src))
  | .movzx w dst src => some (s.write w (.reg dst) (s.read .byte src))
  | .lea dst a => some (s.set dst (s.address a))
  | .alu op w dst src => some (execAlu op w dst src s)
  | .imul dst src y => some (s.set dst (s.read .qword src * s.read .qword y)).forgetFlags
  | .not dst => some (s.write .qword dst (~~~ s.read .qword dst))
  | .neg dst => some (s.write .qword dst (-s.read .qword dst)).forgetFlags
  | .dec dst => some (s.write .qword dst (s.read .qword dst - 1)).forgetFlags
  | .div src => execDiv (s.read .qword src) s
  | .idiv src => execIdiv (s.read .qword src) s
  | .shl dst =>
    some (s.write .qword dst
      (s.read .qword dst <<< ((s.reg .rcx).toNat % 64))).forgetFlags
  | .sar dst =>
    some (s.write .qword dst
      ((s.read .qword dst).sshiftRight ((s.reg .rcx).toNat % 64))).forgetFlags
  | .cqo => some (s.set .rdx (if (s.reg .rax).msb then -1 else 0))
  | .setcc c dst => do
    let f ← s.flags
    return s.write .byte dst (if c.holds f then 1 else 0)
  | .push r => some (s.pushWord (s.reg r))
  | .pop r =>
    some ((s.set .rsp (s.reg .rsp + 8)).set r (s.mem.load64 (s.reg .rsp)))
  | .call rel => some ((s.pushWord s.rip).jump rel)
  | .jmp rel => some (s.jump rel)
  | .jcc c rel => do
    let f ← s.flags
    return if c.holds f then s.jump rel else s
  | .ret => some { s.set .rsp (s.reg .rsp + 8) with rip := s.mem.load64 (s.reg .rsp) }
  | .syscall => none

/-- Code without jumps, run by itself; `n` instructions at most. -/
def runCode : Nat → List Byte → State → Option State
  | _, [], s => some s
  | 0, _, _ => none
  | n + 1, bs, s => do
    let (i, rest) ← decode bs
    let s ← exec { s with rip := s.rip + BitVec.ofNat 64 (bs.length - rest.length) } i
    runCode n rest s

/-! ## Memory that an instruction touches -/

/-- The range of a memory operand: its address and its length. -/
def Operand.range (s : State) (w : Width) : Operand → List (Word × Nat)
  | .mem a => [(s.address a, w.bytes)]
  | _ => []

/-- The memory operands of an instruction. The stack of `push`, `pop`, `call` and
`ret` is not among them. -/
def Instr.ranges (s : State) : Instr → List (Word × Nat)
  | .mov w dst src | .alu _ w dst src => dst.range s w ++ src.range s w
  | .movzx _ _ src => src.range s .byte
  | .imul _ src y => src.range s .qword ++ y.range s .qword
  | .not o | .neg o | .dec o | .div o | .idiv o | .shl o | .sar o => o.range s .qword
  | .setcc _ o => o.range s .byte
  | _ => []

end OreOS.Lib.X86
