import OreOS.Lib.Buffer
import OreOS.Lib.Exec
import OreOS.Orec.Instructions

/-!
# Globals (`user/orec.c`)

The compiler keeps everything in globals: text and data, the tables of
variables, functions, structs, calls and data references, and the stack of
loops. A computation (`Compile`) runs on them and ends with an answer or stops;
-1 is `Stop.rejected`, and running out of fuel is a stop of its own. Tables with
a count are lists. `log` is not in the source: it lists what was emitted and for
what (`Event`).
-/

namespace OreOS.Orec

open OreOS.Lib (Word Byte Buf Exec Mem)

def textMax : Nat := 32768
def dataMax : Nat := 32768
def maxVars : Nat := 64
def maxFuncs : Nat := 96
def maxCalls : Nat := 128
def maxParams : Nat := 6
def maxStructs : Nat := 16
def maxFields : Nat := 32
def maxDataRefs : Nat := 512
def maxLoopDepth : Nat := 16
def maxBreaksPerLoop : Nat := 64

/-! ## Tables -/

structure Var where
  name : Name
  offset : U32
  type : Ty
  deriving DecidableEq

structure Field where
  name : Name
  type : Ty
  offset : U32
  deriving DecidableEq

structure StructDef where
  name : Name
  fields : List Field := []
  size : U32 := 0
  align : U32 := 1
  packed : Bool := false

/-- What a call looks at in a function. -/
structure Signature where
  name : Name
  params : List (Name × Ty) := []
  retType : Ty := tyInt
  isExtern : Bool := false

structure Function extends Signature where
  body : Source := []
  addr : Nat := 0
  isUnsafe : Bool := false
  attrKernel : Bool := false
  attrUser : Bool := false
  attrExport : Bool := false

def Signature.argc (f : Signature) : Nat :=
  f.params.length

structure CallPatch where
  patch : Nat
  fn : Nat
  deriving DecidableEq

structure DataRef where
  patch : Nat
  dataOff : Nat
  deriving DecidableEq

/-! ## Memory accesses -/

/-- What a load or a store is for. -/
inductive Place
  /-- A variable. -/
  | whole (v : Var)
  /-- An element of a variable. -/
  | element (v : Var)
  /-- A field of a variable. -/
  | field (v : Var) (f : Field)
  /-- One word of a variable that is cleared. -/
  | word (v : Var) (i : Nat)
  /-- A parameter, which arrives in a register. -/
  | argument (v : Var) (i : Nat)
  /-- What a pointer points to. -/
  | pointee
  deriving DecidableEq

/-- A load or a store, with the type that selects the instruction and the flag
`current_function_unsafe`. -/
structure Access where
  place : Place
  type : Ty
  store : Bool
  isUnsafe : Bool
  deriving DecidableEq

/-- The scaling of an index and its addition to the address of the variable. -/
def indexCode (v : Var) : List Byte :=
  scaleRax (if v.type.kind = .array then typePointeeSize v.type else 8) ++ leaRcxVar v.offset ++
    addRaxRcx

/-- The address of a field in `rax`. -/
def fieldAddress (v : Var) (f : Field) : List Byte :=
  addrVar v.offset ++ addOffset f.offset

/-- The code that computes the address of a place, where it is not part of the
instruction. The index of an element is in `rax` before it. -/
def Place.address : Place → List Byte
  | .element v => indexCode v
  | .field v f => fieldAddress v f
  | _ => []

/-- The instruction of an access. A computed address is in `rax` for a load, and
for a store in `rcx`. -/
def Access.code (a : Access) : List Byte :=
  match a.place with
  | .whole v => if a.store then storeVarT v.offset a.type else loadVarT v.offset a.type
  | .word v i => storeVar (v.offset - BitVec.ofNat 32 (8 * i))
  | .argument v i => storeArg v.offset i
  | _ => if a.store then storePtrT a.type else loadPtrT a.type

/-- What was emitted, beyond its bytes. -/
inductive Event
  /-- A displacement to be patched within its function. -/
  | hole (patch : Nat)
  /-- A call of a defined function, whether or not `calls` had room for it. -/
  | call (c : CallPatch)
  /-- A reference to data, whether or not `data_refs` had room for it. -/
  | ref (r : DataRef)
  /-- The bytes that `add_data` was given, and the offset it answered. -/
  | literal (dataOff : Nat) (bytes : List Byte)
  | syscall
  | access (a : Access)
  deriving DecidableEq

structure Globals where
  text : Buf := fun _ => 0
  textLen : Nat := 0
  data : Buf := fun _ => 0
  dataLen : Nat := 0
  vars : List Var := []
  funcs : List Function := []
  calls : List CallPatch := []
  dataRefs : List DataRef := []
  loops : List (List Nat) := []
  structs : List StructDef := []
  currentFunc : Nat := 0
  kmodTarget : Bool := false
  functionUnsafe : Bool := false
  stackSize : U32 := 0
  /-- What `puts` wrote. -/
  out : String := ""
  log : List Event := []

/-! ## Computations -/

inductive Stop
  | fuel
  | rejected
  deriving DecidableEq

abbrev Compile := Exec Stop Globals

def puts (s : String) : Compile Unit :=
  modify fun g => { g with out := g.out ++ s }

/-- A message and -1. -/
def reject {α : Type} (message : String) : Compile α := do
  puts message
  throw .rejected

/-- A message that ends in a name, and -1. -/
def rejectName {α : Type} (message : String) (name : Name) : Compile α :=
  reject (message ++ String.ofList name ++ "\n")

/-- -1 without a message. -/
def fail {α : Type} : Compile α :=
  throw .rejected

/-- What was found, or the message and -1. -/
def expect {α : Type} (found : Option α) (message : String) : Compile α :=
  match found with
  | none => reject message
  | some a => pure a

/-- The message and -1 when the condition holds. -/
def rejectIf (p : Prop) [Decidable p] (message : String) : Compile Unit :=
  if p then reject message else pure ()

/-! ## Emission -/

def note (e : Event) : Compile Unit :=
  modify fun g => { g with log := g.log ++ [e] }

def emit8 (v : Byte) : Compile Unit :=
  modify fun g =>
    if g.textLen < textMax then
      { g with text := g.text.put g.textLen [v], textLen := g.textLen + 1 }
    else g

/-- A run of `emit8`. -/
def emit : List Byte → Compile Unit
  | [] => pure ()
  | b :: bs => do
    emit8 b
    emit bs

def emit32 (v : U32) : Compile Unit :=
  emit (disp32 v)

/-- `text_len`. -/
def textPos : Compile Nat := do
  return (← get).textLen

/-- Four bytes of zero to be patched; where they are. -/
def emitHole (e : Nat → Event) : Compile Nat := do
  let patch ← textPos
  emit32 0
  note (e patch)
  return patch

def patch32 (patch : Nat) (value : U32) : Compile Unit :=
  modify fun g => { g with text := g.text.put patch (disp32 value) }

/-- The displacement at `patch` that leads to `target`. -/
def rel32 (target patch : Nat) : U32 :=
  BitVec.ofNat 32 target - BitVec.ofNat 32 (patch + 4)

/-- Patch a displacement to lead to what is emitted next. -/
def patchHere (patch : Nat) : Compile Unit := do
  patch32 patch (rel32 (← textPos) patch)

/-- `add_data_ref`, whose answer its callers ignore. -/
def addDataRef (patch dataOff : Nat) : Compile Unit := do
  if (← get).dataRefs.length ≥ maxDataRefs then puts "orec: too many data references\n"
  else modify fun g => { g with dataRefs := g.dataRefs ++ [⟨patch, dataOff⟩] }

def addData (bytes : List Byte) : Compile Nat := do
  let off := (← get).dataLen
  modify fun g =>
    let stored := bytes.take (dataMax - g.dataLen)
    { g with data := g.data.put g.dataLen stored, dataLen := g.dataLen + stored.length }
  note (.literal off bytes)
  return off

/-! ## Loops -/

def pushLoop : Compile Unit := do
  rejectIf ((← get).loops.length ≥ maxLoopDepth) "orec: loop nesting too deep\n"
  modify fun g => { g with loops := [] :: g.loops }

def addBreakPatch (patch : Nat) : Compile Unit := do
  match (← get).loops with
  | [] => reject "orec: break outside loop\n"
  | breaks :: outer =>
    rejectIf (breaks.length ≥ maxBreaksPerLoop) "orec: too many breaks in loop\n"
    modify fun g => { g with loops := (breaks ++ [patch]) :: outer }

/-- The loop of `patch_loop_breaks`. -/
def patchBreaks (target : Nat) : List Nat → Compile Unit
  | [] => pure ()
  | patch :: breaks => do
    patch32 patch (rel32 target patch)
    patchBreaks target breaks

def patchLoopBreaks : Compile Unit := do
  match (← get).loops with
  | [] => pure ()
  | breaks :: outer =>
    patchBreaks (← textPos) breaks
    modify fun g => { g with loops := outer }

/-! ## Emitters with state -/

/-- Where the hole of the frame's size is. -/
def emitPrologue : Compile Nat := do
  emit enterFrame
  let patch ← emitHole .hole
  emit saveRbx
  return patch

def emitSyscall : Compile Unit := do
  note .syscall
  emit syscall

/-- A load or a store. -/
def emitAccess (place : Place) (type : Ty) (store : Bool) : Compile Unit := do
  let a : Access := ⟨place, type, store, (← get).functionUnsafe⟩
  note (.access a)
  emit a.code

def emitLoad (place : Place) (type : Ty) : Compile Unit := emitAccess place type false
def emitStore (place : Place) (type : Ty) : Compile Unit := emitAccess place type true

/-- Clear the `slots` words of a variable, from word `i` on; `rax` is zero. -/
def clearSlots (v : Var) : Nat → Nat → Compile Unit
  | 0, _ => pure ()
  | slots + 1, i => do
    emitStore (.word v i) tyInt
    clearSlots v slots (i + 1)

/-- `lea` of a rip-relative data address. -/
def emitLeaData (opcode : List Byte) (dataOff : Nat) : Compile Unit := do
  emit opcode
  let patch ← emitHole fun patch => .ref ⟨patch, dataOff⟩
  addDataRef patch dataOff

def emitLeaRsiData (dataOff : Nat) : Compile Unit := emitLeaData [0x48, 0x8D, 0x35] dataOff
def emitLeaRaxData (dataOff : Nat) : Compile Unit := emitLeaData [0x48, 0x8D, 0x05] dataOff

def emitWriteData (dataOff : Nat) (len : Word) : Compile Unit := do
  emit (movRax oreSysWrite ++ movRdi 1)
  emitLeaRsiData dataOff
  emit (movRdx len)
  emitSyscall

def emitExitRax : Compile Unit := do
  emit ([0x48, 0x89, 0xC7] ++ movRax oreSysExit)
  emitSyscall

def emitExitConst (code : Word) : Compile Unit := do
  emit (movRax oreSysExit ++ movRdi code)
  emitSyscall

def mainName : Name := "main".toList

/-- The function that is being compiled is `main`. -/
def inMain (g : Globals) : Bool :=
  (g.funcs[g.currentFunc]?.map (·.name)) = some mainName

/-- `emit_return_rax`: `main` leaves through the system call. -/
def emitReturnRax : Compile Unit := do
  if inMain (← get) then emitExitRax else emit epilogueRet

/-- The call instruction, and its place in the table while there is room. -/
def emitCall (fn : Nat) : Compile Unit := do
  emit callOpcode
  let patch ← emitHole fun patch => .call ⟨patch, fn⟩
  modify fun g =>
    { g with calls := if g.calls.length < maxCalls then g.calls ++ [⟨patch, fn⟩] else g.calls }

/-- `emit_puti_rax`: the digits are made below `rsp` and written. -/
def emitPutiRax : Compile Unit := do
  emit [0x48, 0x83, 0xEC, 0x20]
  emit [0x48, 0x8D, 0x74, 0x24, 0x1F]
  emit ([0x48, 0xBB] ++ Mem.leBytes 8 (10 : Word))
  emit [0x48, 0x83, 0xF8, 0x00]
  emit [0x0F, 0x85]
  let jne ← emitHole .hole
  emit [0xC6, 0x44, 0x24, 0x1E, 0x30]
  emit [0x48, 0x8D, 0x74, 0x24, 0x1E]
  emit (movRdx 1)
  emit jmpOpcode
  let jwrite ← emitHole .hole
  let loop ← textPos
  patchHere jne
  emit [0x48, 0x31, 0xD2]
  emit [0x48, 0xF7, 0xF3]
  emit [0x80, 0xC2, 0x30]
  emit [0x48, 0xFF, 0xCE]
  emit [0x88, 0x16]
  emit [0x48, 0x83, 0xF8, 0x00]
  emit [0x0F, 0x85]
  emit32 (rel32 loop (← textPos))
  emit [0x48, 0x8D, 0x54, 0x24, 0x1F]
  emit [0x48, 0x29, 0xF2]
  patchHere jwrite
  emit (movRax oreSysWrite)
  emit (movRdi 1)
  emitSyscall
  emit [0x48, 0x83, 0xC4, 0x20]

/-! ## Lookup -/

/-- The first entry of a table that has the name, and its index. -/
def findNamed {α : Type} (nameOf : α → Name) (name : Name) : List α → Option (Nat × α)
  | [] => none
  | a :: table =>
    if nameOf a = name then some (0, a)
    else (findNamed nameOf name table).map fun (i, a) => (i + 1, a)

def findStruct (name : Name) (structs : List StructDef) : Option (Nat × StructDef) :=
  findNamed (·.name) name structs

def findField (st : Option StructDef) (name : Name) : Option Field :=
  st.bind fun st => st.fields.find? (·.name = name)

def findVar (name : Name) (vars : List Var) : Option Var :=
  vars.find? (·.name = name)

def findFunc (name : Name) (funcs : List Function) : Option (Nat × Function) :=
  findNamed (·.name) name funcs

/-- `add_var_type`; `none` is the null pointer of a full table. -/
def addVarType (name : Name) (type : Ty) : Compile (Option Var) := do
  let g ← get
  if g.vars.length ≥ maxVars then return none
  else
    let bytes := alignUpU32 (orElse type.size 8) 8
    let v : Var := { name := name.take 31, offset := g.stackSize + bytes, type := type }
    set { g with vars := g.vars ++ [v], stackSize := g.stackSize + bytes }
    return some v

end OreOS.Orec
