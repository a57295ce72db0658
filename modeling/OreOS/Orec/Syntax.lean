import OreOS.Orec.Program

/-!
# Syntax (`user/orec.c`)

The compiler emits while it reads and never has a syntax tree. This is the tree it
would have: `readExpr`, `readBlock` and the others follow the parsers of the compiler
through the text and keep what was written, without a look at the tables.
`genExpr` and `genBlock` emit for a tree what the compiler emits for the text.

Where the compiler stops with a message, a reader has no tree (`none`).
-/

namespace OreOS.Orec

open OreOS.Lib (Word)

/-- What a reader finds: a tree, and the text it has not read. -/
abbrev Reader (α : Type) := Source → Option (α × Source)

/-! ## Types -/

/-- A type as it is written. -/
inductive TypeExpr
  | named (name : Name)
  | ptr (base : TypeExpr)
  | array (count : Nat) (elem : TypeExpr)
  deriving DecidableEq

/-- The number that digits stand for. -/
def decimal (digits : Name) : Nat :=
  digits.foldl (fun v c => v * 10 + (c.toNat - '0'.toNat)) 0

/-- The count between brackets, with the bracket open. -/
def readCount : Reader Nat := fun s => do
  let rest ← consume (s.dropWhile isDigit) ']'
  return (decimal (s.takeWhile isDigit), rest)

/-- A name that is a type, or `ptr` and its argument. -/
def readNamedType (type : Reader TypeExpr) (name : Name) : Reader TypeExpr := fun s =>
  if name = "ptr".toList then do
    let s ← consume s '<'
    let (base, s) ← type s
    let s ← consume s '>'
    return (.ptr base, s)
  else some (.named name, s)

def readType : Nat → Reader TypeExpr
  | 0, _ => none
  | n + 1, p => do
    let s := skipWs p
    if peek s = '[' then
      let (count, s) ← readCount s.tail
      let (elem, s) ← readType n s
      return (.array count elem, s)
    else
      let (name, s) ← parseIdent s
      let (t, s) ← readNamedType (readType n) name s
      let s := skipWs s
      if peek s = '[' then
        let (count, s) ← readCount s.tail
        return (.array count t, s)
      else return (t, s)

/-! ## Expressions -/

inductive Expr
  | literal (v : Word)
  | string (chars : Name)
  | sizeOf (t : TypeExpr)
  | alignOf (t : TypeExpr)
  | offsetOf (t : TypeExpr) (field : Name)
  | call (name : Name) (args : List Expr)
  | var (name : Name)
  | element (name : Name) (index : Expr)
  | field (name field : Name)
  | addressOf (name : Name)
  | addressOfElement (name : Name) (index : Expr)
  | addressOfField (name field : Name)
  | not (e : Expr)
  | compl (e : Expr)
  | neg (e : Expr)
  | deref (e : Expr)
  | binary (op : BinOp) (lhs rhs : Expr)

/-- An index, with the bracket open. -/
def readIndex (expr : Reader Expr) : Reader Expr := fun s => do
  let (index, s) ← expr s
  let s ← consume s ']'
  return (index, s)

/-- The arguments of a call, of which `room` are allowed. -/
def readArgs (expr : Reader Expr) : Nat → Reader (List Expr)
  | 0, _ => none
  | room + 1, s => do
    let (arg, s) ← expr s
    let s := skipWs s
    if peek s = ')' then return ([arg], s)
    else if peek s ≠ ',' then none
    else
      let (args, s) ← readArgs expr room s.tail
      return (arg :: args, s)

/-- The arguments between the parentheses, the first of which is open. -/
def readArgList (expr : Reader Expr) : Reader (List Expr) := fun s => do
  let s := skipWs s
  let (args, s) ← if peek s ≠ ')' then readArgs expr maxParams s else some ([], s)
  if peek s ≠ ')' then none else return (args, s.tail)

def readString : Reader Expr := fun s =>
  let (chars, s) := stringChars 511 s
  if peek s ≠ quote then none else some (.string chars, s.tail)

def readTypeQuery (n : Nat) (query : TypeExpr → Expr) : Reader Expr := fun s => do
  let s ← consume s '('
  let (t, s) ← readType n s
  let s ← consume s ')'
  return (query t, s)

def readOffsetof (n : Nat) : Reader Expr := fun s => do
  let s ← consume s '('
  let (t, s) ← readType n s
  let s ← consume s ','
  let (field, s) ← parseIdent s
  let s ← consume s ')'
  return (.offsetOf t field, s)

/-- A variable, perhaps indexed or with a field. -/
def readVariable (expr : Reader Expr) (name : Name) : Reader Expr := fun s =>
  let after := skipWs s
  if peek after = '[' then do
    let (index, s) ← readIndex expr after.tail
    return (.element name index, s)
  else if peek after = '.' then do
    let (field, s) ← parseIdent after.tail
    return (.field name field, s)
  else some (.var name, s)

def readPrimary (expr : Reader Expr) (n : Nat) : Reader Expr := fun p => do
  let s := skipWs p
  if peek s = quote then readString s.tail
  else if isDigit (peek s) then return (.literal (parseUint s).1, (parseUint s).2)
  else if peek s = '(' then
    let (e, s) ← expr s.tail
    let s ← consume s ')'
    return (e, s)
  else
    let (name, s) ← parseIdent s
    let after := skipWs s
    if name = "sizeof".toList then readTypeQuery n .sizeOf after
    else if name = "alignof".toList then readTypeQuery n .alignOf after
    else if name = "offsetof".toList then readOffsetof n after
    else if peek after = '(' then
      let (args, s) ← readArgList expr after.tail
      return (.call name args, s)
    else readVariable expr name s

/-- `&`, from behind it. -/
def readAddress (expr : Reader Expr) : Reader Expr := fun s => do
  let (name, s) ← parseIdent s
  let after := skipWs s
  if peek after = '[' then
    let (index, s) ← readIndex expr after.tail
    return (.addressOfElement name index, s)
  else if peek after = '.' then
    let (field, s) ← parseIdent after.tail
    return (.addressOfField name field, s)
  else return (.addressOf name, s)

/-- A unary operator, from behind it. -/
def readOperand (unary : Reader Expr) (operator : Expr → Expr) : Reader Expr := fun s => do
  let (e, s) ← unary s
  return (operator e, s)

def readUnary (expr : Reader Expr) : Nat → Reader Expr
  | 0, _ => none
  | n + 1, p =>
    let s := skipWs p
    if peek s = '!' then readOperand (readUnary expr n) .not s.tail
    else if peek s = '~' then readOperand (readUnary expr n) .compl s.tail
    else if peek s = '-' then readOperand (readUnary expr n) .neg s.tail
    else if peek s = '&' then readAddress expr s.tail
    else if peek s = '*' then readOperand (readUnary expr n) .deref s.tail
    else readPrimary expr n p

/-- The loop of a level, behind the left operand. -/
def readBinaryLoop (operand : Reader Expr) (operator : Source → Option (BinOp × Source)) :
    Nat → Expr → Reader Expr
  | 0, _, _ => none
  | n + 1, lhs, p => do
    match operator (skipWs p) with
    | none => return (lhs, p)
    | some (op, s) =>
      let (rhs, s) ← operand s
      readBinaryLoop operand operator n (.binary op lhs rhs) s

def readBinaryLevel (operand : Reader Expr) (operator : Source → Option (BinOp × Source))
    (n : Nat) : Reader Expr := fun p => do
  let (e, p) ← operand p
  readBinaryLoop operand operator n e p

/-- The levels of binary operators below comparison. -/
def readBitor (expr : Reader Expr) (n : Nat) : Reader Expr :=
  readBinaryLevel (readBinaryLevel (readBinaryLevel (readBinaryLevel (readBinaryLevel
    (readUnary expr n) mulOperator n) addOperator n) shiftOperator n) bitandOperator n)
    bitorOperator n

def readComparison (operand : Reader Expr) : Reader Expr := fun p => do
  let (lhs, p) ← operand p
  let s := skipWs p
  match cmpOperator s with
  | none => return (lhs, s)
  | some (op, s) =>
    let (rhs, s) ← operand s
    return (.binary op lhs rhs, s)

def readExpr : Nat → Reader Expr
  | 0, _ => none
  | n + 1, p => readComparison (readBitor (readExpr n) n) p

/-! ## Statements -/

inductive Stmt
  /-- Through a pointer. -/
  | store (address value : Expr)
  /-- An unsafe block. -/
  | trusted (body : List Stmt)
  /-- `let`. -/
  | declare (name : Name) (type : Option TypeExpr) (init : Option Expr)
  /-- `while`. -/
  | loop (cond : Expr) (body : List Stmt)
  /-- `break`. -/
  | leave
  /-- `if` without `else`. -/
  | branch (cond : Expr) (body : List Stmt)
  | branchElse (cond : Expr) (body other : List Stmt)
  | block (body : List Stmt)
  /-- `return`. -/
  | answer (e : Expr)
  | print (chars : Name)
  | puti (e : Expr)
  /-- An expression for its effect. -/
  | effect (e : Expr)
  | assign (name : Name) (e : Expr)
  | assignElement (name : Name) (index e : Expr)
  | assignField (name field : Name) (e : Expr)

/-- The end of a statement. -/
def readEnd {α : Type} (a : α) (s : Source) : Option (α × Source) := do
  let s ← consume s ';'
  return (a, s)

/-- A value and the end of the statement. -/
def readValue {α : Type} (expr : Reader Expr) (make : Expr → α) : Reader α := fun s => do
  let (e, s) ← expr s
  readEnd (make e) s

def readStore (expr : Reader Expr) : Reader Stmt := fun s => do
  let (address, s) ← expr s
  let s ← consume s '='
  readValue expr (.store address) s

/-- The declared type after a colon, if there is one. -/
def readDeclaredType (n : Nat) : Reader (Option TypeExpr) := fun s =>
  match consume s ':' with
  | some s => do
    let (t, s) ← readType n s
    return (some t, s)
  | none => some (none, s)

def readInit (expr : Reader Expr) : Reader (Option Expr) := fun s =>
  let s := skipWs s
  if peek s = '=' then do
    let (e, s) ← expr s.tail
    return (some e, s)
  else some (none, s)

def readLet (expr : Reader Expr) (n : Nat) : Reader Stmt := fun s => do
  let (name, s) ← parseIdent s
  let (type, s) ← readDeclaredType n s
  let (init, s) ← readInit expr s
  readEnd (.declare name type init) s

/-- A condition, with its parenthesis open, and the opening brace of what follows. -/
def readCondition (expr : Reader Expr) : Reader Expr := fun s => do
  let (cond, s) ← expr s
  let s ← consume s ')'
  let s ← consume s openBrace
  return (cond, s)

def readWhile (expr : Reader Expr) (block : Reader (List Stmt)) : Reader Stmt := fun s => do
  let s ← consume s '('
  let (cond, s) ← readCondition expr s
  let (body, s) ← block s
  return (.loop cond body, s)

def readIf (expr : Reader Expr) (block : Reader (List Stmt)) : Reader Stmt := fun s => do
  let s ← consume s '('
  let (cond, s) ← readCondition expr s
  let (body, s) ← block s
  let s := skipWs s
  if keywordAt s "else".toList then
    let s ← consume (s.drop 4) openBrace
    let (other, s) ← block s
    return (.branchElse cond body other, s)
  else return (.branch cond body, s)

def readPrint : Reader Stmt := fun s => do
  let s ← consume s '('
  let s := skipWs s
  if peek s ≠ quote then none
  else
    let (chars, s) := stringChars 512 s.tail
    if peek s ≠ quote then none
    else
      let s ← consumeEnd s.tail
      return (.print chars, s)

def readPuti (expr : Reader Expr) : Reader Stmt := fun s => do
  let s ← consume s '('
  let (e, s) ← expr s
  let s ← consumeEnd s
  return (.puti e, s)

/-- The value of an assignment, from its sign on. -/
def readAssigned {α : Type} (expr : Reader Expr) (make : Expr → α) : Reader α := fun s => do
  let s ← consume s '='
  readValue expr make s

def readAssign (expr : Reader Expr) (name : Name) : Reader Stmt := fun s =>
  let s := skipWs s
  if peek s = '[' then do
    let (index, s) ← readIndex expr s.tail
    readAssigned expr (.assignElement name index) s
  else if peek s = '.' then do
    let (field, s) ← parseIdent s.tail
    readAssigned expr (.assignField name field) s
  else readAssigned expr (.assign name) s

def readNamed (expr : Reader Expr) : Reader Stmt := fun s => do
  let (name, rest) ← parseIdent s
  if peek (skipWs rest) = '(' then readValue expr .effect s
  else readAssign expr name rest

/-- A block within a statement, with its brace open. -/
def readInner (block : Reader (List Stmt)) (make : List Stmt → Stmt) : Reader Stmt := fun s => do
  let (body, s) ← block s
  return (make body, s)

def readStatement (block : Reader (List Stmt)) (n : Nat) : Reader Stmt := fun p => do
  let expr := readExpr n
  let s := skipWs p
  if peek s = nul ∨ peek s = closeBrace then none
  else if peek s = '*' then readStore expr s.tail
  else if keywordAt s "unsafe".toList then
    let s ← consume (s.drop 6) openBrace
    readInner block .trusted s
  else if keywordAt s "let".toList then readLet expr n (s.drop 3)
  else if keywordAt s "while".toList then readWhile expr block (s.drop 5)
  else if keywordAt s "break".toList then readEnd .leave (s.drop 5)
  else if keywordAt s "if".toList then readIf expr block (s.drop 2)
  else if peek s = openBrace then readInner block .block s.tail
  else if keywordAt s "return".toList then readValue expr .answer (s.drop 6)
  else if keywordAt s "print".toList then readPrint (s.drop 5)
  else if keywordAt s "puti".toList then readPuti expr (s.drop 4)
  else readNamed expr s

def readBlock : Nat → Reader (List Stmt)
  | 0, _ => none
  | n + 1, s => do
    if peek s = nul then none
    else
      let s := skipWs s
      if peek s = closeBrace then return ([], s.tail)
      else
        let (st, s) ← readStatement (readBlock n) n s
        let (body, s) ← readBlock n s
        return (st :: body, s)

/-! ## Generation -/

/-- The type that a written type stands for, with the structs that there are. -/
def TypeExpr.ty (structs : List StructDef) : TypeExpr → Option Ty
  | .named name =>
    match scalarType name with
    | some t => some t
    | none => (findStruct name structs).map fun (i, st) =>
      { kind := .struct, size := st.size, align := st.align, struc := BitVec.ofNat 32 i }
  | .ptr base => (base.ty structs).map tyPtr
  | .array count elem => (elem.ty structs).map (arrayOf · (BitVec.ofNat 32 count))

def genType (t : TypeExpr) : Compile Ty := do
  match t.ty (← get).structs with
  | some t => return t
  | none => fail

/-- The field of a type that must be a struct. -/
def genField (t : Ty) (field : Name) : Compile Field := do
  if t.kind ≠ .struct then fail
  else match findField ((← get).structs[t.struc.toNat]?) field with
  | none => fail
  | some f => return f

/-- The type of an element, as loads see it. -/
def Var.loadedElement (v : Var) : Ty :=
  { v.type with
    kind := .int
    size := typePointeeSize v.type
    align := if typePointeeSize v.type < 8 then typePointeeSize v.type else 8 }

/-- The type of an element, as stores see it. -/
def Var.storedElement (v : Var) : Ty :=
  { v.type with
    size := typePointeeSize v.type
    align := if typePointeeSize v.type < 8 then typePointeeSize v.type else 8 }

/-- The type of the address of a value. -/
def addressType (t : Ty) : Ty :=
  if t.kind = .array then tyPtr (tyArrayElement t) else tyPtr t

/-- A call, with its arguments pushed. -/
def genCall (name : Name) (fnIndex : Nat) (fn : Function) (argc : Nat) : Compile Ty := do
  if argc ≠ fn.argc then fail
  else if (← get).kmodTarget ∧ fn.isExtern then fail
  else if fn.isExtern then
    emitExternCall name argc
    return tyInt
  else
    emit (popArgs argc)
    emitCall fnIndex
    return fn.retType

mutual

def genExpr : Expr → Compile Ty
  | .literal v => do
    emit (movRax v)
    return tyInt
  | .string chars => do
    emitLeaRaxData (← addData (asciiBytes (chars ++ [nul])))
    return tyPtr tyChar
  | .sizeOf t => do
    let t ← genType t
    emit (movRax (t.size.setWidth 64))
    return tyInt
  | .alignOf t => do
    let t ← genType t
    emit (movRax (t.align.setWidth 64))
    return tyInt
  | .offsetOf t field => do
    let t ← genType t
    let f ← genField t field
    emit (movRax (f.offset.setWidth 64))
    return tyInt
  | .call name args => do
    match findFunc name (← get).funcs with
    | none => fail
    | some (fnIndex, fn) =>
      genArgs args
      genCall name fnIndex fn args.length
  | .var name => do
    let v ← lookupVar name
    emitLoad (.whole v) v.type
    return v.type
  | .element name index => do
    let v ← lookupVar name
    let _ ← genExpr index
    emit (indexCode v)
    emitLoad (.element v) v.loadedElement
    return v.loadedElement
  | .field name field => do
    let v ← lookupVar name
    let f ← genField v.type field
    emit (fieldAddress v f)
    emitLoad (.field v f) f.type
    return f.type
  | .addressOf name => do
    let v ← lookupVar name
    emit (addrVar v.offset)
    return addressType v.type
  | .addressOfElement name index => do
    let v ← lookupVar name
    let _ ← genExpr index
    emit (indexCode v)
    return tyPtr (tyArrayElement v.type)
  | .addressOfField name field => do
    let v ← lookupVar name
    let f ← genField v.type field
    emit (fieldAddress v f)
    return addressType f.type
  | .not e => do
    let _ ← genExpr e
    emit notCode
    return tyBool
  | .compl e => do
    let t ← genExpr e
    emit complCode
    return t
  | .neg e => do
    let _ ← genExpr e
    emit negCode
    return tyInt
  | .deref e => do
    requireUnsafe "orec: kernel pointer deref requires #[unsafe] or unsafe block\n"
    let t ← genExpr e
    emitLoad .pointee (pointeeType t)
    return pointeeType t
  | .binary op lhs rhs => do
    let lhs ← genExpr lhs
    emit pushRax
    let rhs ← genExpr rhs
    emit (op.code lhs rhs)
    return op.type lhs

/-- The arguments of a call, each pushed. -/
def genArgs : List Expr → Compile Unit
  | [] => pure ()
  | arg :: args => do
    let _ ← genExpr arg
    emit pushRax
    genArgs args

end

/-- A condition, and the jump over what follows; where its hole is. -/
def genCondition (cond : Expr) : Compile Nat := do
  let _ ← genExpr cond
  emit jumpIfZero
  emitHole .hole

/-- The type of a `let`. -/
def genDeclaredType : Option TypeExpr → Compile Ty
  | none => return tyInt
  | some t => genType t

/-- The words that a `let` of this type clears. -/
def slotsOf (t : Ty) : Nat :=
  (alignUpU32 (orElse t.size 8) 8 / 8).toNat

/-- The value of a `let`. -/
def genInit (v : Var) (t : Ty) : Option Expr → Compile Unit
  | some e => do
    let _ ← genExpr e
    emitStore (.whole v) v.type
  | none => do
    emit (movRax 0)
    clearSlots v (slotsOf t) 0

/-- The value of an assignment to a place whose address is in `rax`. -/
def genPlaceValue (place : Place) (t : Ty) (e : Expr) : Compile Unit := do
  emit pushRax
  let _ ← genExpr e
  emit popRcx
  emitStore place t

mutual

def genStmt : Stmt → Compile Unit
  | .store address value => do
    requireUnsafe "orec: kernel pointer store requires #[unsafe] or unsafe block\n"
    let t ← genExpr address
    genPlaceValue .pointee (pointeeType t) value
  | .trusted body => do
    let old := (← get).functionUnsafe
    modify fun g => { g with functionUnsafe := true }
    genBlock body
    modify fun g => { g with functionUnsafe := old }
  | .declare name type init => do
    let t ← genDeclaredType type
    let v ← declareVar name t
    genInit v t init
  | .loop cond body => do
    let start ← textPos
    let je ← genCondition cond
    pushLoop
    genBlock body
    emit jmpOpcode
    emit32 (rel32 start (← textPos))
    patchHere je
    patchLoopBreaks
  | .leave => do
    emit jmpOpcode
    let jend ← emitHole .hole
    addBreakPatch jend
  | .branch cond body => do
    let je ← genCondition cond
    genBlock body
    patchHere je
  | .branchElse cond body other => do
    let je ← genCondition cond
    genBlock body
    emit jmpOpcode
    let jend ← emitHole .hole
    patchHere je
    genBlock other
    patchHere jend
  | .block body => genBlock body
  | .answer e => do
    let _ ← genExpr e
    emitReturnRax
  | .print chars => do
    requireUser "orec: kernel target forbids print/sys_write\n"
    emitWriteData (← addData (asciiBytes chars)) (BitVec.ofNat 64 chars.length)
  | .puti e => do
    requireUser "orec: kernel target forbids puti/sys_write\n"
    let _ ← genExpr e
    emitPutiRax
  | .effect e => do
    let _ ← genExpr e
  | .assign name e => do
    let v ← lookupVar name
    let _ ← genExpr e
    emitStore (.whole v) v.type
  | .assignElement name index e => do
    let v ← lookupVar name
    let _ ← genExpr index
    emit (indexCode v)
    genPlaceValue (.element v) v.storedElement e
  | .assignField name field e => do
    let v ← lookupVar name
    let f ← genField v.type field
    emit (fieldAddress v f)
    genPlaceValue (.field v f) f.type e

def genBlock : List Stmt → Compile Unit
  | [] => pure ()
  | st :: body => do
    genStmt st
    genBlock body

end

/-! ## Functions -/

/-- The trees of the functions that have a body. -/
def readBodies (n : Nat) : List Function → Option (List (List Stmt))
  | [] => some []
  | fn :: fns =>
    if fn.isExtern then readBodies n fns
    else (readBlock n fn.body).bind fun r => (readBodies n fns).map (r.1 :: ·)

def genFunction (index : Nat) (fn : Function) (body : List Stmt) : Compile Unit := do
  modify (beginFunction index fn)
  let framePatch ← emitPrologue
  compileParams 0 fn.params
  genBlock body
  emitFunctionEnd fn.name
  patch32 framePatch (alignUpU32 ((← get).stackSize + 32) 16)
  modify fun g => { g with functionUnsafe := false }

def genFunctions : Nat → List Function → List (List Stmt) → Compile Unit
  | index, fn :: fns, bodies =>
    if fn.isExtern then genFunctions (index + 1) fns bodies
    else do
      genFunction index fn (bodies.headD [])
      genFunctions (index + 1) fns bodies.tail
  | _, [], _ => pure ()

/-! ## Structs

`scan_structs` fills its table while it reads. `readStructs` keeps what was written, and
`layStructs` makes the table of it. -/

structure FieldDecl where
  name : Name
  type : TypeExpr

structure StructDecl where
  name : Name
  packed : Bool
  fields : List FieldDecl

def readFields : Nat → Reader (List FieldDecl)
  | 0, _ => none
  | n + 1, p => do
    if peek p = nul then return ([], p)
    else
      let p := skipWs p
      if peek p = closeBrace then return ([], p.tail)
      else
        let (name, p) ← parseIdent p
        let p ← consume p ':'
        let (type, p) ← readType n p
        let p ← consume p ';'
        let (fields, p) ← readFields n p
        return (⟨name, type⟩ :: fields, p)

/-- A struct, from behind its keyword. -/
def readStruct (n : Nat) (packed : Bool) : Reader StructDecl := fun p => do
  let (name, p) ← parseIdent p
  let p ← consume p openBrace
  let (fields, p) ← readFields n p
  let p := skipWs p
  return (⟨name, packed, fields⟩, if peek p = ';' then p.tail else p)

def readStructs : Nat → Source → Option (List StructDecl)
  | 0, _ => none
  | n + 1, p => do
    if peek p = nul then return []
    else
      let p := skipWs p
      if peek p = quote then
        let p := skipString p.tail
        readStructs n (if peek p = quote then p.tail else p)
      else
        let packed := (packedAttr p).isSome
        let p := (packedAttr p).getD p
        if keywordAt p "struct".toList then
          let (d, p) ← readStruct n packed (p.drop 6)
          let ds ← readStructs n p
          return d :: ds
        else readStructs n p.tail

/-- A field behind those that a struct has. -/
def StructDef.addField (st : StructDef) (name : Name) (t : Ty) : StructDef :=
  let align := if st.packed then 1 else orElse t.align 1
  let offset := alignUpU32 st.size align
  { st with
    fields := st.fields ++ [{ name := name, type := t, offset := offset }]
    size := offset + t.size
    align := if align > st.align then align else st.align }

def layFields (structs : List StructDef) : StructDef → List FieldDecl → Option StructDef
  | st, [] => some st
  | st, f :: fields => do
    if st.fields.length ≥ maxFields then none
    else
      let t ← f.type.ty structs
      layFields structs (st.addField f.name t) fields

/-- The struct with its size rounded up. -/
def StructDef.close (st : StructDef) : StructDef :=
  { st with size := alignUpU32 st.size st.align }

def StructDecl.lay (structs : List StructDef) (d : StructDecl) : Option StructDef := do
  let st ← layFields structs { name := d.name, packed := d.packed } d.fields
  return st.close

/-- The table with these structs behind those that it has. -/
def layStructs : List StructDef → List StructDecl → Option (List StructDef)
  | structs, [] => some structs
  | structs, d :: ds => do
    if structs.length ≥ maxStructs then none
    else
      let st ← d.lay structs
      layStructs (structs ++ [st]) ds

end OreOS.Orec
