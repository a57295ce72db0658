import OreOS.Orec.Globals

/-!
# Expressions (`user/orec.c`)

Parsing and emission are one pass: a parser leaves the code for what it has read
behind the text, with the value in `rax`, and answers the type of the value and
where it stopped.

The levels of binary operators are one loop (`binaryLoop`) over the operand of
the next level, the operators of this one and the code that combines two
values; the left value waits on the machine stack while the right one is
computed.
-/

namespace OreOS.Orec

open OreOS.Lib (Byte)

/-- What a parser answers: a type, and the text it has not read. -/
abbrev Parser := Source → Compile (Ty × Source)

/-! ## Types -/

/-- The types that `parse_type` knows by name. -/
def scalarType (name : Name) : Option Ty :=
  if name = "void".toList then some tyVoid
  else if name = "bool".toList then some tyBool
  else if name = "char".toList then some tyChar
  else if name = "u8".toList then some ⟨.u8, 1, 1, 0, 0, 0⟩
  else if name = "i32".toList then some ⟨.i32, 4, 4, 0, 0, 0⟩
  else if name = "u32".toList then some ⟨.u32, 4, 4, 0, 0, 0⟩
  else if name = "int".toList then some tyInt
  else if name = "u64".toList then some ⟨.u64, 8, 8, 0, 0, 0⟩
  else none

/-- The type a name stands for, with the argument of `ptr` read by `type`. -/
def namedType (type : Parser) (name : Name) (s : Source) : Compile (Ty × Source) := do
  match scalarType name with
  | some t => return (t, s)
  | none =>
    if name = "ptr".toList then
      let s ← expect (consume s '<') "orec: expected < in ptr<T>\n"
      let (base, s) ← type s
      let s ← expect (consume s '>') "orec: expected > in ptr<T>\n"
      return (tyPtr base, s)
    else
      match findStruct name (← get).structs with
      | none => rejectName "orec: unknown type " name
      | some (i, st) =>
        return ({ kind := .struct, size := st.size, align := st.align, struc := BitVec.ofNat 32 i }, s)

/-- The count between brackets, with the bracket open. -/
def arrayCount (s : Source) : Compile (U32 × Source) := do
  let (count, s) := parseUint s
  let s ← expect (consume s ']') "orec: expected ] in array type\n"
  return (count.setWidth 32, s)

def parseType : Nat → Parser
  | 0, _ => throw .fuel
  | n + 1, p => do
    let s := skipWs p
    if peek s = '[' then
      let (count, s) ← arrayCount s.tail
      let (elem, s) ← parseType n s
      return (arrayOf elem count, s)
    else
      match parseIdent s with
      | none => fail
      | some (name, s) =>
        let (t, s) ← namedType (parseType n) name s
        let s := skipWs s
        if peek s = '[' then
          let (count, s) ← arrayCount s.tail
          return (arrayOf t count, s)
        else return (t, s)

/-! ## Places -/

/-- `emit_index_address`, with the bracket open: the address of an element in
`rax`. -/
def emitIndexAddress (expr : Parser) (v : Var) (s : Source) : Compile Source := do
  let (_, s) ← expr s
  let s ← expect (consume s ']') "orec: expected ]\n"
  emit (indexCode v)
  return s

/-- The field named after a dot, of a variable that must be a struct. -/
def parseField (v : Var) (s : Source) (notStruct : String) : Compile (Field × Source) := do
  match parseIdent s with
  | none => fail
  | some (fieldName, s) =>
    rejectIf (v.type.kind ≠ .struct) notStruct
    match findField ((← get).structs[v.type.struc.toNat]?) fieldName with
    | none => rejectName "orec: unknown field " fieldName
    | some f => return (f, s)

def lookupVar (name : Name) : Compile Var := do
  match findVar name (← get).vars with
  | none => rejectName "orec: unknown variable " name
  | some v => return v

/-- The value behind a pointer of this type. -/
def pointeeType (t : Ty) : Ty :=
  if t.kind = .ptr then tyOfSize (orElse t.base 8) else tyInt

/-! ## Calls -/

/-- The arguments of a call, each pushed; `room` more are allowed. -/
def parseArgs (expr : Parser) : Nat → Nat → Source → Compile (Nat × Source)
  | 0, _, _ => reject "orec: too many args\n"
  | room + 1, argc, s => do
    let (_, s) ← expr s
    emit pushRax
    let s := skipWs s
    if peek s = ')' then return (argc + 1, s)
    else do
      rejectIf (peek s ≠ ',') "orec: expected ,\n"
      parseArgs expr room (argc + 1) s.tail

/-- The arguments between the parentheses, the first of which is open. -/
def parseArgList (expr : Parser) (s : Source) : Compile (Nat × Source) := do
  let s := skipWs s
  let (argc, s) ← if peek s ≠ ')' then parseArgs expr maxParams 0 s else pure (0, s)
  rejectIf (peek s ≠ ')') "orec: expected )\n"
  return (argc, s.tail)

/-- A built-in function with its number of arguments, as the message names it,
and the code before the system call. -/
def emitBuiltin (argc expected : Nat) (message : String) (code : List Byte) : Compile Unit := do
  rejectIf (argc ≠ expected) message
  emit code
  emitSyscall

/-- The code of a call to an `extern` function. -/
def emitExternCall (name : Name) (argc : Nat) : Compile Unit :=
  if name = "write".toList ∨ name = "sys_write".toList then
    emitBuiltin argc 3 "orec: write expects 3 args\n"
      (popRdx ++ popRsi ++ popRdi ++ movRax oreSysWrite)
  else if name = "syscall3".toList then
    emitBuiltin argc 4 "orec: syscall3 expects 4 args\n"
      (popRdx ++ popRsi ++ popRdi ++ popRax)
  else if name = "syscall4".toList then
    emitBuiltin argc 5 "orec: syscall4 expects 5 args\n"
      (popR10 ++ popRdx ++ popRsi ++ popRdi ++ popRax)
  else if name = "syscall0".toList then
    emitBuiltin argc 1 "orec: syscall0 expects 1 arg\n" popRax
  else if name = "syscall1".toList then
    emitBuiltin argc 2 "orec: syscall1 expects 2 args\n" (popRdi ++ popRax)
  else if name = "syscall2".toList then
    emitBuiltin argc 3 "orec: syscall2 expects 3 args\n" (popRsi ++ popRdi ++ popRax)
  else rejectName "orec: unresolved extern " name

/-- A call, from behind the opening parenthesis. -/
def parseCall (expr : Parser) (name : Name) (s : Source) : Compile (Ty × Source) := do
  match findFunc name (← get).funcs with
  | none => rejectName "orec: unknown function " name
  | some (fnIndex, fn) =>
    let (argc, s) ← parseArgList expr s
    if argc ≠ fn.argc then rejectName "orec: bad arg count for " name
    else if (← get).kmodTarget ∧ fn.isExtern then
      rejectName "orec: kernel target forbids unresolved/user extern " name
    else if fn.isExtern then
      emitExternCall name argc
      return (tyInt, s)
    else
      emit (popArgs argc)
      emitCall fnIndex
      return (fn.retType, s)

/-! ## Primaries -/

/-- A string literal, from behind the opening quote. -/
def parseStringLiteral (s : Source) : Compile (Ty × Source) := do
  let (str, s) := stringChars 511 s
  rejectIf (peek s ≠ quote) "orec: unterminated string\n"
  emitLeaRaxData (← addData (asciiBytes (str ++ [nul])))
  return (tyPtr tyChar, s.tail)

/-- `sizeof` and `alignof`: the type in parentheses, and what is taken of it. -/
def parseTypeQuery (n : Nat) (value : Ty → U32) (s : Source) : Compile (Ty × Source) := do
  let s ← expect (consume s '(') "orec: expected (\n"
  let (t, s) ← parseType n s
  let s ← expect (consume s ')') "orec: expected )\n"
  emit (movRax ((value t).setWidth 64))
  return (tyInt, s)

/-- `offsetof`. A bad type has two messages, its own and this one. -/
def parseOffsetof (n : Nat) (s : Source) : Compile (Ty × Source) := do
  let s ← expect (consume s '(') "orec: expected (\n"
  let (t, s) ← tryCatch (parseType n s) fun stop => do
    match stop with
    | .fuel => throw .fuel
    | .rejected => reject "orec: offsetof expects struct type\n"
  rejectIf (t.kind ≠ .struct) "orec: offsetof expects struct type\n"
  let s ← expect (consume s ',') "orec: expected ,\n"
  match parseIdent s with
  | none => fail
  | some (fieldName, s) =>
    let s ← expect (consume s ')') "orec: expected )\n"
    match findField ((← get).structs[t.struc.toNat]?) fieldName with
    | none => rejectName "orec: unknown field " fieldName
    | some f =>
      emit (movRax (f.offset.setWidth 64))
      return (tyInt, s)

/-- A variable, perhaps indexed or with a field. -/
def parseVariable (expr : Parser) (name : Name) (s : Source) : Compile (Ty × Source) := do
  let v ← lookupVar name
  let after := skipWs s
  if peek after = '[' then
    let s ← emitIndexAddress expr v after.tail
    let size := typePointeeSize v.type
    let elem := { v.type with kind := .int, size := size, align := if size < 8 then size else 8 }
    emitLoad (.element v) elem
    return (elem, s)
  else if peek after = '.' then
    let (f, s) ← parseField v after.tail "orec: field access on non-struct\n"
    emit (fieldAddress v f)
    emitLoad (.field v f) f.type
    return (f.type, s)
  else
    emitLoad (.whole v) v.type
    return (v.type, s)

/-- `parse_primary_t`. -/
def parsePrimary (expr : Parser) (n : Nat) : Parser := fun p => do
  let s := skipWs p
  if peek s = quote then parseStringLiteral s.tail
  else if isDigit (peek s) then
    let (v, s) := parseUint s
    emit (movRax v)
    return (tyInt, s)
  else if peek s = '(' then
    let (t, s) ← expr s.tail
    let s ← expect (consume s ')') "orec: expected )\n"
    return (t, s)
  else
    match parseIdent s with
    | none => reject "orec: expected expression\n"
    | some (name, s) =>
      let after := skipWs s
      if name = "sizeof".toList then parseTypeQuery n Ty.size after
      else if name = "alignof".toList then parseTypeQuery n Ty.align after
      else if name = "offsetof".toList then parseOffsetof n after
      else if peek after = '(' then parseCall expr name after.tail
      else parseVariable expr name s

/-! ## Unary operators -/

/-- `&`, from behind it: the address of a variable, an element or a field. -/
def parseAddress (expr : Parser) (s : Source) : Compile (Ty × Source) := do
  let (name, s) ← expect (parseIdent s) "orec: & expects variable\n"
  let v ← lookupVar name
  let after := skipWs s
  if peek after = '[' then
    let s ← emitIndexAddress expr v after.tail
    return (tyPtr (tyArrayElement v.type), s)
  else do
    let (t, s) ← if peek after = '.' then do
        let (f, s) ← parseField v after.tail "orec: &field on non-struct\n"
        emit (fieldAddress v f)
        pure (f.type, s)
      else do
        emit (addrVar v.offset)
        pure (v.type, s)
    return (if t.kind = .array then tyPtr (tyArrayElement t) else tyPtr t, s)

/-- The kernel target wants dereferences in unsafe code. -/
def requireUnsafe (message : String) : Compile Unit := do
  let g ← get
  rejectIf (g.kmodTarget = true ∧ g.functionUnsafe = false) message

/-- `parse_unary_t`. -/
def parseUnary (expr : Parser) : Nat → Parser
  | 0, _ => throw .fuel
  | n + 1, p => do
    let s := skipWs p
    if peek s = '!' then
      let (_, s) ← parseUnary expr n s.tail
      emit notCode
      return (tyBool, s)
    else if peek s = '~' then
      let (t, s) ← parseUnary expr n s.tail
      emit complCode
      return (t, s)
    else if peek s = '-' then
      let (_, s) ← parseUnary expr n s.tail
      emit negCode
      return (tyInt, s)
    else if peek s = '&' then parseAddress expr s.tail
    else if peek s = '*' then
      requireUnsafe "orec: kernel pointer deref requires #[unsafe] or unsafe block\n"
      let (t, s) ← parseUnary expr n s.tail
      emitLoad .pointee (pointeeType t)
      return (pointeeType t, s)
    else parsePrimary expr n p

/-! ## Binary operators -/

/-- The loop of a level: while an operator of the level follows, push the left
value, read the next operand and combine. -/
def binaryLoop (operand : Parser) (operator : Source → Option (BinOp × Source)) :
    Nat → Ty → Parser
  | 0, _, _ => throw .fuel
  | n + 1, lhs, p => do
    match operator (skipWs p) with
    | none => return (lhs, p)
    | some (op, s) =>
      emit pushRax
      let (rhs, s) ← operand s
      emit (op.code lhs rhs)
      binaryLoop operand operator n (op.type lhs) s

/-- A level: one operand, and the loop. -/
def binaryLevel (operand : Parser) (operator : Source → Option (BinOp × Source)) (n : Nat) :
    Parser := fun p => do
  let (t, p) ← operand p
  binaryLoop operand operator n t p

/-- `parse_mul_t`. -/
def parseMul (expr : Parser) (n : Nat) : Parser :=
  binaryLevel (parseUnary expr n) mulOperator n

/-- `parse_add_t`. -/
def parseAdd (expr : Parser) (n : Nat) : Parser :=
  binaryLevel (parseMul expr n) addOperator n

/-- `parse_shift_t`. -/
def parseShift (expr : Parser) (n : Nat) : Parser :=
  binaryLevel (parseAdd expr n) shiftOperator n

/-- `parse_bitand_t`. -/
def parseBitand (expr : Parser) (n : Nat) : Parser :=
  binaryLevel (parseShift expr n) bitandOperator n

/-- `parse_bitor_t`. -/
def parseBitor (expr : Parser) (n : Nat) : Parser :=
  binaryLevel (parseBitand expr n) bitorOperator n

/-! ## Comparison -/

/-- `parse_expr_t` over its operand. -/
def parseComparison (operand : Parser) : Parser := fun p => do
  let (t, p) ← operand p
  let s := skipWs p
  match cmpOperator s with
  | none => return (t, s)
  | some (op, s) =>
    emit pushRax
    let (rhs, s) ← operand s
    emit (op.code t rhs)
    return (op.type t, s)

/-- `parse_expr_t`. -/
def parseExpr : Nat → Parser
  | 0, _ => throw .fuel
  | n + 1, p => parseComparison (parseBitor (parseExpr n) n) p

end OreOS.Orec
