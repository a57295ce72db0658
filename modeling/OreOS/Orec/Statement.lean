import OreOS.Orec.Expr

/-!
# Statements (`user/orec.c`)

Each kind of statement is a definition of its own, over the compiler of blocks
where it contains one; `compileStatement` is the order in which they are tried,
and `compileBlock` ties the knot. Jumps forward are emitted with a hole that is
patched when the target is reached.
-/

namespace OreOS.Orec

/-- What the compiler of a statement or a block answers: the text it has not
read. -/
abbrev Compiler := Source → Compile Source

/-- A statement that stores through a pointer, from behind the star. -/
def compilePointerStore (expr : Parser) : Compiler := fun s => do
  requireUnsafe "orec: kernel pointer store requires #[unsafe] or unsafe block\n"
  let (t, s) ← expr s
  emit pushRax
  let s ← expect (consume s '=') "orec: expected =\n"
  let (_, s) ← expr s
  emit popRcx
  emitStore .pointee (pointeeType t)
  expect (consume s ';') "orec: expected ;\n"

/-- An unsafe block, from behind its keyword. -/
def compileUnsafe (block : Compiler) : Compiler := fun s => do
  let s ← expect (consume s openBrace) "orec: expected unsafe block\n"
  let old := (← get).functionUnsafe
  modify fun g => { g with functionUnsafe := true }
  let s ← block s
  modify fun g => { g with functionUnsafe := old }
  return s

/-- The declared type after a colon, or `int`. -/
def declaredType (n : Nat) (s : Source) : Compile (Ty × Source) :=
  match consume s ':' with
  | some s => parseType n s
  | none => pure (tyInt, s)

/-- The variable of a `let`: an existing one of that name, or a new one. -/
def declareVar (name : Name) (t : Ty) : Compile Var := do
  match findVar name (← get).vars with
  | some v => return v
  | none =>
    match ← addVarType name t with
    | some v => return v
    | none => fail

/-- The value of a `let`: an expression, or zeros for the type written there. -/
def compileInit (expr : Parser) (v : Var) (t : Ty) : Compiler := fun s => do
  let s := skipWs s
  if peek s = '=' then
    let (_, s) ← expr s.tail
    emitStore (.whole v) v.type
    return s
  else
    emit (movRax 0)
    clearSlots v (alignUpU32 (orElse t.size 8) 8 / 8).toNat 0
    return s

/-- `let`, from behind its keyword. -/
def compileLet (expr : Parser) (n : Nat) : Compiler := fun s => do
  let (name, s) ← expect (parseIdent s) "orec: expected variable name\n"
  let (t, s) ← declaredType n s
  let v ← declareVar name t
  let s ← compileInit expr v t s
  expect (consume s ';') "orec: expected ;\n"

/-- A condition in parentheses, and `cmp rax,0; je` over what follows; where
the hole of the jump is. -/
def compileCondition (expr : Parser) (s : Source) : Compile (Nat × Source) := do
  let (_, s) ← expr s
  let s ← expect (consume s ')') "orec: expected )\n"
  emit jumpIfZero
  let je ← emitHole .hole
  let s ← expect (consume s openBrace) "orec: expected \x7b\n"
  return (je, s)

/-- `while`, from behind its keyword. -/
def compileWhile (expr : Parser) (block : Compiler) : Compiler := fun s => do
  let s ← expect (consume s '(') "orec: expected (\n"
  let loop ← textPos
  let (je, s) ← compileCondition expr s
  pushLoop
  let s ← block s
  emit jmpOpcode
  emit32 (rel32 loop (← textPos))
  patchHere je
  patchLoopBreaks
  return s

/-- `break`, from behind its keyword. -/
def compileBreak : Compiler := fun s => do
  let s ← expect (consume s ';') "orec: expected ; after break\n"
  emit jmpOpcode
  let jend ← emitHole .hole
  addBreakPatch jend
  return s

/-- `else`, from behind its keyword: the block before it jumps over this one. -/
def compileElse (block : Compiler) (je : Nat) : Compiler := fun s => do
  emit jmpOpcode
  let jend ← emitHole .hole
  patchHere je
  let s ← expect (consume s openBrace) "orec: expected \x7b\n"
  let s ← block s
  patchHere jend
  return s

/-- `if`, from behind its keyword. -/
def compileIf (expr : Parser) (block : Compiler) : Compiler := fun s => do
  let s ← expect (consume s '(') "orec: expected (\n"
  let (je, s) ← compileCondition expr s
  let s ← block s
  let s := skipWs s
  if keywordAt s "else".toList then compileElse block je (s.drop 4)
  else
    patchHere je
    return s

/-- `return`, from behind its keyword. -/
def compileReturn (expr : Parser) : Compiler := fun s => do
  let (_, s) ← expr s
  emitReturnRax
  expect (consume s ';') "orec: expected ;\n"

/-- The end of a `print` or `puti`. -/
def consumeEnd (s : Source) : Option Source := do
  consume (← consume s ')') ';'

/-- The kernel target has no console. -/
def requireUser (message : String) : Compile Unit := do
  rejectIf ((← get).kmodTarget = true) message

/-- `print`, from behind its keyword. -/
def compilePrint : Compiler := fun s => do
  requireUser "orec: kernel target forbids print/sys_write\n"
  let s ← expect (consume s '(') "orec: expected (\n"
  let s := skipWs s
  rejectIf (peek s ≠ quote) "orec: print expects string literal\n"
  let (str, s) := stringChars 512 s.tail
  rejectIf (peek s ≠ quote) "orec: unterminated string\n"
  let s ← expect (consumeEnd s.tail) "orec: expected );\n"
  emitWriteData (← addData (asciiBytes str)) (BitVec.ofNat 64 str.length)
  return s

/-- `puti`, from behind its keyword. -/
def compilePuti (expr : Parser) : Compiler := fun s => do
  requireUser "orec: kernel target forbids puti/sys_write\n"
  let s ← expect (consume s '(') "orec: expected (\n"
  let (_, s) ← expr s
  let s ← expect (consumeEnd s) "orec: expected );\n"
  emitPutiRax
  return s

/-- An expression for its effect. -/
def compileExprStatement (expr : Parser) : Compiler := fun s => do
  let (_, s) ← expr s
  expect (consume s ';') "orec: expected ;\n"

/-- The value of an assignment to a place whose address is in `rax`. -/
def compilePlaceValue (expr : Parser) (place : Place) (t : Ty) : Compiler := fun s => do
  emit pushRax
  let s ← expect (consume s '=') "orec: expected assignment\n"
  let (_, s) ← expr s
  emit popRcx
  emitStore place t
  expect (consume s ';') "orec: expected ;\n"

/-- An assignment to a variable, an element or a field. -/
def compileAssign (expr : Parser) (name : Name) : Compiler := fun s => do
  let v ← lookupVar name
  let s := skipWs s
  if peek s = '[' then
    let s ← emitIndexAddress expr v s.tail
    let size := typePointeeSize v.type
    compilePlaceValue expr (.element v)
      { v.type with size := size, align := if size < 8 then size else 8 } s
  else if peek s = '.' then
    let (f, s) ← parseField v s.tail "orec: assignment field on non-struct\n"
    emit (fieldAddress v f)
    compilePlaceValue expr (.field v f) f.type s
  else
    let s ← expect (consume s '=') "orec: expected assignment\n"
    let (_, s) ← expr s
    emitStore (.whole v) v.type
    expect (consume s ';') "orec: expected ;\n"

/-- A statement that begins with a name: a call for its effect when a
parenthesis follows, or an assignment. -/
def compileNamed (expr : Parser) : Compiler := fun s => do
  match parseIdent s with
  | none =>
    reject ("orec: unsupported syntax near: " ++ String.ofList (s.take 24) ++ "\n")
  | some (name, rest) =>
    if peek (skipWs rest) = '(' then compileExprStatement expr s
    else compileAssign expr name rest

/-- `compile_statement`, over the compiler of blocks. -/
def compileStatement (block : Compiler) (n : Nat) : Compiler := fun p => do
  let expr := parseExpr n
  let s := skipWs p
  if peek s = nul ∨ peek s = closeBrace then return s
  else if peek s = '*' then compilePointerStore expr s.tail
  else if keywordAt s "unsafe".toList then compileUnsafe block (s.drop 6)
  else if keywordAt s "let".toList then compileLet expr n (s.drop 3)
  else if keywordAt s "while".toList then compileWhile expr block (s.drop 5)
  else if keywordAt s "break".toList then compileBreak (s.drop 5)
  else if keywordAt s "if".toList then compileIf expr block (s.drop 2)
  else if peek s = openBrace then block s.tail
  else if keywordAt s "return".toList then compileReturn expr (s.drop 6)
  else if keywordAt s "print".toList then compilePrint (s.drop 5)
  else if keywordAt s "puti".toList then compilePuti expr (s.drop 4)
  else compileNamed expr s

def compileBlock : Nat → Compiler
  | 0, _ => throw .fuel
  | n + 1, s => do
    rejectIf (peek s = nul) "orec: unterminated block\n"
    let s := skipWs s
    if peek s = closeBrace then return s.tail
    else do
      let s ← compileStatement (compileBlock n) n s
      compileBlock n s

end OreOS.Orec
