import OreOS.Orec.Statement

/-!
# Programs (`user/orec.c`)

`compile_source` scans the text twice for declarations, structs first, and then
compiles the functions in the order in which they stand, behind a stub that
calls `main`. Functions are found by their keyword and skipped by their braces;
their bodies are read when all are known. Calls are patched at the end.
-/

namespace OreOS.Orec

/-! ## Structs -/

/-- The fields of a struct, up to its closing brace or the end of the text. -/
def scanFields (packed : Bool) : Nat → StructDef → Source → Compile (StructDef × Source)
  | 0, _, _ => throw .fuel
  | n + 1, st, p => do
    if peek p = nul then return (st, p)
    else
      let p := skipWs p
      if peek p = closeBrace then return (st, p.tail)
      else if st.fields.length ≥ maxFields then fail
      else
        match parseIdent p with
        | none => fail
        | some (name, p) =>
          match consume p ':' with
          | none => fail
          | some p =>
            let (t, p) ← parseType n p
            let align := if packed then 1 else orElse t.align 1
            let offset := alignUpU32 st.size align
            match consume p ';' with
            | none => fail
            | some p =>
              scanFields packed n
                { st with
                  fields := st.fields ++ [{ name := name, type := t, offset := offset }]
                  size := offset + t.size
                  align := if align > st.align then align else st.align } p

/-- The attribute `#[packed]`, and what follows it. -/
def packedAttr (p : Source) : Option Source :=
  if peek p = '#' ∧ peek p.tail = '[' then
    match parseIdent p.tail.tail with
    | some (attr, a) =>
      if attr = "packed".toList ∧ peek (skipWs a) = ']' then some (skipWs a).tail else none
    | none => none
  else none

/-- A struct, from behind its keyword. -/
def scanStruct (n : Nat) (packed : Bool) (p : Source) : Compile Source := do
  if (← get).structs.length ≥ maxStructs then fail
  else
    match parseIdent p with
    | none => fail
    | some (name, p) =>
      match consume p openBrace with
      | none => fail
      | some p =>
        let (st, p) ← scanFields packed n { name := name, packed := packed } p
        modify fun g =>
          { g with structs := g.structs ++ [{ st with size := alignUpU32 st.size st.align }] }
        let p := skipWs p
        return if peek p = ';' then p.tail else p

/-- The loop of `scan_structs`. -/
def scanStructsLoop : Nat → Source → Compile Unit
  | 0, _ => throw .fuel
  | n + 1, p => do
    if peek p = nul then return ()
    else
      let p := skipWs p
      if peek p = quote then
        let p := skipString p.tail
        scanStructsLoop n (if peek p = quote then p.tail else p)
      else
        let packed := (packedAttr p).isSome
        let p := (packedAttr p).getD p
        if keywordAt p "struct".toList then
          let p ← scanStruct n packed (p.drop 6)
          scanStructsLoop n p
        else scanStructsLoop n p.tail

def scanStructs (n : Nat) (p : Source) : Compile Unit := do
  modify fun g => { g with structs := [] }
  scanStructsLoop n p

/-! ## Functions -/

/-- The attributes before a function. -/
structure Attrs where
  isUnsafe : Bool := false
  attrKernel : Bool := false
  attrUser : Bool := false
  attrExport : Bool := false

/-- One attribute; a name that is not known is an error. -/
def readAttr (attrs : Attrs) (attr : Name) : Compile Attrs :=
  if attr = "unsafe".toList then return { attrs with isUnsafe := true }
  else if attr = "kernel".toList then return { attrs with attrKernel := true }
  else if attr = "user".toList then return { attrs with attrUser := true }
  else if attr = "export".toList then return { attrs with attrExport := true }
  else if attr = "packed".toList then return attrs
  else rejectName "orec: unknown attribute " attr

/-- Behind the next `c`, or at the end. -/
def skipPast (c : Char) (p : Source) : Source :=
  (p.dropWhile (· ≠ c)).tail

/-- The attributes at `p`. -/
def scanAttrs : Nat → Attrs → Source → Compile (Attrs × Source)
  | 0, _, _ => throw .fuel
  | n + 1, attrs, p => do
    if peek p = '#' ∧ peek p.tail = '[' then
      let attrs ← match parseIdent p.tail.tail with
        | some (attr, _) => readAttr attrs attr
        | none => pure attrs
      scanAttrs n attrs (skipWs (skipPast ']' p))
    else return (attrs, p)

/-- The declared type of a parameter, or `int`. -/
def paramType (n : Nat) (fn : Name) (p : Source) : Compile (Ty × Source) :=
  if peek p = ':' then
    tryCatch (parseType n p.tail) fun stop =>
      match stop with
      | .fuel => throw .fuel
      | .rejected => rejectName "orec: bad parameter type in " fn
  else pure (tyInt, p)

/-- The parameters, of which `room` more are allowed. -/
def scanParams (fn : Name) (n : Nat) : Nat → List (Name × Ty) → Source →
    Compile (List (Name × Ty) × Source)
  | 0, _, _ => reject "orec: too many parameters\n"
  | room + 1, params, p => do
    match parseIdent p with
    | none => rejectName "orec: expected parameter name in " fn
    | some (param, p) =>
      let (t, p) ← paramType n fn (skipWs p)
      let params := params ++ [(param, t)]
      let p := skipWs p
      if peek p = ')' then return (params, p)
      else if peek p ≠ ',' then rejectName "orec: expected , in parameters for " fn
      else scanParams fn n room params p.tail

/-- The parameters between the parentheses, the first of which is open. -/
def scanParamList (fn : Name) (n : Nat) (p : Source) : Compile (List (Name × Ty) × Source) := do
  let p := skipWs p
  let (params, p) ← if peek p ≠ ')' then scanParams fn n maxParams [] p else pure ([], p)
  if peek p ≠ ')' then rejectName "orec: expected ) in " fn
  else return (params, p.tail)

/-- The declared type of a function, or `int`. -/
def returnType (n : Nat) (fn : Name) (p : Source) : Compile (Ty × Source) :=
  if peek p = '-' ∧ peek p.tail = '>' then
    tryCatch (parseType n p.tail.tail) fun stop =>
      match stop with
      | .fuel => throw .fuel
      | .rejected => rejectName "orec: bad return type in " fn
  else pure (tyInt, p)

/-- Enter a function in the table. -/
def addFunc (f : Function) : Compile Unit :=
  modify fun g => { g with funcs := g.funcs ++ [f] }

/-- What follows the signature: a semicolon after an `extern`, or the body,
which is skipped. -/
def scanBody (f : Function) (p : Source) : Compile Source := do
  if f.isExtern = true ∧ peek (skipWs p) = ';' then
    addFunc f
    return (skipWs p).tail
  else
    let p := p.dropWhile (· ≠ openBrace)
    if peek p ≠ openBrace then rejectName "orec: expected body for " f.name
    else
      match findMatchingBrace p.tail with
      | none => rejectName "orec: unmatched body for " f.name
      | some stop =>
        addFunc { f with isExtern := false, body := p.tail }
        return stop.tail

/-- A function, from behind its keyword. -/
def scanFunction (n : Nat) (attrs : Attrs) (isExtern : Bool) (p : Source) : Compile Source := do
  rejectIf ((← get).funcs.length ≥ maxFuncs) "orec: too many functions\n"
  let (name, p) ← expect (parseIdent p) "orec: expected function name\n"
  let p ← expect (consume p '(') "orec: expected function (\n"
  let (params, p) ← scanParamList name n p
  let (retType, p) ← returnType n name (skipWs p)
  scanBody
    { name := name, params := params, retType := retType, isExtern := isExtern
      isUnsafe := attrs.isUnsafe, attrKernel := attrs.attrKernel, attrUser := attrs.attrUser
      attrExport := attrs.attrExport } p

/-- The loop of `scan_functions`. -/
def scanFunctionsLoop : Nat → Source → Compile Unit
  | 0, _ => throw .fuel
  | n + 1, p => do
    let p := skipWs p
    if peek p = nul then return ()
    else if peek p = quote then
      let p := skipString p.tail
      scanFunctionsLoop n (if peek p = quote then p.tail else p)
    else if keywordAt p "import".toList then scanFunctionsLoop n (skipPast ';' p)
    else
      let (attrs, p) ← scanAttrs n {} p
      if keywordAt p "struct".toList then
        let p := skipPast closeBrace p
        scanFunctionsLoop n (if peek p = ';' then p.tail else p)
      else
        let isExtern := keywordAt p "extern".toList
        let p := if isExtern then skipWs (p.drop 6) else p
        if keywordAt p "fn".toList then
          let p ← scanFunction n attrs isExtern (p.drop 2)
          scanFunctionsLoop n p
        else scanFunctionsLoop n p.tail

def moduleInitName : Name := "module_init".toList
def commandMainName : Name := "command_main".toList

def scanFunctions (n : Nat) (p : Source) : Compile Unit := do
  modify fun g => { g with funcs := [] }
  scanFunctionsLoop n p
  let g ← get
  match findFunc (if g.kmodTarget then moduleInitName else mainName) g.funcs with
  | some _ => return ()
  | none => fail

/-! ## Code -/

/-- The parameters as variables, and the stores of their registers. -/
def compileParams : Nat → List (Name × Ty) → Compile Unit
  | _, [] => pure ()
  | i, (name, t) :: params => do
    match ← addVarType name t with
    | none => fail
    | some v =>
      emitStore (.argument v i) t
      compileParams (i + 1) params

/-- The end of a function, where no `return` was. -/
def emitFunctionEnd (name : Name) : Compile Unit :=
  if name = mainName then emitExitConst 0 else emit (movRax 0 ++ epilogueRet)

/-- What `compile_function` sets before it emits. -/
def beginFunction (index : Nat) (fn : Function) (g : Globals) : Globals :=
  { g with
    currentFunc := index
    funcs := g.funcs.set index { fn with addr := g.textLen }
    vars := []
    functionUnsafe := fn.isUnsafe
    stackSize := 8 }

def compileFunction (n : Nat) (index : Nat) (fn : Function) : Compile Unit := do
  modify (beginFunction index fn)
  let framePatch ← emitPrologue
  compileParams 0 fn.params
  let _ ← compileBlock n fn.body
  emitFunctionEnd fn.name
  patch32 framePatch (alignUpU32 ((← get).stackSize + 32) 16)
  modify fun g => { g with functionUnsafe := false }

/-- The functions of the table, from `index` on. -/
def compileFunctions (n : Nat) : Nat → List Function → Compile Unit
  | _, [] => pure ()
  | index, fn :: fns => do
    if fn.isExtern then compileFunctions n (index + 1) fns
    else do
      compileFunction n index fn
      compileFunctions n (index + 1) fns

/-! ## Targets -/

/-- The system-call functions that a kernel module may not declare. -/
def syscallNames : List Name :=
  ["write".toList, "sys_write".toList, "syscall0".toList, "syscall1".toList, "syscall2".toList,
    "syscall3".toList, "syscall4".toList]

def checkKernelFunctions : List Function → Compile Unit
  | [] => pure ()
  | f :: fs =>
    if f.attrUser then rejectName "orec: kernel target rejects #[user] function " f.name
    else if f.isExtern ∧ f.name ∈ syscallNames then
      rejectName "orec: kernel target forbids syscall extern " f.name
    else checkKernelFunctions fs

/-- `module_init` takes a pointer and answers an integer. -/
def isModuleInit (f : Function) : Bool :=
  match f.params with
  | [(_, t)] => t.kind = .ptr && typeIsIntLike f.retType
  | _ => false

/-- `command_main` takes a pointer and an integer and answers an integer. -/
def isCommandMain (f : Function) : Bool :=
  match f.params with
  | [(_, t₀), (_, t₁)] =>
    !f.isExtern && t₀.kind = .ptr && typeIsIntLike t₁ && typeIsIntLike f.retType
  | _ => false

def validateKernelTarget : Compile Unit := do
  let g ← get
  match findFunc moduleInitName g.funcs with
  | none => reject "orec: kernel target requires module_init\n"
  | some (_, init) =>
    rejectIf (init.isExtern = true) "orec: kernel target requires module_init\n"
    rejectIf (isModuleInit init = false)
      "orec: module_init must be fn module_init(api: ptr<KernelApi>) -> int\n"
    rejectIf ((findFunc commandMainName g.funcs).any (fun cmd => !isCommandMain cmd.2) = true)
      "orec: command_main must be fn command_main(out: ptr<char>, cap: int) -> int\n"
    checkKernelFunctions g.funcs

def checkUserFunctions : List Function → Compile Unit
  | [] => pure ()
  | f :: fs =>
    if f.attrKernel then rejectName "orec: user target rejects #[kernel] function " f.name
    else checkUserFunctions fs

def validateUserTarget : Compile Unit := do
  checkUserFunctions (← get).funcs

def validateTarget : Compile Unit := do
  if (← get).kmodTarget then validateKernelTarget else validateUserTarget

/-! ## The compiler -/

/-- The address of a function in the table. -/
def funcAddr (g : Globals) (fn : Nat) : Nat :=
  (g.funcs[fn]?.map (·.addr)).getD 0

/-- The stub of the user target: call `main`, and exit with its answer. -/
def emitStub : Compile Unit := do
  emit callOpcode
  let _ ← emitHole .hole
  emitExitRax

def startStub : Compile Unit := do
  if (← get).kmodTarget then pure () else emitStub

def mainIndex (g : Globals) : Nat :=
  ((findFunc mainName g.funcs).map Prod.fst).getD 0

/-- The displacement of the stub, which is the first of the text. -/
def patchStub : Compile Unit := do
  let g ← get
  if g.kmodTarget then pure () else patch32 1 (rel32 (funcAddr g (mainIndex g)) 1)

/-- The loop that patches the calls. -/
def patchCalls : List CallPatch → Compile Unit
  | [] => pure ()
  | c :: calls => do
    patch32 c.patch (rel32 (funcAddr (← get) c.fn) c.patch)
    patchCalls calls

/-- The message of a scan that failed, after its own. -/
def scanned (scan : Compile Unit) (message : String) : Compile Unit :=
  tryCatch scan fun stop =>
    match stop with
    | .fuel => throw .fuel
    | .rejected => reject message

/-- What `compile_source` sets before it begins. -/
def reset (g : Globals) : Globals :=
  { g with textLen := 0, dataLen := 0, calls := [], dataRefs := [], loops := [], log := [] }

/-- The two scans. -/
def scanSource (n : Nat) (p : Source) : Compile Unit := do
  scanned (scanStructs n p) "orec: struct scan failed\n"
  scanned (scanFunctions n p) "orec: function scan failed\n"

def compileSource (n : Nat) (p : Source) : Compile Unit := do
  modify reset
  scanSource n p
  validateTarget
  startStub
  compileFunctions n 0 (← get).funcs
  patchStub
  patchCalls (← get).calls

/-- The functions that a source declares, as the scans find them. -/
def declared (n : Nat) (p : Source) (g : Globals) : List Function :=
  (scanSource n p (reset g)).2.funcs

end OreOS.Orec
