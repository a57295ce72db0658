import OreOS.Laws.Orec.Emission
import OreOS.Orec.Syntax

/-!
# Compilation is reading and generation (`user/orec.c`)

The compiler answers for a text exactly when there is a tree for it and
generation answers for the tree, and then both leave the same globals
(`renders_parseExpr`, `compiles_compileBlock`). What a reader finds does not
depend on the globals, so reading can be taken to the front of each computation.
-/

namespace OreOS.Orec

open OreOS.Lib (Byte)
open OreOS.Lib.Exec (answer answer_bind answer_get answer_modify answer_tryCatch)

/-- A parser answers as generation does for the tree of its text. -/
def Renders {α τ : Type} (x : Compile (α × Source)) (found : Option (τ × Source))
    (gen : τ → Compile α) : Prop :=
  ∀ g, answer x g = found.bind fun r => (answer (gen r.1) g).map fun t => ((t.1, r.2), t.2)

/-- The compiler of a statement answers as generation does. -/
def Compiles {τ : Type} (x : Compile Source) (found : Option (τ × Source))
    (gen : τ → Compile Unit) : Prop :=
  ∀ g, answer x g = found.bind fun r => (answer (gen r.1) g).map fun t => (r.2, t.2)

theorem Renders.ite {α τ : Type} {p : Prop} [Decidable p] {x y : Compile (α × Source)}
    {found found' : Option (τ × Source)} {gen : τ → Compile α} (hx : p → Renders x found gen)
    (hy : ¬ p → Renders y found' gen) :
    Renders (if p then x else y) (if p then found else found') gen := by
  split
  next h => exact hx h
  next h => exact hy h

theorem Compiles.ite {τ : Type} {p : Prop} [Decidable p] {x y : Compile Source}
    {found found' : Option (τ × Source)} {gen : τ → Compile Unit} (hx : p → Compiles x found gen)
    (hy : ¬ p → Compiles y found' gen) :
    Compiles (if p then x else y) (if p then found else found') gen := by
  split
  next h => exact hx h
  next h => exact hy h

/-! ## Checks -/

section Checks

variable {α : Type} (g : Globals)

@[simp] theorem answer_reject (message : String) : answer (reject message : Compile α) g = none :=
  rfl

@[simp] theorem answer_rejectName (message : String) (name : Name) :
    answer (rejectName message name : Compile α) g = none :=
  rfl

@[simp] theorem answer_fail : answer (fail : Compile α) g = none :=
  rfl

@[simp] theorem answer_expect (found : Option α) (message : String) :
    answer (expect found message) g = found.map fun a => (a, g) := by
  cases found <;> rfl

@[simp] theorem answer_rejectIf (p : Prop) [Decidable p] (message : String) :
    answer (rejectIf p message) g = if p then none else some ((), g) := by
  unfold rejectIf
  split <;> rfl

@[simp] theorem answer_emit (bs : List Byte) : answer (emit bs) g = some ((), g.append bs) := by
  rw [answer, emit_eq]

end Checks

/-- What a reader finds does not depend on the globals. -/
theorem answer_bind_comm {α β γ : Type} (x : Compile α) (g : Globals) (o : Option β)
    (f : α × Globals → β → Option γ) :
    ((answer x g).bind fun r => o.bind (f r)) = o.bind fun b => (answer x g).bind fun r => f r b := by
  cases o <;> simp

attribute [local simp] answer_bind_comm Option.map_eq_bind Option.bind_assoc Function.comp_def

/-! ## Types -/

/-- `parse_uint` reads digits, modulo 2^64. -/
theorem parseUint_eq (s : Source) :
    parseUint s = (BitVec.ofNat 64 (decimal (s.takeWhile isDigit)), s.dropWhile isDigit) := by
  have hfold : ∀ (digits : Name) (v : Nat),
      digits.foldl (fun v c => v * 10 + BitVec.ofNat 64 (c.toNat - '0'.toNat)) (BitVec.ofNat 64 v) =
        BitVec.ofNat 64 (digits.foldl (fun v c => v * 10 + (c.toNat - '0'.toNat)) v) := by
    intro digits
    induction digits with
    | nil => exact fun _ => rfl
    | cons c digits ih =>
      intro v
      rw [List.foldl_cons, List.foldl_cons, ← ih, BitVec.ofNat_add, BitVec.ofNat_mul]
      rfl
  exact Prod.ext (hfold _ 0) rfl

theorem answer_arrayCount (s : Source) (g : Globals) :
    answer (arrayCount s) g = (readCount s).map fun r => ((BitVec.ofNat 32 r.1, r.2), g) := by
  have hwidth : ∀ v, (BitVec.ofNat 64 v).setWidth 32 = BitVec.ofNat 32 v := fun v =>
    BitVec.eq_of_toNat_eq (by simp)
  unfold arrayCount readCount
  rw [parseUint_eq]
  cases hend : consume (s.dropWhile isDigit) ']' with
  | none => simp [hend]
  | some rest => simp [hend, hwidth]

@[simp] theorem answer_genType (t : TypeExpr) (g : Globals) :
    answer (genType t) g = (t.ty g.structs).map fun t => (t, g) := by
  simp only [genType, answer_bind, answer_get, Option.bind_some]
  cases t.ty g.structs <;> rfl

theorem renders_namedType {type : Parser} {read : Reader TypeExpr}
    (htype : ∀ s, Renders (type s) (read s) genType) (name : Name) (s : Source) :
    Renders (namedType type name s) (readNamedType read name s) genType := by
  intro g
  unfold namedType readNamedType
  cases hscalar : scalarType name with
  | some t =>
    have hname : name ≠ "ptr".toList := by
      rintro rfl
      cases hscalar
    simp only [if_neg hname]
    simp [TypeExpr.ty, hscalar]
  | none =>
    by_cases hname : name = "ptr".toList
    · simp only [if_pos hname, answer_bind, answer_expect]
      cases consume s '<' with
      | none => rfl
      | some s =>
        have hbase := htype s g
        cases hread : read s with
        | none => simp [hread, hbase]
        | some r =>
          cases hty : r.1.ty g.structs <;> cases hend : consume r.2 '>' <;>
            simp [hread, hbase, hty, hend, TypeExpr.ty]
    · simp only [if_neg hname, answer_bind, answer_get]
      cases hfind : findStruct name g.structs with
      | none => simp [TypeExpr.ty, hscalar, hfind]
      | some r => simp [TypeExpr.ty, hscalar, hfind]

/-- Types. -/
theorem renders_parseType (n : Nat) (p : Source) :
    Renders (parseType n p) (readType n p) genType := by
  induction n generalizing p with
  | zero => exact fun _ => rfl
  | succ n ih =>
    intro g
    unfold parseType readType
    by_cases hbracket : peek (skipWs p) = '['
    · simp only [if_pos hbracket, answer_bind, answer_arrayCount]
      cases hcount : readCount (skipWs p).tail with
      | none => rfl
      | some r =>
        have helem := ih r.2 g
        cases hread : readType n r.2 with
        | none => simp [hread, helem]
        | some t => cases hty : t.1.ty g.structs <;> simp [hread, helem, hty, TypeExpr.ty]
    · simp only [if_neg hbracket]
      cases hident : parseIdent (skipWs p) with
      | none => rfl
      | some r =>
        have hnamed := renders_namedType ih r.1 r.2 g
        cases hread : readNamedType (readType n) r.1 r.2 with
        | none => simp [hread, hnamed]
        | some t =>
          by_cases hpost : peek (skipWs t.2) = '['
          · cases hty : t.1.ty g.structs <;> cases hcount : readCount (skipWs t.2).tail <;>
              simp [hread, hnamed, hty, hpost, hcount, answer_arrayCount, TypeExpr.ty]
          · cases hty : t.1.ty g.structs <;> simp [hread, hnamed, hty, hpost]

/-! ## Expressions -/

theorem answer_lookupVar (name : Name) (g : Globals) :
    answer (lookupVar name) g = (findVar name g.vars).map fun v => (v, g) := by
  simp only [lookupVar, answer_bind, answer_get, Option.bind_some]
  cases findVar name g.vars <;> rfl

theorem renders_parseField (v : Var) (s : Source) (message : String) :
    Renders (parseField v s message) (parseIdent s) (genField v.type) := by
  intro g
  unfold parseField genField
  cases parseIdent s with
  | none => rfl
  | some r =>
    by_cases hkind : v.type.kind = .struct
    · cases hfind : findField g.structs[v.type.struc.toNat]? r.1 <;> simp [hkind, hfind]
    · simp [hkind]

section Expressions

variable {expr : Parser} {read : Reader Expr}

section

variable (hexpr : ∀ s, Renders (expr s) (read s) genExpr)
include hexpr

theorem answer_emitIndexAddress (v : Var) (s : Source) (g : Globals) :
    answer (emitIndexAddress expr v s) g =
      (readIndex read s).bind fun r =>
        (answer (genExpr r.1) g).map fun t => (r.2, t.2.append (indexCode v)) := by
  have hrun : ∀ s g, answer (expr s) g = _ := hexpr
  unfold emitIndexAddress readIndex
  simp [hrun]

/-- The arguments of a call. -/
theorem answer_parseArgs (room argc : Nat) (s : Source) (g : Globals) :
    answer (parseArgs expr room argc s) g =
      (readArgs read room s).bind fun r =>
        (answer (genArgs r.1) g).map fun t => ((argc + r.1.length, r.2), t.2) := by
  have hrun : ∀ s g, answer (expr s) g = _ := hexpr
  induction room generalizing argc s g with
  | zero => rfl
  | succ room ih =>
    unfold parseArgs readArgs
    cases hread : read s with
    | none => simp [hrun, hread]
    | some r =>
      by_cases hlast : peek (skipWs r.2) = ')'
      · simp [hrun, hread, hlast, genArgs]
      · by_cases hcomma : peek (skipWs r.2) = ','
        · simp [hrun, hread, hcomma, ih, genArgs, Nat.add_assoc, Nat.add_comm 1]
        · simp [hrun, hread, hlast, hcomma]

theorem answer_parseArgList (s : Source) (g : Globals) :
    answer (parseArgList expr s) g =
      (readArgList read s).bind fun r =>
        (answer (genArgs r.1) g).map fun t => ((r.1.length, r.2), t.2) := by
  have hargs := answer_parseArgs hexpr maxParams 0 (skipWs s) g
  unfold parseArgList readArgList
  by_cases hnone : peek (skipWs s) = ')'
  · simp [hnone, genArgs]
  · cases hread : readArgs read maxParams (skipWs s) with
    | none => simp [hnone, hargs, hread]
    | some r => by_cases hend : peek r.2 = ')' <;> simp [hnone, hargs, hread, hend]

/-- A call. -/
theorem renders_parseCall (name : Name) (s : Source) :
    Renders (parseCall expr name s) ((readArgList read s).map fun r => (.call name r.1, r.2))
      genExpr := by
  intro g
  have hargs := answer_parseArgList hexpr s g
  unfold parseCall
  cases hfind : findFunc name g.funcs with
  | none => simp [hfind, genExpr]
  | some found =>
    cases hread : readArgList read s with
    | none => simp [hfind, hargs, hread]
    | some r =>
      by_cases hargc : r.1.length = found.2.argc
      · cases hgen : answer (genArgs r.1) g with
        | none => simp [hfind, hargs, hread, hgen, genExpr]
        | some t => cases himported : found.2.isExtern <;> cases hkmod : t.2.kmodTarget <;>
            simp [hfind, hargs, hread, hgen, genExpr, genCall, hargc, hkmod, himported]
      · simp [hfind, hargs, hread, genExpr, genCall, hargc]

end

theorem renders_parseStringLiteral (s : Source) :
    Renders (parseStringLiteral s) (readString s) genExpr := by
  intro g
  unfold parseStringLiteral readString
  by_cases hend : peek (stringChars 511 s).2 = quote
  · simp [hend, genExpr]
  · simp [hend]

theorem renders_parseTypeQuery (n : Nat) (s : Source) :
    Renders (parseTypeQuery n Ty.size s) (readTypeQuery n .sizeOf s) genExpr ∧
      Renders (parseTypeQuery n Ty.align s) (readTypeQuery n .alignOf s) genExpr := by
  have hrun : ∀ s g, answer (parseType n s) g = _ := renders_parseType n
  unfold parseTypeQuery readTypeQuery
  refine ⟨fun g => ?_, fun g => ?_⟩
  all_goals simp [hrun, genExpr, -answer_genType]

theorem renders_parseOffsetof (n : Nat) (s : Source) :
    Renders (parseOffsetof n s) (readOffsetof n s) genExpr := by
  intro g
  have hrun : ∀ s g, answer (parseType n s) g = _ := renders_parseType n
  unfold parseOffsetof readOffsetof
  cases consume s '(' with
  | none => simp
  | some s =>
    simp only [answer_bind, answer_expect, Option.map_some, Option.bind_some]
    rw [answer_tryCatch fun stop g => by cases stop <;> rfl]
    cases hread : readType n s with
    | none => simp [hrun, hread]
    | some r =>
      cases hcomma : consume r.2 ',' with
      | none => simp [hrun, hread, hcomma]
      | some s =>
        cases hident : parseIdent s with
        | none => simp [hrun, hread, hcomma, hident]
        | some f =>
          cases hend : consume f.2 ')' with
          | none => simp [hrun, hread, hcomma, hident, hend]
          | some rest =>
            cases hty : r.1.ty g.structs with
            | none => simp [hrun, hread, hcomma, hident, hend, hty, genExpr]
            | some t =>
              by_cases hkind : t.kind = .struct
              · cases hfield : findField g.structs[t.struc.toNat]? f.1 <;>
                  simp [hrun, hread, hcomma, hident, hend, hty, hkind, hfield, genExpr, genField]
              · simp [hrun, hread, hcomma, hident, hend, hty, hkind, genExpr, genField]

section

variable (hexpr : ∀ s, Renders (expr s) (read s) genExpr)
include hexpr

/-- A variable, its element or its field. -/
theorem renders_parseVariable (name : Name) (s : Source) :
    Renders (parseVariable expr name s) (readVariable read name s) genExpr := by
  intro g
  have haddr : ∀ v s g, answer (emitIndexAddress expr v s) g = _ := answer_emitIndexAddress hexpr
  have hfield : ∀ v s message g, answer (parseField v s message) g = _ := renders_parseField
  unfold parseVariable readVariable
  by_cases hindex : peek (skipWs s) = '['
  · simp [hindex, haddr, genExpr, Var.loadedElement]
  · by_cases hdot : peek (skipWs s) = '.'
    · simp [hdot, hfield, genExpr]
    · simp [hindex, hdot, genExpr]

/-- The operands. -/
theorem renders_parsePrimary (n : Nat) (p : Source) :
    Renders (parsePrimary expr n p) (readPrimary read n p) genExpr := by
  refine Renders.ite (fun _ => renders_parseStringLiteral _) fun _ => ?_
  refine Renders.ite (fun _ g => by simp [genExpr]) fun _ => ?_
  refine Renders.ite (fun _ g => ?_) fun _ => ?_
  · have hrun : ∀ s g, answer (expr s) g = _ := hexpr
    simp [hrun]
  · cases hident : parseIdent (skipWs p) with
    | none => exact fun _ => rfl
    | some r =>
      refine Renders.ite (fun _ => (renders_parseTypeQuery n _).1) fun _ => ?_
      refine Renders.ite (fun _ => (renders_parseTypeQuery n _).2) fun _ => ?_
      refine Renders.ite (fun _ => renders_parseOffsetof n _) fun _ => ?_
      refine Renders.ite (fun _ => ?_) fun _ => renders_parseVariable hexpr _ _
      have hcall := renders_parseCall hexpr r.1 (skipWs r.2).tail
      rwa [Option.map_eq_bind] at hcall

theorem renders_parseAddress (s : Source) :
    Renders (parseAddress expr s) (readAddress read s) genExpr := by
  intro g
  have haddr : ∀ v s g, answer (emitIndexAddress expr v s) g = _ := answer_emitIndexAddress hexpr
  have hfield : ∀ v s message g, answer (parseField v s message) g = _ := renders_parseField
  unfold parseAddress readAddress
  cases hident : parseIdent s with
  | none => simp
  | some r =>
    by_cases hindex : peek (skipWs r.2) = '['
    · simp [hindex, haddr, genExpr]
    · by_cases hdot : peek (skipWs r.2) = '.'
      · simp [hdot, hfield, genExpr, addressType]
      · simp [hindex, hdot, genExpr, addressType]

theorem renders_parseUnary (n : Nat) (p : Source) :
    Renders (parseUnary expr n p) (readUnary read n p) genExpr := by
  induction n generalizing p with
  | zero => exact fun _ => rfl
  | succ n ih =>
    have hrun : ∀ s g, answer (parseUnary expr n s) g = _ := ih
    have hop : ∀ (code : List Byte) (type : Ty → Ty) (operator : Expr → Expr) (s : Source),
        (∀ e g, answer (genExpr (operator e)) g =
          (answer (genExpr e) g).map fun t => (type t.1, t.2.append code)) →
        Renders (do
          let r ← parseUnary expr n s
          emit code
          return (type r.1, r.2)) (readOperand (readUnary read n) operator s) genExpr := by
      intro code type operator s hgen g
      unfold readOperand
      simp [hrun, hgen]
    refine Renders.ite (fun _ => hop notCode (fun _ => tyBool) .not _ fun e g => ?_) fun _ => ?_
    · simp [genExpr]
    refine Renders.ite (fun _ => hop complCode id .compl _ fun e g => ?_) fun _ => ?_
    · simp [genExpr]
    refine Renders.ite (fun _ => hop negCode (fun _ => tyInt) .neg _ fun e g => ?_) fun _ => ?_
    · simp [genExpr]
    refine Renders.ite (fun _ => renders_parseAddress hexpr _) fun _ => ?_
    refine Renders.ite (fun _ g => ?_) fun _ => renders_parsePrimary hexpr n p
    unfold readOperand
    simp [hrun, genExpr]

end

/-- Where generation fails for the left operand, it fails for what is made of it. -/
theorem answer_readBinaryLoop_none {readOperand : Reader Expr}
    {operator : Source → Option (BinOp × Source)} {n : Nat} {lhs : Expr} {p : Source}
    {r : Expr × Source} {g : Globals} (hread : readBinaryLoop readOperand operator n lhs p = some r)
    (hlhs : answer (genExpr lhs) g = none) : answer (genExpr r.1) g = none := by
  induction n generalizing lhs p with
  | zero => cases hread
  | succ n ih =>
    unfold readBinaryLoop at hread
    cases hop : operator (skipWs p) with
    | none =>
      rw [hop] at hread
      cases hread
      exact hlhs
    | some found =>
      simp only [hop, Option.bind_eq_bind, Option.bind_eq_some_iff] at hread
      obtain ⟨rhs, -, hrest⟩ := hread
      exact ih hrest (by simp [genExpr, hlhs])

section

variable {operand : Parser} {readOperand : Reader Expr}
  (hoperand : ∀ s, Renders (operand s) (readOperand s) genExpr)
  (operator : Source → Option (BinOp × Source)) (n : Nat)
include hoperand operator n

/-- The loop over the operators of one level, with what it has read. -/
theorem answer_binaryLoop (lhs : Expr) (t : Ty) (p : Source) {g g₁ : Globals}
    (hlhs : answer (genExpr lhs) g = some (t, g₁)) :
    answer (binaryLoop operand operator n t p) g₁ =
      (readBinaryLoop readOperand operator n lhs p).bind fun r =>
        (answer (genExpr r.1) g).map fun t => ((t.1, r.2), t.2) := by
  have hrun : ∀ s g, answer (operand s) g = _ := hoperand
  induction n generalizing lhs t p g₁ with
  | zero => rfl
  | succ n ih =>
    unfold binaryLoop readBinaryLoop
    cases hop : operator (skipWs p) with
    | none => simp [hlhs]
    | some found =>
      cases hread : readOperand found.2 with
      | none => simp [hrun, hread]
      | some r =>
        cases hgen : answer (genExpr r.1) (g₁.append pushRax) with
        | none =>
          have hboth : answer (genExpr (.binary found.1 lhs r.1)) g = none := by
            simp [genExpr, hlhs, hgen]
          cases hrest : readBinaryLoop readOperand operator n (.binary found.1 lhs r.1) r.2 with
          | none => simp [hrun, hread, hgen, hrest]
          | some e => simp [hrun, hread, hgen, hrest, answer_readBinaryLoop_none hrest hboth]
        | some t' =>
          have hboth : answer (genExpr (.binary found.1 lhs r.1)) g =
              some (found.1.type t, t'.2.append (found.1.code t t'.1)) := by
            simp [genExpr, hlhs, hgen]
          simp [hrun, hread, hgen, ih _ _ _ hboth]

/-- One level of precedence. -/
theorem renders_binaryLevel (p : Source) :
    Renders (binaryLevel operand operator n p) (readBinaryLevel readOperand operator n p)
      genExpr := by
  intro g
  have hfirst := hoperand p g
  unfold binaryLevel readBinaryLevel
  cases hread : readOperand p with
  | none => simp [hfirst, hread]
  | some r =>
    cases hgen : answer (genExpr r.1) g with
    | none =>
      cases hrest : readBinaryLoop readOperand operator n r.1 r.2 with
      | none => simp [hfirst, hread, hgen, hrest]
      | some e => simp [hfirst, hread, hgen, hrest, answer_readBinaryLoop_none hrest hgen]
    | some t => simp [hfirst, hread, hgen, answer_binaryLoop hoperand operator n r.1 t.1 r.2 hgen]

end

/-- All levels below the comparisons. -/
theorem renders_parseBitor (hexpr : ∀ s, Renders (expr s) (read s) genExpr) (n : Nat)
    (p : Source) : Renders (parseBitor expr n p) (readBitor read n p) genExpr :=
  renders_binaryLevel (renders_binaryLevel (renders_binaryLevel (renders_binaryLevel
    (renders_binaryLevel (renders_parseUnary hexpr n) _ n) _ n) _ n) _ n) _ n p

theorem renders_parseComparison {operand : Parser} {readOperand : Reader Expr}
    (hoperand : ∀ s, Renders (operand s) (readOperand s) genExpr) (p : Source) :
    Renders (parseComparison operand p) (readComparison readOperand p) genExpr := by
  intro g
  have hrun : ∀ s g, answer (operand s) g = _ := hoperand
  unfold parseComparison readComparison
  cases hread : readOperand p with
  | none => simp [hrun, hread]
  | some l => cases hop : cmpOperator (skipWs l.2) <;> simp [hrun, hread, hop, genExpr]

end Expressions

/-- An expression is compiled as its tree is. -/
theorem renders_parseExpr (n : Nat) (p : Source) : Renders (parseExpr n p) (readExpr n p) genExpr := by
  induction n generalizing p with
  | zero => exact fun _ => rfl
  | succ n ih => exact renders_parseComparison (renders_parseBitor ih n) p

/-! ## Statements -/

section Statements

variable {expr : Parser} {read : Reader Expr}

theorem compiles_compilePointerStore (hexpr : ∀ s, Renders (expr s) (read s) genExpr) (s : Source) :
    Compiles (compilePointerStore expr s) (readStore read s) genStmt := by
  intro g
  have hrun : ∀ s g, answer (expr s) g = _ := hexpr
  unfold compilePointerStore readStore readValue readEnd
  by_cases hsafe : g.kmodTarget = true ∧ g.functionUnsafe = false
  · simp [requireUnsafe, hsafe, genStmt]
  · simp [requireUnsafe, hsafe, hrun, genStmt, genPlaceValue]

theorem compiles_compileUnsafe {block : Compiler} {readB : Reader (List Stmt)}
    (hblock : ∀ s, Compiles (block s) (readB s) genBlock) (s : Source) :
    Compiles (compileUnsafe block s)
      ((consume s openBrace).bind (readInner readB .trusted)) genStmt := by
  intro g
  have hrun : ∀ s g, answer (block s) g = _ := hblock
  unfold compileUnsafe readInner
  simp [hrun, genStmt]

theorem renders_declaredType (n : Nat) (s : Source) :
    Renders (declaredType n s) (readDeclaredType n s) genDeclaredType := by
  intro g
  have hrun : ∀ s g, answer (parseType n s) g = _ := renders_parseType n
  unfold declaredType readDeclaredType
  cases consume s ':' with
  | none => simp [genDeclaredType]
  | some s => simp [hrun, genDeclaredType]

section

variable (hexpr : ∀ s, Renders (expr s) (read s) genExpr)
include hexpr

theorem compiles_compileInit (v : Var) (t : Ty) (s : Source) :
    Compiles (compileInit expr v t s) (readInit read s) (genInit v t) := by
  intro g
  have hrun : ∀ s g, answer (expr s) g = _ := hexpr
  unfold compileInit readInit
  by_cases heq : peek (skipWs s) = '='
  · simp [heq, hrun, genInit]
  · simp [heq, genInit, slotsOf]

/-- A `let`. -/
theorem compiles_compileLet (n : Nat) (s : Source) :
    Compiles (compileLet expr n s) (readLet read n s) genStmt := by
  intro g
  have htype : ∀ s g, answer (declaredType n s) g = _ := renders_declaredType n
  have hinit : ∀ v t s g, answer (compileInit expr v t s) g = _ := compiles_compileInit hexpr
  unfold compileLet readLet readEnd
  simp [htype, hinit, genStmt]

theorem renders_compileCondition (s : Source) :
    Renders (compileCondition expr s) (readCondition read s) genCondition := by
  intro g
  have hrun : ∀ s g, answer (expr s) g = _ := hexpr
  unfold compileCondition readCondition genCondition
  simp [hrun]

/-- A loop. -/
theorem compiles_compileWhile {block : Compiler} {readB : Reader (List Stmt)}
    (hblock : ∀ s, Compiles (block s) (readB s) genBlock) (s : Source) :
    Compiles (compileWhile expr block s) (readWhile read readB s) genStmt := by
  intro g
  have hcond : ∀ s g, answer (compileCondition expr s) g = _ := renders_compileCondition hexpr
  have hrun : ∀ s g, answer (block s) g = _ := hblock
  unfold compileWhile readWhile
  simp [hcond, hrun, genStmt]

end

theorem compiles_compileBreak (s : Source) :
    Compiles (compileBreak s) (readEnd .leave s) genStmt := by
  intro g
  unfold compileBreak readEnd
  simp [genStmt]

/-- An `if`, with its `else`. -/
theorem compiles_compileIf (hexpr : ∀ s, Renders (expr s) (read s) genExpr) {block : Compiler}
    {readB : Reader (List Stmt)} (hblock : ∀ s, Compiles (block s) (readB s) genBlock)
    (s : Source) : Compiles (compileIf expr block s) (readIf read readB s) genStmt := by
  intro g
  have hcond : ∀ s g, answer (compileCondition expr s) g = _ := renders_compileCondition hexpr
  have hrun : ∀ s g, answer (block s) g = _ := hblock
  unfold compileIf readIf compileElse
  generalize "else".toList = word
  cases hopen : consume s '(' with
  | none => simp
  | some s =>
    cases hread : readCondition read s with
    | none => simp [hcond, hread]
    | some c =>
      cases hbody : readB c.2 with
      | none => simp [hcond, hread, hrun, hbody]
      | some b => by_cases helse : keywordAt (skipWs b.2) word = true <;>
          simp [hcond, hread, hrun, hbody, helse, genStmt]

theorem compiles_compileReturn (hexpr : ∀ s, Renders (expr s) (read s) genExpr) (s : Source) :
    Compiles (compileReturn expr s) (readValue read .answer s) genStmt := by
  intro g
  have hrun : ∀ s g, answer (expr s) g = _ := hexpr
  unfold compileReturn readValue readEnd
  simp [hrun, genStmt]

theorem compiles_compilePrint (s : Source) : Compiles (compilePrint s) (readPrint s) genStmt := by
  intro g
  unfold compilePrint readPrint
  cases hopen : consume s '(' with
  | none => simp
  | some s =>
    by_cases hquote : peek (skipWs s) = quote
    · by_cases hend : peek (stringChars 512 (skipWs s).tail).2 = quote
      · by_cases hkmod : g.kmodTarget = true <;>
          simp [requireUser, hkmod, hquote, hend, genStmt]
      · simp [hquote, hend]
    · simp [hquote]

section

variable (hexpr : ∀ s, Renders (expr s) (read s) genExpr)
include hexpr

theorem compiles_compilePuti (s : Source) :
    Compiles (compilePuti expr s) (readPuti read s) genStmt := by
  intro g
  have hrun : ∀ s g, answer (expr s) g = _ := hexpr
  unfold compilePuti readPuti
  by_cases hkmod : g.kmodTarget = true
  · simp [requireUser, hkmod, genStmt]
  · simp [requireUser, hkmod, hrun, genStmt]

theorem compiles_compilePlaceValue (place : Place) (t : Ty) (s : Source) :
    Compiles (compilePlaceValue expr place t s) (readAssigned read id s) (genPlaceValue place t) := by
  intro g
  have hrun : ∀ s g, answer (expr s) g = _ := hexpr
  unfold compilePlaceValue readAssigned readValue readEnd genPlaceValue
  simp [hrun]

theorem compiles_compileAssign (name : Name) (s : Source) :
    Compiles (compileAssign expr name s) (readAssign read name s) genStmt := by
  intro g
  have hrun : ∀ s g, answer (expr s) g = _ := hexpr
  have hindex : ∀ v s g, answer (emitIndexAddress expr v s) g = _ := answer_emitIndexAddress hexpr
  have hfield : ∀ v s message g, answer (parseField v s message) g = _ := renders_parseField
  have hvalue : ∀ place t s g, answer (compilePlaceValue expr place t s) g = _ :=
    compiles_compilePlaceValue hexpr
  unfold compileAssign readAssign readAssigned readValue readEnd
  by_cases hbracket : peek (skipWs s) = '['
  · simp [hbracket, hindex, hvalue, genStmt, readAssigned, readValue, readEnd, Var.storedElement]
  · by_cases hdot : peek (skipWs s) = '.'
    · simp [hdot, hfield, hvalue, genStmt, readAssigned, readValue, readEnd]
    · simp [hbracket, hdot, hrun, genStmt]

theorem compiles_compileExprStatement (s : Source) :
    Compiles (compileExprStatement expr s) (readValue read .effect s) genStmt := by
  intro g
  have hrun : ∀ s g, answer (expr s) g = _ := hexpr
  unfold compileExprStatement readValue readEnd
  simp [hrun, genStmt]

theorem compiles_compileNamed (s : Source) :
    Compiles (compileNamed expr s) (readNamed read s) genStmt := by
  unfold compileNamed readNamed
  cases parseIdent s with
  | none => exact fun _ => rfl
  | some r =>
    exact Compiles.ite (fun _ => compiles_compileExprStatement hexpr s) fun _ =>
      compiles_compileAssign hexpr r.1 r.2

end

section

variable {block : Compiler} {readB : Reader (List Stmt)}
  (hblock : ∀ s, Compiles (block s) (readB s) genBlock)
include hblock

theorem compiles_inner (s : Source) : Compiles (block s) (readInner readB .block s) genStmt := by
  intro g
  have hrun : ∀ s g, answer (block s) g = _ := hblock
  unfold readInner
  simp [hrun, genStmt]

/-- A statement, whatever its first word is. -/
theorem compiles_compileStatement (n : Nat) {s : Source}
    (hend : ¬ (peek (skipWs s) = nul ∨ peek (skipWs s) = closeBrace)) :
    Compiles (compileStatement block n s) (readStatement readB n s) genStmt := by
  have hexpr := renders_parseExpr n
  unfold compileStatement readStatement
  rw [if_neg hend, if_neg hend]
  refine Compiles.ite (fun _ => compiles_compilePointerStore hexpr _) fun _ => ?_
  refine Compiles.ite (fun _ => compiles_compileUnsafe hblock _) fun _ => ?_
  refine Compiles.ite (fun _ => compiles_compileLet hexpr n _) fun _ => ?_
  refine Compiles.ite (fun _ => compiles_compileWhile hexpr hblock _) fun _ => ?_
  refine Compiles.ite (fun _ => compiles_compileBreak _) fun _ => ?_
  refine Compiles.ite (fun _ => compiles_compileIf hexpr hblock _) fun _ => ?_
  refine Compiles.ite (fun _ => compiles_inner hblock _) fun _ => ?_
  refine Compiles.ite (fun _ => compiles_compileReturn hexpr _) fun _ => ?_
  refine Compiles.ite (fun _ => compiles_compilePrint _) fun _ => ?_
  exact Compiles.ite (fun _ => compiles_compilePuti hexpr _) fun _ => compiles_compileNamed hexpr _

end

end Statements

theorem skipFrom_idem (inComment : Bool) (s : Source) :
    skipFrom false (skipFrom inComment s) = skipFrom inComment s := by
  induction s generalizing inComment with
  | nil => cases inComment <;> rfl
  | cons c s ih =>
    cases inComment with
    | true =>
      rw [skipFrom]
      split
      next => exact ih false
      next => exact ih true
    | false =>
      rw [skipFrom]
      split
      next => exact ih false
      next hspace =>
        split
        next => exact ih true
        next hcomment => rw [skipFrom, if_neg hspace, if_neg hcomment]

theorem skipWs_idem (s : Source) : skipWs (skipWs s) = skipWs s :=
  skipFrom_idem false s

/-- A block, to its brace. -/
theorem compiles_compileBlock (n : Nat) (s : Source) :
    Compiles (compileBlock n s) (readBlock n s) genBlock := by
  induction n generalizing s with
  | zero => exact fun _ => rfl
  | succ n ih =>
    intro g
    have hrest : ∀ s g, answer (compileBlock n s) g = _ := ih
    unfold compileBlock readBlock
    by_cases hnul : peek s = nul
    · simp [hnul]
    · by_cases hclose : peek (skipWs s) = closeBrace
      · simp [hnul, hclose, genBlock]
      · by_cases hend : peek (skipWs s) = nul
        · -- the text ends after blanks: nothing is read, and the next round refuses
          have hstop : ∀ g, answer (compileBlock n (skipWs s)) g = none := fun g => by
            cases n with
            | zero => rfl
            | succ n => simp [compileBlock, hend]
          have hread : readStatement (readBlock n) n (skipWs s) = none := by
            simp [readStatement, skipWs_idem, hend]
          have hnothing : answer (compileStatement (compileBlock n) n (skipWs s)) g =
              some (skipWs s, g) := by
            simp [compileStatement, skipWs_idem, hend]
          simp [hnul, hclose, hread, hnothing, hstop]
        · have hstmt := compiles_compileStatement ih n
            (s := skipWs s) (by rw [skipWs_idem]; exact not_or.mpr ⟨hend, hclose⟩)
          have hrun : ∀ g, answer (compileStatement (compileBlock n) n (skipWs s)) g = _ := hstmt
          simp [hnul, hclose, hrun, hrest, genBlock]

/-- A function. -/
theorem answer_compileFunction (n index : Nat) (fn : Function) (g : Globals) :
    answer (compileFunction n index fn) g =
      (readBlock n fn.body).bind fun r => answer (genFunction index fn r.1) g := by
  have hblock : ∀ g, answer (compileBlock n fn.body) g = _ := compiles_compileBlock n fn.body
  unfold compileFunction genFunction
  cases hread : readBlock n fn.body with
  | none => simp [hblock, hread]
  | some r => simp [hblock, hread]

/-- The one pass over the functions answers, and leaves the same globals, as reading all
bodies first and generating their code then. -/
theorem one_pass_is_two (n index : Nat) (fns : List Function) (g : Globals) :
    answer (compileFunctions n index fns) g =
      (readBodies n fns).bind fun bodies => answer (genFunctions index fns bodies) g := by
  induction fns generalizing index g with
  | nil => rfl
  | cons fn fns ih =>
    unfold compileFunctions readBodies
    simp only [genFunctions]
    split
    · exact ih (index + 1) g
    · simp only [answer_bind, answer_compileFunction, ih]
      cases readBlock n fn.body with
      | none => rfl
      | some r => cases readBodies n fns <;> simp

/-! ## Scanning is reading and entering

As for statements: the scanners answer exactly when the text can be read and what was read
can be entered, and they leave the tables that entering makes. -/

/-! ## Structs -/

theorem answer_parseType (n : Nat) (p : Source) (g : Globals) :
    answer (parseType n p) g =
      (readType n p).bind fun r => (r.1.ty g.structs).map fun t => ((t, r.2), g) := by
  rw [renders_parseType n p g]
  simp

theorem answer_scanFields {packed : Bool} (n : Nat) {st : StructDef} (hpacked : st.packed = packed)
    (p : Source) (g : Globals) :
    answer (scanFields packed n st p) g =
      (readFields n p).bind fun r => (layFields g.structs st r.1).map fun st => ((st, r.2), g) := by
  induction n generalizing st p with
  | zero => rfl
  | succ n ih =>
    unfold scanFields readFields
    by_cases hend : peek p = nul
    · simp [hend, layFields]
    by_cases hclose : peek (skipWs p) = closeBrace
    · simp [hend, hclose, layFields]
    simp only [if_neg hend, if_neg hclose]
    by_cases hroom : st.fields.length ≥ maxFields
    · simp [hroom, layFields, Option.bind_assoc]
    cases hident : parseIdent (skipWs p) with
    | none => simp [hroom]
    | some r =>
      cases hcolon : consume r.2 ':' with
      | none => simp [hroom, hcolon]
      | some s =>
        cases htype : readType n s with
        | none => simp [hroom, hcolon, htype, answer_parseType]
        | some t =>
          cases hsemi : consume t.2 ';' with
          | none => simp [hroom, hcolon, htype, hsemi, answer_parseType]
          | some s =>
            cases hty : t.1.ty g.structs with
            | none =>
              simp [hroom, hcolon, htype, hty, hsemi, layFields, answer_parseType, Option.bind_assoc]
            | some ty =>
              subst hpacked
              simp only [if_neg hroom, hcolon, answer_bind, answer_parseType, htype, hty, hsemi,
                Option.bind_some, Option.map_some]
              refine (@ih (st.addField r.1 ty) rfl s).trans ?_
              simp [hcolon, htype, hsemi, hroom, hty, layFields, Option.bind_assoc]

/-- A struct is read and then laid out. -/
theorem answer_scanStruct (n : Nat) (packed : Bool) (p : Source) (g : Globals) :
    answer (scanStruct n packed p) g =
      (readStruct n packed p).bind fun r =>
        (if g.structs.length ≥ maxStructs then none else r.1.lay g.structs).map fun st =>
          (r.2, { g with structs := g.structs ++ [st] }) := by
  unfold scanStruct readStruct
  by_cases hroom : g.structs.length ≥ maxStructs
  · simp [hroom]
  · cases hident : parseIdent p with
    | none => simp [hroom]
    | some r =>
      cases hopen : consume r.2 openBrace with
      | none => simp [hroom, hopen]
      | some s =>
        have hfields := @answer_scanFields packed n { name := r.1, packed := packed } rfl s g
        simp only [if_neg hroom, hopen, answer_bind, answer_get, Option.bind_some, hfields]
        cases hread : readFields n s with
        | none => simp [hopen, hread]
        | some t =>
          have hlay : (⟨r.1, packed, t.1⟩ : StructDecl).lay g.structs =
              (layFields g.structs { name := r.1, packed := packed } t.1).map StructDef.close := by
            cases hfields : layFields g.structs { name := r.1, packed := packed } t.1 <;>
              simp only [StructDecl.lay, hfields] <;> rfl
          generalize ({ name := r.1, packed := packed } : StructDef) = st at hlay ⊢
          cases hst : layFields g.structs st t.1 <;> simp [hopen, hread, hlay, hst, StructDef.close]

theorem answer_scanStructsLoop (n : Nat) (p : Source) (g : Globals) :
    answer (scanStructsLoop n p) g =
      (readStructs n p).bind fun ds =>
        (layStructs g.structs ds).map fun structs => ((), { g with structs := structs }) := by
  induction n generalizing p g with
  | zero => rfl
  | succ n ih =>
    unfold scanStructsLoop readStructs
    by_cases hend : peek p = nul
    · simp [hend, layStructs]
    by_cases hquote : peek (skipWs p) = quote
    · simp only [if_neg hend, if_pos hquote, ih]
    · simp only [if_neg hend, if_neg hquote]
      by_cases hstruct : keywordAt ((packedAttr (skipWs p)).getD (skipWs p)) "struct".toList
      · simp only [if_pos hstruct, answer_bind, answer_scanStruct, ih]
        cases hread : readStruct n (packedAttr (skipWs p)).isSome
            (List.drop 6 ((packedAttr (skipWs p)).getD (skipWs p))) with
        | none => rfl
        | some r =>
          by_cases hroom : g.structs.length ≥ maxStructs
          · cases hrest : readStructs n r.2 <;> simp [hroom, hrest, layStructs]
          · cases hlay : r.1.lay g.structs <;> cases hrest : readStructs n r.2 <;>
              simp [hroom, hlay, hrest, layStructs]
      · simp only [if_neg hstruct, ih]

/-- `scan_structs` leaves the table of what is read. -/
theorem answer_scanStructs (n : Nat) (p : Source) (g : Globals) :
    answer (scanStructs n p) g =
      (readStructs n p).bind fun ds =>
        (layStructs [] ds).map fun structs => ((), { g with structs := structs }) := by
  rw [scanStructs, answer_bind, answer_modify]
  exact answer_scanStructsLoop n p { g with structs := [] }

end OreOS.Orec
