import ScriptWasm.Code.Draft
import ScriptWasm.Host
import ScriptWasm.Typing.Analysis

/-!
Code for an analysed program. Variables at the top level become globals, each function becomes one
function, and the statements of the top level become the entry function, whose result is the value
of the last expression statement that ran. Operands are evaluated from left to right.
-/

namespace ScriptWasm

set_option autoImplicit false

def entryExport : String :=
  "exported_func"

def Ty.checkWord : Ty → Except CodeError Unit
  | .object className => .error (.noWord (.object className))
  | _ => .ok ()

/-- The instruction of an operator. Whether a value is `None` is known from its type alone, so `is`
has no instruction. -/
def BinaryOp.wordOp? : BinaryOp → Option WordOp
  | .add => some .add
  | .sub => some .sub
  | .mul => some .mul
  | .floorDivide => some .divS
  | .modulo => some .remS
  | .equal => some .eq
  | .notEqual => some .ne
  | .lessEqual => some .leS
  | .greaterEqual => some .geS
  | .less => some .ltS
  | .greater => some .gtS
  | .is => none

namespace Expr

def requireTy (expr : Expr) : Except CodeError Ty :=
  match expr.ty? with
  | some ty => .ok ty
  | none => .error (.missingType expr.span)

/-- The name that a call refers to in the code: the primitive of a builtin, or a function of the
program. -/
def callTarget (functions : FuncTable) (func : String) (args : List Expr) :
    Except CodeError String :=
  match Builtin.ofName? func with
  | some builtin => do
      let ty ← match args with
        | [] => pure Ty.none
        | first :: _ => first.requireTy
      match HostImport.ofBuiltin? builtin ty with
      | some primitive => return primitive.name
      | none => throw (.noWord ty)
  | none =>
      if functions.contains func then .ok func else .error (.unknownFunction func)

mutual

def emit (functions : FuncTable) (draft : Draft) : Expr → Except CodeError Draft
  | lit _ value => return draft.emit (.const value.word)
  | name _ word => draft.emitLoad word
  | call _ func args => do
      let draft ← emitAll functions draft args
      return draft.emit (.call (← callTarget functions func args))
  | binary _ op left right =>
      match op.wordOp? with
      | some wordOp => do
          let draft ← left.emit functions draft
          let draft ← right.emit functions draft
          return draft.emit (.binary wordOp)
      | none => do
          let ty ← left.requireTy
          let draft ← left.emit functions draft
          return (draft.emit .drop).emit (.const (Word.ofBool (ty = .none)))
  | unary _ .neg operand => do
      let draft ← operand.emit functions (draft.emit (.const 0))
      return draft.emit (.binary .sub)
  | unary _ .not operand => do
      let draft ← operand.emit functions draft
      return (draft.emit (.const 0)).emit (.binary .eq)
  | paren _ inner => inner.emit functions draft
  | attr _ _ _ => .error (.unsupported .fieldLookup)
  | construct _ _ => .error (.unsupported .construction)

def emitAll (functions : FuncTable) (draft : Draft) : List Expr → Except CodeError Draft
  | [] => return draft
  | first :: rest => do
      let draft ← first.emit functions draft
      emitAll functions draft rest

end

end Expr

namespace Stmt

mutual

def emit (functions : FuncTable) (draft : Draft) : Stmt → Except CodeError Draft
  | assign _ target value => do
      let draft ← value.emit functions draft
      draft.emitStore target
  | expr _ value => do
      let draft ← value.emit functions draft
      return draft.emit (if draft.topLevel then .localSet Draft.resultSlot else .drop)
  | pass _ => return draft
  | ret _ value => do
      let draft ← value.emit functions draft
      return draft.emit .ret
  | cond _ test body orelse => do
      let draft ← test.emit functions draft
      let (body, draft) ← (← emitAll functions draft.pushFrame body).popFrame
      let (orelse, draft) ← (← emitAll functions draft.pushFrame orelse).popFrame
      return draft.emit (.cond body orelse)
  | loop _ test body => do
      let draft ← test.emit functions draft.pushFrame
      let draft := ((draft.emit (.const 0)).emit (.binary .eq)).emit (.branchIf 1)
      let draft ← emitAll functions draft body
      let (body, draft) ← (draft.emit (.branch 0)).popFrame
      return draft.emit (.block [.loop body])
  | fieldAssign _ _ _ _ => .error (.unsupported .fieldAssignment)

def emitAll (functions : FuncTable) (draft : Draft) : List Stmt → Except CodeError Draft
  | [] => return draft
  | first :: rest => do
      let draft ← emit functions draft first
      emitAll functions draft rest

end

end Stmt

def Draft.declareLocals (draft : Draft) : List VarDef → Except CodeError Draft
  | [] => return draft
  | var :: rest => do
      var.ty.checkWord
      (draft.declareLocal var.name).declareLocals rest

def Draft.emitInits (draft : Draft) : List VarDef → Except CodeError Draft
  | [] => return draft
  | var :: rest => do
      let draft ← (draft.emit (.const var.init.word)).emitStore var.name
      draft.emitInits rest

/-- The code of a function. A body that is left without a return does not go on from there. -/
def FuncDef.generate (functions : FuncTable) (scopes : Table VarTable) (func : FuncDef) :
    Except CodeError Func := do
  match scopes.get? func.name with
  | none => throw (.unknownFunction func.name)
  | some vars =>
      func.params.forM fun param => param.ty.checkWord
      func.result.checkWord
      let draft ← (Draft.ofFunction vars).declareLocals func.locals
      let draft ← draft.emitInits func.locals
      let draft ← Stmt.emitAll functions draft func.body
      ((draft.emit .unreachable).emit (.const 0)).build (some func.name) none

def generateDefs (functions : FuncTable) (scopes : Table VarTable) :
    List Def → Except CodeError (List Global × List Func)
  | [] => return ([], [])
  | .var var :: rest => do
      var.ty.checkWord
      let (globals, funcs) ← generateDefs functions scopes rest
      return (⟨var.name, var.init.word⟩ :: globals, funcs)
  | .func func :: rest => do
      let code ← func.generate functions scopes
      let (globals, funcs) ← generateDefs functions scopes rest
      return (globals, code :: funcs)

def generateEntry (functions : FuncTable) (globals : VarTable) (stmts : List Stmt) :
    Except CodeError Func := do
  let draft := ((Draft.ofEntry globals).emit (.const 0)).emit (.localSet Draft.resultSlot)
  let draft ← Stmt.emitAll functions draft stmts
  (draft.emit (.localGet Draft.resultSlot)).build none (some entryExport)

def Analysis.generate (analysis : Analysis) : Except CodeError Module := do
  let (globals, functions) ←
    generateDefs analysis.functions analysis.scopes analysis.program.defs
  let entry ← generateEntry analysis.functions analysis.globals analysis.program.stmts
  return ⟨globals, functions, entry⟩

end ScriptWasm
