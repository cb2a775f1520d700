import ScriptWasm.Typing.Check

/-!
The analysis of a whole program. First every definition is entered in the tables, so that functions
may call each other in any order; then the bodies are checked. Variables and functions share one
space of names with the builtins and the primitives of the host.
-/

namespace ScriptWasm

set_option autoImplicit false

/-- What a well-typed program means: its tables, the variables each function sees, and the program
with its types. -/
structure Analysis where
  functions : FuncTable
  globals : VarTable
  scopes : Table VarTable
  program : Program

def isReserved (name : String) : Bool :=
  (Builtin.ofName? name).isSome || (HostImport.ofName? name).isSome

def VarDef.checkInit (var : VarDef) : Except TypeError Unit :=
  (Expr.lit ⟨var.initSpan, none⟩ var.init).expectTy var.ty var.init.ty

def FuncDef.signature (func : FuncDef) : Signature :=
  ⟨func.params.map Param.ty, func.result⟩

def collectDefs (functions : FuncTable) (globals : VarTable) :
    List Def → Except TypeError (FuncTable × VarTable)
  | [] => return (functions, globals)
  | first :: rest =>
      if isReserved first.name || functions.contains first.name || globals.contains first.name then
        .error ⟨.duplicate first.name, first.span⟩
      else
        match first with
        | .var var => do
            var.checkInit
            let globals ← globals.declare var.name ⟨var.ty, .global⟩ var.span
            collectDefs functions globals rest
        | .func func => do
            let functions ← functions.declare func.name func.signature func.span
            collectDefs functions globals rest

def declareParams (vars : VarTable) (index : Nat) : List Param → Except TypeError VarTable
  | [] => return vars
  | param :: rest => do
      let vars ← vars.declare param.name ⟨param.ty, .param index⟩ param.span
      declareParams vars (index + 1) rest

def declareLocals (vars : VarTable) : List VarDef → Except TypeError VarTable
  | [] => return vars
  | var :: rest => do
      var.checkInit
      let vars ← vars.declare var.name ⟨var.ty, .local⟩ var.span
      declareLocals vars rest

namespace FuncDef

/-- The variables that a function sees: its own parameters and locals, and the globals that none of
them hides. -/
def vars (func : FuncDef) (globals : VarTable) : Except TypeError VarTable := do
  let own ← declareParams .empty 0 func.params
  let own ← declareLocals own func.locals
  return globals.overlay own

/-- Checks the body of a function. The type that the body ends with has to be the declared one. -/
def check (func : FuncDef) (functions : FuncTable) (vars : VarTable) :
    Except TypeError FuncDef := do
  let scope : Scope := ⟨functions, vars, some func.result⟩
  let body ← Stmt.checkAll scope func.body
  let actual ← Stmt.blockTy scope func.body
  if actual = func.result then return { func with body }
  else .error ⟨.wrongResult func.name func.result actual, func.span⟩

end FuncDef

def checkDefs (functions : FuncTable) (globals : VarTable) (scopes : Table VarTable) :
    List Def → Except TypeError (List Def × Table VarTable)
  | [] => return ([], scopes)
  | .var var :: rest => do
      let (defs, scopes) ← checkDefs functions globals scopes rest
      return (.var var :: defs, scopes)
  | .func func :: rest => do
      let vars ← func.vars globals
      let typed ← func.check functions vars
      let (defs, scopes) ← checkDefs functions globals (scopes.insert func.name vars) rest
      return (.func typed :: defs, scopes)

def Program.analyze (program : Program) : Except TypeError Analysis := do
  let (functions, globals) ← collectDefs .empty .empty program.defs
  let (defs, scopes) ← checkDefs functions globals .empty program.defs
  let stmts ← Stmt.checkAll ⟨functions, globals, none⟩ program.stmts
  return ⟨functions, globals, scopes, { program with defs, stmts }⟩

end ScriptWasm
