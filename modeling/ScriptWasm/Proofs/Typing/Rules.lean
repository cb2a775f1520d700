import ScriptWasm.Proofs.Typing.Tables

/-!
The rules that say when a program is well typed. They speak about the definitions of the program
itself and not about tables of them, and they do not look at annotations. `inside` is the function
that an expression or a statement stands in, and there is none at the top level.
-/

namespace ScriptWasm

set_option autoImplicit false

/-- A variable that can be named somewhere, with its type. The parameters and locals of a function
hide the globals of the same names. -/
inductive Program.Sees (program : Program) : Option FuncDef → String → Ty → Prop where
  | param (func : FuncDef) (param : Param) (member : param ∈ func.params) :
      program.Sees (some func) param.name param.ty
  | «local» (func : FuncDef) (var : VarDef) (member : var ∈ func.locals) :
      program.Sees (some func) var.name var.ty
  | global (inside : Option FuncDef) (var : VarDef) (member : var ∈ program.vars)
      (visible : ∀ func, inside = some func → var.name ∉ func.ownNames) :
      program.Sees inside var.name var.ty

section Rules

variable (program : Program) (inside : Option FuncDef)

mutual

/-- The type of an expression. Nothing is said of attributes and constructions, which have none. -/
inductive Expr.HasTy : Expr → Ty → Prop where
  | lit (note : Note) (value : Literal) : Expr.HasTy (.lit note value) value.ty
  | name (note : Note) (word : String) (ty : Ty) (seen : program.Sees inside word ty) :
      Expr.HasTy (.name note word) ty
  | arithmetic (note : Note) (op : BinaryOp) (left right : Expr)
      (kind : op ∈ [.add, .sub, .mul, .floorDivide, .modulo]) (first : Expr.HasTy left .int)
      (second : Expr.HasTy right .int) : Expr.HasTy (.binary note op left right) .int
  | comparison (note : Note) (op : BinaryOp) (left right : Expr) (ty : Ty)
      (kind : op ∈ [.equal, .notEqual, .lessEqual, .greaterEqual, .less, .greater])
      (first : Expr.HasTy left ty) (second : Expr.HasTy right ty) :
      Expr.HasTy (.binary note op left right) .bool
  | isNone (note noneNote : Note) (left : Expr) (ty : Ty) (operand : Expr.HasTy left ty) :
      Expr.HasTy (.binary note .is left (.lit noneNote .none)) .bool
  | negation (note : Note) (operand : Expr) (number : Expr.HasTy operand .int) :
      Expr.HasTy (.unary note .neg operand) .int
  | complement (note : Note) (operand : Expr) (truth : Expr.HasTy operand .bool) :
      Expr.HasTy (.unary note .not operand) .bool
  | paren (note : Note) (inner : Expr) (ty : Ty) (typed : Expr.HasTy inner ty) :
      Expr.HasTy (.paren note inner) ty
  | print (note : Note) (arg : Expr) (ty : Ty) (typed : Expr.HasTy arg ty) :
      Expr.HasTy (.call note Builtin.print.name [arg]) .none
  | abs (note : Note) (arg : Expr) (number : Expr.HasTy arg .int) :
      Expr.HasTy (.call note Builtin.abs.name [arg]) .int
  | ofTwo (note : Note) (builtin : Builtin) (first second : Expr)
      (kind : builtin ∈ [.max, .min, .pow]) (one : Expr.HasTy first .int)
      (two : Expr.HasTy second .int) : Expr.HasTy (.call note builtin.name [first, second]) .int
  | call (note : Note) (func : FuncDef) (args : List Expr) (member : func ∈ program.funcs)
      (fit : Expr.HaveTys args (func.params.map Param.ty)) :
      Expr.HasTy (.call note func.name args) func.result

inductive Expr.HaveTys : List Expr → List Ty → Prop where
  | nil : Expr.HaveTys [] []
  | cons (arg : Expr) (args : List Expr) (ty : Ty) (tys : List Ty) (head : Expr.HasTy arg ty)
      (tail : Expr.HaveTys args tys) : Expr.HaveTys (arg :: args) (ty :: tys)

end

mutual

/-- A statement that is well typed. Assignments to fields never are. -/
inductive Stmt.Fits : Stmt → Prop where
  | assign (span : Span) (target : String) (value : Expr) (ty : Ty)
      (seen : program.Sees inside target ty) (typed : value.HasTy program inside ty) :
      Stmt.Fits (.assign span target value)
  | expr (span : Span) (value : Expr) (ty : Ty) (typed : value.HasTy program inside ty) :
      Stmt.Fits (.expr span value)
  | pass (span : Span) : Stmt.Fits (.pass span)
  | ret (span : Span) (value : Expr) (ty : Ty) (typed : value.HasTy program inside ty)
      (declared : ∀ func, inside = some func → ty = func.result) : Stmt.Fits (.ret span value)
  | cond (span : Span) (test : Expr) (body orelse : List Stmt)
      (truth : test.HasTy program inside .bool) (first : Stmt.AllFit body)
      (second : Stmt.AllFit orelse) : Stmt.Fits (.cond span test body orelse)
  | loop (span : Span) (test : Expr) (body : List Stmt)
      (truth : test.HasTy program inside .bool) (again : Stmt.AllFit body) :
      Stmt.Fits (.loop span test body)

inductive Stmt.AllFit : List Stmt → Prop where
  | nil : Stmt.AllFit []
  | cons (first : Stmt) (rest : List Stmt) (head : Stmt.Fits first) (tail : Stmt.AllFit rest) :
      Stmt.AllFit (first :: rest)

end

mutual

/-- The type that a final statement gives: the type of what it returns, the common type of both arms
of a condition, the type of the body of a loop, and `None` for every other statement. -/
inductive Stmt.Gives : Stmt → Ty → Prop where
  | ret (span : Span) (value : Expr) (ty : Ty) (typed : value.HasTy program inside ty) :
      Stmt.Gives (.ret span value) ty
  | cond (span : Span) (test : Expr) (body orelse : List Stmt) (ty : Ty)
      (first : Stmt.EndsWith body ty) (second : Stmt.EndsWith orelse ty) :
      Stmt.Gives (.cond span test body orelse) ty
  | loop (span : Span) (test : Expr) (body : List Stmt) (ty : Ty)
      (again : Stmt.EndsWith body ty) : Stmt.Gives (.loop span test body) ty
  | assign (span : Span) (target : String) (value : Expr) :
      Stmt.Gives (.assign span target value) .none
  | expr (span : Span) (value : Expr) : Stmt.Gives (.expr span value) .none
  | pass (span : Span) : Stmt.Gives (.pass span) .none
  | fieldAssign (span : Span) (object : Expr) (field : String) (value : Expr) :
      Stmt.Gives (.fieldAssign span object field value) .none

/-- The tail type of a block, which is that of its final statement. -/
inductive Stmt.EndsWith : List Stmt → Ty → Prop where
  | empty : Stmt.EndsWith [] .none
  | last (final : Stmt) (ty : Ty) (gives : Stmt.Gives final ty) : Stmt.EndsWith [final] ty
  | earlier (first second : Stmt) (rest : List Stmt) (ty : Ty)
      (tail : Stmt.EndsWith (second :: rest) ty) : Stmt.EndsWith (first :: second :: rest) ty

end

end Rules

structure FuncDef.WellTyped (program : Program) (func : FuncDef) : Prop where
  distinct : func.ownNames.Nodup
  inits : ∀ var ∈ func.locals, var.init.ty = var.ty
  body : Stmt.AllFit program (some func) func.body
  tail : Stmt.EndsWith program (some func) func.body func.result

structure Program.WellTyped (program : Program) : Prop where
  distinct : (program.defs.map Def.name).Nodup
  notBuiltin : ∀ definition ∈ program.defs, ∀ builtin : Builtin, builtin.name ≠ definition.name
  notPrimitive : ∀ definition ∈ program.defs, ∀ primitive : HostImport,
    primitive.name ≠ definition.name
  inits : ∀ var ∈ program.vars, var.init.ty = var.ty
  funcs : ∀ func ∈ program.funcs, func.WellTyped program
  stmts : Stmt.AllFit program none program.stmts

end ScriptWasm
