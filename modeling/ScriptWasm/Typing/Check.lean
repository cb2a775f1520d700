import ScriptWasm.Host
import ScriptWasm.Typing.Scope

/-!
The type rules for expressions and statements. Checking gives back the same tree with every
expression annotated by its type; what it was annotated with before does not matter. Operands are
checked from left to right, and an expression before the place it is used in.
-/

namespace ScriptWasm

set_option autoImplicit false

def Expr.expectTy (expr : Expr) (expected got : Ty) : Except TypeError Unit :=
  if expected = got then .ok ()
  else .error ⟨.mismatch expr.render expected got, expr.span⟩

namespace Builtin

/-- What a builtin takes. An argument of any type can be printed. -/
def params (builtin : Builtin) : List (Option Ty) :=
  match builtin with
  | print => [none]
  | _ => List.replicate builtin.arity (some .int)

def result : Builtin → Ty
  | print => .none
  | _ => .int

end Builtin

def Scope.callee? (scope : Scope) (func : String) : Option (List (Option Ty) × Ty) :=
  match Builtin.ofName? func with
  | some builtin => some (builtin.params, builtin.result)
  | none => (scope.functions.get? func).map fun signature =>
      (signature.params.map some, signature.result)

namespace Expr

mutual

def check (scope : Scope) : Expr → Except TypeError (Expr × Ty)
  | lit note value => return (lit ⟨note.span, some value.ty⟩ value, value.ty)
  | name note word =>
      match scope.vars.get? word with
      | some binding => return (name ⟨note.span, some binding.ty⟩ word, binding.ty)
      | none => .error ⟨.undefined word, note.span⟩
  | call note func args =>
      match scope.callee? func with
      | none => .error ⟨.undefined func, note.span⟩
      | some (params, result) =>
          if args.length = params.length then do
            let typed ← checkArgs scope params args
            return (call ⟨note.span, some result⟩ func typed, result)
          else .error ⟨.wrongArity func params.length args.length, note.span⟩
  | binary note op left right => do
      let (left, leftTy) ← left.check scope
      if op = .is then
        if right.isNone then
          let right := lit ⟨right.span, some .none⟩ .none
          return (binary ⟨note.span, some .bool⟩ op left right, .bool)
        else .error ⟨.isWithoutNone, right.span⟩
      else
        let (right, rightTy) ← right.check scope
        if op.isArithmetic then
          left.expectTy .int leftTy
          right.expectTy .int rightTy
          return (binary ⟨note.span, some .int⟩ op left right, .int)
        else
          right.expectTy leftTy rightTy
          return (binary ⟨note.span, some .bool⟩ op left right, .bool)
  | unary note op operand => do
      let (operand, got) ← operand.check scope
      let ty : Ty :=
        match op with
        | .neg => .int
        | .not => .bool
      operand.expectTy ty got
      return (unary ⟨note.span, some ty⟩ op operand, ty)
  | paren note inner => do
      let (inner, ty) ← inner.check scope
      return (paren ⟨note.span, some ty⟩ inner, ty)
  | attr note value member =>
      .error ⟨.classExpression (attr note value member).render, note.span⟩
  | construct note className =>
      .error ⟨.classExpression (construct note className).render, note.span⟩

def checkArgs (scope : Scope) : List (Option Ty) → List Expr → Except TypeError (List Expr)
  | param :: params, arg :: args => do
      let (typed, got) ← arg.check scope
      match param with
      | some expected => typed.expectTy expected got
      | none => pure ()
      return typed :: (← checkArgs scope params args)
  | _, _ => return []

end

def checkTest (scope : Scope) (test : Expr) : Except TypeError Expr := do
  let (typed, got) ← test.check scope
  typed.expectTy .bool got
  return typed

end Expr

namespace Stmt

mutual

def check (scope : Scope) : Stmt → Except TypeError Stmt
  | assign span target value => do
      let (value, got) ← value.check scope
      match scope.vars.get? target with
      | none => .error ⟨.undefined target, span⟩
      | some binding =>
          if binding.ty = got then return assign span target value
          else .error ⟨.wrongAssignment target binding.ty got, span⟩
  | expr span value => return expr span (← value.check scope).1
  | pass span => return pass span
  | fieldAssign span _ _ _ => .error ⟨.fieldAssignment, span⟩
  | ret span value => do
      let (value, got) ← value.check scope
      match scope.result with
      | some declared => value.expectTy declared got
      | none => pure ()
      return ret span value
  | cond span test body orelse => do
      let test ← test.checkTest scope
      let body ← checkAll scope body
      return cond span test body (← checkAll scope orelse)
  | loop span test body => do
      let test ← test.checkTest scope
      return loop span test (← checkAll scope body)

def checkAll (scope : Scope) : List Stmt → Except TypeError (List Stmt)
  | [] => return []
  | first :: rest => do
      let first ← check scope first
      return first :: (← checkAll scope rest)

end

mutual

/-- The type that a block ends with, judged by its last statement: the type of what it returns, the
common type of both arms of a condition, the type of the body of a loop, and `None` otherwise. -/
def tailTy (scope : Scope) : Stmt → Except TypeError Ty
  | ret _ value => return (← value.check scope).2
  | cond span _ body orelse => do
      let first ← blockTy scope body
      let second ← blockTy scope orelse
      if first = second then return first else .error ⟨.branchesDiffer first second, span⟩
  | loop _ _ body => blockTy scope body
  | _ => return .none

def blockTy (scope : Scope) : List Stmt → Except TypeError Ty
  | [] => return .none
  | [last] => tailTy scope last
  | _ :: second :: rest => blockTy scope (second :: rest)

end

end Stmt

end ScriptWasm
