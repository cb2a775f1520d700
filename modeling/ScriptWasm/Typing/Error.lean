import ScriptWasm.Program.Printer

/-!
Why a program is refused by the type rules, and where. The first violation found ends the check.
-/

namespace ScriptWasm

set_option autoImplicit false

inductive TypeFault where
  | duplicate (name : String)
  | undefined (name : String)
  | wrongArity (func : String) (expected got : Nat)
  | mismatch (shown : String) (expected got : Ty)
  | isWithoutNone
  | classExpression (shown : String)
  | wrongAssignment (target : String) (declared got : Ty)
  | fieldAssignment
  | wrongResult (func : String) (declared actual : Ty)
  | branchesDiffer (first second : Ty)
deriving DecidableEq, Repr

namespace TypeFault

def detail : TypeFault → String
  | duplicate name => "duplicate declaration of \x27" ++ name ++ "\x27"
  | undefined name => "name \x27" ++ name ++ "\x27 is not defined"
  | wrongArity func expected got =>
      func ++ " expects " ++ decimal expected ++ " arguments but got " ++ decimal got
  | mismatch shown expected got =>
      "expression: " ++ shown ++ ", expecting " ++ expected.render ++ ", got " ++ got.render
  | isWithoutNone => "right operand of \x27is\x27 can only be None"
  | classExpression shown => "expression: " ++ shown ++ ", classes are not supported"
  | wrongAssignment target declared got =>
      "variable: " ++ target ++ " with type " ++ declared.render ++
        " cannot be assigned value of type " ++ got.render
  | fieldAssignment => "field assignment is not supported"
  | wrongResult func declared actual =>
      "function \x27" ++ func ++ "\x27 is declared to return " ++ declared.render ++
        ", but the actual return type is " ++ actual.render
  | branchesDiffer first second =>
      "two branches have different return types, one is " ++ first.render ++ ", one is " ++
        second.render

def title : TypeFault → String
  | duplicate _ => "duplicate definition"
  | undefined _ => "undefined name"
  | wrongArity _ _ _ => "arity error"
  | _ => "type error"

end TypeFault

structure TypeError where
  fault : TypeFault
  span : Span
deriving DecidableEq, Repr

def TypeError.message (error : TypeError) : String :=
  error.fault.title ++ " at " ++ error.span.render ++ ": " ++ error.fault.detail

end ScriptWasm
