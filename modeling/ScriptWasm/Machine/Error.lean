import ScriptWasm.Word

/-!
Why a module does not load or a run stops without a result.
-/

namespace ScriptWasm

set_option autoImplicit false

inductive RuntimeError where
  | arithmetic (trap : ArithmeticTrap)
  | unreachable
  | unknownExport (name : String)
  | wrongArguments (name : String) (expected got : Nat)
  | stackUnderflow
  | callStackExhausted (limit : Nat)
  | unknownFunction (name : String)
  | unknownVariable (name : String)
  | invalidBranch (depth : Nat)
deriving DecidableEq, Repr

def ArithmeticTrap.message : ArithmeticTrap → String
  | divideByZero => "integer divide by zero"
  | overflow => "integer overflow"

def RuntimeError.message : RuntimeError → String
  | arithmetic trap => trap.message
  | unreachable => "unreachable executed"
  | unknownExport name => "no export named \x27" ++ name ++ "\x27"
  | wrongArguments name expected got =>
      "\x27" ++ name ++ "\x27 expects " ++ decimal expected ++ " arguments but got " ++ decimal got
  | stackUnderflow => "operand stack underflow"
  | callStackExhausted limit => "call stack exhausted (" ++ decimal limit ++ " frames)"
  | unknownFunction name => "call to unknown function \x27" ++ name ++ "\x27"
  | unknownVariable name => "unknown variable \x27" ++ name ++ "\x27"
  | invalidBranch depth => "branch depth " ++ decimal depth ++ " has no enclosing label"

end ScriptWasm
