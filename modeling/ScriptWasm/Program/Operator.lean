/-!
The operators of expressions and the built-in functions, with the way they are written.
-/

namespace ScriptWasm

set_option autoImplicit false

inductive BinaryOp where
  | add | sub | mul | floorDivide | modulo
  | equal | notEqual | lessEqual | greaterEqual | less | greater
  | is
deriving DecidableEq, Repr

namespace BinaryOp

def all : List BinaryOp :=
  [add, sub, mul, floorDivide, modulo, equal, notEqual, lessEqual, greaterEqual, less, greater, is]

def symbol : BinaryOp → String
  | add => "+"
  | sub => "-"
  | mul => "*"
  | floorDivide => "//"
  | modulo => "%"
  | equal => "=="
  | notEqual => "!="
  | lessEqual => "<="
  | greaterEqual => ">="
  | less => "<"
  | greater => ">"
  | is => "is"

def ofSymbol? (text : String) : Option BinaryOp :=
  all.find? fun op => op.symbol = text

def isArithmetic : BinaryOp → Bool
  | add | sub | mul | floorDivide | modulo => true
  | _ => false

end BinaryOp

inductive UnaryOp where
  | neg | not
deriving DecidableEq, Repr

namespace UnaryOp

def all : List UnaryOp :=
  [neg, not]

def symbol : UnaryOp → String
  | neg => "-"
  | not => "not"

def ofSymbol? (text : String) : Option UnaryOp :=
  all.find? fun op => op.symbol = text

end UnaryOp

inductive Builtin where
  | print | abs | max | min | pow
deriving DecidableEq, Repr

namespace Builtin

def all : List Builtin :=
  [print, abs, max, min, pow]

def name : Builtin → String
  | print => "print"
  | abs => "abs"
  | max => "max"
  | min => "min"
  | pow => "pow"

def ofName? (text : String) : Option Builtin :=
  all.find? fun builtin => builtin.name = text

def arity : Builtin → Nat
  | print | abs => 1
  | max | min | pow => 2

end Builtin

end ScriptWasm
