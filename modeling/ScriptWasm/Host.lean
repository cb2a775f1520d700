import ScriptWasm.Program.Basic

/-!
The host gives a running module seven primitives under fixed names. Three of them print a word, each
in the way of one type.
-/

namespace ScriptWasm

set_option autoImplicit false

inductive HostImport where
  | print | printBool | printNone | abs | max | min | pow
deriving DecidableEq, Repr

namespace HostImport

def moduleName : String :=
  "imports"

def all : List HostImport :=
  [print, printBool, printNone, abs, max, min, pow]

def name : HostImport → String
  | print => "print"
  | printBool => "print_bool"
  | printNone => "print_none"
  | abs => "abs"
  | max => "max"
  | min => "min"
  | pow => "pow"

def arity : HostImport → Nat
  | max | min | pow => 2
  | _ => 1

def ofName? (text : String) : Option HostImport :=
  all.find? fun primitive => primitive.name = text

/-- The position among the imports, which is also the index as a function. -/
def index : HostImport → Nat
  | print => 0
  | printBool => 1
  | printNone => 2
  | abs => 3
  | max => 4
  | min => 5
  | pow => 6

def prints : HostImport → Bool
  | print | printBool | printNone => true
  | _ => false

/-- The primitive that a call of a builtin becomes. Which one prints is chosen by the type of the
first argument, and nothing prints an object. -/
def ofBuiltin? : Builtin → Ty → Option HostImport
  | .print, .int => some print
  | .print, .bool => some printBool
  | .print, .none => some printNone
  | .print, .object _ => none
  | .abs, _ => some abs
  | .max, _ => some max
  | .min, _ => some min
  | .pow, _ => some pow

end HostImport

end ScriptWasm
