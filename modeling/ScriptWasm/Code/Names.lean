import ScriptWasm.Code.Instr
import ScriptWasm.Host

/-!
What the names in a module refer to. A name that is declared more than once means its last
declaration, and a function of the module hides a primitive of the same name.
-/

namespace ScriptWasm

set_option autoImplicit false

def lastIndex? {Value : Type} [DecidableEq Value] (value : Value) : List Value → Option Nat
  | [] => none
  | first :: rest =>
      match lastIndex? value rest with
      | some index => some (index + 1)
      | none => if first = value then some 0 else none

/-- The slot of a parameter or local. Parameters take the first slots. -/
def Func.slot? (func : Func) (name : String) : Option Nat :=
  lastIndex? name (func.params ++ func.locals)

inductive Callee where
  | function (index : Nat)
  | primitive (primitive : HostImport)
deriving DecidableEq, Repr

namespace Module

def globalIndex? (module : Module) (name : String) : Option Nat :=
  lastIndex? name (module.globals.map Global.name)

def callee? (module : Module) (name : String) : Option Callee :=
  match lastIndex? (some name) (module.functions.map Func.id) with
  | some index => some (.function index)
  | none => (HostImport.ofName? name).map .primitive

end Module

end ScriptWasm
