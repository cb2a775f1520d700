import ScriptWasm.Word

/-!
Modules of structured stack code. Every value is a word, names stand for variables and functions,
and conditions, blocks and loops own their bodies. Every function returns one word.
-/

namespace ScriptWasm

set_option autoImplicit false

inductive Instr where
  | const (value : Word)
  | localGet (name : String)
  | localSet (name : String)
  | globalGet (name : String)
  | globalSet (name : String)
  | call (name : String)
  | binary (op : WordOp)
  | drop
  | ret
  | unreachable
  /-- Takes a word, and runs the first body if it is not zero and the second if it is. -/
  | cond (body orelse : List Instr)
  | block (body : List Instr)
  | loop (body : List Instr)
  /-- Leaves the enclosing bodies up to the given one, or starts that one again if it is a loop. -/
  | branch (depth : Nat)
  /-- Takes a word, and branches if it is not zero. -/
  | branchIf (depth : Nat)

structure Global where
  name : String
  init : Word
deriving DecidableEq, Repr

structure Func where
  id : Option String
  exportName : Option String
  params : List String
  locals : List String
  body : List Instr

structure Module where
  globals : List Global
  functions : List Func
  entry : Func

namespace Module

/-- All functions in the order of their indices, the entry last. -/
def allFunctions (module : Module) : List Func :=
  module.functions ++ [module.entry]

def function? (module : Module) (name : String) : Option Func :=
  module.functions.find? fun func => func.id = some name

/-- The function exported under the given name. The entry is looked at first. -/
def export? (module : Module) (name : String) : Option Func :=
  (module.entry :: module.functions).find? fun func => func.exportName = some name

end Module

end ScriptWasm
