import ScriptWasm.Table
import ScriptWasm.Typing.Error

/-!
What the names of a program stand for: variables with their types and places, and functions with
their signatures.
-/

namespace ScriptWasm

set_option autoImplicit false

/-- Where a variable lives at run time. Parameters are numbered in the order of their
declaration. -/
inductive Storage where
  | global
  | local
  | param (index : Nat)
deriving DecidableEq, Repr

structure Binding where
  ty : Ty
  storage : Storage
deriving DecidableEq, Repr

structure Signature where
  params : List Ty
  result : Ty
deriving DecidableEq, Repr

abbrev VarTable := Table Binding

abbrev FuncTable := Table Signature

/-- Enters a name. A name that is in the table already is a duplicate and never a shadow. -/
def Table.declare {Value : Type} (table : Table Value) (name : String) (value : Value)
    (span : Span) : Except TypeError (Table Value) :=
  match table.insertNew? name value with
  | some larger => .ok larger
  | none => .error ⟨.duplicate name, span⟩

namespace Binding

def paramIndex? (binding : Binding) : Option Nat :=
  match binding.storage with
  | .param index => some index
  | _ => none

end Binding

def VarTable.paramNames (vars : VarTable) : List String :=
  let indexed := vars.entries.filterMap fun (name, binding) =>
    binding.paramIndex?.map fun index => (index, name)
  (indexed.mergeSort fun first second => first.1 ≤ second.1).map Prod.snd

/-- Everything that the statements of one body may refer to. -/
structure Scope where
  functions : FuncTable
  vars : VarTable
  /-- The declared result of the function around the body. The top level has none, and what is
  returned there is free. -/
  result : Option Ty

end ScriptWasm
