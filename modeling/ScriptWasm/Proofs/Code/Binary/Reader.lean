import ScriptWasm.Proofs.Code.Indexed
import Mathlib.Algebra.GroupWithZero.Nat

/-!
A reader of the binary format, for modules whose only type is that of words. It follows the grammar
of the format: numbers of variable length, sequences with their length, sections with their size,
and instructions up to a mark. The width of indices and sizes is a parameter.
-/

namespace ScriptWasm

set_option autoImplicit false

structure BinaryImport where
  moduleName : String
  name : String
  params : Nat
  results : Nat

structure BinaryGlobal where
  mutable : Bool
  init : Word

structure BinaryFunc where
  params : Nat
  results : Nat
  locals : Nat
  body : List Indexed

structure BinaryModule where
  imports : List BinaryImport
  globals : List BinaryGlobal
  functions : List BinaryFunc
  /-- The exported functions by name. Imports come first in the count of functions. -/
  exports : List (String × Nat)

namespace Binary

abbrev Reader (Value : Type) : Type :=
  StateT (List Byte) Option Value

namespace Reader

def byte : Reader Byte := fun
  | [] => none
  | first :: rest => some (first, rest)

def marks : List Byte → Reader Unit
  | [] => return
  | expected :: rest => do
      if (← byte) = expected then marks rest else failure

def unsigned : Nat → Reader Nat
  | _, [] => none
  | bits, first :: rest =>
      if first.toNat < 128 then
        if first.toNat < 2 ^ bits then some (first.toNat, rest) else none
      else if 7 < bits then
        (unsigned (bits - 7) rest).map fun (high, after) =>
          (128 * high + (first.toNat - 128), after)
      else none

def signed : Nat → Reader Int
  | _, [] => none
  | bits, first :: rest =>
      if first.toNat < 64 then
        if first.toNat < 2 ^ (bits - 1) then some (first.toNat, rest) else none
      else if first.toNat < 128 then
        if 128 ≤ first.toNat + 2 ^ (bits - 1) then some ((first.toNat : Int) - 128, rest) else none
      else if 7 < bits then
        (signed (bits - 7) rest).map fun (high, after) =>
          (128 * high + ((first.toNat : Int) - 128), after)
      else none

def many {Value : Type} (item : Reader Value) : Nat → Reader (List Value)
  | 0 => return []
  | count + 1 => do
      let first ← item
      return first :: (← many item count)

section Sized

variable (bits : Nat)

def counted {Value : Type} (item : Reader Value) : Reader (List Value) := do
  many item (← unsigned bits)

def sized {Value : Type} (inner : Reader Value) : Reader Value := do
  let size ← unsigned bits
  let bytes ← get
  if size ≤ bytes.length then
    match inner.run (bytes.take size) with
    | some (value, []) => do
        set (bytes.drop size)
        return value
    | _ => failure
  else failure

def name : Reader String := do
  let bytes ← counted bits byte
  match String.fromUTF8? ⟨bytes.toArray⟩ with
  | some text => return text
  | none => failure

/-- The items of a section. A section that is not there has none. -/
def sectionOf {Value : Type} (id : Byte) (item : Reader Value) : Reader (List Value) := do
  if (← get).head? = some id then
    let _ ← byte
    sized bits (counted bits item)
  else return []

def functionType : Reader (Nat × Nat) := do
  marks [0x60]
  let params ← counted bits (marks [0x7f])
  let results ← counted bits (marks [0x7f])
  return (params.length, results.length)

def importEntry : Reader (String × String × Nat) := do
  let moduleName ← name bits
  let field ← name bits
  marks [0x00]
  return (moduleName, field, ← unsigned bits)

def exportEntry : Reader (String × Nat) := do
  let field ← name bits
  marks [0x00]
  return (field, ← unsigned bits)

def word : Reader Word := do
  return Int32.ofInt (← signed 32)

def global : Reader BinaryGlobal := do
  marks [0x7f]
  let flag ← byte
  marks [0x41]
  let init ← word
  marks [0x0b]
  if flag = 0x00 then return ⟨false, init⟩
  else if flag = 0x01 then return ⟨true, init⟩
  else failure

end Sized

def wordOp? (code : Byte) : Option WordOp :=
  match code.toNat with
  | 0x46 => some .eq
  | 0x47 => some .ne
  | 0x48 => some .ltS
  | 0x4a => some .gtS
  | 0x4c => some .leS
  | 0x4e => some .geS
  | 0x6a => some .add
  | 0x6b => some .sub
  | 0x6c => some .mul
  | 0x6d => some .divS
  | 0x6f => some .remS
  | _ => none

/-- Instructions up to the end mark, where `inner` reads up to any mark. -/
def closed (inner : Reader (List Indexed × Byte)) : Reader (List Indexed) := do
  let (instrs, mark) ← inner
  if mark = 0x0b then return instrs else failure

def instr (bits : Nat) (inner : Reader (List Indexed × Byte)) (code : Byte) : Reader Indexed :=
  match code.toNat with
  | 0x00 => return .unreachable
  | 0x02 => do
      marks [0x40]
      return .block (← closed inner)
  | 0x03 => do
      marks [0x40]
      return .loop (← closed inner)
  | 0x04 => do
      marks [0x40]
      let (body, mark) ← inner
      if mark = 0x05 then return .cond body (← closed inner) else return .cond body []
  | 0x0c => return .branch (← unsigned bits)
  | 0x0d => return .branchIf (← unsigned bits)
  | 0x0f => return .ret
  | 0x10 => return .call (← unsigned bits)
  | 0x1a => return .drop
  | 0x20 => return .localGet (← unsigned bits)
  | 0x21 => return .localSet (← unsigned bits)
  | 0x23 => return .globalGet (← unsigned bits)
  | 0x24 => return .globalSet (← unsigned bits)
  | 0x41 => return .const (← word)
  | _ =>
      match wordOp? code with
      | some op => return .binary op
      | none => failure

/-- Instructions up to a mark, and the mark: the end of a body, or the start of the other one. There
are at most `fuel` marks and instructions, which every run of bytes with fewer bytes keeps to. -/
def instrs (bits : Nat) : Nat → Reader (List Indexed × Byte)
  | 0 => failure
  | fuel + 1 => do
      let code ← byte
      if code = 0x0b ∨ code = 0x05 then return ([], code)
      else
        let first ← instr bits (instrs bits fuel) code
        let (rest, mark) ← instrs bits fuel
        return (first :: rest, mark)

def code (bits : Nat) : Reader (List Indexed) := do
  closed (instrs bits ((← get).length + 1))

def localRun (bits : Nat) : Reader Nat := do
  let count ← unsigned bits
  marks [0x7f]
  return count

def body (bits : Nat) : Reader (Nat × List Indexed) :=
  sized bits do
    let runs ← counted bits (localRun bits)
    return (runs.sum, ← code bits)

/-- The parts of a module put together: types are looked up, and each function has one body. -/
def assembled (types : List (Nat × Nat)) (imports : List (String × String × Nat))
    (typeIndices : List Nat) (globals : List BinaryGlobal) (exports : List (String × Nat))
    (bodies : List (Nat × List Indexed)) : Option BinaryModule := do
  let imports ← imports.mapM fun (moduleName, field, index) =>
    types[index]?.map fun (params, results) => BinaryImport.mk moduleName field params results
  let functions ← (typeIndices.zip bodies).mapM fun (index, locals, body) =>
    types[index]?.map fun (params, results) => BinaryFunc.mk params results locals body
  if typeIndices.length = bodies.length then return ⟨imports, globals, functions, exports⟩ else none

def module (bits : Nat) : Reader BinaryModule := do
  marks [0x00, 0x61, 0x73, 0x6d, 0x01, 0x00, 0x00, 0x00]
  let types ← sectionOf bits 1 (functionType bits)
  let imports ← sectionOf bits 2 (importEntry bits)
  let typeIndices ← sectionOf bits 3 (unsigned bits)
  let globals ← sectionOf bits 6 global
  let exports ← sectionOf bits 7 (exportEntry bits)
  let bodies ← sectionOf bits 10 (body bits)
  match assembled types imports typeIndices globals exports bodies with
  | some found => return found
  | none => failure

end Reader

/-- The module that bytes stand for, where indices and sizes have at most so many bits. No byte is
left over. -/
def read (bits : Nat) (bytes : List Byte) : Option BinaryModule :=
  match (Reader.module bits).run bytes with
  | some (found, []) => some found
  | _ => none

end Binary

end ScriptWasm
