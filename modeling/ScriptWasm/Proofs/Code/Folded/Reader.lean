import ScriptWasm.Code.Text
import ScriptWasm.Proofs.Code.Folded.Phrases

/-!
A reader of module text. It does not look at lines or at the depth of folding: an instruction is a
group that starts with its mnemonic, a structured one holds its bodies, and a function and a module
hold their parts in a fixed order.
-/

namespace ScriptWasm

set_option autoImplicit false

namespace Folded

def nameOf? (text : String) : Option String :=
  match text.toList with
  | '$' :: name => some (String.ofList name)
  | _ => none

def naturalOf? (digits : List Char) : Option Nat :=
  if digits ≠ [] ∧ digits.all isDigit then some (readDecimal digits) else none

def integerOf? : List Char → Option Int
  | '-' :: digits => (naturalOf? digits).map fun magnitude : Nat => -(magnitude : Int)
  | digits => (naturalOf? digits).map Int.ofNat

def wordOf? (text : String) : Option Word :=
  (integerOf? text.toList).map Int32.ofInt

section Parts

variable {Value : Type} (value? : Phrase → Option Value)

def leading : List Phrase → List Value × List Phrase
  | [] => ([], [])
  | first :: rest =>
      match value? first with
      | some value => (value :: (leading rest).1, (leading rest).2)
      | none => ([], first :: rest)

def leadingOption : List Phrase → Option Value × List Phrase
  | [] => (none, [])
  | first :: rest =>
      match value? first with
      | some value => (some value, rest)
      | none => (none, first :: rest)

end Parts

end Folded

namespace Phrase

open Folded

def name? : Phrase → Option String
  | word text => nameOf? text
  | _ => none

def export? : Phrase → Option String
  | group [word "export", quoted name] => some name
  | _ => none

def variableName? (keyword : String) : Phrase → Option String
  | group [word head, word name, word "i32"] => if head = keyword then nameOf? name else none
  | _ => none

def global? : Phrase → Option Global
  | group [word "global", word name, group [word "mut", word "i32"],
      group [word "i32.const", word init]] => do
      return ⟨← nameOf? name, ← wordOf? init⟩
  | _ => none

def import? : Phrase → Option HostImport
  | group [word "func", word name, group [word "import", quoted moduleName, quoted field],
      group (word "param" :: params), group [word "result", word "i32"]] => do
      let primitive ← HostImport.ofName? field
      if nameOf? name = some field ∧ moduleName = HostImport.moduleName ∧
          params.length = primitive.arity then return primitive
      else none
  | _ => none

end Phrase

open Folded

def Instr.ofMnemonic? (mnemonic : String) (operands : List Phrase) : Option Instr :=
  match mnemonic, operands with
  | "i32.const", [.word value] => (wordOf? value).map const
  | "local.get", [.word name] => (nameOf? name).map localGet
  | "local.set", [.word name] => (nameOf? name).map localSet
  | "global.get", [.word name] => (nameOf? name).map globalGet
  | "global.set", [.word name] => (nameOf? name).map globalSet
  | "call", [.word name] => (nameOf? name).map call
  | "br", [.word depth] => (naturalOf? depth.toList).map branch
  | "br_if", [.word depth] => (naturalOf? depth.toList).map branchIf
  | "drop", [] => some drop
  | "return", [] => some ret
  | "unreachable", [] => some unreachable
  | _, [] => (WordOp.all.find? fun op => op.mnemonic = mnemonic).map binary
  | _, _ => none

mutual

def Instr.ofPhrase? : Phrase → Option Instr
  | .group [.word "if", .group (.word "then" :: body), .group (.word "else" :: orelse)] => do
      return cond (← allOfPhrases? body) (← allOfPhrases? orelse)
  | .group (.word "block" :: body) => do return block (← allOfPhrases? body)
  | .group (.word "loop" :: body) => do return loop (← allOfPhrases? body)
  | .group (.word mnemonic :: operands) => ofMnemonic? mnemonic operands
  | _ => none

def Instr.allOfPhrases? : List Phrase → Option (List Instr)
  | [] => some []
  | first :: rest => do return (← ofPhrase? first) :: (← allOfPhrases? rest)

end

def Func.ofPhrase? : Phrase → Option Func
  | .group (.word "func" :: parts) =>
      let (id, parts) := leadingOption Phrase.name? parts
      let (exportName, parts) := leadingOption Phrase.export? parts
      let (params, parts) := leading (Phrase.variableName? "param") parts
      match parts with
      | .group [.word "result", .word "i32"] :: parts => do
          let (locals, parts) := leading (Phrase.variableName? "local") parts
          return ⟨id, exportName, params, locals, ← Instr.allOfPhrases? parts⟩
      | _ => none
  | _ => none

/-- A module imports all primitives in their order, and its last function is its entry. -/
def Module.ofPhrase? : Phrase → Option Module
  | .group (.word "module" :: parts) => do
      let (imports, parts) := leading Phrase.import? parts
      let (globals, parts) := leading Phrase.global? parts
      let functions ← parts.mapM Func.ofPhrase?
      if imports = HostImport.all then
        return ⟨globals, functions.dropLast, ← functions.getLast?⟩
      else none
  | _ => none

/-- The module that a text stands for. Nothing may stand before it or after it. -/
def Module.ofText? (text : String) : Option Module :=
  match phrases text.toList with
  | some [phrase] => Module.ofPhrase? phrase
  | _ => none

end ScriptWasm
