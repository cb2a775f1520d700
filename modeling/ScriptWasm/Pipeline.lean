import ScriptWasm.Code.Binary.Encode
import ScriptWasm.Code.Generate
import ScriptWasm.Code.Text
import ScriptWasm.Program.OfTree.Statement

/-!
The way from a source to its analysis and to its module, with the first failure on it.
-/

namespace ScriptWasm

set_option autoImplicit false

inductive Failure where
  | source (error : SyntaxError)
  | types (error : TypeError)
  | code (error : CodeError)

def Failure.message : Failure → String
  | source error => "syntax error: " ++ error.message
  | types error => error.message
  | code error => error.message

def readProgram (source : List Char) : Except Failure Program :=
  (Program.ofSource source).mapError .source

def checkSource (source : List Char) : Except Failure Analysis := do
  let program ← readProgram source
  program.analyze.mapError .types

def compileSource (source : List Char) : Except Failure Module := do
  let analysis ← checkSource source
  analysis.generate.mapError .code

end ScriptWasm
