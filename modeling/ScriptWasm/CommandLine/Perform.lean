import ScriptWasm.CommandLine.Command
import ScriptWasm.CommandLine.FileFault
import ScriptWasm.Machine.Basic
import ScriptWasm.Pipeline
import ScriptWasm.Program.Printer

/-!
What a command does, given the means to read and write. Everything that can be computed is computed
here; a world only moves bytes. A run prints each line before it goes on for long, so that a program
that never ends still shows what it printed.
-/

namespace ScriptWasm

set_option autoImplicit false

structure World (Action : Type → Type) where
  readInput : Action (Except FileFault ByteArray)
  readFile : String → Action (Except FileFault ByteArray)
  writeFile : String → ByteArray → Action (Except FileFault Unit)
  writeOutput : ByteArray → Action Unit
  writeError : String → Action Unit

inductive CommandError where
  | file (path : String) (fault : FileFault)
  | failure (cause : Failure)
  | runtime (error : RuntimeError)
  | unfinished

def CommandError.message : CommandError → String
  | file path fault => path ++ ": " ++ fault.message
  | failure cause => cause.message
  | runtime error => "runtime error: " ++ error.message
  | unfinished => "runtime error: too many steps"

def Product.bytes (product : Product) (source : List Char) : Except Failure ByteArray := do
  match product with
  | .moduleText => return (← compileSource source).render.toUTF8
  | .moduleBinary => do
      let bytes ← (← compileSource source).encode.mapError .code
      return ⟨bytes.toArray⟩
  | .program => return ((← readProgram source).render false).toUTF8
  | .typedProgram => return ((← checkSource source).program.render true).toUTF8

namespace Command

variable {Action : Type → Type} [Monad Action] (world : World Action)

abbrev Performing (Action : Type → Type) : Type → Type :=
  ExceptT CommandError Action

def readSource (input : String) : Performing Action (List Char) := do
  let bytes ← if input = "-" then world.readInput else world.readFile input
  match bytes with
  | .error fault => throw (.file input fault)
  | .ok bytes =>
      match String.fromUTF8? bytes with
      | some text => return text.toList
      | none => throw (.file input .invalidText)

def require {Result : Type} (result : Except Failure Result) : Performing Action Result :=
  match result with
  | .ok value => return value
  | .error failure => throw (.failure failure)

def newLines (shown : Nat) (store : Store) : ByteArray :=
  (String.join ((store.events.toList.drop shown).map fun event => event.line ++ "\n")).toUTF8

/-- Runs in stretches of instructions, with the new lines written after each. -/
def runStretches (stretch shown : Nat) : Nat → Run → Performing Action Word
  | 0, _ => throw .unfinished
  | stretches + 1, current => do
      match current.advance stretch with
      | .running next => do
          if shown < next.store.events.size then world.writeOutput (newLines shown next.store)
          runStretches stretch next.store.events.size stretches next
      | .finished outcome store => do
          if shown < store.events.size then world.writeOutput (newLines shown store)
          match outcome with
          | .ok result => return result
          | .error error => throw (.runtime error)

/-- How many instructions run between two writes, and how many stretches a run may have. -/
def stretch : Nat :=
  4096

def maxStretches : Nat :=
  0x1000000000000000

def perform : Command → Performing Action Unit
  | build input output product => do
      let bytes ← require (product.bytes (← readSource world input))
      match output with
      | none => world.writeOutput bytes
      | some path =>
          match ← world.writeFile path bytes with
          | .ok () => return
          | .error fault => throw (.file path fault)
  | run input => do
      let module ← require (compileSource (← readSource world input))
      let started := do
        let machine ← Machine.load module Machine.defaultLimit
        machine.start entryExport []
      match started with
      | .error error => throw (.runtime error)
      | .ok first => do
          let result ← runStretches world stretch 0 maxStretches first
          world.writeOutput ("result: " ++ result.render ++ "\n").toUTF8
  | check input => do
      let _ ← require (checkSource (← readSource world input))
      world.writeOutput "ok\n".toUTF8

def execute (command : Command) : Action Nat := do
  match ← (perform world command).run with
  | .ok () => return 0
  | .error error => do
      world.writeError ("error: " ++ error.message ++ "\n")
      return 1

end Command

end ScriptWasm
