import ScriptWasm.CommandLine.Disk
import ScriptWasm.CommandLine.Perform

/-!
A world held in memory: a disk, an input, and what was written to the two outputs.
-/

namespace ScriptWasm

set_option autoImplicit false

structure Memory where
  disk : Disk
  input : ByteArray
  output : ByteArray
  errors : String

namespace Memory

def start (disk : Disk) (input : ByteArray) : Memory :=
  ⟨disk, input, .empty, ""⟩

def world : World (StateM Memory) where
  readInput := return .ok (← get).input
  readFile path := return (← get).disk.read path
  writeFile path bytes := do
    match (← get).disk.write path bytes with
    | .ok disk => do
        modify fun memory => { memory with disk }
        return .ok ()
    | .error fault => return .error fault
  writeOutput bytes := modify fun memory => { memory with output := memory.output ++ bytes }
  writeError text := modify fun memory => { memory with errors := memory.errors ++ text }

end Memory

end ScriptWasm
