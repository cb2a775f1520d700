import ScriptWasm.CommandLine.Perform

/-!
The program: the command line with the files, the input and the outputs of the process.
-/

namespace ScriptWasm

set_option autoImplicit false

def fileAction {Result : Type} (action : IO Result) : IO (Except FileFault Result) := do
  try
    return .ok (← action)
  catch error =>
    match error with
    | .noFileOrDirectory .. => return .error .missing
    | .permissionDenied .. => return .error .denied
    | .inappropriateType _ code _ =>
        return .error (if code.toInt32.toInt.natAbs = 20 then .notFolder else .isFolder)
    | .invalidArgument _ code _ =>
        if code.toInt32.toInt.natAbs = 36 then return .error .nameTooLong
        else return .error (.other (toString error))
    | _ => return .error (.other (toString error))

/-- Everything on an input, read until its end. -/
partial def readAll (input : IO.FS.Stream) (before : ByteArray) : IO ByteArray := do
  let bytes ← input.read 65536
  if bytes.isEmpty then return before else readAll input (before ++ bytes)

def processWorld : World IO where
  readInput := fileAction do readAll (← IO.getStdin) .empty
  readFile path := fileAction (IO.FS.readBinFile path)
  writeFile path bytes := fileAction (IO.FS.writeBinFile path bytes)
  writeOutput bytes := do
    let output ← IO.getStdout
    output.write bytes
    output.flush
  writeError text := do
    (← IO.getStderr).putStr text

end ScriptWasm

def main (args : List String) : IO UInt32 := do
  match ScriptWasm.Command.ofArgs? args with
  | some command => return (← command.execute ScriptWasm.processWorld).toUInt32
  | none =>
      (← IO.getStderr).putStr
        ("usage: build <input> [-o <output>] [--emit wat|wasm|ast|typed] | run <input> | " ++
          "check <input>\n")
      return 2
