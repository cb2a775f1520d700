/-!
Why a file could not be read or written, with the number that the system gives to each reason.
-/

namespace ScriptWasm

set_option autoImplicit false

inductive FileFault where
  | missing
  | isFolder
  | notFolder
  | nameTooLong
  | denied
  | invalidText
  | other (message : String)
deriving DecidableEq, Repr

def FileFault.message : FileFault → String
  | missing => "No such file or directory (os error 2)"
  | isFolder => "Is a directory (os error 21)"
  | notFolder => "Not a directory (os error 20)"
  | nameTooLong => "File name too long (os error 36)"
  | denied => "Permission denied (os error 13)"
  | invalidText => "stream did not contain valid UTF-8"
  | other message => message

end ScriptWasm
