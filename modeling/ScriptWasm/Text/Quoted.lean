import ScriptWasm.Text.Unprintable

/-!
Quoted texts show a piece of source inside a message or a dump. They stand in double quotes, have a
short escape for the common control characters, and write every other unprintable character as its
code point in hexadecimal.
-/

namespace ScriptWasm

set_option autoImplicit false

def hexadecimal (number : Nat) : List Char :=
  Nat.toDigits 16 number

def quoteChar (char : Char) : List Char :=
  if char = '\x00' then ['\\', '0']
  else if char = '\t' then ['\\', 't']
  else if char = '\n' then ['\\', 'n']
  else if char = '\r' then ['\\', 'r']
  else if char = '\x22' then ['\\', '\x22']
  else if char = '\\' then ['\\', '\\']
  else if isUnprintable char then ['\\', 'u', '\x7b'] ++ hexadecimal char.toNat ++ ['\x7d']
  else [char]

def quoteChars (text : List Char) : List Char :=
  '\x22' :: text.flatMap quoteChar ++ ['\x22']

def quoted (text : String) : String :=
  String.ofList (quoteChars text.toList)

end ScriptWasm
