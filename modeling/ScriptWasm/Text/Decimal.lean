/-!
Decimal notation: the digits of a natural number without leading zeros, an integer with a minus sign
in front when it is negative, and the number that a run of digits denotes.
-/

namespace ScriptWasm

set_option autoImplicit false

def decimalChars (number : Nat) : List Char :=
  Nat.toDigits 10 number

def decimal (number : Nat) : String :=
  String.ofList (decimalChars number)

def signedDecimal : Int → String
  | .ofNat magnitude => decimal magnitude
  | .negSucc predecessor => "-" ++ decimal (predecessor + 1)

def isDigit (char : Char) : Bool :=
  '0' ≤ char && char ≤ '9'

def readDecimalFrom (before : Nat) (digits : List Char) : Nat :=
  digits.foldl (fun number digit => 10 * number + (digit.toNat - '0'.toNat)) before

def readDecimal (digits : List Char) : Nat :=
  readDecimalFrom 0 digits

end ScriptWasm
