import ScriptWasm.Text.Decimal

/-!
Machine words: 32-bit integers in two's complement. Arithmetic wraps around, comparisons are signed
and answer one or zero, and division rounds toward zero and traps where it has no answer.
-/

namespace ScriptWasm

set_option autoImplicit false

abbrev Word := Int32

inductive ArithmeticTrap where
  | divideByZero
  | overflow
deriving DecidableEq, Repr

inductive WordOp where
  | add | sub | mul | divS | remS | eq | ne | leS | geS | ltS | gtS
deriving DecidableEq, Repr

namespace Word

def render (word : Word) : String :=
  signedDecimal word.toInt

def ofBool (truth : Bool) : Word :=
  if truth then 1 else 0

/-- The distance from zero, except that the least word has no positive counterpart and stays. -/
def magnitude (word : Word) : Word :=
  if word < 0 then -word else word

/-- Repeated multiplication that wraps around, by squaring. -/
def power (base : Word) (exponent : Nat) : Word :=
  if exponent = 0 then 1
  else
    let squared := power (base * base) (exponent / 2)
    if exponent % 2 = 1 then squared * base else squared
termination_by exponent
decreasing_by omega

end Word

namespace WordOp

def all : List WordOp :=
  [add, sub, mul, divS, remS, eq, ne, leS, geS, ltS, gtS]

def apply : WordOp → Word → Word → Except ArithmeticTrap Word
  | add, left, right => .ok (left + right)
  | sub, left, right => .ok (left - right)
  | mul, left, right => .ok (left * right)
  | divS, left, right =>
      if right = 0 then .error .divideByZero
      else if left = Int32.minValue ∧ right = -1 then .error .overflow
      else .ok (left / right)
  | remS, left, right => if right = 0 then .error .divideByZero else .ok (left % right)
  | eq, left, right => .ok (Word.ofBool (left == right))
  | ne, left, right => .ok (Word.ofBool (left != right))
  | leS, left, right => .ok (Word.ofBool (left ≤ right))
  | geS, left, right => .ok (Word.ofBool (right ≤ left))
  | ltS, left, right => .ok (Word.ofBool (left < right))
  | gtS, left, right => .ok (Word.ofBool (right < left))

end WordOp

end ScriptWasm
