import ScriptWasm.Tree.Parser

/-!
Expressions, from the loosest operators to the tightest: `or`, `and`, `not`, comparisons, sums,
products, signs, powers, calls and members, and single tokens or parentheses. Each level is written
in terms of the next, and goes back to a looser one only after it has read a token; that way back is
a parameter of the levels, so that the recursion is closed in one place.
-/

namespace ScriptWasm

set_option autoImplicit false

namespace Parser

inductive Level where
  | expression
  | negation
  | signed

def binary (left operator right : Tree) : Tree :=
  .branch .binaryExpression [left, operator, right]

/-- Operands joined by operators of one level, grouped from the left. -/
def chain (operator : Parser (Option Tree)) (operand : Parser Tree) : Parser Tree := do
  let first ← operand
  extended (fun left => do
    match ← operator with
    | none => return none
    | some sign => return some (binary left sign (← operand))) first

def operatorAmong (kinds : List TokenKind) : Parser (Option Tree) := do
  if kinds.contains (← peek).kind then return some (← take .operator) else return none

def operatorWord (word : String) : Parser (Option Tree) := do
  if ← atWord word then return some (← take .operator) else return none

/-- A comparison operator. `is not` and `not in` are one operator of two words. -/
def comparisonOperator : Parser (Option Tree) := do
  if [.equal, .notEqual, .less, .greater, .lessEqual, .greaterEqual].contains (← peek).kind then
    return some (← take .operator)
  else if ← atWord "in" then
    return some (← take .operator)
  else if ← atWord "is" then
    let first ← take .operator
    if ← atWord "not" then
      let second ← take .operator
      return some (.leaf .operator (first.span.through second.span))
    else return some first
  else if ← atWord "not" then
    let first ← take .operator
    if ← atWord "in" then
      let second ← take .operator
      return some (.leaf .operator (first.span.through second.span))
    else fail .notWithoutIn (← peek).span
  else return none

section Levels

variable (parse : Level → Parser Tree)

def primary : Parser Tree := do
  match (← peek).kind with
  | .name => take .variableName
  | .number => take .number
  | .string => take .string
  | .trueWord => take .boolean
  | .falseWord => take .boolean
  | .noneWord => take .noneWord
  | .leftParen => do
      let opening ← take .punctuation
      let inner ← parse .expression
      let closing ← expect .rightParen .punctuation
      return .branch .parenthesizedExpression [opening, inner, closing]
  | _ => unexpected .expression

def arguments : Parser Tree :=
  parenthesized .argList do return [← parse .expression]

/-- Calls and members of a primary expression. -/
def postfixed : Parser Tree := do
  let first ← primary parse
  extended (fun value => do
    match (← peek).kind with
    | .leftParen => return some (.branch .callExpression [value, ← arguments parse])
    | .dot => do
        let dot ← take .punctuation
        let member ← expectName
        return some (.branch .memberExpression [value, dot, member])
    | _ => return none) first

/-- A power. Its exponent may have a sign of its own and may be a power in turn. -/
def powered : Parser Tree := do
  let base ← postfixed parse
  match ← takeIf .power .operator with
  | none => return base
  | some sign => return binary base sign (← parse .signed)

def signed : Parser Tree := do
  match ← operatorAmong [.plus, .minus] with
  | none => powered parse
  | some sign => return .branch .unaryExpression [sign, ← parse .signed]

def product : Parser Tree :=
  chain (operatorAmong [.star, .slash, .floorDivide, .percent]) (signed parse)

def sum : Parser Tree :=
  chain (operatorAmong [.plus, .minus]) (product parse)

def comparison : Parser Tree :=
  chain comparisonOperator (sum parse)

def negation : Parser Tree := do
  match ← operatorWord "not" with
  | none => comparison parse
  | some sign => return .branch .unaryExpression [sign, ← parse .negation]

def conjunction : Parser Tree :=
  chain (operatorWord "and") (negation parse)

def disjunction : Parser Tree :=
  chain (operatorWord "or") (conjunction parse)

end Levels

/-- The levels closed over themselves, for at most `depth` returns to a looser level. Nothing but an
empty stream is left when the depth runs out, and there no expression starts. -/
def expressionUpTo : Nat → Level → Parser Tree
  | 0, _ => unexpected .expression
  | depth + 1, .expression => disjunction (expressionUpTo depth)
  | depth + 1, .negation => negation (expressionUpTo depth)
  | depth + 1, .signed => signed (expressionUpTo depth)

def expression : Parser Tree := do
  expressionUpTo (← remaining) .expression

end Parser

end ScriptWasm
