import ScriptWasm.Proofs.Tree.Layers

/-!
The parser as parsers that call each other. A loop goes on until it stops by itself, and a layer goes
back to a looser one and a block to its statements whenever they like. Nothing here says that a run
comes to an end: one whose calls do not come back within a depth has no outcome at that depth.
-/

namespace ScriptWasm

set_option autoImplicit false

abbrev OpenParser (Result : Type) : Type :=
  StateT TokenStream (ExceptT ParseError Option) Result

def Parser.ended {Result : Type} (parser : Parser Result) : OpenParser Result :=
  fun stream => ExceptT.mk (some (parser.run stream))

namespace OpenParser

def outcome {Result : Type} (parser : OpenParser Result) (stream : TokenStream) :
    Option (Except ParseError (Result × TokenStream)) :=
  (parser.run stream).run

def silent {Result : Type} : OpenParser Result :=
  fun _ => ExceptT.mk none

end OpenParser

/-- The parsers that are called by themselves or by one another. -/
structure Calls where
  layer : Layer → OpenParser Tree
  joined : Layer → Tree → OpenParser Tree
  members : Tree → OpenParser Tree
  argumentItems : OpenParser (List Tree)
  parameterItems : OpenParser (List Tree)
  skipNewlines : OpenParser Unit
  assignedValues : OpenParser (List Tree)
  statement : OpenParser Tree
  statements : List TokenKind → OpenParser (List Tree)
  elifArms : OpenParser (List Tree)

open ScriptWasm.Parser

namespace Unbounded

variable (calls : Calls)


def layer : Layer → OpenParser Tree
  | .disjunction => do calls.joined .disjunction (← calls.layer .conjunction)
  | .conjunction => do calls.joined .conjunction (← calls.layer .negation)
  | .negation => do
      match ← (operatorWord "not").ended with
      | none => calls.layer .comparison
      | some sign => return .branch .unaryExpression [sign, ← calls.layer .negation]
  | .comparison => do calls.joined .comparison (← calls.layer .sum)
  | .sum => do calls.joined .sum (← calls.layer .product)
  | .product => do calls.joined .product (← calls.layer .signed)
  | .signed => do
      match ← (operatorAmong [.plus, .minus]).ended with
      | none => calls.layer .powered
      | some sign => return .branch .unaryExpression [sign, ← calls.layer .signed]
  | .powered => do
      let base ← calls.layer .postfixed
      match ← (takeIf .power .operator).ended with
      | none => return base
      | some sign => return binary base sign (← calls.layer .signed)
  | .postfixed => do calls.members (← calls.layer .primary)
  | .primary => do
      match (← peek.ended).kind with
      | .name => (take .variableName).ended
      | .number => (take .number).ended
      | .string => (take .string).ended
      | .trueWord => (take .boolean).ended
      | .falseWord => (take .boolean).ended
      | .noneWord => (take .noneWord).ended
      | .leftParen => do
          let opening ← (take .punctuation).ended
          let inner ← calls.layer .disjunction
          let closing ← (expect .rightParen .punctuation).ended
          return .branch .parenthesizedExpression [opening, inner, closing]
      | _ => (unexpected .expression).ended

def joined (chain : Layer) (left : Tree) : OpenParser Tree := do
  match ← chain.operator.ended with
  | none => return left
  | some sign => calls.joined chain (binary left sign (← calls.layer chain.tighter))

def arguments : OpenParser Tree := do
  let opening ← (expect .leftParen .punctuation).ended
  let items ← calls.argumentItems
  let closing ← (expect .rightParen .punctuation).ended
  return .branch .argList (opening :: items ++ [closing])

def members (value : Tree) : OpenParser Tree := do
  match (← peek.ended).kind with
  | .leftParen => do calls.members (.branch .callExpression [value, ← arguments calls])
  | .dot => do
      let dot ← (take .punctuation).ended
      let member ← expectName.ended
      calls.members (.branch .memberExpression [value, dot, member])
  | _ => return value

def argumentItems : OpenParser (List Tree) := do
  if (← peek.ended).kind = .rightParen then return []
  let item ← calls.layer .disjunction
  match ← (takeIf .comma .punctuation).ended with
  | none => return [item]
  | some comma => return [item] ++ comma :: (← calls.argumentItems)

def parameterItems : OpenParser (List Tree) := do
  if (← peek.ended).kind = .rightParen then return []
  let name ← expectName.ended
  let declared ← (typeIf .colon).ended
  match ← (takeIf .comma .punctuation).ended with
  | none => return name :: declared
  | some comma => return name :: declared ++ comma :: (← calls.parameterItems)

def parameters : OpenParser Tree := do
  let opening ← (expect .leftParen .punctuation).ended
  let items ← calls.parameterItems
  let closing ← (expect .rightParen .punctuation).ended
  return .branch .paramList (opening :: items ++ [closing])

def skipNewlines : OpenParser Unit := do
  if (← peek.ended).kind = .newline then
    advance.ended
    calls.skipNewlines
  else return

def assignedValues : OpenParser (List Tree) := do
  match ← (takeIf .assign .assignOp).ended with
  | none => return []
  | some sign =>
      let value ← calls.layer .disjunction
      return [sign, value] ++ (← calls.assignedValues)

def expressionOrAssignment : OpenParser Tree := do
  let target ← calls.layer .disjunction
  let declared ← (typeIf .colon).ended
  let values ← calls.assignedValues
  endOfStatement.ended
  let parts := target :: declared ++ values
  return .branch (if parts.length = 1 then .expressionStatement else .assignStatement) parts

def returnStatement : OpenParser Tree := do
  let keyword ← (take .keyword).ended
  let value ← match (← peek.ended).kind with
    | .newline => pure []
    | .dedent => pure []
    | .endOfFile => pure []
    | _ => do pure [← calls.layer .disjunction]
  endOfStatement.ended
  return .branch .returnStatement (keyword :: value)

/-- Statements up to the end of a block or of the file, with empty lines between them. -/
def statementsUntil (ends : List TokenKind) : OpenParser (List Tree) := do
  calls.skipNewlines
  calls.statements ends

def statements (ends : List TokenKind) : OpenParser (List Tree) := do
  if ends.contains (← peek.ended).kind then return []
  let first ← calls.statement
  calls.skipNewlines
  return [first] ++ (← calls.statements ends)

def block : OpenParser Tree := do
  let colon ← (expect .colon .punctuation).ended
  if (← peek.ended).kind ≠ .newline then (unexpected .blockNewline).ended
  advance.ended
  if (← peek.ended).kind ≠ .indent then (fail .missingBlock (← peek.ended).span).ended
  advance.ended
  let statements ← statementsUntil calls [.dedent, .endOfFile]
  if (← peek.ended).kind = .dedent then advance.ended
  return .branch .body (colon :: statements)

def guarded : OpenParser (List Tree) := do
  let test ← calls.layer .disjunction
  return [test, ← block calls]

def elifArms : OpenParser (List Tree) := do
  match ← (takeIf .elifWord .keyword).ended with
  | none => return []
  | some elif =>
      let arm ← guarded calls
      return (elif :: arm) ++ (← calls.elifArms)

def ifStatement : OpenParser Tree := do
  let keyword ← (take .keyword).ended
  let first ← guarded calls
  let others ← calls.elifArms
  let last ← match ← (takeIf .elseWord .keyword).ended with
    | none => pure []
    | some otherwise => do pure [otherwise, ← block calls]
  return .branch .ifStatement (keyword :: first ++ others ++ last)

def whileStatement : OpenParser Tree := do
  let keyword ← (take .keyword).ended
  return .branch .whileStatement (keyword :: (← guarded calls))

def functionDefinition : OpenParser Tree := do
  let keyword ← (take .keyword).ended
  let name ← expectName.ended
  let params ← parameters calls
  let result ← (typeIf .arrow).ended
  let body ← block calls
  return .branch .functionDefinition (keyword :: name :: params :: result ++ [body])

def classDefinition : OpenParser Tree := do
  let keyword ← (take .keyword).ended
  let name ← expectName.ended
  let bases ← do
    if (← peek.ended).kind = .leftParen then pure [← arguments calls] else pure []
  let body ← block calls
  return .branch .classDefinition (keyword :: name :: bases ++ [body])

def statement : OpenParser Tree := do
  match (← peek.ended).kind with
  | .defWord => functionDefinition calls
  | .classWord => classDefinition calls
  | .ifWord => ifStatement calls
  | .whileWord => whileStatement calls
  | .returnWord => returnStatement calls
  | .passWord => (keywordStatement .passStatement).ended
  | .breakWord => (keywordStatement .breakStatement).ended
  | .continueWord => (keywordStatement .continueStatement).ended
  | _ => expressionOrAssignment calls

def script (length : Nat) : OpenParser Tree := do
  return .node .script ⟨0, length⟩ (← statementsUntil calls [.endOfFile])

end Unbounded

namespace Calls

/-- Calls that never come back. -/
def silent : Calls where
  layer _ := .silent
  joined _ _ := .silent
  members _ := .silent
  argumentItems := .silent
  parameterItems := .silent
  skipNewlines := .silent
  assignedValues := .silent
  statement := .silent
  statements _ := .silent
  elifArms := .silent

def above (calls : Calls) : Calls where
  layer := Unbounded.layer calls
  joined := Unbounded.joined calls
  members := Unbounded.members calls
  argumentItems := Unbounded.argumentItems calls
  parameterItems := Unbounded.parameterItems calls
  skipNewlines := Unbounded.skipNewlines calls
  assignedValues := Unbounded.assignedValues calls
  statement := Unbounded.statement calls
  statements := Unbounded.statements calls
  elifArms := Unbounded.elifArms calls

/-- Calls that come back unless there are more than `depth` of them inside each other. -/
def upTo : Nat → Calls
  | 0 => silent
  | depth + 1 => above (upTo depth)

end Calls

/-- What a run comes to, however deep its calls may go as long as that is enough. -/
def EndsIn {Result : Type} (wide : Calls → OpenParser Result) (stream : TokenStream)
    (outcome : Except ParseError (Result × TokenStream)) : Prop :=
  ∃ enough, ∀ depth, enough ≤ depth → (wide (.upTo depth)).outcome stream = some outcome

end ScriptWasm
