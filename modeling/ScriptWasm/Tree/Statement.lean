import ScriptWasm.Token.Layout
import ScriptWasm.Tree.Expression

/-!
Statements and the blocks they own, and the tree of a whole script. A block is a colon, a newline
and an indented run of statements.
-/

namespace ScriptWasm

set_option autoImplicit false

namespace Parser

/-- Ends a simple statement with a newline, or with the end of the block around it. -/
def endOfStatement : Parser Unit := do
  match (← peek).kind with
  | .newline => advance
  | .dedent => return
  | .endOfFile => return
  | _ => unexpected .endOfLine

def typeAfter (mark : TokenKind) : Parser Tree := do
  let sign ← expect mark (if mark = .arrow then .operator else .punctuation)
  match (← peek).kind with
  | .name => return .branch .typeDef [sign, ← take .variableName]
  | .noneWord => return .branch .typeDef [sign, ← take .noneWord]
  | _ => unexpected .typeName

def typeIf (mark : TokenKind) : Parser (List Tree) := do
  if (← peek).kind = mark then return [← typeAfter mark] else return []

def keywordStatement (kind : NodeKind) : Parser Tree := do
  let keyword ← take .keyword
  endOfStatement
  return .branch kind [keyword]

def returnStatement : Parser Tree := do
  let keyword ← take .keyword
  let value ← match (← peek).kind with
    | .newline => pure []
    | .dedent => pure []
    | .endOfFile => pure []
    | _ => do pure [← expression]
  endOfStatement
  return .branch .returnStatement (keyword :: value)

/-- An expression, or an assignment with an optional type and any number of values. -/
def expressionOrAssignment : Parser Tree := do
  let target ← expression
  let declared ← typeIf .colon
  let values ← repeated do
    match ← takeIf .assign .assignOp with
    | none => return none
    | some sign => return some [sign, ← expression]
  endOfStatement
  let parts := target :: declared ++ values
  return .branch (if parts.length = 1 then .expressionStatement else .assignStatement) parts

def parameters : Parser Tree :=
  parenthesized .paramList do
    let name ← expectName
    return name :: (← typeIf .colon)

section Statements

variable (parse : Parser Tree)

/-- Statements up to the end of a block or of the file, with empty lines between them. -/
def statementsUntil (ends : List TokenKind) : Parser (List Tree) := do
  skipNewlines
  repeated do
    if ends.contains (← peek).kind then return none
    let statement ← parse
    skipNewlines
    return some [statement]

def block : Parser Tree := do
  let colon ← expect .colon .punctuation
  if (← peek).kind ≠ .newline then unexpected .blockNewline
  advance
  if (← peek).kind ≠ .indent then fail .missingBlock (← peek).span
  advance
  let statements ← statementsUntil parse [.dedent, .endOfFile]
  if (← peek).kind = .dedent then advance
  return .branch .body (colon :: statements)

def guarded : Parser (List Tree) := do
  let test ← expression
  return [test, ← block parse]

def ifStatement : Parser Tree := do
  let keyword ← take .keyword
  let first ← guarded parse
  let others ← repeated do
    match ← takeIf .elifWord .keyword with
    | none => return none
    | some elif => return some (elif :: (← guarded parse))
  let last ← match ← takeIf .elseWord .keyword with
    | none => pure []
    | some otherwise => do pure [otherwise, ← block parse]
  return .branch .ifStatement (keyword :: first ++ others ++ last)

def whileStatement : Parser Tree := do
  let keyword ← take .keyword
  return .branch .whileStatement (keyword :: (← guarded parse))

def functionDefinition : Parser Tree := do
  let keyword ← take .keyword
  let name ← expectName
  let params ← parameters
  let result ← typeIf .arrow
  let body ← block parse
  return .branch .functionDefinition (keyword :: name :: params :: result ++ [body])

def classDefinition : Parser Tree := do
  let keyword ← take .keyword
  let name ← expectName
  let bases ← do
    if (← peek).kind = .leftParen then
      let depth ← remaining
      pure [← arguments (expressionUpTo depth)]
    else pure []
  let body ← block parse
  return .branch .classDefinition (keyword :: name :: bases ++ [body])

def statementOf : Parser Tree := do
  match (← peek).kind with
  | .defWord => functionDefinition parse
  | .classWord => classDefinition parse
  | .ifWord => ifStatement parse
  | .whileWord => whileStatement parse
  | .returnWord => returnStatement
  | .passWord => keywordStatement .passStatement
  | .breakWord => keywordStatement .breakStatement
  | .continueWord => keywordStatement .continueStatement
  | _ => expressionOrAssignment

end Statements

/-- Statements closed over themselves, for blocks nested at most `depth` deep. Nothing but an empty
stream is left when the depth runs out, and there no statement starts. -/
def statementUpTo : Nat → Parser Tree
  | 0 => unexpected .expression
  | depth + 1 => statementOf (statementUpTo depth)

def statement : Parser Tree := do
  statementUpTo (← remaining)

/-- All statements up to the end of the file, as one node over a source of `length` bytes. -/
def script (length : Nat) : Parser Tree := do
  return .node .script ⟨0, length⟩ (← statementsUntil statement [.endOfFile])

end Parser

def Tree.ofTokens (source : List Char) (tokens : List Token) : Except ParseError Tree :=
  (Parser.script (byteLength source)).run' ⟨tokens.map (·.lexeme source), ⟨0, 0⟩⟩

def Tree.ofSource (source : List Char) : Except ParseError Tree :=
  Tree.ofTokens source (layoutTokens source)

end ScriptWasm
