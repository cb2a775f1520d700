import ScriptWasm.Token.Lexer

/-!
The layout of a source turns the indentation of its lines into tokens. A newline that ends a logical
line is followed by the change of indentation of the next line that is not blank: an indent, some
dedents, or some dedents and an error where the column belongs to no open block. Inside parentheses
lines do not end, and comments leave no trace.
-/

namespace ScriptWasm

set_option autoImplicit false

namespace Layout

/-- The column after the leading spaces and tabs of a line. A tab goes on to the next multiple of
eight. -/
def columnFrom (column : Nat) : List Char → Nat
  | ' ' :: rest => columnFrom (column + 1) rest
  | '\t' :: rest => columnFrom ((column / 8 + 1) * 8) rest
  | _ => column

/-- The text from the start of the line that holds the byte `offset` of the remaining text, where
`line` is the text from the start of the current line. -/
def lineFrom (line : List Char) : Nat → List Char → List Char
  | 0, _ => line
  | _ + 1, [] => line
  | offset + 1, char :: rest =>
      lineFrom (if char = '\n' then rest else line) (offset + 1 - char.utf8Size) rest

def columnOf (source : List Char) (offset : Nat) : Nat :=
  columnFrom 0 (lineFrom source offset source)

structure State where
  /-- The columns of the open blocks, innermost first. The top level at column zero is not
  listed. -/
  blocks : List Nat
  /-- How many parentheses are open. -/
  parens : Nat
  /-- Whether a further newline would only end a blank line. -/
  lineEnded : Bool

def State.start : State :=
  ⟨[], 0, false⟩

def innermost (blocks : List Nat) : Nat :=
  blocks.headD 0

/-- The blocks that stay open at a line of the given column, and the tokens that say so. -/
def shift (blocks : List Nat) (column : Nat) : List Nat × List TokenKind :=
  if innermost blocks < column then (column :: blocks, [.indent])
  else
    let closed := blocks.takeWhile (column < ·)
    let left := blocks.dropWhile (column < ·)
    (left, closed.map (fun _ => .dedent) ++ if innermost left = column then [] else [.error])

/-- The column of the next line that is not blank, and zero at the end of the source. -/
def nextColumn (source : List Char) (tokens : List Token) : Nat :=
  match tokens.dropWhile (·.kind = .newline) with
  | [] => 0
  | next :: _ => columnOf source next.span.start

def tokensFrom (source : List Char) : State → List Token → List Token
  | state, [] =>
      let final : Span := ⟨byteLength source, byteLength source⟩
      state.blocks.map (fun _ => ⟨.dedent, final⟩) ++ [⟨.endOfFile, final⟩]
  | state, token :: rest =>
      if token.kind = .newline then
        if 0 < state.parens || state.lineEnded then tokensFrom source state rest
        else
          let (blocks, changes) := shift state.blocks (nextColumn source rest)
          token :: changes.map (⟨·, token.span⟩) ++ tokensFrom source ⟨blocks, 0, true⟩ rest
      else
        let parens :=
          if token.kind = .leftParen then state.parens + 1
          else if token.kind = .rightParen then state.parens - 1
          else state.parens
        token :: tokensFrom source ⟨state.blocks, parens, false⟩ rest

end Layout

def layoutTokens (source : List Char) : List Token :=
  Layout.tokensFrom source .start ((rawTokens source).filter (·.kind ≠ .comment))

end ScriptWasm
