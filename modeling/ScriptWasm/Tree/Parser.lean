import ScriptWasm.Text.Blank
import ScriptWasm.Tree.Basic
import ScriptWasm.Tree.ParseError

/-!
Parsers read lexemes from the front of a stream. A stream that runs out looks like an end of file
that stands where the last token stood. A parser that repeats a step does so at most once more than
there are lexemes left, which is enough for every step that reads at least one of them.
-/

namespace ScriptWasm

set_option autoImplicit false

/-- The lexemes not yet read, and the span of the one read last. -/
structure TokenStream where
  rest : List Lexeme
  last : Span

abbrev Parser (Result : Type) : Type :=
  StateT TokenStream (Except ParseError) Result

namespace Parser

def peek : Parser Lexeme := do
  let stream ← get
  match stream.rest with
  | [] => return ⟨.endOfFile, stream.last, ""⟩
  | next :: _ => return next

def remaining : Parser Nat := do
  return (← get).rest.length

def advance : Parser Unit :=
  modify fun stream =>
    match stream.rest with
    | [] => stream
    | next :: rest => ⟨rest, next.span⟩

def fail {Result : Type} (fault : ParseFault) (span : Span) : Parser Result :=
  throw ⟨fault, span⟩

/-- Refuses the next token. An error token speaks for itself: a blank one stands for an indentation
that closes no open block. -/
def unexpected {Result : Type} (what : Expected) : Parser Result := do
  let next ← peek
  if next.kind = .error then
    if next.text.toList.all isBlank then fail .unmatchedUnindent next.span
    else fail (.invalidToken next.text) next.span
  else fail (.expected what next.kind) next.span

def take (kind : NodeKind) : Parser Tree := do
  let next ← peek
  advance
  return .leaf kind next.span

def expect (token : TokenKind) (kind : NodeKind) : Parser Tree := do
  if (← peek).kind = token then take kind else unexpected (.token token)

def expectName : Parser Tree := do
  if (← peek).kind = .name then take .variableName else unexpected .identifier

def takeIf (token : TokenKind) (kind : NodeKind) : Parser (Option Tree) := do
  if (← peek).kind = token then return some (← take kind) else return none

def atWord (word : String) : Parser Bool := do
  let next ← peek
  return next.kind = .name && next.text = word

def skipNewlines : Parser Unit :=
  modify fun stream =>
    let newlines := stream.rest.takeWhile (·.kind = .newline)
    ⟨stream.rest.dropWhile (·.kind = .newline),
      (newlines.getLast?.map (·.span)).getD stream.last⟩

/-- Repeats a step that says when to stop, at most `count` times, and collects its results. -/
def repeatUpTo (step : Parser (Option (List Tree))) : Nat → Parser (List Tree)
  | 0 => return []
  | count + 1 => do
      match ← step with
      | none => return []
      | some items => return items ++ (← repeatUpTo step count)

def repeated (step : Parser (Option (List Tree))) : Parser (List Tree) := do
  repeatUpTo step ((← remaining) + 1)

/-- Repeats a step that extends a tree or leaves it as it is, at most `count` times. -/
def extendUpTo (step : Tree → Parser (Option Tree)) : Nat → Tree → Parser Tree
  | 0, tree => return tree
  | count + 1, tree => do
      match ← step tree with
      | none => return tree
      | some larger => extendUpTo step count larger

def extended (step : Tree → Parser (Option Tree)) (tree : Tree) : Parser Tree := do
  extendUpTo step ((← remaining) + 1) tree

/-- Items between parentheses with commas between them, where a comma may also follow the last. The
closing parenthesis ends the list wherever an item may start. -/
def parenthesized (kind : NodeKind) (item : Parser (List Tree)) : Parser Tree := do
  let opening ← expect .leftParen .punctuation
  let items ← listed ((← remaining) + 1)
  let closing ← expect .rightParen .punctuation
  return .branch kind (opening :: items ++ [closing])
where
  listed : Nat → Parser (List Tree)
    | 0 => return []
    | count + 1 => do
        if (← peek).kind = .rightParen then return []
        let parts ← item
        match ← takeIf .comma .punctuation with
        | none => return parts
        | some comma => return parts ++ comma :: (← listed count)

end Parser

end ScriptWasm
