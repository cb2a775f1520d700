import ScriptWasm.Token.Basic

/-!
The raw tokens of a text, without regard to indentation. Each token is as long as it can be. Spaces,
tabs and form feeds stand between tokens. Where no token starts, an error token takes the place of
one character, or of an unclosed string up to the first character that cannot belong to it.
-/

namespace ScriptWasm

set_option autoImplicit false

namespace Lexer

def isSkipped (char : Char) : Bool :=
  char = ' ' || char = '\t' || char = '\x0c'

def isNameStart (char : Char) : Bool :=
  ('a' ≤ char && char ≤ 'z') || ('A' ≤ char && char ≤ 'Z') || char = '_'

def isNameChar (char : Char) : Bool :=
  isNameStart char || isDigit char

def digitCount (text : List Char) : Nat :=
  (text.takeWhile isDigit).length

/-- The length of a point and the digits after it, or zero where no digit follows. -/
def fractionLength : List Char → Nat
  | '.' :: rest => if digitCount rest = 0 then 0 else digitCount rest + 1
  | _ => 0

def signLength : List Char → Nat
  | '+' :: _ => 1
  | '-' :: _ => 1
  | _ => 0

/-- The length of an exponent mark, its sign and its digits, or zero where no digit follows. -/
def exponentLength : List Char → Nat
  | [] => 0
  | mark :: rest =>
      if mark = 'e' || mark = 'E' then
        let digits := digitCount (rest.drop (signLength rest))
        if digits = 0 then 0 else 1 + signLength rest + digits
      else 0

def numberLength (text : List Char) : Nat :=
  let whole := digitCount text
  let fraction := fractionLength (text.drop whole)
  whole + fraction + exponentLength (text.drop (whole + fraction))

/-- What follows an opening quote: whether the string is closed on its line, and how many characters
belong to it, the closing quote included. A backslash takes the next character with it. -/
def stringLength (quote : Char) : List Char → Bool × Nat
  | [] => (false, 0)
  | ['\\'] => (false, 0)
  | '\\' :: escaped :: rest =>
      if escaped = '\n' then (false, 0)
      else
        let (closed, length) := stringLength quote rest
        (closed, length + 2)
  | char :: rest =>
      if char = quote then (true, 1)
      else if char = '\n' then (false, 0)
      else
        let (closed, length) := stringLength quote rest
        (closed, length + 1)

/-- The kind of the token that starts with `first`, and how many of the characters after `first`
belong to it. -/
def tokenAt (first : Char) (rest : List Char) : TokenKind × Nat :=
  if first = '\n' then (.newline, 0)
  else if first = '\r' && rest.head? = some '\n' then (.newline, 1)
  else if isNameStart first then
    let more := rest.takeWhile isNameChar
    (.ofWord (String.ofList (first :: more)), more.length)
  else if isDigit first then (.number, numberLength (first :: rest) - 1)
  else if first = '\x27' || first = '\x22' then
    let (closed, length) := stringLength first rest
    (if closed then .string else .error, length)
  else if first = '#' then (.comment, (rest.takeWhile (· ≠ '\n')).length)
  else
    match rest.head?.bind (TokenKind.ofPair? first) with
    | some kind => (kind, 1)
    | none => ((TokenKind.ofSingle? first).getD .error, 0)

def tokensFrom (offset : Nat) : List Char → List Token
  | [] => []
  | first :: rest =>
      if isSkipped first then tokensFrom (offset + first.utf8Size) rest
      else
        let (kind, more) := tokenAt first rest
        let stop := offset + byteLength (first :: rest.take more)
        ⟨kind, offset, stop⟩ :: tokensFrom stop (rest.drop more)
termination_by text => text.length
decreasing_by
  all_goals simp only [List.length_cons, List.length_drop]
  all_goals omega

end Lexer

def rawTokens (source : List Char) : List Token :=
  Lexer.tokensFrom 0 source

end ScriptWasm
