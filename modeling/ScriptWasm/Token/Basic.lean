import ScriptWasm.Text.Span

/-!
Tokens: what a stretch of source is, and where it stands. Indentation is part of the token stream,
as tokens that open and close blocks.
-/

namespace ScriptWasm

set_option autoImplicit false

inductive TokenKind where
  | newline | indent | dedent
  | defWord | classWord | ifWord | elifWord | elseWord | whileWord | returnWord | passWord
  | breakWord | continueWord | trueWord | falseWord | noneWord
  | power | floorDivide | equal | notEqual | lessEqual | greaterEqual | arrow
  | plus | minus | star | slash | percent | less | greater | assign | colon | dot | comma
  | leftParen | rightParen
  | name | number | string | comment | endOfFile | error
deriving DecidableEq, Repr

namespace TokenKind

def label : TokenKind → String
  | newline => "Newline" | indent => "Indent" | dedent => "Dedent"
  | defWord => "Def" | classWord => "Class" | ifWord => "If" | elifWord => "Elif"
  | elseWord => "Else" | whileWord => "While" | returnWord => "Return" | passWord => "Pass"
  | breakWord => "Break" | continueWord => "Continue" | trueWord => "True"
  | falseWord => "False" | noneWord => "None_"
  | power => "Pow" | floorDivide => "FloorDiv" | equal => "Eq" | notEqual => "NotEq"
  | lessEqual => "Le" | greaterEqual => "Ge" | arrow => "Arrow"
  | plus => "Plus" | minus => "Minus" | star => "Star" | slash => "Slash"
  | percent => "Percent" | less => "Lt" | greater => "Gt" | assign => "Assign"
  | colon => "Colon" | dot => "Dot" | comma => "Comma"
  | leftParen => "LParen" | rightParen => "RParen"
  | name => "Name" | number => "Number" | string => "String" | comment => "Comment"
  | endOfFile => "Eof" | error => "Error"

/-- The reserved words. A word that is not reserved is a name. -/
def ofWord (word : String) : TokenKind :=
  match word with
  | "def" => defWord
  | "class" => classWord
  | "if" => ifWord
  | "elif" => elifWord
  | "else" => elseWord
  | "while" => whileWord
  | "return" => returnWord
  | "pass" => passWord
  | "break" => breakWord
  | "continue" => continueWord
  | "True" => trueWord
  | "False" => falseWord
  | "None" => noneWord
  | _ => name

def ofPair? : Char → Char → Option TokenKind
  | '*', '*' => some power
  | '/', '/' => some floorDivide
  | '=', '=' => some equal
  | '!', '=' => some notEqual
  | '<', '=' => some lessEqual
  | '>', '=' => some greaterEqual
  | '-', '>' => some arrow
  | _, _ => none

def ofSingle? : Char → Option TokenKind
  | '+' => some plus
  | '-' => some minus
  | '*' => some star
  | '/' => some slash
  | '%' => some percent
  | '<' => some less
  | '>' => some greater
  | '=' => some assign
  | ':' => some colon
  | '.' => some dot
  | ',' => some comma
  | '(' => some leftParen
  | ')' => some rightParen
  | _ => none

end TokenKind

structure Token where
  kind : TokenKind
  span : Span
deriving DecidableEq, Repr

structure Lexeme where
  kind : TokenKind
  span : Span
  text : String
deriving DecidableEq, Repr

def Token.lexeme (source : List Char) (token : Token) : Lexeme :=
  ⟨token.kind, token.span, token.span.textIn source⟩

end ScriptWasm
