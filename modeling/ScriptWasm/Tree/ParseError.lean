import ScriptWasm.Text.Quoted
import ScriptWasm.Token.Basic

/-!
What can be wrong with a token stream, and where.
-/

namespace ScriptWasm

set_option autoImplicit false

inductive Expected where
  | expression
  | identifier
  | endOfLine
  | typeName
  | blockNewline
  | token (kind : TokenKind)
deriving DecidableEq, Repr

def Expected.label : Expected → String
  | expression => "expression"
  | identifier => "identifier"
  | endOfLine => "end of line"
  | typeName => "a type name"
  | blockNewline => "a newline before the indented block"
  | token kind => kind.label

inductive ParseFault where
  | expected (what : Expected) (found : TokenKind)
  | unmatchedUnindent
  | invalidToken (text : String)
  | notWithoutIn
  | missingBlock
deriving DecidableEq, Repr

def ParseFault.detail : ParseFault → String
  | expected what found => "expected " ++ what.label ++ ", found " ++ found.label
  | unmatchedUnindent => "unindent does not match any outer indentation level"
  | invalidToken text => "invalid token " ++ quoted text
  | notWithoutIn => "expected \x27in\x27 after \x27not\x27 in comparison"
  | missingBlock => "expected an indented block"

structure ParseError where
  fault : ParseFault
  span : Span
deriving DecidableEq, Repr

def ParseError.message (error : ParseError) : String :=
  "ParseError at " ++ error.span.render ++ ": " ++ error.fault.detail

end ScriptWasm
