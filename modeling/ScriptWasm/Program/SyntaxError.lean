import ScriptWasm.Tree.ParseError
import ScriptWasm.Tree.Basic

/-!
Why a source is no program: it has no tree, or its tree holds something that programs have no room
for. The error names the offending node and shows the text it covers.
-/

namespace ScriptWasm

set_option autoImplicit false

inductive SyntaxFault where
  | noTree (fault : ParseFault)
  | missingPart
  | wrongKind (expected found : NodeKind)
  | wrongText (expected : String) (found : NodeKind)
  | trailingPart
  | lateDeclaration
  | missingType
  | unknownType
  | initialValueNotLiteral
  | wrongSeparator
  | notAField
  | calleeNotNamed
  | unknownBinary (symbol : String)
  | unknownUnary
  | unknownExpression
  | unknownNumber
  | numberTooLarge
  | nestedVariable
  | nestedFunction
  | nestedClass
  | unknownStatement (kind : NodeKind)
  | wrongBranch
deriving DecidableEq, Repr

def SyntaxFault.detail : SyntaxFault → String
  | noTree fault => fault.detail
  | missingPart => "Missing token"
  | wrongKind expected found => "Expecting " ++ expected.label ++ ", encountered " ++ found.label
  | wrongText expected found => "Expecting " ++ quoted expected ++ ", encountered " ++ found.label
  | trailingPart => "Trailing expression"
  | lateDeclaration => "Declaration cannot be after Statement"
  | missingType => "Missing type declaration"
  | unknownType => "Unsupported type"
  | initialValueNotLiteral => "Declaration has to be literal"
  | wrongSeparator => "Unexpected token"
  | notAField => "Only field declarations allowed in class body"
  | calleeNotNamed => "Only named functions can be called"
  | unknownBinary symbol => symbol ++ " is not supported"
  | unknownUnary => "Unsupported operator"
  | unknownExpression => "Unsupported expression"
  | unknownNumber => "Unsupported number literal"
  | numberTooLarge => "Integer literal out of range"
  | nestedVariable => "Can\x27t have variable declaration here"
  | nestedFunction => "Nested function definition not allowed"
  | nestedClass => "Nested class definition not allowed"
  | unknownStatement kind => "Unsupported statement: " ++ kind.label
  | wrongBranch => "Expecting elif or else"

structure SyntaxError where
  fault : SyntaxFault
  span : Span
  text : String
  /-- The kind of the offending node, where there is a tree. -/
  node : Option NodeKind
deriving DecidableEq, Repr

namespace SyntaxError

def message (error : SyntaxError) : String :=
  "Could not parse " ++ error.span.render ++ ": " ++ quoted error.text ++ ", " ++
    error.fault.detail

def ofParseError (source : List Char) (error : ParseError) : SyntaxError :=
  ⟨.noTree error.fault, error.span, error.span.textIn source, none⟩

end SyntaxError

def Tree.reject {Result : Type} (source : List Char) (tree : Tree) (fault : SyntaxFault) :
    Except SyntaxError Result :=
  .error ⟨fault, tree.span, tree.text source, some tree.kind⟩

namespace Tree

variable (source : List Char)

def expectKind (kind : NodeKind) (tree : Tree) : Except SyntaxError Unit :=
  if tree.kind = kind then .ok () else tree.reject source (.wrongKind kind tree.kind)

/-- Requires a node without parts that is written as the given text. -/
def expectText (text : String) (tree : Tree) : Except SyntaxError Unit :=
  if tree.text source = text ∧ tree.children.isEmpty then .ok ()
  else tree.reject source (.wrongText text tree.kind)

def expectEnd : List Tree → Except SyntaxError Unit
  | [] => .ok ()
  | extra :: _ => extra.reject source .trailingPart

end Tree

end ScriptWasm
