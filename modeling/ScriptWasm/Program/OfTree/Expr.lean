import ScriptWasm.Program.Basic
import ScriptWasm.Program.SyntaxError
import ScriptWasm.Text.Blank

/-!
Expressions read from their trees. A part that is missing is reported at the part before it, or at
the node itself when it has no parts.
-/

namespace ScriptWasm

set_option autoImplicit false

namespace Expr

/-- The integer that a number node denotes. Only plain decimal integers of one word have a value. -/
def wordOfTree (source : List Char) (tree : Tree) : Except SyntaxError Word :=
  let digits := (tree.text source).toList
  if digits.all isDigit then
    let value := readDecimal digits
    if digits.isEmpty || Int32.maxValue.toInt < value then tree.reject source .numberTooLarge
    else .ok (Int32.ofNat value)
  else tree.reject source .unknownNumber

/-- The operator that a node denotes. The blanks between two words count as one space. -/
def binaryOpOfTree (source : List Char) (tree : Tree) : Except SyntaxError BinaryOp := do
  tree.expectKind source .operator
  let symbol := joinWords (tree.text source)
  match BinaryOp.ofSymbol? symbol with
  | some op => return op
  | none => tree.reject source (.unknownBinary symbol)

def unaryOpOfTree (source : List Char) (tree : Tree) : Except SyntaxError UnaryOp := do
  tree.expectKind source .operator
  match UnaryOp.ofSymbol? (tree.text source) with
  | some op => return op
  | none => tree.reject source .unknownUnary

def expectCallee (source : List Char) (tree : Tree) : Except SyntaxError Unit :=
  if tree.kind = .variableName then .ok () else tree.reject source .calleeNotNamed

mutual

def ofTree (source : List Char) : Tree → Except SyntaxError Expr
  | .node kind span children =>
    let tree : Tree := .node kind span children
    let note : Note := ⟨span, none⟩
    match kind with
    | .boolean => return lit note (.bool (tree.text source = "True"))
    | .noneWord => return lit note .none
    | .number => return lit note (.int (← wordOfTree source tree))
    | .variableName => return name note (tree.text source)
    | .callExpression =>
        match children with
        | [] => tree.reject source .missingPart
        | callee :: tail => do
            expectCallee source callee
            match tail with
            | [] => callee.reject source .missingPart
            | list :: rest => do
                list.expectKind source .argList
                let args ← argsOfTree source list
                Tree.expectEnd source rest
                return call note (callee.text source) args
    | .binaryExpression =>
        match children with
        | [] => tree.reject source .missingPart
        | left :: tail => do
            let leftExpr ← ofTree source left
            match tail with
            | [] => left.reject source .missingPart
            | sign :: tail => do
                let op ← binaryOpOfTree source sign
                match tail with
                | [] => sign.reject source .missingPart
                | right :: rest => do
                    let rightExpr ← ofTree source right
                    Tree.expectEnd source rest
                    return binary note op leftExpr rightExpr
    | .unaryExpression =>
        match children with
        | [] => tree.reject source .missingPart
        | sign :: tail => do
            let op ← unaryOpOfTree source sign
            match tail with
            | [] => sign.reject source .missingPart
            | operand :: rest => do
                let operandExpr ← ofTree source operand
                Tree.expectEnd source rest
                return unary note op operandExpr
    | .parenthesizedExpression =>
        match children with
        | [] => tree.reject source .missingPart
        | opening :: tail => do
            opening.expectText source "("
            match tail with
            | [] => opening.reject source .missingPart
            | inner :: tail => do
                let innerExpr ← ofTree source inner
                match tail with
                | [] => inner.reject source .missingPart
                | closing :: rest => do
                    closing.expectText source ")"
                    Tree.expectEnd source rest
                    return paren note innerExpr
    | _ => tree.reject source .unknownExpression

def argsOfTree (source : List Char) : Tree → Except SyntaxError (List Expr)
  | .node kind span children =>
    let tree : Tree := .node kind span children
    match children with
    | [] => tree.reject source .missingPart
    | opening :: parts => do
        opening.expectText source "("
        argsOfParts source opening parts

def argsOfParts (source : List Char) (before : Tree) : List Tree → Except SyntaxError (List Expr)
  | [] => before.reject source .missingPart
  | item :: tail =>
      if item.isToken source .punctuation ")" then do
        Tree.expectEnd source tail
        return []
      else do
        let arg ← ofTree source item
        match tail with
        | [] => item.reject source .missingPart
        | separator :: rest =>
            if separator.text source = "," then
              return arg :: (← argsOfParts source separator rest)
            else if separator.text source = ")" then do
              Tree.expectEnd source rest
              return [arg]
            else separator.reject source .wrongSeparator

end

end Expr

end ScriptWasm
