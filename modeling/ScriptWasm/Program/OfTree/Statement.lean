import ScriptWasm.Program.OfTree.Definition
import ScriptWasm.Tree.Statement

/-!
Statements, functions and whole programs read from their trees. Declarations come before statements:
variables and functions at the top level, variables alone in a function, and none in the blocks of
conditions and loops.
-/

namespace ScriptWasm

set_option autoImplicit false

inductive Form where
  | variable
  | function
  | «class»
  | statement
deriving DecidableEq, Repr

/-- What a node of a block declares. An assignment with a type declares a variable. -/
def Tree.form (tree : Tree) : Form :=
  match tree.kind with
  | .classDefinition => .class
  | .functionDefinition => .function
  | .assignStatement =>
      match tree.children[1]? with
      | some second => if second.kind = .typeDef then .variable else .statement
      | none => .statement
  | _ => .statement

namespace Stmt

variable (source : List Char)

def assignOfTree (tree : Tree) : Except SyntaxError Stmt :=
  Reading.parts source tree do
    let target ← Reading.nextOf source .variableName
    let _ ← Reading.nextOf source .assignOp
    let value ← Reading.next source
    return assign tree.span (target.text source) (← Expr.ofTree source value)

def exprOfTree (tree : Tree) : Except SyntaxError Stmt :=
  Reading.parts source tree do
    let value ← Reading.next source
    return expr tree.span (← Expr.ofTree source value)

/-- A return without a value returns `None`, written where the keyword is. -/
def returnOfTree (tree : Tree) : Except SyntaxError Stmt :=
  Reading.parts source tree do
    let keyword ← Reading.next source
    match (← get).peek? with
    | none => return ret tree.span (.lit ⟨keyword.span, none⟩ .none)
    | some _ => return ret tree.span (← Expr.ofTree source (← Reading.next source))

mutual

def ofTree : Tree → Except SyntaxError Stmt
  | .node kind span children =>
    let tree : Tree := .node kind span children
    match kind with
    | .assignStatement => assignOfTree source tree
    | .passStatement => return pass span
    | .returnStatement => returnOfTree source tree
    | .expressionStatement => exprOfTree source tree
    | .ifStatement =>
        match children with
        | [] => tree.reject source .missingPart
        | keyword :: parts => do
            keyword.expectText source "if"
            condOfParts keyword span parts
    | .whileStatement =>
        match children with
        | [] => tree.reject source .missingPart
        | [keyword] => keyword.reject source .missingPart
        | _ :: test :: tail => do
            let testExpr ← Expr.ofTree source test
            match tail with
            | [] => test.reject source .missingPart
            | body :: rest => do
                let stmts ← blockOfTree body
                Tree.expectEnd source rest
                return loop span testExpr stmts
    | _ => tree.reject source (.unknownStatement kind)

/-- The condition after `if` or `elif` with what follows it. An `elif` is a condition in the place
of an `else`, and reaches to the end of the whole statement. -/
def condOfParts (before : Tree) (span : Span) : List Tree → Except SyntaxError Stmt
  | [] => before.reject source .missingPart
  | test :: tail => do
      let testExpr ← Expr.ofTree source test
      match tail with
      | [] => test.reject source .missingPart
      | body :: tail => do
          let stmts ← blockOfTree body
          match tail with
          | [] => return cond span testExpr stmts []
          | keyword :: tail =>
              if keyword.text source = "elif" then do
                let other ← condOfParts keyword ⟨keyword.span.start, span.stop⟩ tail
                return cond span testExpr stmts [other]
              else if keyword.text source = "else" then
                match tail with
                | [] => keyword.reject source .missingPart
                | orelse :: rest => do
                    let otherStmts ← blockOfTree orelse
                    Tree.expectEnd source rest
                    return cond span testExpr stmts otherStmts
              else keyword.reject source .wrongBranch

def blockOfTree : Tree → Except SyntaxError (List Stmt)
  | .node kind span children => do
    let tree : Tree := .node kind span children
    tree.expectKind source .body
    match children with
    | [] => tree.reject source .missingPart
    | colon :: parts => do
        colon.expectText source ":"
        allOfParts false parts

/-- Statements alone. A declaration among them is refused, after a statement for its place and
before one for its kind. -/
def allOfParts (started : Bool) : List Tree → Except SyntaxError (List Stmt)
  | [] => return []
  | first :: rest =>
      match first.form with
      | .statement => return (← ofTree first) :: (← allOfParts true rest)
      | .variable => first.reject source (if started then .lateDeclaration else .nestedVariable)
      | .function => first.reject source (if started then .lateDeclaration else .nestedFunction)
      | .class => first.reject source (if started then .lateDeclaration else .nestedClass)

end

end Stmt

variable (source : List Char)

def FuncDef.bodyOfParts : List Tree → Except SyntaxError (List VarDef × List Stmt)
  | [] => return ([], [])
  | first :: rest =>
      match first.form with
      | .variable => do
          let var ← VarDef.ofTree source first
          let (vars, stmts) ← FuncDef.bodyOfParts rest
          return (var :: vars, stmts)
      | _ => return ([], ← Stmt.allOfParts source false (first :: rest))

def FuncDef.bodyOfTree (tree : Tree) : Except SyntaxError (List VarDef × List Stmt) :=
  match tree.children with
  | [] => tree.reject source .missingPart
  | colon :: parts => do
      colon.expectText source ":"
      FuncDef.bodyOfParts source parts

/-- A function. Without a declared type it returns `None`. -/
def FuncDef.ofTree (tree : Tree) : Except SyntaxError FuncDef :=
  Reading.parts source tree do
    let _ ← Reading.nextText source "def"
    let name ← Reading.nextOf source .variableName
    let params ← Param.allOfTree source (← Reading.nextOf source .paramList)
    let part ← Reading.next source
    let (result, body) ←
      if part.kind = .typeDef then do
        let (ty, _) ← Ty.ofTree source part
        pure (ty, ← Reading.next source)
      else pure (.none, part)
    body.expectKind source .body
    let (locals, stmts) ← FuncDef.bodyOfTree source body
    return ⟨name.text source, params, result, locals, stmts, tree.span⟩

def Program.ofParts : List Tree → Except SyntaxError Program
  | [] => return ⟨[], [], []⟩
  | first :: rest =>
      match first.form with
      | .class => do
          let definition ← ClassDef.ofTree source first
          let program ← Program.ofParts rest
          return { program with classes := definition :: program.classes }
      | .variable => do
          let var ← VarDef.ofTree source first
          let program ← Program.ofParts rest
          return { program with defs := .var var :: program.defs }
      | .function => do
          let func ← FuncDef.ofTree source first
          let program ← Program.ofParts rest
          return { program with defs := .func func :: program.defs }
      | .statement => return ⟨[], ← Stmt.allOfParts source false (first :: rest), []⟩

def Program.ofTree (tree : Tree) : Except SyntaxError Program := do
  tree.expectKind source .script
  Program.ofParts source tree.children

def Program.ofSource : Except SyntaxError Program :=
  match Tree.ofSource source with
  | .ok tree => Program.ofTree source tree
  | .error error => .error (.ofParseError source error)

end ScriptWasm
