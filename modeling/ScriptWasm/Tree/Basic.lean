import ScriptWasm.Text.Quoted
import ScriptWasm.Text.Span

/-!
Syntax trees keep what was written: every node has a kind, the span it covers, and its parts in
source order. Keywords, operators and punctuation are leaves.
-/

namespace ScriptWasm

set_option autoImplicit false

inductive NodeKind where
  | script
  | assignStatement | functionDefinition | classDefinition | ifStatement | whileStatement
  | returnStatement | passStatement | breakStatement | continueStatement | expressionStatement
  | typeDef | assignOp | paramList | body | argList
  | callExpression | memberExpression | binaryExpression | unaryExpression
  | parenthesizedExpression | variableName | number | string | boolean | noneWord
  | keyword | operator | punctuation
deriving DecidableEq, Repr

namespace NodeKind

def label : NodeKind → String
  | script => "Script"
  | assignStatement => "AssignStatement"
  | functionDefinition => "FunctionDefinition"
  | classDefinition => "ClassDefinition"
  | ifStatement => "IfStatement"
  | whileStatement => "WhileStatement"
  | returnStatement => "ReturnStatement"
  | passStatement => "PassStatement"
  | breakStatement => "BreakStatement"
  | continueStatement => "ContinueStatement"
  | expressionStatement => "ExpressionStatement"
  | typeDef => "TypeDef"
  | assignOp => "AssignOp"
  | paramList => "ParamList"
  | body => "Body"
  | argList => "ArgList"
  | callExpression => "CallExpression"
  | memberExpression => "MemberExpression"
  | binaryExpression => "BinaryExpression"
  | unaryExpression => "UnaryExpression"
  | parenthesizedExpression => "ParenthesizedExpression"
  | variableName => "VariableName"
  | number => "Number"
  | string => "String"
  | boolean => "Boolean"
  | noneWord => "None"
  | keyword => "Keyword"
  | operator => "Operator"
  | punctuation => "Punctuation"

end NodeKind

inductive Tree where
  | node (kind : NodeKind) (span : Span) (children : List Tree)

namespace Tree

instance : Inhabited Tree :=
  ⟨node .script ⟨0, 0⟩ []⟩

def kind : Tree → NodeKind
  | node kind _ _ => kind

def span : Tree → Span
  | node _ span _ => span

def children : Tree → List Tree
  | node _ _ children => children

def leaf (kind : NodeKind) (span : Span) : Tree :=
  node kind span []

/-- A node that reaches from the start of its first part to the end of its last. -/
def branch (kind : NodeKind) (children : List Tree) : Tree :=
  let start := (children.head?.map (·.span.start)).getD 0
  let stop := (children.getLast?.map (·.span.stop)).getD start
  node kind ⟨start, stop⟩ children

def text (source : List Char) (tree : Tree) : String :=
  tree.span.textIn source

def isToken (source : List Char) (kind : NodeKind) (text : String) (tree : Tree) : Bool :=
  tree.kind = kind && tree.text source = text

mutual

/-- One line for each node, two spaces deeper than the line of its parent. A node without parts also
shows its text. -/
def dumpLines (source : List Char) (depth : Nat) : Tree → List String
  | node kind span children =>
      let shown := if children.isEmpty then " " ++ quoted (span.textIn source) else ""
      (String.ofList (List.replicate (2 * depth) ' ') ++ kind.label ++ " " ++ span.render ++ shown)
        :: dumpAllLines source (depth + 1) children

def dumpAllLines (source : List Char) (depth : Nat) : List Tree → List String
  | [] => []
  | first :: rest => dumpLines source depth first ++ dumpAllLines source depth rest

end

def dump (source : List Char) (tree : Tree) : String :=
  String.join ((dumpLines source 0 tree).map (· ++ "\n"))

end Tree

structure Walk where
  parent : Tree
  taken : Nat

namespace Walk

def start (parent : Tree) : Walk :=
  ⟨parent, 0⟩

def peek? (walk : Walk) : Option Tree :=
  walk.parent.children[walk.taken]?

/-- The part taken last, and the parent before the first step. -/
def current (walk : Walk) : Tree :=
  match walk.taken with
  | 0 => walk.parent
  | before + 1 => (walk.parent.children[before]?).getD walk.parent

/-- Takes the next part. At the end the walk stays where it is. -/
def next (walk : Walk) : Option Tree × Walk :=
  match walk.peek? with
  | some part => (some part, { walk with taken := walk.taken + 1 })
  | none => (none, walk)

end Walk

end ScriptWasm
