import ScriptWasm.Program.Operator
import ScriptWasm.Text.Span
import ScriptWasm.Word

/-!
Programs: definitions first, then the statements of the top level. Expressions carry the span they
were read from and, once a program has been checked, their type. Classes are kept but never run.
-/

namespace ScriptWasm

set_option autoImplicit false

inductive Ty where
  | int
  | bool
  | none
  | object (className : String)
deriving DecidableEq, Repr

namespace Ty

def render : Ty → String
  | int => "int"
  | bool => "bool"
  | none => "None"
  | object className => className

def ofName? (name : String) : Option Ty :=
  [int, bool, none].find? fun ty => ty.render = name

end Ty

inductive Literal where
  | int (value : Word)
  | bool (value : Bool)
  | none
deriving DecidableEq, Repr

namespace Literal

def ty : Literal → Ty
  | int _ => .int
  | bool _ => .bool
  | none => .none

def word : Literal → Word
  | int value => value
  | bool value => Word.ofBool value
  | none => 0

def render : Literal → String
  | int value => value.render
  | bool true => "True"
  | bool false => "False"
  | none => "None"

end Literal

structure Note where
  span : Span
  ty : Option Ty
deriving DecidableEq, Repr

inductive Expr where
  | lit (note : Note) (value : Literal)
  | name (note : Note) (name : String)
  | call (note : Note) (func : String) (args : List Expr)
  | binary (note : Note) (op : BinaryOp) (left right : Expr)
  | unary (note : Note) (op : UnaryOp) (operand : Expr)
  | paren (note : Note) (inner : Expr)
  | attr (note : Note) (value : Expr) (attr : String)
  | construct (note : Note) (className : String)

namespace Expr

def note : Expr → Note
  | lit note _ => note
  | name note _ => note
  | call note _ _ => note
  | binary note _ _ _ => note
  | unary note _ _ => note
  | paren note _ => note
  | attr note _ _ => note
  | construct note _ => note

def span (expr : Expr) : Span :=
  expr.note.span

def ty? (expr : Expr) : Option Ty :=
  expr.note.ty

def isNone : Expr → Bool
  | lit _ .none => true
  | _ => false

instance : Inhabited Expr :=
  ⟨lit ⟨⟨0, 0⟩, none⟩ .none⟩

end Expr

inductive Stmt where
  | assign (span : Span) (target : String) (value : Expr)
  | expr (span : Span) (value : Expr)
  | pass (span : Span)
  | fieldAssign (span : Span) (object : Expr) (field : String) (value : Expr)
  | ret (span : Span) (value : Expr)
  | cond (span : Span) (test : Expr) (body orelse : List Stmt)
  | loop (span : Span) (test : Expr) (body : List Stmt)

namespace Stmt

def span : Stmt → Span
  | assign span _ _ => span
  | expr span _ => span
  | pass span => span
  | fieldAssign span _ _ _ => span
  | ret span _ => span
  | cond span _ _ _ => span
  | loop span _ _ => span

instance : Inhabited Stmt :=
  ⟨pass ⟨0, 0⟩⟩

end Stmt

structure VarDef where
  name : String
  ty : Ty
  tySpan : Span
  init : Literal
  initSpan : Span
  span : Span
deriving DecidableEq, Repr

structure Param where
  name : String
  ty : Ty
  span : Span
deriving DecidableEq, Repr

structure FuncDef where
  name : String
  params : List Param
  result : Ty
  locals : List VarDef
  body : List Stmt
  span : Span

inductive Def where
  | var (definition : VarDef)
  | func (definition : FuncDef)

namespace Def

def name : Def → String
  | var definition => definition.name
  | func definition => definition.name

def span : Def → Span
  | var definition => definition.span
  | func definition => definition.span

end Def

structure ClassDef where
  name : String
  fields : List VarDef
  span : Span
deriving DecidableEq, Repr

structure Program where
  defs : List Def
  stmts : List Stmt
  classes : List ClassDef

end ScriptWasm
