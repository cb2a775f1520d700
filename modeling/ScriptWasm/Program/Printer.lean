import ScriptWasm.Program.Basic

/-!
The written form of programs: four spaces for each level of indentation, classes first, then the
definitions, then the statements. With types shown, every expression that a statement holds is
followed by its type in a comment.
-/

namespace ScriptWasm

set_option autoImplicit false

namespace Expr

mutual

def render : Expr → String
  | lit _ value => value.render
  | name _ word => word
  | call _ func args => func ++ "(" ++ String.intercalate ", " (renderAll args) ++ ")"
  | binary _ op left right => left.render ++ " " ++ op.symbol ++ " " ++ right.render
  | unary _ .not operand => "not " ++ operand.render
  | unary _ .neg operand => "-" ++ operand.render
  | paren _ inner => "(" ++ inner.render ++ ")"
  | attr _ value member => value.render ++ "." ++ member
  | construct _ className => className ++ "()"

def renderAll : List Expr → List String
  | [] => []
  | first :: rest => first.render :: renderAll rest

end

end Expr

def indented (depth : Nat) (text : String) : String :=
  String.ofList (List.replicate (4 * depth) ' ') ++ text

namespace Stmt

def exprLine (showTypes : Bool) (depth : Nat) (before : String) (expr : Expr) (after : String) :
    String :=
  let shown :=
    match showTypes, expr.ty? with
    | true, some ty => "  # " ++ ty.render
    | _, _ => ""
  indented depth (before ++ expr.render ++ after ++ shown)

mutual

def lines (showTypes : Bool) (depth : Nat) : Stmt → List String
  | assign _ target value => [exprLine showTypes depth (target ++ " = ") value ""]
  | expr _ value => [exprLine showTypes depth "" value ""]
  | pass _ => [indented depth "pass"]
  | fieldAssign _ object field value =>
      [exprLine showTypes depth (object.render ++ "." ++ field ++ " = ") value ""]
  | ret _ value => [exprLine showTypes depth "return " value ""]
  | cond _ test body orelse =>
      exprLine showTypes depth "if " test ":" :: nestedLines showTypes (depth + 1) body ++
        if orelse.isEmpty then []
        else indented depth "else:" :: allLines showTypes (depth + 1) orelse
  | loop _ test body =>
      exprLine showTypes depth "while " test ":" :: nestedLines showTypes (depth + 1) body

def allLines (showTypes : Bool) (depth : Nat) : List Stmt → List String
  | [] => []
  | first :: rest => lines showTypes depth first ++ allLines showTypes depth rest

/-- The lines of a block that may not be left empty. -/
def nestedLines (showTypes : Bool) (depth : Nat) : List Stmt → List String
  | [] => [indented depth "pass"]
  | first :: rest => lines showTypes depth first ++ allLines showTypes depth rest

end

end Stmt

def VarDef.line (depth : Nat) (var : VarDef) : String :=
  indented depth (var.name ++ ": " ++ var.ty.render ++ " = " ++ var.init.render)

def FuncDef.lines (showTypes : Bool) (func : FuncDef) : List String :=
  let params := func.params.map fun param => param.name ++ ": " ++ param.ty.render
  let header :=
    "def " ++ func.name ++ "(" ++ String.intercalate ", " params ++ ") -> " ++ func.result.render ++
      ":"
  let filler :=
    if func.locals.isEmpty && func.body.isEmpty then [indented 1 "pass"] else []
  header :: func.locals.map (VarDef.line 1) ++ filler ++ Stmt.allLines showTypes 1 func.body

def ClassDef.lines (definition : ClassDef) : List String :=
  let filler := if definition.fields.isEmpty then [indented 1 "pass"] else []
  ("class " ++ definition.name ++ ":") :: filler ++ definition.fields.map (VarDef.line 1)

def Def.lines (showTypes : Bool) : Def → List String
  | var definition => [definition.line 0]
  | func definition => definition.lines showTypes

def Program.lines (showTypes : Bool) (program : Program) : List String :=
  program.classes.flatMap ClassDef.lines ++
    program.defs.flatMap (Def.lines showTypes) ++
    Stmt.allLines showTypes 0 program.stmts

def Program.render (showTypes : Bool) (program : Program) : String :=
  String.join ((program.lines showTypes).map (· ++ "\n"))

end ScriptWasm
