import ScriptWasm.Proofs.Program.Readable
import ScriptWasm.Proofs.Token.Shapes

/-!
The tokens of expressions, statements and programs in their written form. Every expression starts
with a token that only expressions start with, and its parentheses are balanced.
-/

namespace ScriptWasm

set_option autoImplicit false

def BinaryOp.kind : BinaryOp → TokenKind
  | add => .plus
  | sub => .minus
  | mul => .star
  | floorDivide => .floorDivide
  | modulo => .percent
  | equal => .equal
  | notEqual => .notEqual
  | lessEqual => .lessEqual
  | greaterEqual => .greaterEqual
  | less => .less
  | greater => .greater
  | is => .name

def BinaryOp.shape (op : BinaryOp) : Shape :=
  (op.kind, op.symbol)

def UnaryOp.shape : UnaryOp → Shape
  | neg => TokenKind.minus.shape
  | not => (.name, "not")

def Literal.shape : Literal → Shape
  | int value => (.number, value.render)
  | bool true => TokenKind.trueWord.shape
  | bool false => TokenKind.falseWord.shape
  | none => TokenKind.noneWord.shape

namespace Expr

mutual

def shapes : Expr → List Shape
  | lit _ value => [value.shape]
  | name _ word => [(.name, word)]
  | call _ func args =>
      (.name, func) :: TokenKind.leftParen.shape :: separated (shapesOfAll args) ++
        [TokenKind.rightParen.shape]
  | binary _ op left right => left.shapes ++ op.shape :: right.shapes
  | unary _ op operand => op.shape :: operand.shapes
  | paren _ inner => TokenKind.leftParen.shape :: inner.shapes ++ [TokenKind.rightParen.shape]
  | attr _ value member => value.shapes ++ [TokenKind.dot.shape, (.name, member)]
  | construct _ className =>
      [(.name, className), TokenKind.leftParen.shape, TokenKind.rightParen.shape]

def shapesOfAll : List Expr → List (List Shape)
  | [] => []
  | first :: rest => first.shapes :: shapesOfAll rest

end

end Expr

theorem Expr.shapes_of_all_eq (args : List Expr) : shapesOfAll args = args.map shapes := by
  induction args with
  | nil => rfl
  | cons first rest induction => rw [shapesOfAll, induction, List.map_cons]

/-- A literal as an expression. A negative integer is the negation of a positive one. -/
def Literal.asExpr : Literal → Expr
  | int value =>
      if value < 0 then .unary ⟨nowhere, .none⟩ .neg (.lit ⟨nowhere, .none⟩ (int (-value)))
      else .lit ⟨nowhere, .none⟩ (int value)
  | value => .lit ⟨nowhere, .none⟩ value

def lineEnd : Shape :=
  (.newline, "\n")

def blockShapes (inside : List Shape) : List Shape :=
  TokenKind.colon.shape :: lineEnd :: (.indent, "\n") :: inside ++ [(.dedent, "\n")]

def Ty.shape : Ty → Shape
  | none => TokenKind.noneWord.shape
  | ty => (.name, ty.render)

namespace Stmt

mutual

def shapes : Stmt → List Shape
  | assign _ target value => (.name, target) :: TokenKind.assign.shape :: value.shapes ++ [lineEnd]
  | expr _ value => value.shapes ++ [lineEnd]
  | pass _ => [TokenKind.passWord.shape, lineEnd]
  | fieldAssign _ object field value =>
      object.shapes ++ TokenKind.dot.shape :: (.name, field) :: TokenKind.assign.shape ::
        value.shapes ++ [lineEnd]
  | ret _ value => TokenKind.returnWord.shape :: value.shapes ++ [lineEnd]
  | cond _ test body orelse =>
      TokenKind.ifWord.shape :: test.shapes ++ blockShapes (allShapes body) ++
        if orelse.isEmpty then [] else TokenKind.elseWord.shape :: blockShapes (allShapes orelse)
  | loop _ test body => TokenKind.whileWord.shape :: test.shapes ++ blockShapes (allShapes body)

def allShapes : List Stmt → List Shape
  | [] => []
  | first :: rest => first.shapes ++ allShapes rest

end

end Stmt

def VarDef.shapes (var : VarDef) : List Shape :=
  (.name, var.name) :: TokenKind.colon.shape :: var.ty.shape :: TokenKind.assign.shape ::
    var.init.asExpr.shapes ++ [lineEnd]

def Param.shapes (param : Param) : List Shape :=
  [(.name, param.name), TokenKind.colon.shape, param.ty.shape]

inductive Member where
  | «class» (definition : ClassDef)
  | var (definition : VarDef)
  | func (definition : FuncDef)
  | stmt (statement : Stmt)

def FuncDef.shapes (func : FuncDef) : List Shape :=
  TokenKind.defWord.shape :: (.name, func.name) ::
    (TokenKind.leftParen.shape :: separated (func.params.map Param.shapes) ++
      [TokenKind.rightParen.shape]) ++
    TokenKind.arrow.shape :: func.result.shape ::
    blockShapes (func.locals.flatMap VarDef.shapes ++ Stmt.allShapes func.body)

/-- The lines of a class that has no fields say `pass`. -/
def ClassDef.shapes (definition : ClassDef) : List Shape :=
  TokenKind.classWord.shape :: (.name, definition.name) ::
    blockShapes (if definition.fields.isEmpty then (Stmt.pass nowhere).shapes
      else definition.fields.flatMap VarDef.shapes)

namespace Member

def shapes : Member → List Shape
  | «class» definition => definition.shapes
  | var definition => definition.shapes
  | func definition => definition.shapes
  | stmt statement => statement.shapes

def ofDef : Def → Member
  | .var definition => var definition
  | .func definition => func definition

end Member

def FuncDef.members (func : FuncDef) : List Member :=
  func.locals.map .var ++ func.body.map .stmt

def ClassDef.members (definition : ClassDef) : List Member :=
  if definition.fields.isEmpty then [.stmt (.pass nowhere)] else definition.fields.map .var

def Program.members (program : Program) : List Member :=
  program.classes.map .class ++ program.defs.map .ofDef ++ program.stmts.map .stmt

def Program.shapes (program : Program) : List Shape :=
  program.members.flatMap Member.shapes ++ [(.endOfFile, "")]

theorem Stmt.all_shapes_eq (stmts : List Stmt) :
    allShapes stmts = (stmts.map Member.stmt).flatMap Member.shapes := by
  induction stmts with
  | nil => rfl
  | cons first rest induction =>
      rw [allShapes, induction, List.map_cons, List.flatMap_cons, Member.shapes]

theorem flat_map_vars (vars : List VarDef) :
    vars.flatMap VarDef.shapes = (vars.map Member.var).flatMap Member.shapes := by
  rw [List.flatMap_map]
  rfl

theorem FuncDef.shapes_of_members (func : FuncDef) :
    func.locals.flatMap VarDef.shapes ++ Stmt.allShapes func.body =
      func.members.flatMap Member.shapes := by
  rw [members, List.flatMap_append, ← flat_map_vars, ← Stmt.all_shapes_eq]

theorem ClassDef.shapes_of_members (definition : ClassDef) :
    (if definition.fields.isEmpty then (Stmt.pass nowhere).shapes
      else definition.fields.flatMap VarDef.shapes) = definition.members.flatMap Member.shapes := by
  unfold members
  split
  · rw [List.flatMap_singleton, Member.shapes]
  · exact flat_map_vars definition.fields

mutual

/-- An expression stands inside a line, and its parentheses are balanced. -/
theorem Expr.shapes_inline (expr : Expr) : Inline expr.shapes := by
  cases expr with
  | lit note value =>
      cases value with
      | int value => exact inline_single .number _ (by decide)
      | bool truth =>
          cases truth with
          | false => exact inline_single .falseWord _ (by decide)
          | true => exact inline_single .trueWord _ (by decide)
      | none => exact inline_single .noneWord _ (by decide)
  | name note word => exact inline_single .name word (by decide)
  | call note func args =>
      rw [shapes]
      apply inline_cons .name func _ (by decide)
      exact inline_parens _ (inline_separated _ (Expr.all_shapes_inline args))
  | binary note op left right =>
      rw [shapes]
      apply inline_append _ _ (Expr.shapes_inline left)
      apply inline_cons op.kind op.symbol _ (by cases op <;> decide)
      exact Expr.shapes_inline right
  | unary note op operand =>
      rw [shapes]
      cases op with
      | neg => exact inline_cons .minus _ _ (by decide) (Expr.shapes_inline operand)
      | not => exact inline_cons .name _ _ (by decide) (Expr.shapes_inline operand)
  | paren note inner => exact inline_parens _ (Expr.shapes_inline inner)
  | attr note value member =>
      rw [shapes]
      apply inline_append _ _ (Expr.shapes_inline value)
      exact inline_cons .dot _ _ (by decide) (inline_single .name member (by decide))
  | construct note className =>
      exact inline_cons .name className _ (by decide) (inline_parens [] inline_nil)
termination_by structural expr

theorem Expr.all_shapes_inline (args : List Expr) :
    ∀ item ∈ Expr.shapesOfAll args, Inline item := by
  cases args with
  | nil => exact fun _ impossible => by cases impossible
  | cons first rest =>
      intro item member
      rw [Expr.shapesOfAll] at member
      rcases List.mem_cons.mp member with rfl | later
      · exact Expr.shapes_inline first
      · exact Expr.all_shapes_inline rest item later
termination_by structural args

end

def TokenKind.startsExpr (kind : TokenKind) : Bool :=
  [.name, .number, .trueWord, .falseWord, .noneWord, .leftParen, .minus].contains kind

/-- The first token of an expression. It is the name `not` only where the expression says so. -/
theorem Expr.first_shape (expr : Expr) (readable : expr.Readable) :
    ∃ kind text rest, expr.shapes = (kind, text) :: rest ∧ kind.startsExpr = true ∧
      (4 ≤ expr.level → (kind = .name ∧ text = "not" ↔ expr.leadingNot = true)) ∧
      (expr.level = 9 → kind ≠ .minus) := by
  cases expr with
  | lit note value =>
      cases value with
      | int value => exact ⟨.number, _, [], rfl, rfl, fun _ => by simp [leadingNot],
          fun _ => by decide⟩
      | bool truth =>
          cases truth with
          | false => exact ⟨.falseWord, _, [], rfl, rfl, fun _ => by simp [leadingNot],
              fun _ => by decide⟩
          | true => exact ⟨.trueWord, _, [], rfl, rfl, fun _ => by simp [leadingNot],
              fun _ => by decide⟩
      | none => exact ⟨.noneWord, _, [], rfl, rfl, fun _ => by simp [leadingNot],
          fun _ => by decide⟩
  | name note word => exact ⟨.name, word, [], rfl, rfl, fun _ => by simp [leadingNot],
      fun _ => by decide⟩
  | call note func args => exact ⟨.name, func, _, rfl, rfl, fun _ => by simp [leadingNot],
      fun _ => by decide⟩
  | binary note op left right =>
      obtain ⟨kind, text, rest, shape, starts, names, _⟩ := Expr.first_shape left readable.2.2.2.1
      have tight : 4 ≤ left.level :=
        Nat.le_trans (by cases op <;> decide) readable.1
      refine ⟨kind, text, _, by rw [shapes, shape, List.cons_append], starts, fun _ => names tight, ?_⟩
      intro impossible
      cases op <;> cases impossible
  | unary note op operand =>
      cases op with
      | neg =>
          refine ⟨.minus, _, _, rfl, rfl, fun _ => by simp [leadingNot], ?_⟩
          intro impossible
          cases impossible
      | not =>
          refine ⟨.name, _, _, rfl, rfl, fun impossible => ?_, fun _ => by decide⟩
          exact absurd impossible (by rw [level]; omega)
  | paren note inner =>
      exact ⟨.leftParen, _, _, rfl, rfl, fun _ => by simp [leadingNot], fun _ => by decide⟩
  | attr note value member => exact readable.elim
  | construct note className => exact readable.elim
termination_by structural expr

end ScriptWasm
