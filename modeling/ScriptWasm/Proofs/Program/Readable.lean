import ScriptWasm.Proofs.Program.Erasure
import ScriptWasm.Token.Lexer

/-!
What can be written down. The written form of an expression has no parentheses of its own, so the
operands of an operator have to bind tightly enough, and the word `not` may not come first where a
negation could start. Blocks are never empty, names are names, and integers are those that a number
can denote.
-/

namespace ScriptWasm

set_option autoImplicit false

structure IsName (word : String) : Prop where
  letters : ∃ first rest, word.toList = first :: rest ∧ Lexer.isNameStart first = true ∧
    ∀ char ∈ rest, Lexer.isNameChar char = true
  free : TokenKind.ofWord word = .name

/-- How tightly an operator binds. -/
def BinaryOp.level : BinaryOp → Nat
  | mul | floorDivide | modulo => 6
  | add | sub => 5
  | _ => 4

namespace Expr

/-- How tightly an expression holds together. A call, a name, a literal and what stands in
parentheses cannot be taken apart. -/
def level : Expr → Nat
  | binary _ op _ _ => op.level
  | unary _ .neg _ => 7
  | unary _ .not _ => 3
  | _ => 9

/-- Whether the first word is `not` in the place of a name. -/
def leadingNot : Expr → Bool
  | name _ word => word = "not"
  | call _ func _ => func = "not"
  | binary _ _ left _ => left.leadingNot
  | attr _ value _ => value.leadingNot
  | construct _ className => className = "not"
  | _ => false

mutual

def Readable : Expr → Prop
  | lit _ (.int value) => 0 ≤ value.toInt
  | lit _ _ => True
  | name _ word => IsName word
  | call _ func args => IsName func ∧ AllWhole args
  | binary _ op left right =>
      op.level ≤ left.level ∧ op.level < right.level ∧
        (op = .is → right.leadingNot = false) ∧ left.Readable ∧ right.Readable
  | unary _ .neg operand => 7 ≤ operand.level ∧ operand.Readable
  | unary _ .not operand => 3 ≤ operand.level ∧ operand.leadingNot = false ∧ operand.Readable
  | paren _ inner => inner.leadingNot = false ∧ inner.Readable
  | attr _ _ _ => False
  | construct _ _ => False

def AllWhole : List Expr → Prop
  | [] => True
  | first :: rest => (first.leadingNot = false ∧ first.Readable) ∧ AllWhole rest

end

def Whole (expr : Expr) : Prop :=
  expr.leadingNot = false ∧ expr.Readable

theorem all_whole_iff (exprs : List Expr) : AllWhole exprs ↔ ∀ expr ∈ exprs, expr.Whole := by
  induction exprs with
  | nil => simp [AllWhole]
  | cons first rest induction => simp [AllWhole, induction, Whole]

end Expr

namespace Stmt

mutual

def Readable : Stmt → Prop
  | assign _ target value => IsName target ∧ target ≠ "not" ∧ value.Whole
  | expr _ value => value.Whole
  | pass _ => True
  | fieldAssign _ _ _ _ => False
  | ret _ value => value.Whole
  | cond _ test body orelse => test.Whole ∧ body ≠ [] ∧ AllReadable body ∧ AllReadable orelse
  | loop _ test body => test.Whole ∧ body ≠ [] ∧ AllReadable body

def AllReadable : List Stmt → Prop
  | [] => True
  | first :: rest => first.Readable ∧ AllReadable rest

end

theorem all_readable_iff (stmts : List Stmt) :
    AllReadable stmts ↔ ∀ stmt ∈ stmts, stmt.Readable := by
  induction stmts with
  | nil => simp [AllReadable]
  | cons first rest induction => simp [AllReadable, induction]

end Stmt

/-- A declaration whose type has a name and whose value can be written. The least integer cannot,
because no number denotes its magnitude. -/
structure VarDef.Readable (var : VarDef) : Prop where
  name : IsName var.name
  notNot : var.name ≠ "not"
  ty : var.ty.Plain
  init : ∀ value, var.init = .int value → value ≠ Int32.minValue

structure Param.Readable (param : Param) : Prop where
  name : IsName param.name
  ty : param.ty.Plain

structure FuncDef.Readable (func : FuncDef) : Prop where
  name : IsName func.name
  params : ∀ param ∈ func.params, param.Readable
  result : func.result.Plain
  locals : ∀ var ∈ func.locals, var.Readable
  body : Stmt.AllReadable func.body
  notEmpty : func.locals ≠ [] ∨ func.body ≠ []

structure ClassDef.Readable (definition : ClassDef) : Prop where
  name : IsName definition.name
  fields : ∀ var ∈ definition.fields, var.Readable

structure Program.Readable (program : Program) : Prop where
  classes : ∀ definition ∈ program.classes, definition.Readable
  vars : ∀ var ∈ program.vars, var.Readable
  funcs : ∀ func ∈ program.funcs, func.Readable
  stmts : Stmt.AllReadable program.stmts

section Notes

variable (change : Note → Note)

@[simp] theorem Expr.level_map_notes (expr : Expr) : (expr.mapNotes change).level = expr.level := by
  cases expr with
  | unary note op operand => cases op <;> rfl
  | _ => rfl

@[simp] theorem Expr.leading_not_map_notes (expr : Expr) :
    (expr.mapNotes change).leadingNot = expr.leadingNot := by
  cases expr with
  | binary note op left right =>
      rw [Expr.mapNotes, Expr.leadingNot, Expr.leadingNot, Expr.leading_not_map_notes left]
  | attr note value member =>
      rw [Expr.mapNotes, Expr.leadingNot, Expr.leadingNot, Expr.leading_not_map_notes value]
  | _ => rfl
termination_by structural expr

mutual

/-- Whether an expression can be written does not depend on its notes. -/
theorem Expr.readable_map_notes (expr : Expr) :
    (expr.mapNotes change).Readable ↔ expr.Readable := by
  cases expr with
  | lit note value => cases value <;> exact Iff.rfl
  | name note word => exact Iff.rfl
  | call note func args =>
      rw [Expr.mapNotes, Expr.Readable, Expr.Readable, Expr.all_whole_map_notes args]
  | binary note op left right =>
      rw [Expr.mapNotes, Expr.Readable, Expr.Readable, Expr.readable_map_notes left,
        Expr.readable_map_notes right, Expr.level_map_notes, Expr.level_map_notes,
        Expr.leading_not_map_notes]
  | unary note op operand =>
      cases op with
      | neg =>
          rw [Expr.mapNotes, Expr.Readable, Expr.Readable, Expr.readable_map_notes operand,
            Expr.level_map_notes]
      | not =>
          rw [Expr.mapNotes, Expr.Readable, Expr.Readable, Expr.readable_map_notes operand,
            Expr.level_map_notes, Expr.leading_not_map_notes]
  | paren note inner =>
      rw [Expr.mapNotes, Expr.Readable, Expr.Readable, Expr.readable_map_notes inner,
        Expr.leading_not_map_notes]
  | attr note value member => exact Iff.rfl
  | construct note className => exact Iff.rfl
termination_by structural expr

theorem Expr.all_whole_map_notes (args : List Expr) :
    Expr.AllWhole (Expr.mapAllNotes change args) ↔ Expr.AllWhole args := by
  cases args with
  | nil => exact Iff.rfl
  | cons first rest =>
      rw [Expr.mapAllNotes, Expr.AllWhole, Expr.AllWhole, Expr.readable_map_notes first,
        Expr.leading_not_map_notes, Expr.all_whole_map_notes rest]
termination_by structural args

end

theorem Expr.whole_map_notes (expr : Expr) : (expr.mapNotes change).Whole ↔ expr.Whole := by
  rw [Expr.Whole, Expr.Whole, Expr.readable_map_notes, Expr.leading_not_map_notes]

theorem Stmt.map_all_notes_eq_nil (stmts : List Stmt) :
    Stmt.mapAllNotes change stmts = [] ↔ stmts = [] := by
  cases stmts <;> simp [Stmt.mapAllNotes]

mutual

theorem Stmt.readable_map_notes (stmt : Stmt) :
    (stmt.mapNotes change).Readable ↔ stmt.Readable := by
  cases stmt with
  | assign span target value =>
      rw [Stmt.mapNotes, Stmt.Readable, Stmt.Readable, Expr.whole_map_notes]
  | expr span value => exact Expr.whole_map_notes change value
  | pass span => exact Iff.rfl
  | fieldAssign span object field value => exact Iff.rfl
  | ret span value => exact Expr.whole_map_notes change value
  | cond span test body orelse =>
      rw [Stmt.mapNotes, Stmt.Readable, Stmt.Readable, Expr.whole_map_notes,
        Stmt.all_readable_map_notes body, Stmt.all_readable_map_notes orelse, ne_eq, ne_eq,
        Stmt.map_all_notes_eq_nil]
  | loop span test body =>
      rw [Stmt.mapNotes, Stmt.Readable, Stmt.Readable, Expr.whole_map_notes,
        Stmt.all_readable_map_notes body, ne_eq, ne_eq, Stmt.map_all_notes_eq_nil]
termination_by structural stmt

theorem Stmt.all_readable_map_notes (stmts : List Stmt) :
    Stmt.AllReadable (Stmt.mapAllNotes change stmts) ↔ Stmt.AllReadable stmts := by
  cases stmts with
  | nil => exact Iff.rfl
  | cons first rest =>
      rw [Stmt.mapAllNotes, Stmt.AllReadable, Stmt.AllReadable, Stmt.readable_map_notes first,
        Stmt.all_readable_map_notes rest]
termination_by structural stmts

end

theorem VarDef.readable_without_spans (var : VarDef) : var.withoutSpans.Readable ↔ var.Readable :=
  ⟨fun ⟨name, notNot, ty, init⟩ => ⟨name, notNot, ty, init⟩,
    fun ⟨name, notNot, ty, init⟩ => ⟨name, notNot, ty, init⟩⟩

theorem Param.readable_without_span (param : Param) :
    param.withoutSpan.Readable ↔ param.Readable :=
  ⟨fun ⟨name, ty⟩ => ⟨name, ty⟩, fun ⟨name, ty⟩ => ⟨name, ty⟩⟩

theorem FuncDef.readable_map_notes (func : FuncDef) :
    (func.mapNotes change).Readable ↔ func.Readable := by
  have params : (∀ param ∈ (func.mapNotes change).params, param.Readable) ↔
      ∀ param ∈ func.params, param.Readable := by
    simp [FuncDef.mapNotes, Param.readable_without_span]
  have locals : (∀ var ∈ (func.mapNotes change).locals, var.Readable) ↔
      ∀ var ∈ func.locals, var.Readable := by
    simp [FuncDef.mapNotes, VarDef.readable_without_spans]
  have body : Stmt.AllReadable (func.mapNotes change).body ↔ Stmt.AllReadable func.body :=
    Stmt.all_readable_map_notes change func.body
  have notEmpty : ((func.mapNotes change).locals ≠ [] ∨ (func.mapNotes change).body ≠ []) ↔
      (func.locals ≠ [] ∨ func.body ≠ []) := by
    simp [FuncDef.mapNotes, Stmt.map_all_notes_eq_nil]
  constructor
  · rintro ⟨name, readableParams, result, readableLocals, readableBody, filled⟩
    exact ⟨name, params.mp readableParams, result, locals.mp readableLocals,
      body.mp readableBody, notEmpty.mp filled⟩
  · rintro ⟨name, readableParams, result, readableLocals, readableBody, filled⟩
    exact ⟨name, params.mpr readableParams, result, locals.mpr readableLocals,
      body.mpr readableBody, notEmpty.mpr filled⟩

theorem ClassDef.readable_without_spans (definition : ClassDef) :
    definition.withoutSpans.Readable ↔ definition.Readable := by
  have fields : (∀ var ∈ definition.withoutSpans.fields, var.Readable) ↔
      ∀ var ∈ definition.fields, var.Readable := by
    simp [ClassDef.withoutSpans, VarDef.readable_without_spans]
  exact ⟨fun ⟨name, readable⟩ => ⟨name, fields.mp readable⟩,
    fun ⟨name, readable⟩ => ⟨name, fields.mpr readable⟩⟩

theorem Program.vars_map_notes (program : Program) :
    (program.mapNotes change).vars = program.vars.map VarDef.withoutSpans := by
  rw [Program.vars, Program.vars, Program.mapNotes, List.filterMap_map, List.map_filterMap]
  apply List.filterMap_congr
  intro definition _
  cases definition <;> rfl

theorem Program.funcs_map_notes (program : Program) :
    (program.mapNotes change).funcs = program.funcs.map (FuncDef.mapNotes change) := by
  rw [Program.funcs, Program.funcs, Program.mapNotes, List.filterMap_map, List.map_filterMap]
  apply List.filterMap_congr
  intro definition _
  cases definition <;> rfl

theorem Program.readable_map_notes (program : Program) :
    (program.mapNotes change).Readable ↔ program.Readable := by
  have classes : (∀ definition ∈ (program.mapNotes change).classes, definition.Readable) ↔
      ∀ definition ∈ program.classes, definition.Readable := by
    simp [Program.mapNotes, ClassDef.readable_without_spans]
  have vars : (∀ var ∈ (program.mapNotes change).vars, var.Readable) ↔
      ∀ var ∈ program.vars, var.Readable := by
    simp [Program.vars_map_notes, VarDef.readable_without_spans]
  have funcs : (∀ func ∈ (program.mapNotes change).funcs, func.Readable) ↔
      ∀ func ∈ program.funcs, func.Readable := by
    simp [Program.funcs_map_notes, FuncDef.readable_map_notes]
  have stmts := Stmt.all_readable_map_notes change program.stmts
  constructor
  · rintro ⟨readableClasses, readableVars, readableFuncs, readableStmts⟩
    exact ⟨classes.mp readableClasses, vars.mp readableVars, funcs.mp readableFuncs,
      stmts.mp readableStmts⟩
  · rintro ⟨readableClasses, readableVars, readableFuncs, readableStmts⟩
    exact ⟨classes.mpr readableClasses, vars.mpr readableVars, funcs.mpr readableFuncs,
      stmts.mpr readableStmts⟩

end Notes

/-- Programs that are the same up to spans and annotations can be written together or not at all. -/
theorem Program.readable_of_erase_eq (program other : Program) (same : program.erase = other.erase)
    (readable : other.Readable) : program.Readable := by
  rw [← Program.readable_map_notes Note.blank] at readable ⊢
  rw [Program.erase] at same
  rw [same]
  exact readable

end ScriptWasm
