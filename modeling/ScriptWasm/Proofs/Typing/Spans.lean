import ScriptWasm.Proofs.Program.Spans
import ScriptWasm.Typing.Analysis

/-!
Where type errors stand. Checking keeps the span of every expression, and a program is refused at a
span that it carries.
-/

namespace ScriptWasm

set_option autoImplicit false

def TypeError.StandsAt (spans : List Span) (error : TypeError) : Prop :=
  error.span ∈ spans

theorem declare_settles {Value : Type} (table : Table Value) (name : String) (value : Value)
    {span : Span} {spans : List Span} (member : span ∈ spans) :
    Settles (fun _ => True) (TypeError.StandsAt spans) (table.declare name value span) := by
  unfold Table.declare
  split
  · exact trivial
  · exact member

namespace Expr

theorem expect_ty_settles (expr : Expr) (expected got : Ty) {spans : List Span}
    (member : expr.span ∈ spans) :
    Settles (fun _ => True) (TypeError.StandsAt spans) (expr.expectTy expected got) := by
  unfold expectTy
  split
  · exact trivial
  · exact member

theorem binary_settles (scope : Scope) (note : Note) (op : BinaryOp) (left right : Expr)
    (first : Settles (fun answer => answer.1.span = left.span) (TypeError.StandsAt left.spans)
      (left.check scope))
    (second : Settles (fun answer => answer.1.span = right.span) (TypeError.StandsAt right.spans)
      (right.check scope)) :
    Settles (fun answer => answer.1.span = (binary note op left right).span)
      (TypeError.StandsAt (binary note op left right).spans)
      ((binary note op left right).check scope) := by
  have inLeft (span : Span) (inside : span ∈ left.spans) :
      span ∈ (binary note op left right).spans :=
    List.mem_cons_of_mem _ (List.mem_append_left _ inside)
  have inRight (span : Span) (inside : span ∈ right.spans) :
      span ∈ (binary note op left right).spans :=
    List.mem_cons_of_mem _ (List.mem_append_right _ inside)
  rw [check]
  apply settles_bind (first.allow fun error => inLeft error.span)
  intro answer leftSpan
  obtain ⟨typed, leftTy⟩ := answer
  have leftHere : typed.span ∈ (binary note op left right).spans :=
    leftSpan ▸ inLeft _ left.span_mem_spans
  dsimp only
  split
  · split
    · exact rfl
    · exact inRight _ right.span_mem_spans
  · apply settles_bind (second.allow fun error => inRight error.span)
    intro answer rightSpan
    obtain ⟨typedRight, rightTy⟩ := answer
    have rightHere : typedRight.span ∈ (binary note op left right).spans :=
      rightSpan ▸ inRight _ right.span_mem_spans
    dsimp only
    split
    · apply settles_bind (expect_ty_settles typed _ _ leftHere)
      intro _ _
      apply settles_bind (expect_ty_settles typedRight _ _ rightHere)
      intro _ _
      exact rfl
    · apply settles_bind (expect_ty_settles typedRight _ _ rightHere)
      intro _ _
      exact rfl

mutual

theorem check_settles (scope : Scope) (expr : Expr) :
    Settles (fun answer => answer.1.span = expr.span) (TypeError.StandsAt expr.spans)
      (expr.check scope) := by
  have here := expr.span_mem_spans
  cases expr with
  | lit note value => exact rfl
  | name note word =>
      rw [check]
      split
      · exact rfl
      · exact here
  | call note func args =>
      rw [check]
      split
      · exact here
      · split
        · apply settles_bind ((check_args_settles scope _ args).allow fun _ inside =>
            List.mem_cons_of_mem _ inside)
          intro typed _
          exact rfl
        · exact here
  | binary note op left right =>
      exact binary_settles scope note op left right (check_settles scope left)
        (check_settles scope right)
  | unary note op operand =>
      have inside (span : Span) (member : span ∈ operand.spans) :
          span ∈ (unary note op operand).spans :=
        List.mem_cons_of_mem _ member
      unfold check
      apply settles_bind ((check_settles scope operand).allow fun error => inside error.span)
      intro answer same
      apply settles_bind (expect_ty_settles answer.1 _ _
        (same ▸ inside _ operand.span_mem_spans))
      intro _ _
      exact rfl
  | paren note inner =>
      rw [check]
      apply settles_bind ((check_settles scope inner).allow fun _ inside =>
        List.mem_cons_of_mem _ inside)
      intro answer _
      exact rfl
  | attr note value member => exact here
  | construct note className => exact here

theorem check_args_settles (scope : Scope) (params : List (Option Ty)) (args : List Expr) :
    Settles (fun _ => True) (TypeError.StandsAt (spansOfAll args))
      (checkArgs scope params args) := by
  match params, args with
  | [], args =>
      unfold checkArgs
      exact trivial
  | _ :: _, [] => exact trivial
  | param :: params, arg :: args =>
      rw [checkArgs]
      apply settles_bind ((check_settles scope arg).allow fun _ inside =>
        List.mem_append_left _ inside)
      intro answer same
      have here : answer.1.span ∈ spansOfAll (arg :: args) :=
        List.mem_append_left _ (same ▸ arg.span_mem_spans)
      have others : Settles (fun _ => True) (TypeError.StandsAt (spansOfAll (arg :: args)))
          (do return answer.1 :: (← checkArgs scope params args)) := by
        apply settles_bind ((check_args_settles scope params args).allow fun _ inside =>
          List.mem_append_right _ inside)
        exact fun _ _ => trivial
      dsimp only
      cases param with
      | none => exact others
      | some expected =>
          apply settles_bind (expect_ty_settles answer.1 expected answer.2 here)
          exact fun _ _ => others

end

theorem check_test_settles (scope : Scope) (test : Expr) :
    Settles (fun _ => True) (TypeError.StandsAt test.spans) (test.checkTest scope) := by
  apply settles_bind (check_settles scope test)
  intro answer same
  apply settles_bind (expect_ty_settles answer.1 _ _ (same ▸ test.span_mem_spans))
  exact fun _ _ => trivial

end Expr

namespace Stmt

mutual

theorem check_settles (scope : Scope) (stmt : Stmt) :
    Settles (fun _ => True) (TypeError.StandsAt stmt.spans) (stmt.check scope) := by
  cases stmt with
  | assign span target value =>
      rw [check]
      apply settles_bind ((Expr.check_settles scope value).allow fun _ inside =>
        List.mem_cons_of_mem _ inside)
      intro answer _
      dsimp only
      split
      · exact List.mem_cons_self
      · split
        · exact trivial
        · exact List.mem_cons_self
  | expr span value =>
      rw [check]
      apply settles_bind ((Expr.check_settles scope value).allow fun _ inside =>
        List.mem_cons_of_mem _ inside)
      exact fun _ _ => trivial
  | pass span => exact trivial
  | fieldAssign span object field value => exact List.mem_cons_self
  | ret span value =>
      rw [check]
      apply settles_bind ((Expr.check_settles scope value).allow fun _ inside =>
        List.mem_cons_of_mem _ inside)
      intro answer same
      dsimp only
      split
      · apply settles_bind (Expr.expect_ty_settles answer.1 _ _
          (List.mem_cons_of_mem _ (same ▸ value.span_mem_spans)))
        exact fun _ _ => trivial
      · exact trivial
  | cond span test body orelse =>
      rw [check]
      apply settles_bind ((Expr.check_test_settles scope test).allow fun _ inside =>
        List.mem_cons_of_mem _ (List.mem_append_left _ (List.mem_append_left _ inside)))
      intro _ _
      apply settles_bind ((check_all_settles scope body).allow fun _ inside =>
        List.mem_cons_of_mem _ (List.mem_append_left _ (List.mem_append_right _ inside)))
      intro _ _
      apply settles_bind ((check_all_settles scope orelse).allow fun _ inside =>
        List.mem_cons_of_mem _ (List.mem_append_right _ inside))
      exact fun _ _ => trivial
  | loop span test body =>
      rw [check]
      apply settles_bind ((Expr.check_test_settles scope test).allow fun _ inside =>
        List.mem_cons_of_mem _ (List.mem_append_left _ inside))
      intro _ _
      apply settles_bind ((check_all_settles scope body).allow fun _ inside =>
        List.mem_cons_of_mem _ (List.mem_append_right _ inside))
      exact fun _ _ => trivial

theorem check_all_settles (scope : Scope) (stmts : List Stmt) :
    Settles (fun _ => True) (TypeError.StandsAt (spansOfAll stmts)) (checkAll scope stmts) := by
  cases stmts with
  | nil => exact trivial
  | cons first rest =>
      rw [checkAll]
      apply settles_bind ((check_settles scope first).allow fun _ inside =>
        List.mem_append_left _ inside)
      intro _ _
      apply settles_bind ((check_all_settles scope rest).allow fun _ inside =>
        List.mem_append_right _ inside)
      exact fun _ _ => trivial

end

mutual

theorem tail_ty_settles (scope : Scope) (stmt : Stmt) :
    Settles (fun _ => True) (TypeError.StandsAt stmt.spans) (tailTy scope stmt) := by
  cases stmt with
  | ret span value =>
      rw [tailTy]
      apply settles_bind ((Expr.check_settles scope value).allow fun _ inside =>
        List.mem_cons_of_mem _ inside)
      exact fun _ _ => trivial
  | cond span test body orelse =>
      rw [tailTy]
      apply settles_bind ((block_ty_settles scope body).allow fun _ inside =>
        List.mem_cons_of_mem _ (List.mem_append_left _ (List.mem_append_right _ inside)))
      intro first _
      apply settles_bind ((block_ty_settles scope orelse).allow fun _ inside =>
        List.mem_cons_of_mem _ (List.mem_append_right _ inside))
      intro second _
      split
      · exact trivial
      · exact List.mem_cons_self
  | loop span test body =>
      rw [tailTy]
      exact (block_ty_settles scope body).allow fun _ inside =>
        List.mem_cons_of_mem _ (List.mem_append_right _ inside)
  | assign | expr | pass | fieldAssign => exact trivial

theorem block_ty_settles (scope : Scope) (stmts : List Stmt) :
    Settles (fun _ => True) (TypeError.StandsAt (spansOfAll stmts)) (blockTy scope stmts) := by
  match stmts with
  | [] => exact trivial
  | [last] =>
      rw [blockTy]
      exact (tail_ty_settles scope last).allow fun _ inside => List.mem_append_left _ inside
  | first :: second :: rest =>
      rw [blockTy]
      exact (block_ty_settles scope (second :: rest)).allow fun _ inside =>
        List.mem_append_right _ inside

end

end Stmt

/-! ### Definitions -/

theorem check_init_settles (var : VarDef) :
    Settles (fun _ => True) (TypeError.StandsAt var.spans) var.checkInit :=
  Expr.expect_ty_settles _ _ _ (List.mem_cons_of_mem _ List.mem_cons_self)

theorem var_span_mem (var : VarDef) : var.span ∈ var.spans :=
  List.mem_cons_of_mem _ (List.mem_cons_of_mem _ List.mem_cons_self)

theorem collect_settles (functions : FuncTable) (globals : VarTable) (defs : List Def) :
    Settles (fun _ => True) (TypeError.StandsAt (defs.flatMap Def.spans))
      (collectDefs functions globals defs) := by
  induction defs generalizing functions globals with
  | nil => exact trivial
  | cons first rest induction =>
      have here (span : Span) (member : span ∈ first.spans) :
          span ∈ (first :: rest).flatMap Def.spans :=
        List.mem_append_left _ member
      have later (functions : FuncTable) (globals : VarTable) :
          Settles (fun _ => True) (TypeError.StandsAt ((first :: rest).flatMap Def.spans))
            (collectDefs functions globals rest) :=
        (induction functions globals).allow fun _ inside => List.mem_append_right _ inside
      unfold collectDefs
      split
      · apply here
        cases first with
        | var var => exact var_span_mem var
        | func func => exact List.mem_cons_self
      · cases first with
        | var var =>
            apply settles_bind ((check_init_settles var).allow fun error => here error.span)
            intro _ _
            apply settles_bind (declare_settles globals _ _ (here _ (var_span_mem var)))
            intro globals _
            exact later functions globals
        | func func =>
            apply settles_bind (declare_settles functions _ _ (here _ List.mem_cons_self))
            intro functions _
            exact later functions globals

theorem declare_params_settles (vars : VarTable) (index : Nat) (params : List Param) :
    Settles (fun _ => True) (TypeError.StandsAt (params.map Param.span))
      (declareParams vars index params) := by
  induction params generalizing vars index with
  | nil => exact trivial
  | cons param rest induction =>
      apply settles_bind (declare_settles vars _ _ List.mem_cons_self)
      intro vars _
      exact (induction vars (index + 1)).allow fun _ inside => List.mem_cons_of_mem _ inside

theorem declare_locals_settles (vars : VarTable) (locals : List VarDef) :
    Settles (fun _ => True) (TypeError.StandsAt (locals.flatMap VarDef.spans))
      (declareLocals vars locals) := by
  induction locals generalizing vars with
  | nil => exact trivial
  | cons var rest induction =>
      apply settles_bind ((check_init_settles var).allow fun _ inside =>
        List.mem_append_left _ inside)
      intro _ _
      apply settles_bind (declare_settles vars _ _
        (List.mem_append_left _ (var_span_mem var)))
      intro vars _
      exact (induction vars).allow fun _ inside => List.mem_append_right _ inside

namespace FuncDef

variable (func : FuncDef)

theorem vars_settles (globals : VarTable) :
    Settles (fun _ => True) (TypeError.StandsAt func.spans) (func.vars globals) := by
  apply settles_bind ((declare_params_settles _ 0 func.params).allow fun _ inside =>
    List.mem_cons_of_mem _ (List.mem_append_left _ (List.mem_append_left _ inside)))
  intro own _
  apply settles_bind ((declare_locals_settles own func.locals).allow fun _ inside =>
    List.mem_cons_of_mem _ (List.mem_append_left _ (List.mem_append_right _ inside)))
  exact fun _ _ => trivial

theorem check_settles (functions : FuncTable) (vars : VarTable) :
    Settles (fun _ => True) (TypeError.StandsAt func.spans) (func.check functions vars) := by
  have inBody (span : Span) (inside : span ∈ Stmt.spansOfAll func.body) : span ∈ func.spans :=
    List.mem_cons_of_mem _ (List.mem_append_right _ inside)
  apply settles_bind ((Stmt.check_all_settles _ func.body).allow fun error => inBody error.span)
  intro body _
  apply settles_bind ((Stmt.block_ty_settles _ func.body).allow fun error => inBody error.span)
  intro actual _
  split
  · exact trivial
  · exact List.mem_cons_self

end FuncDef

theorem check_defs_settles (functions : FuncTable) (globals : VarTable) (scopes : Table VarTable)
    (defs : List Def) :
    Settles (fun _ => True) (TypeError.StandsAt (defs.flatMap Def.spans))
      (checkDefs functions globals scopes defs) := by
  induction defs generalizing scopes with
  | nil => exact trivial
  | cons first rest induction =>
      have later (scopes : Table VarTable) :
          Settles (fun _ => True) (TypeError.StandsAt ((first :: rest).flatMap Def.spans))
            (checkDefs functions globals scopes rest) :=
        (induction scopes).allow fun _ inside => List.mem_append_right _ inside
      cases first with
      | var var =>
          apply settles_bind (later scopes)
          exact fun _ _ => trivial
      | func func =>
          apply settles_bind ((func.vars_settles globals).allow fun _ inside =>
            List.mem_append_left _ inside)
          intro vars _
          apply settles_bind ((func.check_settles functions vars).allow fun _ inside =>
            List.mem_append_left _ inside)
          intro typed _
          apply settles_bind (later _)
          exact fun _ _ => trivial

theorem analysis_settles (program : Program) :
    Settles (fun _ => True) (TypeError.StandsAt program.spans) program.analyze := by
  have inDefs (span : Span) (inside : span ∈ program.defs.flatMap Def.spans) :
      span ∈ program.spans :=
    List.mem_append_left _ (List.mem_append_left _ inside)
  apply settles_bind ((collect_settles _ _ program.defs).allow fun error => inDefs error.span)
  intro tables _
  apply settles_bind
    ((check_defs_settles _ _ _ program.defs).allow fun error => inDefs error.span)
  intro checked _
  apply settles_bind ((Stmt.check_all_settles _ program.stmts).allow fun _ inside =>
    List.mem_append_left _ (List.mem_append_right _ inside))
  exact fun _ _ => trivial

end ScriptWasm
