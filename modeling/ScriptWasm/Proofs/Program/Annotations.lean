import ScriptWasm.Proofs.Program.Erasure

/-!
An analysis does not look at the annotations that are there before it, not even where it refuses a
program and shows the expression that is wrong. It fills in every annotation and changes nothing
else, so what it gives back is analysed to the same result again.
-/

namespace ScriptWasm

set_option autoImplicit false

def Note.Annotated (note : Note) : Prop :=
  ∃ ty, note.ty = some ty

namespace Expr

mutual

theorem render_map_notes (change : Note → Note) (expr : Expr) :
    (expr.mapNotes change).render = expr.render := by
  cases expr with
  | lit note value | name note word | construct note className => rfl
  | call note func args => simp only [mapNotes, render, render_all_map_notes change args]
  | binary note op left right =>
      simp only [mapNotes, render, render_map_notes change left, render_map_notes change right]
  | unary note op operand =>
      cases op <;> simp only [mapNotes, render, render_map_notes change operand]
  | paren note inner => simp only [mapNotes, render, render_map_notes change inner]
  | attr note value member => simp only [mapNotes, render, render_map_notes change value]
termination_by structural expr

theorem render_all_map_notes (change : Note → Note) (args : List Expr) :
    renderAll (mapAllNotes change args) = renderAll args := by
  cases args with
  | nil => rfl
  | cons first rest =>
      simp only [mapAllNotes, renderAll, render_map_notes change first,
        render_all_map_notes change rest]
termination_by structural args

end

theorem span_without_ty (expr : Expr) : (expr.mapNotes Note.withoutTy).span = expr.span := by
  cases expr <;> rfl

theorem is_none_without_ty (expr : Expr) :
    (expr.mapNotes Note.withoutTy).isNone = expr.isNone := by
  cases expr with
  | lit note value => cases value <;> rfl
  | _ => rfl

theorem length_map_all_notes (change : Note → Note) (args : List Expr) :
    (mapAllNotes change args).length = args.length := by
  induction args with
  | nil => rfl
  | cons first rest induction => rw [mapAllNotes, List.length_cons, List.length_cons, induction]

mutual

/-- A check does not look at annotations, and it has the same outcome without them. -/
theorem check_without_ty (scope : Scope) (expr : Expr) :
    (expr.mapNotes Note.withoutTy).check scope = expr.check scope := by
  cases expr with
  | lit note value | name note word => rfl
  | call note func args =>
      simp only [mapNotes, check, length_map_all_notes,
        fun params => check_args_without_ty scope params args]
      rfl
  | binary note op left right =>
      simp only [mapNotes, check, check_without_ty scope left, check_without_ty scope right,
        is_none_without_ty, span_without_ty]
      rfl
  | unary note op operand =>
      simp only [mapNotes, check, check_without_ty scope operand]
      rfl
  | paren note inner =>
      simp only [mapNotes, check, check_without_ty scope inner]
      rfl
  | attr note value member =>
      simp only [mapNotes, check, render, render_map_notes]
      rfl
  | construct note className => rfl
termination_by structural expr

theorem check_args_without_ty (scope : Scope) (params : List (Option Ty)) (args : List Expr) :
    checkArgs scope params (mapAllNotes Note.withoutTy args) = checkArgs scope params args := by
  cases args with
  | nil => rfl
  | cons first rest =>
      cases params with
      | nil => rfl
      | cons param params =>
          simp only [mapAllNotes, checkArgs, check_without_ty scope first,
            check_args_without_ty scope params rest]
termination_by structural args

end

theorem check_test_without_ty (scope : Scope) (test : Expr) :
    (test.mapNotes Note.withoutTy).checkTest scope = test.checkTest scope := by
  rw [checkTest, checkTest, check_without_ty]

end Expr

namespace Stmt

mutual

theorem check_of_unannotated (scope : Scope) (stmt : Stmt) :
    stmt.unannotated.check scope = stmt.check scope := by
  cases stmt with
  | assign span target value | expr span value | ret span value =>
      simp only [unannotated, check, Expr.check_without_ty]
  | pass span | fieldAssign span object field value => rfl
  | cond span test body orelse =>
      simp only [unannotated, check, Expr.check_test_without_ty,
        check_all_of_unannotated scope body, check_all_of_unannotated scope orelse]
  | loop span test body =>
      simp only [unannotated, check, Expr.check_test_without_ty,
        check_all_of_unannotated scope body]
termination_by structural stmt

theorem check_all_of_unannotated (scope : Scope) (stmts : List Stmt) :
    checkAll scope (allUnannotated stmts) = checkAll scope stmts := by
  cases stmts with
  | nil => rfl
  | cons first rest =>
      simp only [allUnannotated, checkAll, check_of_unannotated scope first,
        check_all_of_unannotated scope rest]
termination_by structural stmts

end

mutual

theorem tail_ty_of_unannotated (scope : Scope) (stmt : Stmt) :
    stmt.unannotated.tailTy scope = stmt.tailTy scope := by
  cases stmt with
  | ret span value => simp only [unannotated, tailTy, Expr.check_without_ty]
  | cond span test body orelse =>
      simp only [unannotated, tailTy, block_ty_of_unannotated scope body,
        block_ty_of_unannotated scope orelse]
  | loop span test body => simp only [unannotated, tailTy, block_ty_of_unannotated scope body]
  | assign span target value | expr span value | pass span
  | fieldAssign span object field value => rfl
termination_by structural stmt

theorem block_ty_of_unannotated (scope : Scope) (stmts : List Stmt) :
    blockTy scope (allUnannotated stmts) = blockTy scope stmts := by
  cases stmts with
  | nil => rfl
  | cons first rest =>
      have later := block_ty_of_unannotated scope rest
      cases rest with
      | nil => exact tail_ty_of_unannotated scope first
      | cons second others => exact later
termination_by structural stmts

end

end Stmt

theorem collect_defs_of_unannotated (functions : FuncTable) (globals : VarTable)
    (defs : List Def) :
    collectDefs functions globals (defs.map Def.unannotated) =
      collectDefs functions globals defs := by
  induction defs generalizing functions globals with
  | nil => rfl
  | cons first rest induction =>
      cases first with
      | var var => simp only [List.map_cons, Def.unannotated, collectDefs, induction]
      | func func =>
          simp only [List.map_cons, Def.unannotated, collectDefs, induction]
          rfl

theorem FuncDef.check_of_unannotated (func : FuncDef) (functions : FuncTable) (vars : VarTable) :
    func.unannotated.check functions vars = func.check functions vars := by
  simp only [FuncDef.check, FuncDef.unannotated, Stmt.check_all_of_unannotated,
    Stmt.block_ty_of_unannotated]
  rfl

theorem check_defs_of_unannotated (functions : FuncTable) (globals : VarTable)
    (scopes : Table VarTable) (defs : List Def) :
    checkDefs functions globals scopes (defs.map Def.unannotated) =
      checkDefs functions globals scopes defs := by
  induction defs generalizing scopes with
  | nil => rfl
  | cons first rest induction =>
      cases first with
      | var var => simp only [List.map_cons, Def.unannotated, checkDefs, induction]
      | func func =>
          have vars : func.unannotated.vars globals = func.vars globals := rfl
          have name : func.unannotated.name = func.name := rfl
          simp only [List.map_cons, Def.unannotated, checkDefs, induction, vars, name,
            FuncDef.check_of_unannotated]

theorem analyze_of_unannotated (program : Program) :
    program.unannotated.analyze = program.analyze := by
  simp only [Program.analyze, Program.unannotated, collect_defs_of_unannotated,
    check_defs_of_unannotated, Stmt.check_all_of_unannotated]

theorem Expr.Typed.annotated (scope : Scope) : scope.Notes Note.Annotated :=
  fun _ ty typed => ⟨ty, typed.ty_eq⟩

theorem Analysis.Typed.notes_annotated {analysis : Analysis} (typed : analysis.Typed) :
    analysis.program.AllNotes Note.Annotated where
  funcs func member := by
    obtain ⟨_, _, fits⟩ := typed.bodies func member
    exact Stmt.notes_of_all_typed (Expr.Typed.annotated _) func.body fits.body
  stmts := Stmt.notes_of_all_typed (Expr.Typed.annotated _) analysis.program.stmts typed.stmts

/-- An analysis has the same outcome whatever a program is annotated with, be it a result or an
error. Its program is the one that was analysed, with another annotation in the place of each and
with none left out, and an analysis of that program gives the same once more. -/
theorem analysis_only_annotates (program : Program) :
    program.analyze = program.unannotated.analyze ∧
      ∀ analysis, program.analyze = .ok analysis →
        analysis.program.unannotated = program.unannotated ∧
        analysis.program.AllNotes Note.Annotated ∧
        analysis.program.analyze = .ok analysis := by
  refine ⟨(analyze_of_unannotated program).symm, fun analysis accepted => ?_⟩
  have same := analyze_unannotated program analysis accepted
  refine ⟨same, (analyze_typed program analysis accepted).1.notes_annotated, ?_⟩
  calc analysis.program.analyze
    _ = analysis.program.unannotated.analyze := (analyze_of_unannotated _).symm
    _ = program.unannotated.analyze := by rw [same]
    _ = program.analyze := analyze_of_unannotated program
    _ = .ok analysis := accepted

def misannotatedProgram : Program where
  defs := [.func ⟨"missing", [⟨"n", .int, ⟨12, 18⟩⟩], .bool, [],
    [.ret ⟨34, 50⟩ (.binary ⟨⟨41, 50⟩, some .int⟩ .is (.name ⟨⟨41, 42⟩, none⟩ "n")
      (.lit ⟨⟨46, 50⟩, some (.object "n")⟩ .none))], ⟨0, 50⟩⟩]
  stmts := [.expr ⟨51, 68⟩ (.call ⟨⟨51, 68⟩, some .bool⟩ "print"
    [.call ⟨⟨57, 67⟩, none⟩ "missing" [.lit ⟨⟨65, 66⟩, some .none⟩ (.int 7)]])]
  classes := []

theorem misannotated_program_is_annotated :
    ∃ analysis, misannotatedProgram.analyze = .ok analysis ∧
      misannotatedProgram.unannotated.analyze = .ok analysis ∧
      analysis.program.unannotated = misannotatedProgram.unannotated ∧
      analysis.program.AllNotes Note.Annotated ∧ analysis.program.analyze = .ok analysis := by
  obtain ⟨analysis, accepted⟩ := (is_ok_iff misannotatedProgram.analyze).mp (by decide +kernel)
  obtain ⟨same, annotates⟩ := analysis_only_annotates misannotatedProgram
  exact ⟨analysis, accepted, same ▸ accepted, annotates analysis accepted⟩

end ScriptWasm
