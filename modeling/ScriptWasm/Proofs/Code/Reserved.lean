import ScriptWasm.Program.OfTree.Statement
import ScriptWasm.Proofs.Code.Resolution
import ScriptWasm.Proofs.Typing.WellTyped

/-!
Names that belong to the host. No global variable and no function can take the name of a builtin or
of a primitive: the first definition that does is a duplicate. The variables of a function are not
held to this, and any of them may have such a name. A call by the name means the builtin all the
same, for variables and functions are looked up apart.
-/

namespace ScriptWasm

set_option autoImplicit false

theorem collect_defs_append (functions : FuncTable) (globals : VarTable) (before rest : List Def) :
    collectDefs functions globals (before ++ rest) =
      collectDefs functions globals before >>= fun tables => collectDefs tables.1 tables.2 rest := by
  induction before generalizing functions globals with
  | nil => rfl
  | cons first others induction =>
      simp only [List.cons_append, collectDefs]
      split
      · rfl
      · cases first with
        | var var => simp only [induction, bind_assoc]
        | func func => simp only [induction, bind_assoc]

/-- A definition under a reserved name is a duplicate, unless one before it is refused. -/
theorem Program.analyze_reserved (program : Program) (before : List Def) (definition : Def)
    (after : List Def) (defs : program.defs = before ++ definition :: after)
    (reserved : isReserved definition.name = true) :
    program.analyze = collectDefs .empty .empty before >>= fun _ =>
      .error ⟨.duplicate definition.name, definition.span⟩ := by
  unfold Program.analyze
  rw [defs, collect_defs_append, bind_assoc]
  congr 1
  funext tables
  simp [collectDefs, reserved]

theorem Draft.build_id (draft : Draft) (id exportName : Option String) (func : Func)
    (built : draft.build id exportName = .ok func) : func.id = id := by
  unfold Draft.build at built
  split at built
  · cases built
    rfl
  · cases built

theorem FuncDef.generate_id (functions : FuncTable) (scopes : Table VarTable) (func : FuncDef)
    (code : Func) (generated : func.generate functions scopes = .ok code) :
    code.id = some func.name := by
  unfold FuncDef.generate at generated
  split at generated
  · cases generated
  · simp only [bind_succeeds_iff] at generated
    obtain ⟨_, _, _, _, _, _, _, _, draft, _, built⟩ := generated
    exact Draft.build_id _ _ _ _ built

theorem generate_defs_ids (functions : FuncTable) (scopes : Table VarTable) (defs : List Def)
    (globals : List Global) (funcs : List Func)
    (generated : generateDefs functions scopes defs = .ok (globals, funcs)) :
    funcs.map Func.id = (defs.filterMap Def.func?).map fun func => some func.name := by
  induction defs generalizing globals funcs with
  | nil =>
      cases generated
      rfl
  | cons first rest induction =>
      cases first with
      | var var =>
          simp only [generateDefs, bind_succeeds_iff, Prod.exists, pure_succeeds_iff] at generated
          obtain ⟨_, _, others, funcs, done, same⟩ := generated
          cases same
          exact induction others funcs done
      | func func =>
          simp only [generateDefs, bind_succeeds_iff, Prod.exists, pure_succeeds_iff] at generated
          obtain ⟨code, compiled, globals, others, done, same⟩ := generated
          cases same
          have named := func.generate_id functions scopes code compiled
          simp [named, induction globals others done]

/-- A function of a module cannot hide a primitive. -/
theorem callee_of_primitive_generated (program : Program) (analysis : Analysis)
    (accepted : program.analyze = .ok analysis) (module : Module)
    (generated : analysis.generate = .ok module) (primitive : HostImport) :
    module.callee? primitive.name = some (.primitive primitive) := by
  obtain ⟨typed, _, _⟩ := analyze_typed program analysis accepted
  have ids : module.functions.map Func.id = analysis.compiled.functions.map Func.id := by
    unfold Analysis.generate at generated
    simp only [bind_succeeds_iff, Prod.exists, pure_succeeds_iff] at generated
    obtain ⟨globals, funcs, defs, entry, _, rfl⟩ := generated
    rw [Analysis.compiled_ids]
    exact generate_defs_ids _ _ _ globals funcs defs
  have meant := typed.callee_of_primitive primitive
  unfold Module.callee? at meant ⊢
  rw [ids]
  exact meant

/-- No definition of the top level has the name of a builtin or a primitive: the first that would
is reported as a duplicate, after what is wrong with the definitions before it. What a function
declares itself is accepted under any names that are distinct. Neither takes the name away from
the host: it means the builtin in every scope, and the primitive in every module. -/
theorem reserved_names_stay_with_the_host (program : Program) :
    (∀ before definition after, program.defs = before ++ definition :: after →
      isReserved definition.name = true →
        program.analyze = collectDefs .empty .empty before >>= fun _ =>
          .error ⟨.duplicate definition.name, definition.span⟩) ∧
    (∀ analysis, program.analyze = .ok analysis →
      (∀ definition ∈ program.defs, (∀ builtin : Builtin, builtin.name ≠ definition.name) ∧
        ∀ primitive : HostImport, primitive.name ≠ definition.name) ∧
      ∀ module, analysis.generate = .ok module →
        ∀ primitive : HostImport,
          module.callee? primitive.name = some (.primitive primitive)) ∧
    (∀ (func : FuncDef) (globals : VarTable), (∃ vars, func.vars globals = .ok vars) ↔
      func.ownNames.Nodup ∧ ∀ var ∈ func.locals, var.init.ty = var.ty) ∧
    ∀ (scope : Scope) (builtin : Builtin),
      scope.callee? builtin.name = some (builtin.params, builtin.result) := by
  refine ⟨program.analyze_reserved, fun analysis accepted => ⟨fun definition member => ?_, ?_⟩,
    vars_succeeds_iff, fun scope builtin => ?_⟩
  · obtain ⟨tables, collected, _⟩ := (bind_succeeds_iff _ _ _).mp accepted
    have free := (program.collected tables.1 tables.2 collected).notReserved definition member
    exact (not_reserved_iff definition.name).mp free
  · exact callee_of_primitive_generated program analysis accepted
  · have found := (builtin_of_name_iff builtin.name builtin).mpr rfl
    simp [Scope.callee?, found]

def twoVariables (name : String) : Program :=
  let nowhere : Span := ⟨0, 0⟩
  ⟨[.var ⟨"x", .int, nowhere, .int 1, nowhere, nowhere⟩,
      .var ⟨name, .int, nowhere, .int 2, nowhere, ⟨11, 25⟩⟩],
    [.expr nowhere (.call ⟨nowhere, none⟩ "print" [.name ⟨nowhere, none⟩ "x"])], []⟩

theorem second_variable_is_refused :
    isReserved "print" = true ∧
    (twoVariables "print").analyze = .error ⟨.duplicate "print", ⟨11, 25⟩⟩ ∧
    ∃ analysis module, (twoVariables "y").analyze = .ok analysis ∧
      analysis.generate = .ok module ∧ module.callee? "print" = some (.primitive .print) := by
  refine ⟨by decide, ?_, ?_⟩
  · rw [(reserved_names_stay_with_the_host (twoVariables "print")).1
      [.var ⟨"x", .int, ⟨0, 0⟩, .int 1, ⟨0, 0⟩, ⟨0, 0⟩⟩] _ [] rfl (by decide)]
    rfl
  · obtain ⟨analysis, accepted⟩ := (is_ok_iff (twoVariables "y").analyze).mp (by decide +kernel)
    obtain ⟨_, facts, _⟩ := reserved_names_stay_with_the_host (twoVariables "y")
    have generated : ((twoVariables "y").analyze.toOption.bind fun analysis =>
        analysis.generate.toOption).isSome = true := by
      decide +kernel
    rw [accepted] at generated
    obtain ⟨module, done⟩ := Option.isSome_iff_exists.mp generated
    have generated := (to_option_eq_some_iff analysis.generate module).mp done
    exact ⟨analysis, module, accepted, generated,
      (facts analysis accepted).2 module generated .print⟩

theorem parameter_takes_reserved_name :
    ∃ program analysis,
      Program.ofSource "def f(print: int) -> int:\n    return print\n".toList = .ok program ∧
      program.analyze = .ok analysis ∧
      ∃ func ∈ program.funcs, ∃ param ∈ func.params, isReserved param.name = true := by
  have found : ((Program.ofSource
      "def f(print: int) -> int:\n    return print\n".toList).toOption.any fun program =>
        program.analyze.isOk && program.funcs.any fun func =>
          func.params.any fun param => isReserved param.name) = true := by
    decide +kernel
  obtain ⟨program, read, facts⟩ := (Option.any_eq_true _ _).mp found
  rw [Bool.and_eq_true, is_ok_iff, List.any_eq_true] at facts
  obtain ⟨⟨analysis, accepted⟩, func, member, reserved⟩ := facts
  exact ⟨program, analysis, (to_option_eq_some_iff _ program).mp read, accepted, func, member,
    List.any_eq_true.mp reserved⟩

end ScriptWasm
