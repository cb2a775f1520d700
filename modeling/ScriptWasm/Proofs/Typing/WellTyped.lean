import ScriptWasm.Proofs.Typing.Decision

/-!
Whole programs. The tables of a program can be filled exactly when its names are distinct and free
and its variables start with values of their types, and then they describe its top level and the
inside of each function. So the analysis succeeds exactly on the well-typed programs.
-/

namespace ScriptWasm

set_option autoImplicit false

theorem Table.declare_new {Value : Type} (table : Table Value) (name : String) (value : Value)
    (span : Span) (absent : name ∉ table.entries.map Prod.fst) :
    ∃ after, table.declare name value span = .ok after ∧
      after.entries = table.entries ++ [(name, value)] := by
  have entries := put_new name value table.entries absent
  exact ⟨table.insert name value,
    (declare_succeeds_iff table _ name value span).mpr ⟨absent, entries⟩, entries⟩

theorem Table.declare_first {Value : Type} (table : Table Value) (name : String) (value : Value)
    (span : Span) (rest : List String)
    (distinct : (table.entries.map Prod.fst ++ name :: rest).Nodup) :
    ∃ larger, table.declare name value span = .ok larger ∧
      larger.entries.map Prod.fst ++ rest = table.entries.map Prod.fst ++ name :: rest := by
  have absent : name ∉ table.entries.map Prod.fst := fun member =>
    (List.nodup_append.mp distinct).2.2 _ member _ List.mem_cons_self rfl
  obtain ⟨larger, declared, entries⟩ := table.declare_new name value span absent
  refine ⟨larger, declared, ?_⟩
  rw [entries, List.map_append, List.append_assoc]
  rfl

theorem VarDef.check_init_iff (var : VarDef) : var.checkInit = .ok () ↔ var.init.ty = var.ty :=
  var.check_init_succeeds_iff ()

/-- Definitions can be collected exactly when their names are new, and all variables start with
values of their types. -/
theorem collect_defs_succeeds_iff (functions : FuncTable) (globals : VarTable) (defs : List Def) :
    (∃ tables, collectDefs functions globals defs = .ok tables) ↔
      (defs.map Def.name).Nodup ∧
      (∀ definition ∈ defs, isReserved definition.name = false ∧
        definition.name ∉ functions.entries.map Prod.fst ∧
        definition.name ∉ globals.entries.map Prod.fst) ∧
      ∀ var ∈ defs.filterMap Def.var?, var.init.ty = var.ty := by
  -- Each definition enters one of the tables, so the induction is over all tables to start with.
  induction defs generalizing functions globals with
  | nil => simp [collectDefs, pure, Except.pure]
  | cons first rest induction =>
      have taken : (isReserved first.name || functions.contains first.name ||
            globals.contains first.name) = false ↔
          isReserved first.name = false ∧ first.name ∉ functions.entries.map Prod.fst ∧
            first.name ∉ globals.entries.map Prod.fst := by
        rw [Bool.or_eq_false_iff, Bool.or_eq_false_iff, and_assoc, ← Bool.not_eq_true,
          ← Bool.not_eq_true (functions.contains _), ← Bool.not_eq_true (globals.contains _),
          Table.contains_iff, Table.contains_iff]
      rw [List.map_cons, List.nodup_cons, List.forall_mem_cons]
      by_cases free : (isReserved first.name || functions.contains first.name ||
          globals.contains first.name) = false
      · have isNew := taken.mp free
        -- a name that is new for the larger tables is another name and new for the smaller ones
        have moved : ∀ (smaller larger : List String), larger = smaller ++ [first.name] →
            ((∀ definition ∈ rest, definition.name ∉ larger) ↔
              first.name ∉ rest.map Def.name ∧ ∀ definition ∈ rest, definition.name ∉ smaller) := by
          rintro smaller _ rfl
          simp only [List.mem_append, List.mem_singleton, not_or, List.mem_map, not_exists, not_and]
          exact ⟨fun each => ⟨fun definition member => (each definition member).2,
              fun definition member => (each definition member).1⟩,
            fun both definition member => ⟨both.2 definition member, both.1 definition member⟩⟩
        unfold collectDefs
        rw [if_neg (by rw [free]; decide)]
        cases first with
        | var var =>
            obtain ⟨larger, declared, entries⟩ := globals.declare_new var.name ⟨var.ty, .global⟩
              var.span isNew.2.2
            have names := moved (globals.entries.map Prod.fst) (larger.entries.map Prod.fst)
              (by rw [entries, List.map_append]; rfl)
            by_cases init : var.init.ty = var.ty
            · simp only [var.check_init_iff.mpr init, declared, ok_bind, induction functions larger,
                List.filterMap_cons, Def.var_of_var, List.forall_mem_cons, init, true_and]
              simp only [forall_and, names, isNew, and_assoc, true_and]
              tauto
            · have refused : ∀ nothing, var.checkInit ≠ .ok nothing := fun nothing accepted =>
                init (var.check_init_iff.mp accepted)
              constructor
              · rintro ⟨tables, collected⟩
                simp only [bind_succeeds_iff] at collected
                obtain ⟨_, accepted, _⟩ := collected
                exact absurd accepted (refused _)
              · rintro ⟨_, _, inits⟩
                exact absurd (inits var (by simp)) init
        | func func =>
            obtain ⟨larger, declared, entries⟩ := functions.declare_new func.name func.signature
              func.span isNew.2.1
            have names := moved (functions.entries.map Prod.fst) (larger.entries.map Prod.fst)
              (by rw [entries, List.map_append]; rfl)
            simp only [declared, ok_bind, induction larger globals, List.filterMap_cons,
              Def.var_of_func]
            simp only [forall_and, names, isNew, and_assoc, true_and]
            tauto
      · constructor
        · rintro ⟨tables, collected⟩
          unfold collectDefs at collected
          rw [if_pos (by rw [← Bool.not_eq_false]; exact free)] at collected
          cases collected
        · rintro ⟨_, ⟨isNew, _⟩, _⟩
          exact absurd (taken.mpr isNew) free

theorem declare_params_accepts (vars : VarTable) (index : Nat) (params : List Param)
    (distinct : (vars.entries.map Prod.fst ++ params.map Param.name).Nodup) :
    ∃ after, declareParams vars index params = .ok after ∧
      after.entries.map Prod.fst = vars.entries.map Prod.fst ++ params.map Param.name := by
  induction params generalizing vars index with
  | nil => exact ⟨vars, rfl, (List.append_nil _).symm⟩
  | cons first rest induction =>
      obtain ⟨larger, declared, names⟩ := vars.declare_first first.name ⟨first.ty, .param index⟩
        first.span (rest.map Param.name) distinct
      obtain ⟨after, accepted, all⟩ := induction larger (index + 1) (by rw [names]; exact distinct)
      exact ⟨after, by simp only [declareParams, declared, ok_bind, accepted], all.trans names⟩

theorem declare_locals_accepts (vars : VarTable) (locals : List VarDef)
    (distinct : (vars.entries.map Prod.fst ++ locals.map VarDef.name).Nodup)
    (inits : ∀ var ∈ locals, var.init.ty = var.ty) :
    ∃ after, declareLocals vars locals = .ok after := by
  induction locals generalizing vars with
  | nil => exact ⟨vars, rfl⟩
  | cons first rest induction =>
      obtain ⟨larger, declared, names⟩ := vars.declare_first first.name ⟨first.ty, .local⟩
        first.span (rest.map VarDef.name) distinct
      obtain ⟨after, accepted⟩ := induction larger (by rw [names]; exact distinct)
        fun var member => inits var (by simp [member])
      refine ⟨after, ?_⟩
      simp only [declareLocals, first.check_init_iff.mpr (inits first (by simp)), declared, ok_bind,
        accepted]

theorem vars_succeeds_iff (func : FuncDef) (globals : VarTable) :
    (∃ vars, func.vars globals = .ok vars) ↔
      func.ownNames.Nodup ∧ ∀ var ∈ func.locals, var.init.ty = var.ty := by
  constructor
  · rintro ⟨vars, succeeded⟩
    obtain ⟨distinct, inits, _⟩ := vars_succeeds func globals vars succeeded
    rw [own_names] at distinct
    exact ⟨distinct, inits⟩
  · rintro ⟨distinct, inits⟩
    obtain ⟨params, declaredParams, names⟩ := declare_params_accepts .empty 0 func.params
      (List.nodup_append.mp distinct).1
    obtain ⟨own, declaredLocals⟩ := declare_locals_accepts params func.locals
      (by rw [names]; exact distinct) inits
    exact ⟨_, by simp only [FuncDef.vars, declaredParams, declaredLocals, ok_bind]; rfl⟩

theorem not_reserved_iff (name : String) : isReserved name = false ↔
    (∀ builtin : Builtin, builtin.name ≠ name) ∧
      ∀ primitive : HostImport, primitive.name ≠ name := by
  rw [isReserved, Bool.or_eq_false_iff, Option.isSome_eq_false_iff, Option.isSome_eq_false_iff,
    Option.isNone_iff_eq_none, Option.isNone_iff_eq_none, Option.eq_none_iff_forall_ne_some,
    Option.eq_none_iff_forall_ne_some]
  simp only [ne_eq, builtin_of_name_iff, primitive_of_name_iff]

structure Program.Collected (program : Program) (functions : FuncTable) (globals : VarTable) :
    Prop where
  functions : functions.entries = program.funcs.map FuncDef.entry
  globals : globals.entries = program.vars.map VarDef.globalEntry
  notReserved : ∀ definition ∈ program.defs, isReserved definition.name = false

theorem Program.collected (program : Program) (functions : FuncTable) (globals : VarTable)
    (collects : collectDefs .empty .empty program.defs = .ok (functions, globals)) :
    program.Collected functions globals := by
  obtain ⟨functionEntries, globalEntries, reserved, _⟩ :=
    collect_defs_succeeds .empty functions .empty globals program.defs collects
  exact ⟨functionEntries, globalEntries, reserved⟩

namespace Program.Collected

variable {program : Program} {functions : FuncTable} {globals : VarTable}
  (collected : program.Collected functions globals)

include collected

theorem get_function_iff (name : String) (signature : Signature) :
    functions.get? name = some signature ↔
      ∃ func ∈ program.funcs, func.name = name ∧ func.signature = signature := by
  rw [Table.get_eq_some_iff, collected.functions, List.mem_map]
  simp only [FuncDef.entry, Prod.mk.injEq]

theorem get_global_iff (name : String) (binding : Binding) :
    globals.get? name = some binding ↔
      ∃ var ∈ program.vars, var.name = name ∧ ⟨var.ty, .global⟩ = binding := by
  rw [Table.get_eq_some_iff, collected.globals, List.mem_map]
  simp only [VarDef.globalEntry, Prod.mk.injEq]

theorem function_not_builtin (func : FuncDef) (member : func ∈ program.funcs) :
    Builtin.ofName? func.name = none := by
  obtain ⟨definition, among, isFunc⟩ := List.mem_filterMap.mp member
  cases definition with
  | var var => cases isFunc
  | func other =>
      cases isFunc
      have free := collected.notReserved _ among
      rw [isReserved, Bool.or_eq_false_iff, Option.isSome_eq_false_iff, Option.isNone_iff_eq_none]
        at free
      exact free.1

theorem describes_top_level : Scope.Describes ⟨functions, globals, none⟩ program none where
  vars name ty := by
    constructor
    · rintro ⟨binding, found, rfl⟩
      obtain ⟨var, member, rfl, rfl⟩ := (collected.get_global_iff name binding).mp found
      exact .global none var member nofun
    · intro seen
      cases seen with
      | global inside var member visible =>
          exact ⟨_, (collected.get_global_iff var.name _).mpr ⟨var, member, rfl, rfl⟩, rfl⟩
  functions := collected.get_function_iff
  notBuiltin := collected.function_not_builtin
  result := rfl

theorem describes_inside (func : FuncDef) (vars : VarTable) (sees : func.vars globals = .ok vars) :
    Scope.Describes ⟨functions, vars, some func.result⟩ program (some func) where
  vars name ty := by
    obtain ⟨distinct, _, lookup⟩ := vars_succeeds func globals vars sees
    have own : ∀ binding, Table.valueIn? name func.own = some binding ↔ (name, binding) ∈ func.own :=
      fun binding => Table.value_in_eq_some_iff name binding func.own distinct
    simp only [lookup]
    constructor
    · rintro ⟨binding, found, rfl⟩
      rw [Option.or_eq_some_iff] at found
      rcases found with inner | ⟨hidden, outer⟩
      · rw [own, FuncDef.own, List.mem_append, List.mem_mapIdx, List.mem_map] at inner
        rcases inner with ⟨index, bound, same⟩ | ⟨var, member, same⟩
        · cases same
          exact .param func _ (List.getElem_mem bound)
        · cases same
          exact .local func var member
      · obtain ⟨var, member, rfl, rfl⟩ := (collected.get_global_iff name binding).mp outer
        apply Program.Sees.global (some func) var member
        rintro _ ⟨⟩
        rw [← Option.not_isSome_iff_eq_none, Table.value_in_map_fst, own_names] at hidden
        exact hidden
    · intro seen
      cases seen with
      | param func param member =>
          obtain ⟨index, bound, rfl⟩ := List.getElem_of_mem member
          refine ⟨⟨func.params[index].ty, .param index⟩, ?_, rfl⟩
          rw [(own _).mpr, Option.some_or]
          rw [FuncDef.own, List.mem_append, List.mem_mapIdx]
          exact Or.inl ⟨index, bound, rfl⟩
      | «local» func var member =>
          refine ⟨⟨var.ty, .local⟩, ?_, rfl⟩
          rw [(own _).mpr, Option.some_or]
          rw [FuncDef.own, List.mem_append]
          exact Or.inr (List.mem_map_of_mem member)
      | global inside var member visible =>
          refine ⟨⟨var.ty, .global⟩, ?_, rfl⟩
          have hidden : Table.valueIn? var.name func.own = none := by
            rw [← Option.not_isSome_iff_eq_none, Table.value_in_map_fst, own_names]
            exact visible func rfl
          rw [hidden, Option.none_or]
          exact (collected.get_global_iff var.name _).mpr ⟨var, member, rfl, rfl⟩
  functions := collected.get_function_iff
  notBuiltin := collected.function_not_builtin
  result := rfl

/-- A function passes exactly when it is well typed. -/
theorem function_succeeds_iff (func : FuncDef) :
    (∃ vars typed, func.vars globals = .ok vars ∧ func.check functions vars = .ok typed) ↔
      func.WellTyped program := by
  simp only [FuncDef.check, bind_succeeds_iff]
  constructor
  · rintro ⟨vars, typed, sees, body, accepted, actual, ends, same⟩
    have describes := collected.describes_inside func vars sees
    obtain ⟨distinct, inits⟩ := (vars_succeeds_iff func globals).mp ⟨vars, sees⟩
    have tail := (Stmt.block_ty_iff_ends_with describes func.body actual).mp ends
    split at same
    · rename_i declared
      exact ⟨distinct, inits, (Stmt.check_all_iff_fit describes func.body).mp ⟨body, accepted⟩,
        declared ▸ tail⟩
    · cases same
  · rintro ⟨distinct, inits, fit, tail⟩
    obtain ⟨vars, sees⟩ := (vars_succeeds_iff func globals).mpr ⟨distinct, inits⟩
    have describes := collected.describes_inside func vars sees
    obtain ⟨body, accepted⟩ := (Stmt.check_all_iff_fit describes func.body).mpr fit
    have ends := (Stmt.block_ty_iff_ends_with describes func.body func.result).mpr tail
    exact ⟨vars, _, sees, body, accepted, func.result, ends, if_pos rfl⟩

theorem definitions_succeed_iff (scopes : Table VarTable) (defs : List Def) :
    (∃ results, checkDefs functions globals scopes defs = .ok results) ↔
      ∀ func ∈ defs.filterMap Def.func?, func.WellTyped program := by
  induction defs generalizing scopes with
  | nil => simp [checkDefs, pure, Except.pure]
  | cons first rest induction =>
      cases first with
      | var var =>
          simp only [checkDefs, bind_succeeds_iff, pure_succeeds_iff, List.filterMap_cons,
            Def.func_of_var, ← induction scopes]
          constructor
          · rintro ⟨_, results, accepted, _⟩
            exact ⟨results, accepted⟩
          · rintro ⟨results, accepted⟩
            exact ⟨_, results, accepted, rfl⟩
      | func func =>
          simp only [checkDefs, bind_succeeds_iff, pure_succeeds_iff, List.filterMap_cons,
            Def.func_of_func, List.forall_mem_cons, ← collected.function_succeeds_iff func]
          constructor
          · rintro ⟨_, vars, sees, typed, accepted, results, others, _⟩
            exact ⟨⟨vars, typed, sees, accepted⟩, (induction _).mp ⟨results, others⟩⟩
          · rintro ⟨⟨vars, typed, sees, accepted⟩, others⟩
            obtain ⟨results, acceptedRest⟩ := (induction (scopes.insert func.name vars)).mpr others
            exact ⟨_, vars, sees, typed, accepted, results, acceptedRest, rfl⟩

end Program.Collected

/-- The analysis accepts exactly the well-typed programs. It gives back the same program, with every
expression annotated by its type. -/
theorem analysis_decides_well_typed (program : Program) :
    ((∃ analysis, program.analyze = .ok analysis) ↔ program.WellTyped) ∧
      ∀ analysis, program.analyze = .ok analysis →
        analysis.Typed ∧ analysis.program.erase = program.erase := by
  refine ⟨?_, fun analysis accepted =>
    ⟨(analyze_typed program analysis accepted).1, analyze_erase program analysis accepted⟩⟩
  have tables := collect_defs_succeeds_iff .empty .empty program.defs
  simp only [Program.analyze, bind_succeeds_iff, Prod.exists, pure_succeeds_iff]
  constructor
  · rintro ⟨_, functions, globals, collects, defs, scopes, checked, stmts, accepted, _⟩
    obtain ⟨distinct, free, inits⟩ := tables.mp ⟨_, collects⟩
    have collected := program.collected functions globals collects
    exact {
      distinct
      notBuiltin := fun definition member => ((not_reserved_iff _).mp (free definition member).1).1
      notPrimitive := fun definition member => ((not_reserved_iff _).mp (free definition member).1).2
      inits
      funcs := (collected.definitions_succeed_iff .empty program.defs).mp ⟨_, checked⟩
      stmts := (Stmt.check_all_iff_fit collected.describes_top_level program.stmts).mp
        ⟨stmts, accepted⟩ }
  · intro wellTyped
    have free : ∀ definition ∈ program.defs, isReserved definition.name = false ∧
        definition.name ∉ (Table.empty : FuncTable).entries.map Prod.fst ∧
        definition.name ∉ (Table.empty : VarTable).entries.map Prod.fst := fun definition member =>
      ⟨(not_reserved_iff _).mpr ⟨wellTyped.notBuiltin definition member,
        wellTyped.notPrimitive definition member⟩, List.not_mem_nil, List.not_mem_nil⟩
    obtain ⟨⟨functions, globals⟩, collects⟩ :=
      tables.mpr ⟨wellTyped.distinct, free, wellTyped.inits⟩
    have collected := program.collected functions globals collects
    obtain ⟨⟨defs, scopes⟩, checked⟩ :=
      (collected.definitions_succeed_iff .empty program.defs).mpr wellTyped.funcs
    obtain ⟨stmts, accepted⟩ :=
      (Stmt.check_all_iff_fit collected.describes_top_level program.stmts).mpr wellTyped.stmts
    exact ⟨_, functions, globals, collects, defs, scopes, checked, stmts, accepted, rfl⟩

/-- A function that returns in both arms of a condition, with a value of the given kind in the second
arm. -/
def twoArms (answer : Literal) : Program :=
  let note : Note := ⟨nowhere, none⟩
  let test : Expr := .binary note .less (.name note "n") (.lit note (.int 1))
  ⟨[.func ⟨"f", [⟨"n", .int, nowhere⟩], .int, [⟨"m", .int, nowhere, .int 2, nowhere, nowhere⟩],
      [.assign nowhere "m" (.call note "max" [.name note "n", .name note "m"]),
        .cond nowhere test [.ret nowhere (.call note "f" [.name note "m"])]
          [.ret nowhere (.lit note answer)]], nowhere⟩],
    [.expr nowhere (.call note "print" [.call note "f" [.lit note (.int 3)]])], []⟩

theorem two_arms_are_decided :
    (∃ analysis, (twoArms (.int 7)).analyze = .ok analysis ∧ analysis.Typed ∧
      analysis.program.erase = (twoArms (.int 7)).erase) ∧
    (twoArms (.int 7)).WellTyped ∧ ¬(twoArms (.bool true)).WellTyped := by
  obtain ⟨analysis, accepted⟩ := (is_ok_iff (twoArms (.int 7)).analyze).mp (by decide +kernel)
  obtain ⟨decides, facts⟩ := analysis_decides_well_typed (twoArms (.int 7))
  refine ⟨⟨analysis, accepted, facts analysis accepted⟩, decides.mp ⟨analysis, accepted⟩, ?_⟩
  intro wellTyped
  have other := (analysis_decides_well_typed (twoArms (.bool true))).1.mpr wellTyped
  exact absurd ((is_ok_iff _).mpr other) (by decide +kernel)

end ScriptWasm
