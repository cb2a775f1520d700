import ScriptWasm.Proofs.Typing.Tables

/-!
Typed trees. The rules say when an expression whose parts all carry their types has a type in a
scope, and when a statement fits a scope. What a successful check gives back satisfies the rules, so
everything that is known about checked programs is derived from them.
-/

namespace ScriptWasm

set_option autoImplicit false

namespace Expr

mutual

/-- An expression that has a type, with every part annotated by its own. -/
inductive Typed (scope : Scope) : Expr → Ty → Prop where
  | lit (span : Span) (value : Literal) : Typed scope (.lit ⟨span, some value.ty⟩ value) value.ty
  | name (span : Span) (word : String) (binding : Binding)
      (found : scope.vars.get? word = some binding) :
      Typed scope (.name ⟨span, some binding.ty⟩ word) binding.ty
  | call (span : Span) (func : String) (args : List Expr) (params : List (Option Ty)) (result : Ty)
      (callee : scope.callee? func = some (params, result))
      (arguments : ArgsTyped scope params args) :
      Typed scope (.call ⟨span, some result⟩ func args) result
  | isNone (span noneSpan : Span) (left : Expr) (ty : Ty) (operand : Typed scope left ty) :
      Typed scope (.binary ⟨span, some .bool⟩ .is left (.lit ⟨noneSpan, some .none⟩ .none)) .bool
  | arithmetic (span : Span) (op : BinaryOp) (left right : Expr) (kind : op.isArithmetic = true)
      (first : Typed scope left .int) (second : Typed scope right .int) :
      Typed scope (.binary ⟨span, some .int⟩ op left right) .int
  | comparison (span : Span) (op : BinaryOp) (left right : Expr) (ty : Ty) (distinct : op ≠ .is)
      (kind : op.isArithmetic = false) (first : Typed scope left ty)
      (second : Typed scope right ty) :
      Typed scope (.binary ⟨span, some .bool⟩ op left right) .bool
  | negation (span : Span) (operand : Expr) (number : Typed scope operand .int) :
      Typed scope (.unary ⟨span, some .int⟩ .neg operand) .int
  | complement (span : Span) (operand : Expr) (truth : Typed scope operand .bool) :
      Typed scope (.unary ⟨span, some .bool⟩ .not operand) .bool
  | paren (span : Span) (inner : Expr) (ty : Ty) (typed : Typed scope inner ty) :
      Typed scope (.paren ⟨span, some ty⟩ inner) ty

/-- Arguments that fit parameters one by one. A parameter without a type takes everything. -/
inductive ArgsTyped (scope : Scope) : List (Option Ty) → List Expr → Prop where
  | nil : ArgsTyped scope [] []
  | cons (param : Option Ty) (params : List (Option Ty)) (arg : Expr) (args : List Expr) (ty : Ty)
      (head : Typed scope arg ty) (accepted : ∀ expected, param = some expected → ty = expected)
      (tail : ArgsTyped scope params args) : ArgsTyped scope (param :: params) (arg :: args)

end

theorem ArgsTyped.length_eq {scope : Scope} {params : List (Option Ty)} {args : List Expr}
    (typed : ArgsTyped scope params args) : args.length = params.length := by
  induction args generalizing params with
  | nil =>
      cases typed
      rfl
  | cons arg args induction =>
      cases typed with
      | cons param params arg args ty head accepted tail =>
          rw [List.length_cons, List.length_cons, induction tail]

theorem Typed.ty_eq {scope : Scope} {expr : Expr} {ty : Ty} (typed : expr.Typed scope ty) :
    expr.ty? = some ty := by
  cases typed <;> rfl

theorem expect_ty_succeeds_iff (expr : Expr) (expected got : Ty) (nothing : Unit) :
    expr.expectTy expected got = .ok nothing ↔ got = expected := by
  unfold expectTy
  by_cases same : expected = got
  · simp [same]
  · simp [same, Ne.symm same]

theorem binary_typed (scope : Scope) (note : Note) (op : BinaryOp) (left right typed : Expr)
    (ty : Ty) (first : ∀ typed ty, left.check scope = .ok (typed, ty) → typed.Typed scope ty)
    (second : ∀ typed ty, right.check scope = .ok (typed, ty) → typed.Typed scope ty)
    (accepted : (binary note op left right).check scope = .ok (typed, ty)) :
    typed.Typed scope ty := by
  simp only [check, bind_succeeds_iff, Prod.exists] at accepted
  obtain ⟨typedLeft, leftTy, acceptedLeft, accepted⟩ := accepted
  have leftTyped := first typedLeft leftTy acceptedLeft
  split at accepted
  · rename_i isNone
    split at accepted
    · cases accepted
      cases isNone
      exact .isNone note.span right.span typedLeft leftTy leftTyped
    · cases accepted
  · rename_i distinct
    simp only [bind_succeeds_iff, Prod.exists] at accepted
    obtain ⟨typedRight, rightTy, acceptedRight, accepted⟩ := accepted
    have rightTyped := second typedRight rightTy acceptedRight
    split at accepted
    · rename_i kind
      simp only [bind_succeeds_iff, expect_ty_succeeds_iff] at accepted
      obtain ⟨_, rfl, _, rfl, same⟩ := accepted
      cases same
      exact .arithmetic note.span op typedLeft typedRight kind leftTyped rightTyped
    · rename_i kind
      simp only [bind_succeeds_iff, expect_ty_succeeds_iff] at accepted
      obtain ⟨_, rfl, same⟩ := accepted
      cases same
      exact .comparison note.span op typedLeft typedRight _ distinct (by simpa using kind)
        leftTyped rightTyped

mutual

theorem check_typed (scope : Scope) (expr typed : Expr) (ty : Ty)
    (accepted : expr.check scope = .ok (typed, ty)) : typed.Typed scope ty := by
  cases expr with
  | lit note value =>
      cases accepted
      exact .lit note.span value
  | name note word =>
      simp only [check] at accepted
      split at accepted
      · rename_i binding found
        cases accepted
        exact .name note.span word binding found
      · cases accepted
  | call note func args =>
      simp only [check] at accepted
      split at accepted
      · cases accepted
      · rename_i params result callee
        split at accepted
        · rename_i arity
          simp only [bind_succeeds_iff] at accepted
          obtain ⟨typedArgs, acceptedArgs, same⟩ := accepted
          cases same
          exact .call note.span func typedArgs params ty callee
            (check_args_typed scope params args typedArgs arity acceptedArgs)
        · cases accepted
  | binary note op left right =>
      exact binary_typed scope note op left right typed ty (check_typed scope left)
        (check_typed scope right) accepted
  | unary note op operand =>
      simp only [check, bind_succeeds_iff, Prod.exists, expect_ty_succeeds_iff] at accepted
      obtain ⟨typedOperand, got, acceptedOperand, _, rfl, same⟩ := accepted
      have inner := check_typed scope operand typedOperand _ acceptedOperand
      cases same
      cases op with
      | neg => exact .negation note.span typedOperand inner
      | not => exact .complement note.span typedOperand inner
  | paren note inner =>
      simp only [check, bind_succeeds_iff, Prod.exists] at accepted
      obtain ⟨typedInner, innerTy, acceptedInner, same⟩ := accepted
      cases same
      exact .paren note.span typedInner ty (check_typed scope inner typedInner ty acceptedInner)
  | attr note value member =>
      simp [check] at accepted
  | construct note className =>
      simp [check] at accepted
termination_by structural expr

theorem check_args_typed (scope : Scope) (params : List (Option Ty)) (args typed : List Expr)
    (arity : args.length = params.length) (accepted : checkArgs scope params args = .ok typed) :
    ArgsTyped scope params typed := by
  cases args with
  | nil =>
      cases params with
      | nil =>
          cases accepted
          exact .nil
      | cons param params => cases arity
  | cons arg args =>
      cases params with
      | nil => cases arity
      | cons param params =>
          simp only [checkArgs, bind_succeeds_iff, Prod.exists] at accepted
          obtain ⟨typedArg, got, acceptedArg, accepted⟩ := accepted
          have head := check_typed scope arg typedArg got acceptedArg
          cases param with
          | none =>
              simp only [bind_succeeds_iff] at accepted
              obtain ⟨rest, acceptedRest, same⟩ := accepted
              cases same
              have tail := check_args_typed scope params args rest (Nat.succ.inj arity) acceptedRest
              exact .cons none params typedArg rest got head (by simp) tail
          | some wanted =>
              simp only [bind_succeeds_iff, expect_ty_succeeds_iff] at accepted
              obtain ⟨_, expected, rest, acceptedRest, same⟩ := accepted
              cases same
              have tail := check_args_typed scope params args rest (Nat.succ.inj arity) acceptedRest
              exact .cons (some wanted) params typedArg rest got head (by simp [expected]) tail
termination_by structural args

end

end Expr

theorem Expr.check_test_typed (scope : Scope) (test typed : Expr)
    (accepted : test.checkTest scope = .ok typed) : typed.Typed scope .bool := by
  simp only [Expr.checkTest, bind_succeeds_iff, Prod.exists,
    Expr.expect_ty_succeeds_iff] at accepted
  obtain ⟨_, _, checked, _, rfl, same⟩ := accepted
  cases same
  exact Expr.check_typed scope test typed .bool checked

namespace Stmt

mutual

/-- A statement that fits a scope. What is returned has the declared type where one is declared. -/
inductive Typed (scope : Scope) : Stmt → Prop where
  | assign (span : Span) (target : String) (value : Expr) (binding : Binding)
      (found : scope.vars.get? target = some binding) (typed : value.Typed scope binding.ty) :
      Typed scope (.assign span target value)
  | expr (span : Span) (value : Expr) (ty : Ty) (typed : value.Typed scope ty) :
      Typed scope (.expr span value)
  | pass (span : Span) : Typed scope (.pass span)
  | ret (span : Span) (value : Expr) (ty : Ty) (typed : value.Typed scope ty)
      (declared : ∀ expected, scope.result = some expected → ty = expected) :
      Typed scope (.ret span value)
  | cond (span : Span) (test : Expr) (body orelse : List Stmt) (truth : test.Typed scope .bool)
      (first : AllTyped scope body) (second : AllTyped scope orelse) :
      Typed scope (.cond span test body orelse)
  | loop (span : Span) (test : Expr) (body : List Stmt) (truth : test.Typed scope .bool)
      (again : AllTyped scope body) : Typed scope (.loop span test body)

inductive AllTyped (scope : Scope) : List Stmt → Prop where
  | nil : AllTyped scope []
  | cons (first : Stmt) (rest : List Stmt) (head : Typed scope first)
      (tail : AllTyped scope rest) : AllTyped scope (first :: rest)

end

mutual

theorem check_typed (scope : Scope) (stmt typed : Stmt)
    (accepted : stmt.check scope = .ok typed) : typed.Typed scope := by
  cases stmt with
  | assign span target value =>
      simp only [check, bind_succeeds_iff, Prod.exists] at accepted
      obtain ⟨typedValue, got, acceptedValue, accepted⟩ := accepted
      have checked := Expr.check_typed scope value typedValue got acceptedValue
      split at accepted
      · cases accepted
      · rename_i binding found
        split at accepted
        · rename_i same
          cases accepted
          exact .assign span target typedValue binding found (same ▸ checked)
        · cases accepted
  | expr span value =>
      simp only [check, bind_succeeds_iff, Prod.exists] at accepted
      obtain ⟨typedValue, got, acceptedValue, same⟩ := accepted
      cases same
      exact .expr span typedValue got (Expr.check_typed scope value typedValue got acceptedValue)
  | pass span =>
      cases accepted
      exact .pass span
  | fieldAssign span object field value =>
      simp [check] at accepted
  | ret span value =>
      simp only [check, bind_succeeds_iff, Prod.exists] at accepted
      obtain ⟨typedValue, got, acceptedValue, accepted⟩ := accepted
      have checked := Expr.check_typed scope value typedValue got acceptedValue
      split at accepted
      · rename_i declared result
        simp only [bind_succeeds_iff, Expr.expect_ty_succeeds_iff] at accepted
        obtain ⟨_, rfl, same⟩ := accepted
        cases same
        exact .ret span typedValue got checked (by simp [result])
      · rename_i free
        cases accepted
        exact .ret span typedValue got checked (by simp [free])
  | cond span test body orelse =>
      simp only [check, bind_succeeds_iff] at accepted
      obtain ⟨typedTest, acceptedTest, typedBody, acceptedBody, typedElse, acceptedElse, same⟩ :=
        accepted
      cases same
      exact .cond span typedTest typedBody typedElse
        (Expr.check_test_typed scope test typedTest acceptedTest)
        (check_all_typed scope body typedBody acceptedBody)
        (check_all_typed scope orelse typedElse acceptedElse)
  | loop span test body =>
      simp only [check, bind_succeeds_iff] at accepted
      obtain ⟨typedTest, acceptedTest, typedBody, acceptedBody, same⟩ := accepted
      cases same
      exact .loop span typedTest typedBody
        (Expr.check_test_typed scope test typedTest acceptedTest)
        (check_all_typed scope body typedBody acceptedBody)
termination_by structural stmt

theorem check_all_typed (scope : Scope) (stmts typed : List Stmt)
    (accepted : checkAll scope stmts = .ok typed) : AllTyped scope typed := by
  cases stmts with
  | nil =>
      cases accepted
      exact .nil
  | cons first rest =>
      simp only [checkAll, bind_succeeds_iff] at accepted
      obtain ⟨typedFirst, acceptedFirst, typedRest, acceptedRest, same⟩ := accepted
      cases same
      exact .cons typedFirst typedRest (check_typed scope first typedFirst acceptedFirst)
        (check_all_typed scope rest typedRest acceptedRest)
termination_by structural stmts

end

end Stmt

structure FuncDef.Typed (func : FuncDef) (functions : FuncTable) (globals vars : VarTable) :
    Prop where
  distinct : (func.own.map Prod.fst).Nodup
  inits : ∀ var ∈ func.locals, var.init.ty = var.ty
  lookup : ∀ name, vars.get? name = (Table.valueIn? name func.own).or (globals.get? name)
  params : vars.paramNames = func.params.map Param.name
  body : Stmt.AllTyped ⟨functions, vars, some func.result⟩ func.body

theorem FuncDef.check_typed (func typed : FuncDef) (functions : FuncTable)
    (globals vars : VarTable) (sees : func.vars globals = .ok vars)
    (outer : ∀ name binding, globals.get? name = some binding → binding.storage = .global)
    (accepted : func.check functions vars = .ok typed) :
    typed.Typed functions globals vars ∧ typed.entry = func.entry := by
  simp only [FuncDef.check, bind_succeeds_iff] at accepted
  obtain ⟨body, acceptedBody, actual, _, accepted⟩ := accepted
  split at accepted
  · cases accepted
    obtain ⟨distinct, inits, lookup⟩ := vars_succeeds func globals vars sees
    exact ⟨⟨distinct, inits, lookup, param_names_of_lookup func globals vars distinct lookup outer,
      Stmt.check_all_typed _ func.body body acceptedBody⟩, rfl⟩
  · cases accepted

/-- What a successful check of definitions gives back: the same variables, functions under the same
names with the same signatures, and a scope in which the body of each function fits. -/
theorem check_defs_typed (functions : FuncTable) (globals : VarTable)
    (outer : ∀ name binding, globals.get? name = some binding → binding.storage = .global)
    (scopes scopes' : Table VarTable) (defs typed : List Def)
    (distinct : ((defs.filterMap Def.func?).map FuncDef.name).Nodup)
    (accepted : checkDefs functions globals scopes defs = .ok (typed, scopes')) :
    typed.filterMap Def.var? = defs.filterMap Def.var? ∧
      (typed.filterMap Def.func?).map FuncDef.entry =
        (defs.filterMap Def.func?).map FuncDef.entry ∧
      (∀ func ∈ typed.filterMap Def.func?, ∃ vars, scopes'.get? func.name = some vars ∧
        func.Typed functions globals vars) ∧
      ∀ name ∉ (defs.filterMap Def.func?).map FuncDef.name,
        scopes'.get? name = scopes.get? name := by
  induction defs generalizing scopes typed with
  | nil =>
      cases accepted
      simp
  | cons first rest induction =>
      cases first with
      | var var =>
          simp only [checkDefs, bind_succeeds_iff, Prod.exists] at accepted
          obtain ⟨typedRest, _, acceptedRest, same⟩ := accepted
          cases same
          obtain ⟨vars, entries, bodies, others⟩ :=
            induction scopes typedRest (by simpa [List.filterMap_cons] using distinct) acceptedRest
          refine ⟨?_, ?_, ?_, ?_⟩
          · simpa [List.filterMap_cons] using vars
          · simpa [List.filterMap_cons] using entries
          · simpa [List.filterMap_cons] using bodies
          · simpa [List.filterMap_cons] using others
      | func func =>
          simp only [checkDefs, bind_succeeds_iff, Prod.exists] at accepted
          obtain ⟨vars, sees, typedFunc, acceptedFunc, typedRest, _, acceptedRest, same⟩ := accepted
          cases same
          simp only [List.filterMap_cons, Def.func_of_func, List.map_cons,
            List.nodup_cons] at distinct
          obtain ⟨fits, entry⟩ :=
            FuncDef.check_typed func typedFunc functions globals vars sees outer acceptedFunc
          obtain ⟨sameVars, entries, bodies, others⟩ :=
            induction (scopes.insert func.name vars) typedRest distinct.2 acceptedRest
          have name : typedFunc.name = func.name := congrArg Prod.fst entry
          refine ⟨?_, ?_, ?_, ?_⟩
          · simpa [List.filterMap_cons] using sameVars
          · simpa [List.filterMap_cons, entry] using entries
          · intro member found
            simp only [List.filterMap_cons, Def.func_of_func, List.mem_cons] at found
            rcases found with rfl | found
            · refine ⟨vars, ?_, fits⟩
              rw [name, others func.name distinct.1, Table.get_insert, if_pos rfl]
            · exact bodies member found
          · intro other absent
            simp only [List.filterMap_cons, Def.func_of_func, List.map_cons, List.mem_cons,
              not_or] at absent
            rw [others other absent.2, Table.get_insert, if_neg (Ne.symm absent.1)]

/-- An analysis whose tables hold the definitions of its program and whose program fits them. -/
structure Analysis.Typed (analysis : Analysis) : Prop where
  functions : analysis.functions.entries = analysis.program.funcs.map FuncDef.entry
  globals : analysis.globals.entries = analysis.program.vars.map VarDef.globalEntry
  notReserved : ∀ func ∈ analysis.program.funcs, isReserved func.name = false
  inits : ∀ var ∈ analysis.program.vars, var.init.ty = var.ty
  bodies : ∀ func ∈ analysis.program.funcs, ∃ vars,
    analysis.scopes.get? func.name = some vars ∧
      func.Typed analysis.functions analysis.globals vars
  stmts : Stmt.AllTyped ⟨analysis.functions, analysis.globals, none⟩ analysis.program.stmts

theorem globals_are_global (globals : VarTable) (vars : List VarDef)
    (entries : globals.entries = vars.map VarDef.globalEntry) (name : String) (binding : Binding)
    (found : globals.get? name = some binding) : binding.storage = .global := by
  rw [Table.get_eq_some_iff, entries, List.mem_map] at found
  obtain ⟨var, _, same⟩ := found
  cases same
  rfl

/-- Everything that later stages rely on follows from a successful analysis. It keeps the variables,
and the names and signatures of the functions. -/
theorem analyze_typed (program : Program) (analysis : Analysis)
    (accepted : program.analyze = .ok analysis) :
    analysis.Typed ∧ analysis.program.vars = program.vars ∧
      analysis.program.funcs.map FuncDef.entry = program.funcs.map FuncDef.entry := by
  simp only [Program.analyze, bind_succeeds_iff, Prod.exists] at accepted
  obtain ⟨functions, globals, collected, defs, scopes, checked, stmts, acceptedStmts, same⟩ :=
    accepted
  cases same
  obtain ⟨functionEntries, globalEntries, reserved, inits⟩ :=
    collect_defs_succeeds .empty functions .empty globals program.defs collected
  have functionEntries : functions.entries =
      (program.defs.filterMap Def.func?).map FuncDef.entry := functionEntries
  have globalEntries : globals.entries =
      (program.defs.filterMap Def.var?).map VarDef.globalEntry := globalEntries
  have distinct : ((program.defs.filterMap Def.func?).map FuncDef.name).Nodup := by
    have names := functions.distinct
    rw [functionEntries, List.map_map] at names
    exact names
  -- The checks annotate the definitions but leave their names, types and initial values as they
  -- are.
  obtain ⟨vars, entries, bodies, _⟩ := check_defs_typed functions globals
    (globals_are_global globals _ globalEntries) .empty scopes program.defs defs distinct checked
  refine ⟨⟨?_, ?_, ?_, ?_, bodies, Stmt.check_all_typed _ program.stmts stmts acceptedStmts⟩, vars,
    entries⟩
  · exact functionEntries.trans entries.symm
  · rw [globalEntries, ← vars]
    rfl
  · intro func member
    have named : func.entry ∈ (program.defs.filterMap Def.func?).map FuncDef.entry := by
      rw [← entries]
      exact List.mem_map_of_mem member
    obtain ⟨original, found, same⟩ := List.mem_map.mp named
    obtain ⟨definition, memberDef, isFunc⟩ := List.mem_filterMap.mp found
    cases definition with
    | var var => cases isFunc
    | func other =>
        cases isFunc
        have name : original.name = func.name := congrArg Prod.fst same
        rw [← name]
        exact reserved _ memberDef
  · intro var member
    exact inits var (vars ▸ member)

def Ty.Plain (ty : Ty) : Prop :=
  ∀ className, ty ≠ .object className

theorem plain_of_literal (literal : Literal) : literal.ty.Plain := by
  intro className
  cases literal <;> simp [Literal.ty]

/-- A program in which no function takes or returns an object. -/
def Program.Plain (program : Program) : Prop :=
  ∀ func ∈ program.funcs, (∀ param ∈ func.params, param.ty.Plain) ∧ func.result.Plain

structure Scope.Plain (scope : Scope) : Prop where
  vars : ∀ name binding, scope.vars.get? name = some binding → binding.ty.Plain
  results : ∀ name signature, scope.functions.get? name = some signature → signature.result.Plain

theorem callee_plain (scope : Scope) (plain : scope.Plain) (func : String)
    (params : List (Option Ty)) (result : Ty) (callee : scope.callee? func = some (params, result)) :
    result.Plain := by
  unfold Scope.callee? at callee
  split at callee
  · rename_i builtin _
    cases callee
    intro className
    cases builtin <;> simp [Builtin.result]
  · simp only [Option.map_eq_some_iff, Prod.mk.injEq] at callee
    obtain ⟨signature, found, _, rfl⟩ := callee
    exact plain.results func signature found

/-- In a plain scope every expression is a word. -/
theorem Expr.Typed.plain {scope : Scope} (plain : scope.Plain) {expr : Expr} {ty : Ty}
    (typed : expr.Typed scope ty) : ty.Plain := by
  cases expr with
  | paren note inner =>
      cases typed with
      | paren span inner ty typedInner => exact typedInner.plain plain
  | lit note value =>
      cases typed
      exact plain_of_literal value
  | name note word =>
      cases typed with
      | name span word binding found => exact plain.vars word binding found
  | call note func args =>
      cases typed with
      | call span func args params result callee arguments =>
          exact callee_plain scope plain func params ty callee
  | binary note op left right => cases typed <;> simp [Ty.Plain]
  | unary note op operand => cases typed <;> simp [Ty.Plain]
  | attr note value member => cases typed
  | construct note className => cases typed
termination_by structural expr

theorem analyze_plain (program : Program) (analysis : Analysis)
    (accepted : program.analyze = .ok analysis) (plain : program.Plain) :
    analysis.program.Plain := by
  obtain ⟨_, _, entries⟩ := analyze_typed program analysis accepted
  intro func member
  have named : func.entry ∈ program.funcs.map FuncDef.entry := by
    rw [← entries]
    exact List.mem_map_of_mem member
  obtain ⟨original, memberOriginal, same⟩ := List.mem_map.mp named
  obtain ⟨params, result⟩ := plain original memberOriginal
  have signature : original.signature = func.signature := congrArg Prod.snd same
  have types : original.params.map Param.ty = func.params.map Param.ty :=
    congrArg Signature.params signature
  have results : original.result = func.result := congrArg Signature.result signature
  constructor
  · intro param memberParam
    have present : param.ty ∈ original.params.map Param.ty := by
      rw [types]
      exact List.mem_map_of_mem memberParam
    obtain ⟨other, memberOther, sameTy⟩ := List.mem_map.mp present
    rw [← sameTy]
    exact params other memberOther
  · rw [← results]
    exact result

theorem Analysis.Typed.globals_plain {analysis : Analysis} (typed : analysis.Typed) (name : String)
    (binding : Binding) (found : analysis.globals.get? name = some binding) :
    binding.ty.Plain := by
  rw [Table.get_eq_some_iff, typed.globals, List.mem_map] at found
  obtain ⟨var, member, same⟩ := found
  cases same
  exact typed.inits var member ▸ plain_of_literal var.init

theorem Analysis.Typed.results_plain {analysis : Analysis} (typed : analysis.Typed)
    (plain : analysis.program.Plain) (name : String) (signature : Signature)
    (found : analysis.functions.get? name = some signature) : signature.result.Plain := by
  rw [Table.get_eq_some_iff, typed.functions, List.mem_map] at found
  obtain ⟨func, member, same⟩ := found
  cases same
  exact (plain func member).2

theorem Analysis.Typed.entry_scope_plain {analysis : Analysis} (typed : analysis.Typed)
    (plain : analysis.program.Plain) :
    Scope.Plain ⟨analysis.functions, analysis.globals, none⟩ :=
  ⟨typed.globals_plain, typed.results_plain plain⟩

/-- The scope of a function is plain, because its locals start with literals of their types. -/
theorem Analysis.Typed.body_scope_plain {analysis : Analysis} (typed : analysis.Typed)
    (plain : analysis.program.Plain) (func : FuncDef) (member : func ∈ analysis.program.funcs)
    (vars : VarTable) (fits : func.Typed analysis.functions analysis.globals vars) :
    Scope.Plain ⟨analysis.functions, vars, some func.result⟩ := by
  refine ⟨fun name binding found => ?_, typed.results_plain plain⟩
  rw [fits.lookup, Option.or_eq_some_iff] at found
  rcases found with own | ⟨_, outer⟩
  · rw [Table.value_in_eq_some_iff _ _ _ fits.distinct, FuncDef.own, List.mem_append] at own
    rcases own with param | «local»
    · obtain ⟨index, bound, same⟩ := List.mem_mapIdx.mp param
      cases same
      exact (plain func member).1 _ (List.getElem_mem bound)
    · obtain ⟨var, memberVar, same⟩ := List.mem_map.mp «local»
      cases same
      exact fits.inits var memberVar ▸ plain_of_literal var.init
  · exact typed.globals_plain name binding outer

end ScriptWasm
