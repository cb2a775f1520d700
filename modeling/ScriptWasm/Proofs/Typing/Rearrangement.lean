import ScriptWasm.Proofs.Typing.WellTyped
import Mathlib.Data.Set.List

/-!
The definitions of a program may stand in any order. A check reads its tables by name only, so the
order in which they were filled does not show, and each definition passes or fails on its own. The
typed definitions of a rearranged program are the typed definitions of the program, rearranged.
-/

namespace ScriptWasm

set_option autoImplicit false

section Lists

variable {Value Result : Type}

def rearranged (order : List Nat) (list : List Value) : List Value :=
  order.filterMap fun index => list[index]?

theorem map_rearranged (change : Value → Result) (order : List Nat) (list : List Value) :
    (rearranged order list).map change = rearranged order (list.map change) := by
  simp only [rearranged, List.map_filterMap, List.getElem?_map]

theorem filter_map_all_positions (list : List Value) :
    (List.range list.length).filterMap (fun index => list[index]?) = list := by
  have members : (List.range list.length).map (fun index => list[index]?) = list.map some := by
    apply List.ext_getElem
    · simp
    · simp
  calc (List.range list.length).filterMap (fun index => list[index]?)
    _ = ((List.range list.length).map fun index => list[index]?).filterMap id := by
          rw [List.filterMap_map]
          rfl
    _ = (list.map some).filterMap id := by rw [members]
    _ = list := by simp [List.filterMap_map]

theorem rearranged_perm (order : List Nat) (list : List Value)
    (permutes : order.Perm (List.range list.length)) : (rearranged order list).Perm list := by
  have same := permutes.filterMap fun index => list[index]?
  rwa [filter_map_all_positions] at same

end Lists

def Program.rearranged (program : Program) (order : List Nat) : Program :=
  { program with defs := ScriptWasm.rearranged order program.defs }

namespace Table

variable {Value : Type}

/-- Tables with the same value for every name. The order of their entries may differ. -/
def Same (first second : Table Value) : Prop :=
  ∀ name, second.get? name = first.get? name

theorem same_of_perm {first second : Table Value} (entries : first.entries.Perm second.entries) :
    first.Same second := by
  intro name
  ext value
  rw [get_eq_some_iff, get_eq_some_iff, entries.mem_iff]

end Table

structure Scope.Same (first second : Scope) : Prop where
  functions : first.functions.Same second.functions
  vars : first.vars.Same second.vars
  result : second.result = first.result

section Checks

variable {first second : Scope}

theorem Scope.Same.callee (same : first.Same second) (func : String) :
    second.callee? func = first.callee? func := by
  rw [Scope.callee?, Scope.callee?, same.functions func]

namespace Expr

mutual

theorem check_same (same : first.Same second) (expr : Expr) :
    expr.check second = expr.check first := by
  cases expr with
  | lit note value | attr note value member | construct note className => rfl
  | name note word => simp only [check, same.vars word]
  | call note func args =>
      simp only [check, same.callee func, fun params => check_args_same same params args]
  | binary note op left right => simp only [check, check_same same left, check_same same right]
  | unary note op operand => simp only [check, check_same same operand]
  | paren note inner => simp only [check, check_same same inner]
termination_by structural expr

theorem check_args_same (same : first.Same second) (params : List (Option Ty))
    (args : List Expr) :
    checkArgs second params args = checkArgs first params args := by
  cases args with
  | nil => cases params <;> rfl
  | cons arg rest =>
      cases params with
      | nil => rfl
      | cons param params =>
          simp only [checkArgs, check_same same arg, check_args_same same params rest]
termination_by structural args

end

theorem check_test_same (same : first.Same second) (test : Expr) :
    test.checkTest second = test.checkTest first := by
  rw [checkTest, checkTest, check_same same]

end Expr

namespace Stmt

mutual

theorem check_same (same : first.Same second) (stmt : Stmt) :
    stmt.check second = stmt.check first := by
  cases stmt with
  | assign span target value => simp only [check, Expr.check_same same, same.vars target]
  | expr span value => simp only [check, Expr.check_same same]
  | ret span value => simp only [check, Expr.check_same same, same.result]
  | pass span | fieldAssign span object field value => rfl
  | cond span test body orelse =>
      simp only [check, Expr.check_test_same same, check_all_same same body,
        check_all_same same orelse]
  | loop span test body =>
      simp only [check, Expr.check_test_same same, check_all_same same body]
termination_by structural stmt

theorem check_all_same (same : first.Same second) (stmts : List Stmt) :
    checkAll second stmts = checkAll first stmts := by
  cases stmts with
  | nil => rfl
  | cons stmt rest => simp only [checkAll, check_same same stmt, check_all_same same rest]
termination_by structural stmts

end

mutual

theorem tail_ty_same (same : first.Same second) (stmt : Stmt) :
    stmt.tailTy second = stmt.tailTy first := by
  cases stmt with
  | ret span value => simp only [tailTy, Expr.check_same same]
  | cond span test body orelse =>
      simp only [tailTy, block_ty_same same body, block_ty_same same orelse]
  | loop span test body => simp only [tailTy, block_ty_same same body]
  | assign span target value | expr span value | pass span
  | fieldAssign span object field value => rfl
termination_by structural stmt

theorem block_ty_same (same : first.Same second) (stmts : List Stmt) :
    blockTy second stmts = blockTy first stmts := by
  cases stmts with
  | nil => rfl
  | cons stmt rest =>
      have later := block_ty_same same rest
      cases rest with
      | nil => exact tail_ty_same same stmt
      | cons next others => exact later
termination_by structural stmts

end

end Stmt

end Checks

def Def.check (functions : FuncTable) (globals : VarTable) : Def → Except TypeError Def
  | .var definition => return .var definition
  | .func definition => do
      let vars ← definition.vars globals
      return .func (← definition.check functions vars)

section Definitions

variable {functions functions' : FuncTable} {globals globals' : VarTable}
  (sameFunctions : functions.Same functions') (sameGlobals : globals.Same globals')

include sameGlobals in
theorem FuncDef.vars_same (func : FuncDef) :
    (∃ vars vars', func.vars globals = .ok vars ∧ func.vars globals' = .ok vars' ∧
        vars.Same vars') ∨
      ∃ error, func.vars globals = .error error ∧ func.vars globals' = .error error := by
  unfold FuncDef.vars
  cases declareParams .empty 0 func.params with
  | error error => exact .inr ⟨error, rfl, rfl⟩
  | ok params =>
      simp only [ok_bind]
      cases declareLocals params func.locals with
      | error error => exact .inr ⟨error, rfl, rfl⟩
      | ok own =>
          refine .inl ⟨_, _, rfl, rfl, fun name => ?_⟩
          rw [Table.get_overlay, Table.get_overlay, sameGlobals name]

include sameFunctions sameGlobals in
theorem Def.check_same (definition : Def) :
    definition.check functions' globals' = definition.check functions globals := by
  cases definition with
  | var var => rfl
  | func func =>
      simp only [check]
      rcases func.vars_same sameGlobals with ⟨vars, vars', seen, seen', same⟩ | ⟨error, seen, seen'⟩
      · have scopes : Scope.Same ⟨functions, vars, some func.result⟩
            ⟨functions', vars', some func.result⟩ := ⟨sameFunctions, same, rfl⟩
        simp only [seen, seen', ok_bind, FuncDef.check, Stmt.check_all_same scopes,
          Stmt.block_ty_same scopes]
      · rw [seen, seen']
        rfl

/-- Definitions pass together when each of them passes by itself. -/
theorem check_defs_succeeds_iff (scopes : Table VarTable) (defs typed : List Def) :
    (∃ after, checkDefs functions globals scopes defs = .ok (typed, after)) ↔
      defs.map (Def.check functions globals) = typed.map .ok := by
  induction defs generalizing scopes typed with
  | nil =>
      simp only [checkDefs, pure_succeeds_iff, Prod.mk.injEq, List.map_nil]
      constructor
      · rintro ⟨_, rfl, _⟩
        rfl
      · intro same
        exact ⟨scopes, (List.map_eq_nil_iff.mp same.symm).symm, rfl⟩
  | cons first rest induction =>
      cases first with
      | var var =>
          simp only [checkDefs, bind_succeeds_iff, Prod.exists, pure_succeeds_iff, Prod.mk.injEq,
            List.map_cons]
          constructor
          · rintro ⟨after, typedRest, _, accepted, rfl, rfl⟩
            rw [(induction scopes typedRest).mp ⟨_, accepted⟩]
            rfl
          · intro same
            obtain ⟨head, tail, rfl, this, others⟩ := List.map_eq_cons_iff.mp same.symm
            obtain ⟨after, accepted⟩ := (induction scopes tail).mpr others.symm
            cases this
            exact ⟨after, tail, after, accepted, rfl, rfl⟩
      | func func =>
          simp only [checkDefs, bind_succeeds_iff, Prod.exists, pure_succeeds_iff, Prod.mk.injEq,
            List.map_cons]
          constructor
          · rintro ⟨after, vars, seen, typedFunc, passed, typedRest, _, accepted, rfl, rfl⟩
            rw [(induction _ typedRest).mp ⟨_, accepted⟩]
            simp only [Def.check, seen, passed, ok_bind]
            rfl
          · intro same
            obtain ⟨head, tail, rfl, this, others⟩ := List.map_eq_cons_iff.mp same.symm
            have here : Def.check functions globals (.func func) = .ok head := this.symm
            simp only [Def.check, bind_succeeds_iff, pure_succeeds_iff] at here
            obtain ⟨vars, seen, typedFunc, passed, rfl⟩ := here
            obtain ⟨after, accepted⟩ :=
              (induction (scopes.insert func.name vars) tail).mpr others.symm
            exact ⟨after, vars, seen, typedFunc, passed, tail, after, accepted, rfl, rfl⟩

include sameFunctions sameGlobals in
theorem checked_rearranged (order : List Nat) (defs typed typed' : List Def)
    (each : defs.map (Def.check functions globals) = typed.map .ok)
    (each' : (rearranged order defs).map (Def.check functions' globals') = typed'.map .ok) :
    typed' = rearranged order typed := by
  have results : (typed'.map .ok : List (Except TypeError Def)) =
      (rearranged order typed).map .ok := by
    calc typed'.map .ok
      _ = (rearranged order defs).map (Def.check functions' globals') := each'.symm
      _ = (rearranged order defs).map (Def.check functions globals) := by
            rw [funext (Def.check_same sameFunctions sameGlobals)]
      _ = rearranged order (typed.map Except.ok) := by rw [map_rearranged, each]
      _ = (rearranged order typed).map Except.ok := (map_rearranged Except.ok order typed).symm
  refine List.map_injective_iff.mpr ?_ results
  intro first second same
  cases same
  rfl

/-- After a check every function has the variables that it sees, under its name. -/
theorem check_defs_scopes (scopes after : Table VarTable) (defs typed : List Def)
    (distinct : ((defs.filterMap Def.func?).map FuncDef.name).Nodup)
    (accepted : checkDefs functions globals scopes defs = .ok (typed, after)) (name : String)
    (vars : VarTable) :
    after.get? name = some vars ↔
      (∃ func ∈ defs.filterMap Def.func?, func.name = name ∧ func.vars globals = .ok vars) ∨
        name ∉ (defs.filterMap Def.func?).map FuncDef.name ∧ scopes.get? name = some vars := by
  -- Scopes are inserted one after the other, and since the names are distinct none is overwritten.
  induction defs generalizing scopes typed with
  | nil =>
      cases accepted
      simp
  | cons first rest induction =>
      cases first with
      | var var =>
          simp only [checkDefs, bind_succeeds_iff, Prod.exists, pure_succeeds_iff,
            Prod.mk.injEq] at accepted
          obtain ⟨typedRest, _, acceptedRest, rfl, rfl⟩ := accepted
          simp only [List.filterMap_cons, Def.func_of_var] at distinct ⊢
          exact induction scopes typedRest distinct acceptedRest
      | func func =>
          simp only [checkDefs, bind_succeeds_iff, Prod.exists, pure_succeeds_iff,
            Prod.mk.injEq] at accepted
          obtain ⟨own, seen, typedFunc, _, typedRest, _, acceptedRest, rfl, rfl⟩ := accepted
          simp only [List.filterMap_cons, Def.func_of_func, List.map_cons,
            List.nodup_cons] at distinct ⊢
          rw [induction (scopes.insert func.name own) typedRest distinct.2 acceptedRest,
            Table.get_insert, List.exists_mem_cons_iff, List.mem_cons, not_or]
          by_cases same : func.name = name
          · subst same
            have elsewhere : ¬∃ other ∈ rest.filterMap Def.func?, other.name = func.name ∧
                other.vars globals = .ok vars := by
              rintro ⟨other, member, sameName, _⟩
              exact distinct.1 (sameName ▸ List.mem_map_of_mem member)
            rw [or_iff_right elsewhere, or_iff_left elsewhere]
            simp [distinct.1, seen]
          · simp only [same, Ne.symm same, if_false, not_false_eq_true, true_and, false_and,
              false_or]

theorem checked_scopes (defs typed : List Def) (scopes : Table VarTable)
    (collected : collectDefs .empty .empty defs = .ok (functions, globals))
    (accepted : checkDefs functions globals .empty defs = .ok (typed, scopes)) (name : String)
    (vars : VarTable) :
    scopes.get? name = some vars ↔
      ∃ func ∈ defs.filterMap Def.func?, func.name = name ∧ func.vars globals = .ok vars := by
  have distinct := functions.distinct
  rw [(collect_defs_succeeds .empty functions .empty globals defs collected).1, Table.empty,
    List.nil_append, List.map_map] at distinct
  rw [check_defs_scopes .empty scopes defs typed distinct accepted, Table.get_empty]
  simp only [reduceCtorEq, and_false, or_false]

/-- A function has a scope after the check of some definitions when it has one after the check of
others with the same functions, and every name means the same in both. -/
theorem scope_found_again (defs defs' typed typed' : List Def) (scopes scopes' : Table VarTable)
    (funcs : (defs.filterMap Def.func?).Perm (defs'.filterMap Def.func?))
    (sameGlobals : globals.Same globals')
    (collected : collectDefs .empty .empty defs = .ok (functions, globals))
    (collected' : collectDefs .empty .empty defs' = .ok (functions', globals'))
    (accepted : checkDefs functions globals .empty defs = .ok (typed, scopes))
    (accepted' : checkDefs functions' globals' .empty defs' = .ok (typed', scopes'))
    (name : String) (vars : VarTable) (found : scopes.get? name = some vars) :
    ∃ vars', scopes'.get? name = some vars' ∧ vars.Same vars' := by
  obtain ⟨func, member, named, sees⟩ :=
    (checked_scopes defs typed scopes collected accepted name vars).mp found
  rcases func.vars_same sameGlobals with ⟨own, own', seen, seen', same⟩ | ⟨error, failed, _⟩
  · cases sees.symm.trans seen
    exact ⟨own', (checked_scopes defs' typed' scopes' collected' accepted' name own').mpr
      ⟨func, funcs.mem_iff.mp member, named, seen'⟩, same⟩
  · cases sees.symm.trans failed

end Definitions

section Programs

variable {defs defs' : List Def} (permutes : defs.Perm defs')

include permutes

theorem collected_in_any_order (functions functions' : FuncTable) (globals globals' : VarTable)
    (collected : collectDefs .empty .empty defs = .ok (functions, globals))
    (collected' : collectDefs .empty .empty defs' = .ok (functions', globals')) :
    functions.Same functions' ∧ globals.Same globals' := by
  obtain ⟨funcs, vars, _⟩ := collect_defs_succeeds .empty functions .empty globals defs collected
  obtain ⟨funcs', vars', _⟩ :=
    collect_defs_succeeds .empty functions' .empty globals' defs' collected'
  refine ⟨Table.same_of_perm ?_, Table.same_of_perm ?_⟩
  · rw [funcs, funcs']
    exact ((permutes.filterMap Def.func?).map FuncDef.entry).append_left _
  · rw [vars, vars']
    exact ((permutes.filterMap Def.var?).map VarDef.globalEntry).append_left _

theorem collects_in_any_order
    (collects : ∃ tables, collectDefs .empty .empty defs = .ok tables) :
    ∃ tables, collectDefs .empty .empty defs' = .ok tables := by
  obtain ⟨distinct, free, inits⟩ := (collect_defs_succeeds_iff .empty .empty defs).mp collects
  refine (collect_defs_succeeds_iff .empty .empty defs').mpr ⟨?_, ?_, ?_⟩
  · exact (permutes.map Def.name).nodup_iff.mp distinct
  · exact fun definition member => free definition (permutes.mem_iff.mpr member)
  · exact fun var member => inits var ((permutes.filterMap Def.var?).mem_iff.mpr member)

end Programs

structure Analysis.Rearranged (order : List Nat) (analysis other : Analysis) : Prop where
  functions : analysis.functions.Same other.functions
  globals : analysis.globals.Same other.globals
  scopes : ∀ func, Option.Rel Table.Same (analysis.scopes.get? func) (other.scopes.get? func)
  program : other.program = analysis.program.rearranged order

theorem accepted_in_any_order (program other : Program) (permutes : program.defs.Perm other.defs)
    (stmts : other.stmts = program.stmts)
    (accepted : ∃ analysis, program.analyze = .ok analysis) :
    ∃ analysis, other.analyze = .ok analysis := by
  simp only [Program.analyze, bind_succeeds_iff, Prod.exists, pure_succeeds_iff] at accepted ⊢
  obtain ⟨_, functions, globals, collected, typed, scopes, checked, typedStmts, fits, _⟩ := accepted
  obtain ⟨⟨functions', globals'⟩, collected'⟩ := collects_in_any_order permutes ⟨_, collected⟩
  obtain ⟨sameFunctions, sameGlobals⟩ := collected_in_any_order permutes functions functions'
    globals globals' collected collected'
  have each := (check_defs_succeeds_iff .empty program.defs typed).mp ⟨scopes, checked⟩
  have eachToo :
      other.defs.map (Def.check functions' globals') ∈ Set.range (List.map Except.ok) := by
    rw [Set.range_list_map, funext (Def.check_same sameFunctions sameGlobals)]
    intro result member
    rw [← (permutes.map _).mem_iff, each] at member
    obtain ⟨passed, _, same⟩ := List.mem_map.mp member
    exact ⟨passed, same⟩
  obtain ⟨typed', passed⟩ := eachToo
  obtain ⟨scopes', checked'⟩ :=
    (check_defs_succeeds_iff .empty other.defs typed').mpr passed.symm
  have entry : Scope.Same ⟨functions, globals, none⟩ ⟨functions', globals', none⟩ :=
    ⟨sameFunctions, sameGlobals, rfl⟩
  have fits' : Stmt.checkAll ⟨functions', globals', none⟩ other.stmts = .ok typedStmts := by
    rw [stmts, Stmt.check_all_same entry, fits]
  exact ⟨_, functions', globals', collected', typed', scopes', checked', typedStmts, fits', rfl⟩

theorem analyze_length (program : Program) (analysis : Analysis)
    (accepted : program.analyze = .ok analysis) :
    analysis.program.defs.length = program.defs.length := by
  simp only [Program.analyze, bind_succeeds_iff, Prod.exists, pure_succeeds_iff] at accepted
  obtain ⟨_, _, _, typed, scopes, checked, _, _, rfl⟩ := accepted
  have each := (check_defs_succeeds_iff .empty program.defs typed).mp ⟨scopes, checked⟩
  have lengths := congrArg List.length each
  rw [List.length_map, List.length_map] at lengths
  exact lengths.symm

/-- The analysis of a rearranged program is that of the program, rearranged. -/
theorem analyze_rearranged (program : Program) (order : List Nat)
    (permutes : order.Perm (List.range program.defs.length)) (analysis other : Analysis)
    (accepted : program.analyze = .ok analysis)
    (accepted' : (program.rearranged order).analyze = .ok other) :
    analysis.Rearranged order other := by
  simp only [Program.analyze, bind_succeeds_iff, Prod.exists, pure_succeeds_iff]
    at accepted accepted'
  obtain ⟨functions, globals, collected, typed, scopes, checked, stmts, fits, rfl⟩ := accepted
  obtain ⟨functions', globals', collected', typed', scopes', checked', stmts', fits', rfl⟩ :=
    accepted'
  have moved : program.defs.Perm (program.rearranged order).defs :=
    (rearranged_perm order program.defs permutes).symm
  obtain ⟨sameFunctions, sameGlobals⟩ := collected_in_any_order moved functions functions' globals
    globals' collected collected'
  have entry : Scope.Same ⟨functions, globals, none⟩ ⟨functions', globals', none⟩ :=
    ⟨sameFunctions, sameGlobals, rfl⟩
  have sameStmts : stmts' = stmts := by
    rw [show (program.rearranged order).stmts = program.stmts from rfl,
      Stmt.check_all_same entry, fits] at fits'
    exact (Except.ok.inj fits').symm
  have sameDefs := checked_rearranged sameFunctions sameGlobals order program.defs typed typed'
    ((check_defs_succeeds_iff .empty _ typed).mp ⟨_, checked⟩)
    ((check_defs_succeeds_iff .empty _ typed').mp ⟨_, checked'⟩)
  have funcs := moved.filterMap Def.func?
  refine ⟨sameFunctions, sameGlobals, fun name => ?_, by rw [sameStmts, sameDefs]; rfl⟩
  -- The scopes are searched by name, so each order finds the scopes that the other one finds.
  have onward := scope_found_again program.defs _ typed typed' scopes scopes' funcs sameGlobals
    collected collected' checked checked' name
  have back := scope_found_again _ program.defs typed' typed scopes' scopes funcs.symm
    (fun other => (sameGlobals other).symm) collected' collected checked' checked name
  change Option.Rel Table.Same (scopes.get? name) (scopes'.get? name)
  cases here : scopes.get? name with
  | some vars =>
      obtain ⟨vars', there, same⟩ := onward vars here
      rw [there]
      exact .some same
  | none =>
      cases there : scopes'.get? name with
      | none => exact .none
      | some vars' =>
          obtain ⟨vars, found, _⟩ := back vars' there
          cases here.symm.trans found

end ScriptWasm
