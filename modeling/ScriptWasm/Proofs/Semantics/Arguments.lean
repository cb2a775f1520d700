import ScriptWasm.Proofs.Code.Indexed
import ScriptWasm.Proofs.Machine.Stretches
import ScriptWasm.Proofs.Semantics.Preservation
import ScriptWasm.Proofs.Typing.Rearrangement

/-!
How arguments come to their parameters. The table of a function numbers the parameters in the order
of their declaration, and the numbers alone bring the order back, however the table lists its
entries. The compiled function keeps its parameters in the first slots and its locals in those
behind them, and a call finds the values of its arguments in the slots of the parameters.
-/

namespace ScriptWasm

set_option autoImplicit false

/-- What a function sees under the calling convention. -/
structure FuncDef.Binds (func : FuncDef) (globals vars : VarTable) : Prop where
  params : ∀ (index : Nat) (param : Param), func.params[index]? = some param →
    vars.get? param.name = some ⟨param.ty, .param index⟩
  locals : ∀ var ∈ func.locals, vars.get? var.name = some ⟨var.ty, .local⟩
  others : ∀ name, name ∉ func.ownNames → vars.get? name = globals.get? name
  names : vars.paramNames = func.params.map Param.name
  draft : (Draft.ofFunction vars).params = func.params.map Param.name

theorem binds_of_lookup (func : FuncDef) (globals vars : VarTable)
    (distinct : (func.own.map Prod.fst).Nodup)
    (lookup : ∀ name, vars.get? name = (Table.valueIn? name func.own).or (globals.get? name))
    (outer : ∀ name binding, globals.get? name = some binding → binding.storage = .global) :
    func.Binds globals vars := by
  have own : ∀ name binding, (name, binding) ∈ func.own → vars.get? name = some binding := by
    intro name binding member
    rw [lookup, (Table.value_in_eq_some_iff name binding _ distinct).mpr member]
    rfl
  have names := param_names_of_lookup func globals vars distinct lookup outer
  refine ⟨fun index param found => own _ _ ?_, fun var member => own _ _ ?_, fun name absent => ?_,
    names, names⟩
  · obtain ⟨bound, rfl⟩ := List.getElem?_eq_some_iff.mp found
    exact List.mem_append_left _ (List.mem_mapIdx.mpr ⟨index, bound, rfl⟩)
  · exact List.mem_append_right _ (List.mem_map_of_mem member)
  · rw [FuncDef.ownNames, ← own_names, ← Table.value_in_map_fst, Bool.not_eq_true,
      Option.isSome_eq_false_iff, Option.isNone_iff_eq_none] at absent
    rw [lookup, absent, Option.none_or]

/-- Tables with the entries of others, in any order, give a function the same places. -/
theorem binds_in_any_order (func : FuncDef) (globals vars : VarTable)
    (succeeded : func.vars globals = .ok vars)
    (outer : ∀ name binding, globals.get? name = some binding → binding.storage = .global)
    (globals' own' vars' : VarTable) (sameGlobals : globals'.entries.Perm globals.entries)
    (sameOwn : own'.entries.Perm func.own)
    (sameVars : vars'.entries.Perm (globals'.overlay own').entries) :
    func.Binds globals vars' := by
  obtain ⟨own, entries, _, rfl⟩ := vars_are_overlaid func globals vars succeeded
  refine binds_of_lookup func globals vars' (entries ▸ own.distinct) (fun name => ?_) outer
  have same : own.entries.Perm own'.entries := entries ▸ sameOwn.symm
  rw [Table.same_of_perm sameVars.symm name, Table.get_overlay, Table.same_of_perm same name,
    Table.same_of_perm sameGlobals.symm name, Table.get?, entries]

/-- A variable of a compiled function is read and written in a slot of its frame, by the linear code
and by the binary form. -/
structure Func.Keeps (func : Func) (module : Module) (vars : VarTable) (name : String)
    (slot : Nat) : Prop where
  load : ∀ draft : Draft, draft.vars = vars →
    draft.emitLoad name = .ok (draft.emit (.localGet name))
  store : ∀ draft : Draft, draft.vars = vars →
    draft.emitStore name = .ok (draft.emit (.localSet name))
  linearLoad : ∀ targets here,
    module.linear func targets here (.localGet name) = .ok [.localGet slot]
  linearStore : ∀ targets here,
    module.linear func targets here (.localSet name) = .ok [.localSet slot]
  binaryLoad : (Instr.localGet name).indexed module func = .localGet slot
  binaryStore : (Instr.localSet name).indexed module func = .localSet slot

theorem keeps_of_slot (func : Func) (module : Module) (vars : VarTable) (name : String)
    (slot : Nat) (binding : Binding) (bound : vars.get? name = some binding)
    (inside : binding.storage ≠ .global) (place : func.slot? name = some slot) :
    func.Keeps module vars name slot := by
  have storage : ∀ draft : Draft, draft.vars = vars →
      draft.storage name = .ok binding.storage := by
    intro draft same
    rw [Draft.storage, same, bound]
  constructor
  · intro draft same
    rw [Draft.emitLoad, storage draft same, ok_bind]
    cases kind : binding.storage with
    | global => exact absurd kind inside
    | «local» => rfl
    | param index => rfl
  · intro draft same
    rw [Draft.emitStore, storage draft same, ok_bind]
    cases kind : binding.storage with
    | global => exact absurd kind inside
    | «local» => rfl
    | param index => rfl
  · intro targets here
    rw [Module.linear, (Module.slot_succeeds_iff func name slot).mpr place, ok_bind]
    rfl
  · intro targets here
    rw [Module.linear, (Module.slot_succeeds_iff func name slot).mpr place, ok_bind]
    rfl
  · rw [Instr.indexed, place, Option.getD_some]
  · rw [Instr.indexed, place, Option.getD_some]

/-- The frame of a compiled function: its parameters in the order of their declaration, then its
locals in theirs. -/
structure FuncDef.Laid (func : FuncDef) (module : Module) (vars : VarTable) (code : Func)
    (linear : LinearFunc) : Prop where
  params : linear.params = func.params.length
  locals : linear.locals = func.locals.length
  param : ∀ (index : Nat) (param : Param), func.params[index]? = some param →
    code.Keeps module vars param.name index
  «local» : ∀ (index : Nat) (var : VarDef), func.locals[index]? = some var →
    code.Keeps module vars var.name (func.params.length + index)

/-- The compiled function lays its names out in the order of their declaration. -/
theorem laid_out {analysis : Analysis} (func : FuncDef) (vars : VarTable)
    (fits : func.Typed analysis.functions analysis.globals vars)
    (outer : ∀ name binding, analysis.globals.get? name = some binding → binding.storage = .global)
    (linear : LinearFunc) (form : analysis.compiled.linearFunc (func.compiled vars) = .ok linear) :
    func.Laid analysis.compiled vars (func.compiled vars) linear := by
  obtain ⟨_, _, _, params, locals, _⟩ := linear_func_succeeds _ _ linear form
  have binds := binds_of_lookup func analysis.globals vars fits.distinct fits.lookup outer
  have distinct : func.ownNames.Nodup := by
    rw [FuncDef.ownNames, ← own_names]
    exact fits.distinct
  refine ⟨by simpa [FuncDef.compiled] using params, by simpa [FuncDef.compiled] using locals,
    fun index param found => ?_, fun index var found => ?_⟩
  · apply keeps_of_slot _ _ _ _ _ _ (binds.params index param found) (by simp)
    apply last_index_of_nodup _ _ distinct
    have bound := (List.getElem?_eq_some_iff.mp found).1
    rw [FuncDef.ownNames, List.getElem?_append_left (by simpa using bound), List.getElem?_map,
      found]
    rfl
  · apply keeps_of_slot _ _ _ _ _ _ (binds.locals var (List.mem_of_getElem? found)) (by simp)
    apply last_index_of_nodup _ _ distinct
    rw [FuncDef.ownNames, List.getElem?_append_right (by simp), List.length_map,
      Nat.add_sub_cancel_left, List.getElem?_map, found]
    rfl

/-- The bodies of an analysed program, each with its scope and its compiled function: those of the
functions, and the statements of the top level. -/
inductive Analysis.HasBody (analysis : Analysis) (module : Module) :
    Scope → Func → Bool → Prop where
  | function (index : Nat) (func : FuncDef) (vars : VarTable) (compiled : Func)
      (found : analysis.program.funcs[index]? = some func)
      (sees : analysis.scopes.get? func.name = some vars)
      (made : module.functions[index]? = some compiled) :
      HasBody analysis module ⟨analysis.functions, vars, some func.result⟩ compiled false
  | entry : HasBody analysis module ⟨analysis.functions, analysis.globals, none⟩ module.entry true

structure Expr.Written (expr : Expr) (scope : Scope) (module : Module) (func : Func)
    (linear : LinearFunc) (here stop : Nat) : Prop where
  code : ∃ draft instrs targets piece, draft.vars = scope.vars ∧
    expr.emit scope.functions draft = .ok { draft with inner := draft.inner ++ instrs } ∧
    module.linearAll func targets here instrs = .ok piece ∧ linear.Holds here piece ∧
    stop = here + piece.length

/-- A machine is in the frame of a body, in the state that an evaluation of the program has come
to. -/
structure Run.Stands (run : Run) (analysis : Analysis) (module : Module) (scope : Scope)
    (func : Func) (topLevel : Bool) (before : List Event) (state : RunState Word Event)
    (activation : Activation) : Prop where
  body : analysis.HasBody module scope func topLevel
  linearized : module.linearize = .ok run.code
  store : StoreAgrees module before state activation.store
  frame : FrameAgrees func scope.vars topLevel state activation.slots

/-- The run behind a call: the callee has the values of the arguments and zeros in its slots, and
the caller waits at the given position with the operands below the arguments. -/
def Run.opened (run : Run) (callee : LinearFunc) (values : List Word) (behind : Nat)
    (activation : Activation) (store : Store) : Run :=
  { run with
    room := run.room - 1
    store
    frame := ⟨callee, 0, (values ++ List.replicate callee.locals 0).toArray, []⟩
    callers := ⟨run.frame.func, behind, activation.slots, activation.stack⟩ :: run.callers }

/-- A call with its arguments on the stack opens the frame of its function. -/
theorem call_opens_frame (run : Run) (here index : Nat) (callee : LinearFunc)
    (present : run.code.functions[index]? = some callee)
    (fetched : run.frame.func.code[here]? = some (.call index)) (values : List Word)
    (arity : values.length = callee.params) (room : run.room ≠ 0) (slots : Array Word)
    (stack : List Word) (store : Store) :
    (run.place here ⟨slots, values.reverse ++ stack, store⟩).advance 1 =
      .running (run.opened callee values (here + 1) ⟨slots, stack, store⟩ store) := by
  apply Run.advance_one run _ here _ _ fetched
  simp only [Run.execute, Run.callFunction, Run.place, present, ← arity, take_args_of_pushed,
    LinearModule.enter, if_neg room, if_true]
  rfl

section Calls

variable {analysis : Analysis} (typed : analysis.Typed) (plain : analysis.program.Plain)
  {scope : Scope} {func : Func} {topLevel : Bool}

include typed

theorem function_known (functions : scope.functions = analysis.functions) (callee : FuncDef)
    (member : callee ∈ analysis.program.funcs) (params : List (Option Ty)) (result : Ty)
    (known : scope.callee? callee.name = some (params, result)) :
    (∀ args, Expr.targetName callee.name args = callee.name) ∧
      params.length = callee.params.length := by
  have free := typed.notReserved callee member
  rw [isReserved, Bool.or_eq_false_iff, Option.isSome_eq_false_iff,
    Option.isNone_iff_eq_none] at free
  have signature : scope.functions.get? callee.name = some callee.signature := by
    rw [functions, Table.get_eq_some_iff, typed.functions]
    exact List.mem_map_of_mem member
  simp only [Scope.callee?, free.1, signature, Option.map_some, Option.some.injEq,
    Prod.mk.injEq] at known
  rw [← known.1]
  exact ⟨fun args => by simp only [Expr.targetName, free.1], by simp [FuncDef.signature]⟩

include plain

theorem Analysis.HasBody.setting (body : analysis.HasBody analysis.compiled scope func topLevel)
    (before : List Event) (limit fuel room : Nat) :
    BodySetting analysis scope func before (analysis.program.call wordModel limit fuel room)
      (analysis.compiled.invoke limit fuel room) := by
  have calls := calls_match typed plain before limit fuel room
  cases body with
  | function index definition vars compiled found sees made =>
      have member := List.mem_of_getElem? found
      have fits := typed.scope_of definition member
      have same : analysis.scopeOf definition = vars := by
        rw [Analysis.scopeOf, sees]
        rfl
      simp only [Analysis.compiled, List.getElem?_map, found, Option.map_some,
        Option.some.injEq, same] at made
      rw [same] at fits
      subst made
      exact ⟨typed, typed.body_scope_plain plain definition member _ fits, rfl,
        typed.body_placed definition _ fits, calls⟩
  | entry =>
      exact ⟨typed, typed.entry_scope_plain plain, rfl, typed.entry_placed, calls⟩

variable {run : Run} {here stop fuel : Nat} {before : List Event}
  {state after : RunState Word Event} {activation : Activation} {args : List Expr}
  {values : List Word}
  (stands : run.Stands analysis analysis.compiled scope func topLevel before state activation)
  (evaluated : Expr.evalAll wordModel analysis.program
    (analysis.program.call wordModel run.limit fuel run.room) args state = (.ok values, after))

include stands evaluated

/-- The machine comes to the end of the code of arguments with their values on the stack, the last
one on top. -/
theorem arguments_are_pushed {params : List (Option Ty)}
    (arguments : Expr.ArgsTyped scope params args) (targets : List Nat)
    (piece : List LinearInstr)
    (lowered : analysis.compiled.linearAll func targets here (Expr.codeAll scope.vars args) =
      .ok piece) (holds : run.frame.func.Holds here piece) :
    ∃ steps done, values.length = args.length ∧
      Pushed analysis.compiled before state activation values.reverse after done ∧
      (run.place here activation).advance steps =
        .running (run.place (here + piece.length) done) := by
  have setting := stands.body.setting typed plain before run.limit fuel run.room
  have pushes := Expr.eval_all_matches setting fuel topLevel args params arguments state activation
    stands.store stands.frame
  have follows := Instr.run_all_followed analysis.compiled func run stands.linearized _ fuel
    (invoke_followed analysis.compiled run.code stands.linearized run.limit fuel run.room) targets
    here _ piece lowered holds activation
  rw [evaluated] at pushes
  rw [← Instr.linear_all_length _ _ _ _ _ _ lowered] at follows
  cases exit : Instr.runAll analysis.compiled func
      (analysis.compiled.invoke run.limit fuel run.room) fuel
      (Expr.codeAll scope.vars args) activation with
  | none =>
      rw [exit] at pushes
      cases pushes
  | some exit' =>
      rw [exit] at pushes follows
      cases exit' with
      | next done =>
          obtain ⟨_, same, arity, pushed⟩ := pushes
          cases same
          obtain ⟨steps, arrives⟩ := follows
          exact ⟨steps, done, arity, pushed, arrives⟩
      | branch depth done => exact pushes.elim
      | returned value done => exact pushes.elim fun _ impossible => impossible.2.elim
      | trapped error done => cases pushes.1

/-- A call of a function of the program evaluates its arguments and opens the frame of the function
with their values. -/
theorem call_passes_arguments (index : Nat) (callee : FuncDef)
    (found : analysis.program.funcs[index]? = some callee) (linear : LinearFunc)
    (present : run.code.functions[index]? = some linear)
    (count : linear.params = callee.params.length) (note : Note) (ty : Ty)
    (typedCall : (Expr.call note callee.name args).Typed scope ty)
    (written : (Expr.call note callee.name args).Written scope analysis.compiled func
      run.frame.func here stop) (room : run.room ≠ 0) :
    ∃ steps store, StoreAgrees analysis.compiled before after store ∧
      (run.place here activation).advance steps =
        .running (run.opened linear values stop activation store) := by
  have setting := stands.body.setting typed plain before 0 0 0
  obtain ⟨draft, instrs, targets, piece, vars, emitted, lowered, holds, rfl⟩ := written.code
  rw [Expr.emit_typed scope setting.plain _ ty typedCall draft vars] at emitted
  have sameCode : (Expr.call note callee.name args).code scope.vars = instrs :=
    List.append_cancel_left (congrArg Draft.inner (Except.ok.inj emitted))
  cases typedCall with
  | call span name args params result known arguments =>
      obtain ⟨target, arity⟩ := function_known typed setting.functions callee
        (List.mem_of_getElem? found) params ty known
      rw [← sameCode, Expr.code, target, Instr.linear_all_append] at lowered
      obtain ⟨head, tail, headDone, tailDone, rfl⟩ := lowered
      have reached := typed.callee_of_function index callee found
      simp only [Module.linearAll, Module.linear, reached, pure_bind, pure_succeeds_iff,
        List.append_nil] at tailDone
      rw [LinearFunc.holds_append, ← tailDone] at holds
      obtain ⟨steps, done, length, pushed, arrives⟩ := arguments_are_pushed typed plain stands
        evaluated arguments targets head headDone holds.1
      have sameArity : values.length = linear.params := by
        rw [length, arguments.length_eq, arity, count]
      have calls := ((LinearFunc.holds_cons _ _ _ _).mp holds.2).1
      have opens := call_opens_frame run _ index linear present calls values sameArity room
        activation.slots activation.stack done.store
      have same : done = ⟨activation.slots, values.reverse ++ activation.stack, done.store⟩ := by
        rw [← pushed.slots, ← pushed.stack]
      refine ⟨steps + 1, done.store, pushed.store, ?_⟩
      rw [Run.advance_through _ _ _ _ arrives, same, ← tailDone, List.length_append,
        List.length_singleton]
      exact opens

end Calls

section Plain

theorem plain_of_check_word (ty : Ty) (checked : ty.checkWord = .ok ()) : ty.Plain := by
  rintro className rfl
  cases checked

theorem plain_of_check_params (params : List Param)
    (checked : (params.forM fun param => param.ty.checkWord) = .ok ()) :
    ∀ param ∈ params, param.ty.Plain := by
  induction params with
  | nil => exact List.forall_mem_nil _
  | cons first rest induction =>
      obtain ⟨_, head, tail⟩ := (bind_succeeds_iff _ _ _).mp checked
      exact List.forall_mem_cons.mpr ⟨plain_of_check_word first.ty head, induction tail⟩

theorem plain_of_generate_defs (functions : FuncTable) (scopes : Table VarTable) (defs : List Def)
    (globals : List Global) (funcs : List Func)
    (generated : generateDefs functions scopes defs = .ok (globals, funcs)) :
    ∀ func ∈ defs.filterMap Def.func?, (∀ param ∈ func.params, param.ty.Plain) ∧
      func.result.Plain := by
  induction defs generalizing globals funcs with
  | nil => exact List.forall_mem_nil _
  | cons first rest induction =>
      cases first with
      | var var =>
          simp only [generateDefs, bind_succeeds_iff, Prod.exists] at generated
          obtain ⟨_, _, laterGlobals, laterFuncs, later, _⟩ := generated
          simpa [List.filterMap_cons] using induction laterGlobals laterFuncs later
      | func func =>
          simp only [generateDefs, bind_succeeds_iff, Prod.exists] at generated
          obtain ⟨_, here, laterGlobals, laterFuncs, later, _⟩ := generated
          have others := induction laterGlobals laterFuncs later
          unfold FuncDef.generate at here
          split at here
          · cases here
          · simp only [bind_succeeds_iff] at here
            obtain ⟨_, params, _, result, _⟩ := here
            rw [List.filterMap_cons]
            exact List.forall_mem_cons.mpr ⟨⟨plain_of_check_params func.params params,
              plain_of_check_word func.result result⟩, others⟩

/-- Only a program without objects has a module. -/
theorem plain_of_generate (analysis : Analysis) (module : Module)
    (generated : analysis.generate = .ok module) : analysis.program.Plain := by
  simp only [Analysis.generate, bind_succeeds_iff, Prod.exists] at generated
  obtain ⟨globals, funcs, defs, _⟩ := generated
  exact plain_of_generate_defs _ _ _ globals funcs defs

end Plain

/-- The calling convention. A function sees its parameters with their positions, its locals and the
globals that none of them hides, whatever the order of the tables is, and the positions alone bring
the parameters back in the order of their declaration. In the compiled module the name of a
parameter is the slot with its position and every local has a slot of its own behind them, and a
call from any body opens the frame of the function with the value of each argument in the slot of its
parameter. -/
theorem arguments_keep_their_order :
    (∀ (func : FuncDef) (globals vars : VarTable),
      (∀ name binding, globals.get? name = some binding → binding.storage = .global) →
      func.vars globals = .ok vars →
      func.Binds globals vars ∧
      ∃ own : VarTable, own.entries = func.own ∧ vars = globals.overlay own ∧
        ∀ globals' own' vars' : VarTable, globals'.entries.Perm globals.entries →
          own'.entries.Perm own.entries → vars'.entries.Perm (globals'.overlay own').entries →
          func.Binds globals vars') ∧
    ∀ (program : Program) (analysis : Analysis) (module : Module) (code : LinearModule),
      program.analyze = .ok analysis → analysis.generate = .ok module →
      module.linearize = .ok code → ∀ (index : Nat) (callee : FuncDef),
      analysis.program.funcs[index]? = some callee →
      ∃ vars compiled linear, analysis.scopes.get? callee.name = some vars ∧
        module.allFunctions[index]? = some compiled ∧ code.functions[index]? = some linear ∧
        callee.Laid module vars compiled linear ∧
        ∀ (scope : Scope) (func : Func) (topLevel : Bool) (note : Note) (args : List Expr) (ty : Ty)
          (run : Run) (here stop fuel : Nat) (before : List Event)
          (state after : RunState Word Event) (activation : Activation) (values : List Word),
          run.code = code → run.room ≠ 0 →
          run.Stands analysis module scope func topLevel before state activation →
          (Expr.call note callee.name args).Typed scope ty →
          (Expr.call note callee.name args).Written scope module func run.frame.func here stop →
          Expr.evalAll wordModel analysis.program
            (analysis.program.call wordModel run.limit fuel run.room) args state =
              (.ok values, after) →
          ∃ steps store, StoreAgrees module before after store ∧
            (run.place here activation).advance steps =
              .running (run.opened linear values stop activation store) := by
  constructor
  · intro func globals vars outer succeeded
    obtain ⟨own, entries, _, same⟩ := vars_are_overlaid func globals vars succeeded
    -- The tables are read by name only, so that their order does not matter.
    have inAnyOrder := binds_in_any_order func globals vars succeeded outer
    rw [← entries] at inAnyOrder
    exact ⟨inAnyOrder globals own vars (.refl _) (.refl _) (same ▸ .refl _), own, entries, same,
      inAnyOrder⟩
  · intro program analysis module code analysed generated linearized index callee found
    obtain ⟨typed, _, _⟩ := analyze_typed program analysis analysed
    have plain := plain_of_generate analysis module generated
    cases (generate_typed analysis typed plain).symm.trans generated
    have member := List.mem_of_getElem? found
    obtain ⟨vars, sees, fits⟩ := typed.bodies callee member
    have compiled := Analysis.compiled_function index callee found
    rw [Analysis.scopeOf, sees, Option.getD_some] at compiled
    obtain ⟨linear, present, form⟩ :=
      linearized_functions analysis.compiled code linearized index _ compiled
    have laid := laid_out callee vars fits (globals_are_global _ _ typed.globals) linear form
    refine ⟨vars, _, linear, sees, compiled, present, laid, ?_⟩
    intro scope func topLevel note args ty run here stop fuel before state after activation values
      sameCode room stands typedCall written evaluated
    subst sameCode
    exact call_passes_arguments typed plain stands evaluated index callee found linear present
      laid.params note ty typedCall written room

def hiddenGlobal : VarDef :=
  ⟨"y", .bool, ⟨0, 0⟩, .bool true, ⟨0, 0⟩, ⟨0, 0⟩⟩

def difference : FuncDef :=
  ⟨"difference", [⟨"x", .int, ⟨0, 0⟩⟩, ⟨"y", .int, ⟨0, 0⟩⟩], .int,
    [⟨"z", .int, ⟨0, 0⟩, .int 5, ⟨0, 0⟩, ⟨0, 0⟩⟩],
    [.ret ⟨0, 0⟩ (.binary ⟨⟨0, 0⟩, none⟩ .sub (.name ⟨⟨0, 0⟩, none⟩ "x")
      (.name ⟨⟨0, 0⟩, none⟩ "y"))], ⟨0, 0⟩⟩

def differenceProgram : Program :=
  ⟨[.var hiddenGlobal, .func difference],
    [.expr ⟨0, 0⟩ (.call ⟨⟨0, 0⟩, none⟩ "difference"
      [.lit ⟨⟨0, 0⟩, none⟩ (.int 9), .lit ⟨⟨0, 0⟩, none⟩ (.int 2)])], []⟩

/-- The entry comes to the call at its third instruction, and nine and two are the arguments. -/
theorem difference_gets_its_arguments :
    (∃ vars, difference.vars (Table.ofList [("y", ⟨.bool, .global⟩)]) = .ok vars ∧
      ∀ vars' : VarTable, vars'.entries.Perm vars.entries → vars'.paramNames = ["x", "y"]) ∧
    ∃ analysis module code linear entry steps store,
      differenceProgram.analyze = .ok analysis ∧ analysis.generate = .ok module ∧
      module.linearize = .ok code ∧ code.functions[0]? = some linear ∧
      code.functions[1]? = some entry ∧
      (Run.mk code 4 3 ⟨#[1], #[]⟩ ⟨entry, 2, #[0], []⟩ []).advance steps =
        .running ⟨code, 4, 2, store, ⟨linear, 0, #[9, 2, 0], []⟩, [⟨entry, 5, #[0], []⟩]⟩ := by
  obtain ⟨inAnyOrder, calls⟩ := arguments_keep_their_order
  have outer := globals_are_global (Table.ofList [("y", ⟨.bool, .global⟩)]) [hiddenGlobal] rfl
  constructor
  · have sees : difference.vars (Table.ofList [("y", ⟨.bool, .global⟩)]) = .ok _ := rfl
    obtain ⟨_, own, _, same, binds⟩ := inAnyOrder difference _ _ outer sees
    exact ⟨_, sees, fun vars' order =>
      (binds _ own vars' (.refl _) (.refl _) (same ▸ order)).names⟩
  · have analysed : differenceProgram.analyze = .ok _ := rfl
    obtain ⟨typed, _, _⟩ := analyze_typed differenceProgram _ analysed
    have plain : differenceProgram.Plain := by
      intro func member
      rw [List.mem_singleton.mp (show func ∈ [difference] from member)]
      simp [difference, Ty.Plain]
    have plainToo := analyze_plain differenceProgram _ analysed plain
    have generated := generate_typed _ typed plainToo
    obtain ⟨code, linearized⟩ := linearize_of_resolved _ (typed.compiled_resolved plainToo)
    obtain ⟨entry, there, form⟩ := linearized_functions _ code linearized 1 _ rfl
    obtain ⟨_, _, linear, _, _, present, laid, opens⟩ :=
      calls differenceProgram _ _ code analysed generated linearized 0 _ rfl
    obtain ⟨piece, done, _, _, _, holds⟩ := linear_func_succeeds _ _ entry form
    obtain rfl : _ = piece := Except.ok.inj done
    have standsThere : entry.Holds 2 [.const 9, .const 2, .call 0] := by
      have split : entry.Holds 0 ([.const 0, .localSet 0] ++
        ([.const 9, .const 2, .call 0] ++ [.localSet 0, .localGet 0, .ret])) := holds
      rw [LinearFunc.holds_append, LinearFunc.holds_append] at split
      exact split.2.1
    have globals : ∀ name, (Table.ofList [("y", 1)]).get? name =
        (lastIndex? name ["y"]).bind fun index => (#[1] : Array Word)[index]? := by
      intro name
      by_cases same : "y" = name
      · subst same
        rfl
      · simp [Table.get_of_list, Table.valueIn?, lastIndex?, same]
    cases typed.stmts with
    | cons _ _ head _ =>
      cases head with
      | expr _ _ ty typedCall =>
        obtain ⟨steps, store, _, opened⟩ := opens _ _ _ _ _ ty
          ⟨code, 4, 3, ⟨#[1], #[]⟩, ⟨entry, 2, #[0], []⟩, []⟩ 2 5 0 []
          ⟨Table.ofList [("y", 1)], .empty, 0, [], []⟩ _ ⟨#[0], [], ⟨#[1], #[]⟩⟩ [9, 2] rfl
          (Nat.succ_ne_zero 2)
          ⟨.entry, linearized, ⟨globals, fun name => last_index_bound name ["y"], rfl⟩,
            entry_frame_agrees typed _ rfl rfl⟩ typedCall
          ⟨⟨_, [], [], [], [], true⟩, [.const 9, .const 2, .call "difference"], [], _, rfl, rfl,
            rfl, standsThere, rfl⟩ rfl
        refine ⟨_, _, code, linear, entry, steps, store, analysed, generated, linearized, present,
          there, ?_⟩
        rw [Run.opened, laid.locals] at opened
        exact opened

end ScriptWasm
