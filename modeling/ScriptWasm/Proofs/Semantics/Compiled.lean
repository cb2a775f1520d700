import ScriptWasm.Proofs.Code.Resolution
import ScriptWasm.Proofs.Semantics.Matching

/-!
The code of a typed program does what the evaluator does on words, one form of expression and
statement after the other.
-/

namespace ScriptWasm

set_option autoImplicit false

theorem take_args_of_pushed (values stack : List Word) :
    Run.takeArgs values.length (values.reverse ++ stack) = some (values, stack) := by
  unfold Run.takeArgs
  rw [if_pos (by simp)]
  simp

/-- A call and the code that it runs end in the same way. A call that returns leaves the variables
of its caller alone. -/
def OutcomeMatches (module : Module) (before : List Event) (state : RunState Word Event)
    (outcome : Except Halt Word × RunState Word Event) : Option CallOutcome → Prop
  | none => outcome.1 = .error .outOfFuel
  | some (.ok value, store) =>
      outcome.1 = .ok value ∧ StoreAgrees module before outcome.2 store ∧
        outcome.2.locals = state.locals ∧ outcome.2.result = state.result
  | some (.error error, store) =>
      outcome.1 = .error (.trap error) ∧ StoreAgrees module before outcome.2 store

def CallsMatch (analysis : Analysis) (before : List Event)
    (call : FuncDef → List Word → Evaluation Word Event Word) (calling : Calling) : Prop :=
  ∀ (index : Nat) (func : FuncDef), analysis.program.funcs[index]? = some func →
    ∀ (values : List Word) (state : RunState Word Event) (store : Store),
      values.length = func.params.length → StoreAgrees analysis.compiled before state store →
      OutcomeMatches analysis.compiled before state (call func values state)
        (calling index values store)

/-- What the code of a body relies on: its scope fits the tables of a typed program, its variables
have places in its function, and its calls are understood. -/
structure BodySetting (analysis : Analysis) (scope : Scope) (func : Func) (before : List Event)
    (call : FuncDef → List Word → Evaluation Word Event Word) (calling : Calling) : Prop where
  typed : analysis.Typed
  plain : scope.Plain
  functions : scope.functions = analysis.functions
  placed : scope.Placed analysis.compiled func
  calls : CallsMatch analysis before call calling

theorem Analysis.Typed.function_found {analysis : Analysis} (typed : analysis.Typed) (index : Nat)
    (func : FuncDef) (here : analysis.program.funcs[index]? = some func) :
    analysis.program.function? func.name = some func := by
  have names := typed.function_names_nodup
  have member := List.mem_of_getElem? here
  unfold Program.function?
  cases found : analysis.program.funcs.find? fun other => other.name = func.name with
  | none =>
      have different := List.find?_eq_none.mp found func member
      simp at different
  | some other =>
      have sameName : other.name = func.name := by simpa using List.find?_some found
      have memberOther := List.mem_of_find?_eq_some found
      rw [List.inj_on_of_nodup_map names memberOther member sameName]

theorem matches_callee {analysis : Analysis} {scope : Scope} {func : Func} {before : List Event}
    {call : FuncDef → List Word → Evaluation Word Event Word} {calling : Calling}
    (setting : BodySetting analysis scope func before call calling) (fuel : Nat) (name : String)
    (params : List (Option Ty)) (result : Ty)
    (callee : scope.callee? name = some (params, result)) (args : List Expr)
    (arguments : Expr.ArgsTyped scope params args) (values : List Word)
    (arity : values.length = args.length) (state : RunState Word Event) (slots : Array Word)
    (stack : List Word) (machineStore : Store)
    (store : StoreAgrees analysis.compiled before state machineStore) :
    Matches analysis.compiled before
      (fun value =>
        Pushed analysis.compiled before state ⟨slots, stack, machineStore⟩ [value])
      NoReturn (applyCallee wordModel analysis.program call name args values state)
      (Instr.runAll analysis.compiled func calling fuel [.call (Expr.targetName name args)]
        ⟨slots, values.reverse ++ stack, machineStore⟩) := by
  rw [Instr.run_all_singleton]
  have count : values.length = params.length := arity.trans arguments.length_eq
  -- A name is a function of the program, or a builtin for which the types of the arguments choose a
  -- primitive.
  rcases Expr.target_name_cases scope setting.plain name params result callee args arguments with
    ⟨notBuiltin, target, signature, found, sameParams, _⟩ |
    ⟨builtin, primitive, isBuiltin, sameParams, _, chosen, target⟩
  · rw [setting.functions] at found
    obtain ⟨index, definition, here, rfl, sameSignature, reached⟩ :=
      setting.typed.callee_exists name signature found
    have inModule := Analysis.compiled_function index definition here
    have sameArity : values.length = definition.params.length := by
      rw [count, sameParams, ← sameSignature]
      simp [FuncDef.signature]
    have paramCount : (definition.compiled (analysis.scopeOf definition)).params.length =
        values.length := by
      simp [FuncDef.compiled, sameArity]
    have called := setting.calls index definition here values state machineStore sameArity store
    have applied : applyCallee wordModel analysis.program call definition.name args values state =
        call definition values state := by
      simp only [applyCallee, notBuiltin, setting.typed.function_found index definition here,
        if_pos sameArity]
    rw [applied, target]
    simp only [Instr.run, Instr.runCall, reached, inModule, paramCount, take_args_of_pushed]
    cases answer : calling index values machineStore with
    | none =>
        rw [answer] at called
        exact called
    | some outcome =>
        obtain ⟨returned, after⟩ := outcome
        rw [answer] at called
        cases returned with
        | ok value =>
            obtain ⟨same, agrees, locals, kept⟩ := called
            exact ⟨value, same, rfl, rfl, agrees, locals, kept⟩
        | error error => exact called
  · have sameArity : values.length = primitive.arity := by
      rw [count, sameParams, arity_of_builtin builtin _ primitive chosen]
    rw [target]
    simp only [Instr.run, Instr.runCall, setting.typed.callee_of_primitive, Activation.callHost,
      ← sameArity, take_args_of_pushed, applyCallee, isBuiltin, wordModel]
    unfold Expr.primitive? at chosen
    rw [chosen]
    simp only [HostImport.call, HostImport.answer, Evaluation.bind_apply, Evaluation.lift_apply]
    cases primitive.eval values with
    | error error => exact ⟨rfl, store⟩
    | ok value =>
        refine ⟨value, rfl, rfl, rfl, ⟨store.globals, store.cells, ?_⟩, rfl, rfl⟩
        -- Both sides note the same event, the machine in its store and the evaluator in its output.
        change (machineStore.events ++ (primitive.event? values).toArray).toList =
          before ++ (state.output ++ (primitive.event? values).toList)
        rw [Array.toList_append, store.events, List.append_assoc, Option.toList_toArray]

section Bodies

variable (analysis : Analysis) (scope : Scope) (func : Func) (before : List Event)
  (call : FuncDef → List Word → Evaluation Word Event Word) (calling : Calling) (fuel : Nat)

/-- The code of an expression pushes the word that the expression evaluates to. -/
def Expr.CodePushes (topLevel : Bool) (expr : Expr) : Prop :=
  ∀ (state : RunState Word Event) (activation : Activation),
    StoreAgrees analysis.compiled before state activation.store →
    FrameAgrees func scope.vars topLevel state activation.slots →
    Matches analysis.compiled before
      (fun value => Pushed analysis.compiled before state activation [value]) NoReturn
      (expr.eval wordModel analysis.program call state)
      (Instr.runAll analysis.compiled func calling fuel (expr.code scope.vars) activation)

def Expr.AllCodePushes (topLevel : Bool) (args : List Expr) : Prop :=
  ∀ (state : RunState Word Event) (activation : Activation),
    StoreAgrees analysis.compiled before state activation.store →
    FrameAgrees func scope.vars topLevel state activation.slots →
    Matches analysis.compiled before
      (fun values after done => values.length = args.length ∧
        Pushed analysis.compiled before state activation values.reverse after done)
      NoReturn (evalAll wordModel analysis.program call args state)
      (Instr.runAll analysis.compiled func calling fuel (codeAll scope.vars args) activation)

/-- The code of a statement does what the statement does, above the given operands. -/
def Stmt.CodeAgrees (running : Option FuncDef) (base : RunState Word Event) (stack : List Word)
    (stmt : Stmt) : Prop :=
  ∀ (state : RunState Word Event) (activation : Activation),
    Continued analysis.compiled before func scope.vars running.isNone base stack state
      activation →
    Matches analysis.compiled before
      (StmtGoesOn analysis.compiled before func scope.vars running.isNone base stack)
      (StmtReturns analysis.compiled before running.isNone base)
      (stmt.eval wordModel analysis.program call running fuel state)
      (Instr.runAll analysis.compiled func calling fuel (stmt.code scope.vars running.isNone)
        activation)

def Stmt.AllCodeAgrees (running : Option FuncDef) (base : RunState Word Event)
    (stack : List Word) (stmts : List Stmt) : Prop :=
  ∀ (state : RunState Word Event) (activation : Activation),
    Continued analysis.compiled before func scope.vars running.isNone base stack state
      activation →
    Matches analysis.compiled before
      (StmtGoesOn analysis.compiled before func scope.vars running.isNone base stack)
      (StmtReturns analysis.compiled before running.isNone base)
      (evalAll wordModel analysis.program call running fuel stmts state)
      (Instr.runAll analysis.compiled func calling fuel (codeAll scope.vars running.isNone stmts)
        activation)

variable {analysis scope func before call calling fuel} {topLevel : Bool}

theorem word_op_exists (op : BinaryOp) (distinct : op ≠ .is) :
    ∃ wordOp, op.wordOp? = some wordOp := by
  cases op <;> simp [BinaryOp.wordOp?] at distinct ⊢

namespace Expr

theorem lit_pushes (note : Note) (value : Literal) :
    (lit note value).CodePushes analysis scope func before call calling fuel topLevel := by
  intro state activation store frame
  simp only [eval, code]
  exact matches_yield (pure _) _ _ (matches_const func calling fuel value.word store)

theorem name_pushes (setting : BodySetting analysis scope func before call calling) (note : Note)
    (word : String) (binding : Binding) (found : scope.vars.get? word = some binding) :
    (name note word).CodePushes analysis scope func before call calling fuel topLevel := by
  intro state activation store frame
  simp only [eval, code]
  exact matches_yield _ _ _ (matches_load func calling fuel word binding found
    (setting.placed.globals word binding found) store frame)

theorem call_pushes (setting : BodySetting analysis scope func before call calling) (note : Note)
    (name : String) (params : List (Option Ty)) (result : Ty)
    (callee : scope.callee? name = some (params, result)) (args : List Expr)
    (arguments : ArgsTyped scope params args)
    (inArgs : AllCodePushes analysis scope func before call calling fuel topLevel args) :
    (Expr.call note name args).CodePushes analysis scope func before call calling fuel
      topLevel := by
  intro state activation store frame
  simp only [eval, code, Instr.run_all_append]
  apply matches_bind _ _ _ _ _ _ _ _ (inArgs state activation store frame)
  rintro values after done ⟨arity, pushed⟩
  apply matches_yield
  have called := matches_callee setting fuel name params result callee args arguments values
    arity after done.slots activation.stack done.store pushed.store
  rw [← pushed.stack] at called
  apply matches_weaken called
  intro value later finished answer
  exact ⟨answer.slots.trans pushed.slots, answer.stack, answer.store,
    answer.locals.trans pushed.locals, answer.result.trans pushed.result⟩

theorem is_none_pushes (note noneNote : Note) (left : Expr)
    (inLeft : left.CodePushes analysis scope func before call calling fuel topLevel) :
    (binary note .is left (lit noneNote .none)).CodePushes analysis scope func before call calling
      fuel topLevel := by
  intro state activation store frame
  simp only [eval, code, BinaryOp.wordOp?, Instr.run_all_append, if_true, Expr.isNone]
  apply matches_bind _ _ _ _ _ _ _ _ (inLeft state activation store frame)
  intro value after done pushed
  rw [run_is_none func calling fuel _ value activation.stack pushed.stack]
  exact ⟨_, rfl, pushed.slots, rfl, pushed.store.noted _, pushed.locals, pushed.result⟩

theorem operation_pushes (note : Note) (op : BinaryOp) (left right : Expr) (distinct : op ≠ .is)
    (inLeft : left.CodePushes analysis scope func before call calling fuel topLevel)
    (inRight : right.CodePushes analysis scope func before call calling fuel topLevel) :
    (binary note op left right).CodePushes analysis scope func before call calling fuel
      topLevel := by
  intro state activation store frame
  obtain ⟨wordOp, lowered⟩ := word_op_exists op distinct
  simp only [eval, code, lowered, if_neg distinct]
  apply matches_operation func calling fuel op wordOp lowered _ _ _ _ _
    (inLeft state activation store frame)
  intro _ after done pushed
  exact inRight after done pushed.store (pushed.frame frame)

/-- A negation subtracts its operand from a zero that is pushed first. -/
theorem negation_pushes (note : Note) (operand : Expr)
    (inOperand : operand.CodePushes analysis scope func before call calling fuel topLevel) :
    (unary note .neg operand).CodePushes analysis scope func before call calling fuel
      topLevel := by
  intro state activation store frame
  have zero : Pushed analysis.compiled before state activation [0] state (activation.push 0) :=
    ⟨rfl, rfl, store, rfl, rfl⟩
  simp only [eval, code, List.cons_append]
  change Matches _ _ _ _ _ (Exit.andThen (Instr.runAll analysis.compiled func calling fuel
    (operand.code scope.vars ++ [.binary .sub])) (some (.next (activation.push 0))))
  rw [Exit.andThen, Instr.run_all_append]
  apply matches_bind _ _ _ _ _ _ _ _ (inOperand state (activation.push 0) store frame)
  intro value after done pushed
  have both := zero.trans pushed
  rw [run_negation func calling fuel value activation.stack both.stack, ← word_neg]
  exact ⟨_, rfl, both.slots, rfl, both.store.noted _, both.locals, both.result⟩

theorem complement_pushes (note : Note) (operand : Expr)
    (inOperand : operand.CodePushes analysis scope func before call calling fuel topLevel) :
    (unary note .not operand).CodePushes analysis scope func before call calling fuel
      topLevel := by
  intro state activation store frame
  simp only [eval, code, Instr.run_all_append]
  apply matches_bind _ _ _ _ _ _ _ _ (inOperand state activation store frame)
  intro value after done pushed
  rw [run_complement func calling fuel value activation.stack pushed.stack, word_complement]
  exact ⟨_, rfl, pushed.slots, rfl, pushed.store.noted _, pushed.locals, pushed.result⟩

theorem paren_pushes (note : Note) (inner : Expr)
    (inInner : inner.CodePushes analysis scope func before call calling fuel topLevel) :
    (paren note inner).CodePushes analysis scope func before call calling fuel topLevel := by
  intro state activation store frame
  simp only [eval, code]
  exact matches_yield _ _ _ (inInner state activation store frame)

theorem arguments_push (arg : Expr) (args : List Expr)
    (inFirst : arg.CodePushes analysis scope func before call calling fuel topLevel)
    (inRest : AllCodePushes analysis scope func before call calling fuel topLevel args) :
    AllCodePushes analysis scope func before call calling fuel topLevel (arg :: args) := by
  intro state activation store frame
  simp only [evalAll, codeAll, Instr.run_all_append]
  apply matches_bind _ _ _ _ _ _ _ _ (inFirst state activation store frame)
  intro value after done pushed
  apply matches_map _ _ _ _ _ _ _ (inRest after done pushed.store (pushed.frame frame))
  rintro values later finished ⟨arity, pushedToo⟩
  refine ⟨value :: values, rfl, by rw [List.length_cons, List.length_cons, arity], ?_⟩
  rw [List.reverse_cons]
  exact pushed.trans pushedToo

mutual

theorem eval_matches (setting : BodySetting analysis scope func before call calling) (fuel : Nat)
    (topLevel : Bool) (expr : Expr) (ty : Ty) (typed : expr.Typed scope ty) :
    expr.CodePushes analysis scope func before call calling fuel topLevel := by
  cases expr with
  | lit note value => exact lit_pushes note value
  | name note word =>
      cases typed with
      | name span word binding found => exact name_pushes setting _ word binding found
  | call note name args =>
      cases typed with
      | call span name args params result callee arguments =>
          exact call_pushes setting _ name params ty callee args arguments
            (eval_all_matches setting fuel topLevel args params arguments)
  | binary note op left right =>
      cases typed with
      | isNone span noneSpan left leftTy operand =>
          exact is_none_pushes _ _ left (eval_matches setting fuel topLevel left leftTy operand)
      | arithmetic span op left right kind first second =>
          have distinct : op ≠ .is := by
            intro same
            rw [same] at kind
            cases kind
          exact operation_pushes _ op left right distinct
            (eval_matches setting fuel topLevel left .int first)
            (eval_matches setting fuel topLevel right .int second)
      | comparison span op left right operandTy distinct kind first second =>
          exact operation_pushes _ op left right distinct
            (eval_matches setting fuel topLevel left operandTy first)
            (eval_matches setting fuel topLevel right operandTy second)
  | unary note op operand =>
      cases typed with
      | negation span operand number =>
          exact negation_pushes _ operand (eval_matches setting fuel topLevel operand .int number)
      | complement span operand truth =>
          exact complement_pushes _ operand (eval_matches setting fuel topLevel operand .bool truth)
  | paren note inner =>
      cases typed with
      | paren span inner ty typedInner =>
          exact paren_pushes _ inner (eval_matches setting fuel topLevel inner ty typedInner)
  | attr note value member => cases typed
  | construct note className => cases typed
termination_by structural expr

theorem eval_all_matches (setting : BodySetting analysis scope func before call calling)
    (fuel : Nat) (topLevel : Bool) (args : List Expr) (params : List (Option Ty))
    (typed : ArgsTyped scope params args) :
    AllCodePushes analysis scope func before call calling fuel topLevel args := by
  cases args with
  | nil =>
      intro state activation store frame
      exact ⟨[], rfl, rfl, rfl, rfl, store, rfl, rfl⟩
  | cons arg args =>
      cases typed with
      | cons param params arg args ty head accepted tail =>
          exact arguments_push arg args (eval_matches setting fuel topLevel arg ty head)
            (eval_all_matches setting fuel topLevel args params tail)
termination_by structural args

end

end Expr

namespace Stmt

variable {running : Option FuncDef} {base : RunState Word Event} {stack : List Word}

theorem assign_agrees (setting : BodySetting analysis scope func before call calling)
    (span : Span) (target : String) (value : Expr) (binding : Binding)
    (found : scope.vars.get? target = some binding) (typed : value.Typed scope binding.ty) :
    (assign span target value).CodeAgrees analysis scope func before call calling fuel running base
      stack := by
  intro state activation continued
  simp only [eval, code, Instr.run_all_append]
  apply matches_bind _ _ _ _ _ _ _ _ (value.eval_matches setting fuel running.isNone _ typed state
    activation continued.store continued.frame)
  intro word after done pushed
  apply matches_map _ _ _ _ _ _ _ (matches_store calling fuel running target binding found
    (setting.placed.globals target binding found) word activation.stack pushed.stack pushed.store
    (pushed.frame continued.frame))
  intro _ later finished goes
  exact ⟨none, rfl, rfl, goes.stack.trans continued.stack, goes.store, goes.frame,
    fun inside => (goes.result inside).trans (pushed.result.trans (continued.result inside))⟩

/-- The top level keeps the value of an expression statement, and a function drops it. -/
theorem expr_agrees (setting : BodySetting analysis scope func before call calling) (span : Span)
    (value : Expr) (ty : Ty) (typed : value.Typed scope ty) :
    (expr span value).CodeAgrees analysis scope func before call calling fuel running base
      stack := by
  intro state activation continued
  simp only [eval, code, Instr.run_all_append]
  apply matches_bind _ _ _ _ _ _ _ _ (value.eval_matches setting fuel running.isNone ty typed state
    activation continued.store continued.frame)
  intro word after done pushed
  have kept := fun inside => pushed.result.trans (continued.result inside)
  cases running with
  | none =>
      obtain ⟨finished, stored, goes⟩ := @matches_keep _ _ _ _ func calling fuel _ word
        activation.stack pushed.stack pushed.store (pushed.frame continued.frame)
      simp only [Option.isNone_none, if_true, stored]
      exact ⟨none, rfl, rfl, goes.stack.trans continued.stack, goes.store, goes.frame,
        fun impossible => by cases impossible⟩
  | some function =>
      simp only [Option.isNone_some, Bool.false_eq_true, if_false, Instr.run_all_singleton,
        Instr.run, Activation.pop, pushed.stack]
      exact ⟨none, rfl, rfl, continued.stack, pushed.store, pushed.frame continued.frame, kept⟩

theorem ret_agrees (setting : BodySetting analysis scope func before call calling) (span : Span)
    (value : Expr) (ty : Ty) (typed : value.Typed scope ty) :
    (ret span value).CodeAgrees analysis scope func before call calling fuel running base
      stack := by
  intro state activation continued
  simp only [eval, code, Instr.run_all_append]
  apply matches_bind _ _ _ _ _ _ _ _ (value.eval_matches setting fuel running.isNone ty typed state
    activation continued.store continued.frame)
  intro word after done pushed
  rw [Instr.run_all_singleton]
  simp only [Instr.run, Activation.leave, pushed.stack]
  exact ⟨some word, rfl, rfl, pushed.store,
    fun inside => pushed.result.trans (continued.result inside)⟩

theorem cond_agrees (setting : BodySetting analysis scope func before call calling) (span : Span)
    (test : Expr) (truth : test.Typed scope .bool) (body orelse : List Stmt)
    (inBody : AllCodeAgrees analysis scope func before call calling fuel running base stack body)
    (inElse : AllCodeAgrees analysis scope func before call calling fuel running base stack
      orelse) :
    (cond span test body orelse).CodeAgrees analysis scope func before call calling fuel running
      base stack := by
  intro state activation continued
  simp only [eval, code, Instr.run_all_append, Expr.evalTest, bind_assoc]
  apply matches_bind _ _ _ _ _ _ _ _ (test.eval_matches setting fuel running.isNone .bool truth
    state activation continued.store continued.frame)
  intro word after done pushed
  have further : Continued analysis.compiled before func scope.vars running.isNone base stack
      after (done.withStack activation.stack) :=
    ⟨continued.stack, pushed.store, pushed.frame continued.frame,
      fun inside => pushed.result.trans (continued.result inside)⟩
  rw [Instr.run_all_singleton, Evaluation.bind_apply, Evaluation.lift_apply, truth_of_word]
  simp only [Instr.run, pushed.stack, List.cons_append, List.nil_append]
  by_cases zero : word = 0
  · rw [if_pos zero, decide_eq_false (not_not.mpr zero)]
    exact matches_out_of_body (inElse after _ further)
  · rw [if_neg zero, decide_eq_true zero]
    exact matches_out_of_body (inBody after _ further)

theorem loop_agrees (setting : BodySetting analysis scope func before call calling) (span : Span)
    (test : Expr) (truth : test.Typed scope .bool) (body : List Stmt)
    (inBody : AllCodeAgrees analysis scope func before call calling fuel running base stack body) :
    (loop span test body).CodeAgrees analysis scope func before call calling fuel running base
      stack := by
  intro state activation continued
  simp only [eval, code]
  rw [Instr.run_all_singleton]
  simp only [Instr.run]
  rw [Instr.run_all_singleton]
  apply matches_loop calling fuel _ _ _ _ _ inBody fuel state activation continued
  intro after done further
  exact test.eval_matches setting fuel running.isNone .bool truth after done further.store
    further.frame

mutual

theorem eval_matches (setting : BodySetting analysis scope func before call calling) (fuel : Nat)
    (running : Option FuncDef) (base : RunState Word Event) (stack : List Word) (stmt : Stmt)
    (typed : stmt.Typed scope) :
    stmt.CodeAgrees analysis scope func before call calling fuel running base stack := by
  cases stmt with
  | assign span target value =>
      cases typed with
      | assign span target value binding found typedValue =>
          exact assign_agrees setting span target value binding found typedValue
  | expr span value =>
      cases typed with
      | expr span value ty typedValue => exact expr_agrees setting span value ty typedValue
  | pass span =>
      intro state activation continued
      exact ⟨none, rfl, rfl, continued⟩
  | fieldAssign span object field value => cases typed
  | ret span value =>
      cases typed with
      | ret span value ty typedValue declared => exact ret_agrees setting span value ty typedValue
  | cond span test body orelse =>
      cases typed with
      | cond span test body orelse truth first second =>
          exact cond_agrees setting span test truth body orelse
            (eval_all_matches setting fuel running base stack body first)
            (eval_all_matches setting fuel running base stack orelse second)
  | loop span test body =>
      cases typed with
      | loop span test body truth again =>
          exact loop_agrees setting span test truth body
            (eval_all_matches setting fuel running base stack body again)
termination_by structural stmt

theorem eval_all_matches (setting : BodySetting analysis scope func before call calling)
    (fuel : Nat) (running : Option FuncDef) (base : RunState Word Event) (stack : List Word)
    (stmts : List Stmt) (typed : AllTyped scope stmts) :
    AllCodeAgrees analysis scope func before call calling fuel running base stack stmts := by
  cases stmts with
  | nil =>
      intro state activation continued
      exact ⟨none, rfl, rfl, continued⟩
  | cons first rest =>
      cases typed with
      | cons first rest head tail =>
          intro state activation continued
          simp only [evalAll, codeAll, Instr.run_all_append]
          exact matches_sequence _ _ _ _
            (eval_matches setting fuel running base stack first head state activation continued)
            (eval_all_matches setting fuel running base stack rest tail)
termination_by structural stmts

end

end Stmt

end Bodies

end ScriptWasm
