import ScriptWasm.Proofs.Semantics.Alike
import ScriptWasm.Proofs.Semantics.Compiled

/-!
Bodies that pass the check never go wrong. What an expression yields has the type of its annotation,
and a statement keeps the types of all variables, as long as the calls in them give what is declared.
-/

namespace ScriptWasm

set_option autoImplicit false

def CallsInStep (program : Program) (call : FuncDef → List Literal → Evaluation Literal String Literal)
    (callWords : FuncDef → List Word → Evaluation Word Event Word) : Prop :=
  ∀ func ∈ program.funcs, ∀ (values : List Literal) (tagged : RunState Literal String)
    (words : RunState Word Event), values.map Literal.ty = func.params.map Param.ty →
    Alike program tagged words →
    InStep program (Evaluated func.result tagged) (call func values tagged)
      (callWords func (values.map Literal.word) words)

/-- What the evaluation of a body relies on. -/
structure TaggedSetting (analysis : Analysis) (scope : Scope) (running : Option FuncDef)
    (call : FuncDef → List Literal → Evaluation Literal String Literal)
    (callWords : FuncDef → List Word → Evaluation Word Event Word) : Prop where
  typed : analysis.Typed
  plain : scope.Plain
  functions : scope.functions = analysis.functions
  fits : scope.vars.Fits analysis.program running
  calls : CallsInStep analysis.program call callWords

theorem types_of_args {scope : Scope} (types : List Ty) (args : List Expr)
    (typed : Expr.ArgsTyped scope (types.map some) args) :
    args.map Expr.ty? = types.map some := by
  induction types generalizing args with
  | nil =>
      cases typed
      rfl
  | cons ty types induction =>
      cases typed with
      | cons param params arg args got head accepted tail =>
          rw [List.map_cons, List.map_cons, induction args tail, head.ty_eq, accepted ty rfl]

def ArgsEvaluated (args : List Expr) (before : RunState Literal String) (values : List Literal)
    (words : List Word) (after : RunState Literal String) : Prop :=
  words = values.map Literal.word ∧ values.map (some ∘ Literal.ty) = args.map Expr.ty? ∧
    after.locals = before.locals

theorem builtin_arguments {scope : Scope} (builtin : Builtin) (args : List Expr)
    (typed : Expr.ArgsTyped scope builtin.params args) (values : List Literal)
    (tags : values.map (some ∘ Literal.ty) = args.map Expr.ty?) :
    values.length = builtin.arity ∧
      ∀ ty ∈ values.map Literal.ty, builtin ≠ .print → ty = .int := by
  have length : values.length = builtin.arity := by
    have sameLength := congrArg List.length tags
    rw [List.length_map, List.length_map, typed.length_eq] at sameLength
    rw [sameLength]
    cases builtin <;> rfl
  refine ⟨length, fun ty member notPrint => ?_⟩
  have params : builtin.params = (List.replicate builtin.arity Ty.int).map some := by
    cases builtin <;> first | rfl | exact absurd rfl notPrint
  rw [params] at typed
  rw [types_of_args _ args typed] at tags
  rw [← List.map_map] at tags
  rw [(Option.some_injective Ty).list_map tags] at member
  exact List.eq_of_mem_replicate member

section Bodies

variable {analysis : Analysis} {scope : Scope} {running : Option FuncDef}
  {call : FuncDef → List Literal → Evaluation Literal String Literal}
  {callWords : FuncDef → List Word → Evaluation Word Event Word}

/-- A callee is found, is given as many arguments as it takes, and accepts them. -/
theorem in_step_callee (setting : TaggedSetting analysis scope running call callWords)
    (name : String) (params : List (Option Ty)) (result : Ty)
    (callee : scope.callee? name = some (params, result)) (args : List Expr)
    (arguments : Expr.ArgsTyped scope params args) (values : List Literal)
    (tags : values.map (some ∘ Literal.ty) = args.map Expr.ty?)
    (tagged : RunState Literal String) (words : RunState Word Event)
    (alike : Alike analysis.program tagged words) :
    InStep analysis.program (Evaluated result tagged)
      (applyCallee taggedModel analysis.program call name args values tagged)
      (applyCallee wordModel analysis.program callWords name args (values.map Literal.word)
        words) := by
  -- A function of the program takes values of its parameter types; a builtin is chosen by the types
  -- of its arguments.
  rcases Expr.target_name_cases scope setting.plain name params result callee args arguments with
    ⟨notBuiltin, target, signature, found, sameParams, sameResult⟩ |
    ⟨builtin, primitive, isBuiltin, sameParams, sameResult, chosen, target⟩
  · rw [setting.functions] at found
    obtain ⟨index, func, here, rfl, sameSignature, _⟩ :=
      setting.typed.callee_exists name signature found
    have types : signature.params = func.params.map Param.ty := by
      rw [← sameSignature, FuncDef.signature]
    have returns : result = func.result := by
      rw [sameResult, ← sameSignature, FuncDef.signature]
    rw [sameParams, types] at arguments
    rw [types_of_args _ args arguments, ← List.map_map] at tags
    have valueTypes := (Option.some_injective Ty).list_map tags
    have arity : values.length = func.params.length := by
      simpa using congrArg List.length valueTypes
    simp only [applyCallee, notBuiltin, setting.typed.function_found index func here,
      List.length_map, if_pos arity]
    rw [returns]
    exact setting.calls func (List.mem_of_getElem? here) values tagged words valueTypes alike
  · rw [sameParams] at arguments
    obtain ⟨arity, types⟩ := builtin_arguments builtin args arguments values tags
    have first : args.head?.bind Expr.ty? = values.head?.map Literal.ty := by
      have heads := congrArg List.head? tags
      rw [List.head?_map, List.head?_map] at heads
      cases args with
      | nil =>
          cases values with
          | nil => rfl
          | cons value values => cases heads
      | cons arg args =>
          cases values with
          | nil => cases heads
          | cons value values => exact (Option.some.inj heads).symm
    obtain ⟨value, lines, events, answer, wordAnswer, sameLines, ty⟩ :=
      builtin_words builtin values arity types _ first
    have answered : taggedModel.builtin builtin (args.head?.bind Expr.ty?) values =
        .ok (value, lines) := answer
    simp only [applyCallee, isBuiltin, wordAnswer, answered]
    rw [Evaluation.bind_apply, Evaluation.lift_apply, Evaluation.bind_apply,
      Evaluation.lift_apply]
    apply in_step_bind _ _ _ _ _ _ _ _ (in_step_print lines events sameLines alike)
    intro _ _ after afterWords alikeAfter locals
    exact ⟨alikeAfter, rfl, ty.trans sameResult.symm, locals⟩

/-- A function that is called by name is the one that was declared under the name. -/
theorem callee_result (setting : TaggedSetting analysis scope running call callWords)
    (name : String) (params : List (Option Ty)) (result : Ty)
    (callee : scope.callee? name = some (params, result))
    (notBuiltin : Builtin.ofName? name = none) (func : FuncDef)
    (found : analysis.program.function? name = some func) : result = func.result := by
  simp only [Scope.callee?, notBuiltin, setting.functions, Option.map_eq_some_iff,
    Prod.mk.injEq] at callee
  obtain ⟨signature, declared, _, rfl⟩ := callee
  obtain ⟨index, other, here, named, sameSignature, _⟩ :=
    setting.typed.callee_exists name signature declared
  have foundOther := setting.typed.function_found index other here
  rw [named, found] at foundOther
  cases foundOther
  rw [← sameSignature, FuncDef.signature]

namespace Expr

section Constructors

variable (analysis : Analysis) (scope : Scope)
  (call : FuncDef → List Literal → Evaluation Literal String Literal)
  (callWords : FuncDef → List Word → Evaluation Word Event Word)

/-- From states that are alike an expression yields a value of the given type, and its word. -/
def EvaluatesInStep (expr : Expr) (ty : Ty) : Prop :=
  ∀ (tagged : RunState Literal String) (words : RunState Word Event),
    Alike analysis.program tagged words → FrameTagged scope.vars tagged.locals →
    InStep analysis.program (Evaluated ty tagged)
      (expr.eval taggedModel analysis.program call tagged)
      (expr.eval wordModel analysis.program callWords words)

def AllEvaluateInStep (args : List Expr) : Prop :=
  ∀ (tagged : RunState Literal String) (words : RunState Word Event),
    Alike analysis.program tagged words → FrameTagged scope.vars tagged.locals →
    InStep analysis.program (ArgsEvaluated args tagged)
      (evalAll taggedModel analysis.program call args tagged)
      (evalAll wordModel analysis.program callWords args words)

theorem lit_in_step (span : Span) (value : Literal) :
    (lit ⟨span, some value.ty⟩ value).EvaluatesInStep analysis scope call callWords value.ty := by
  intro tagged words alike frame
  simp only [eval]
  exact in_step_yield _ value _ _ alike ⟨rfl, trivial⟩ rfl rfl

variable {analysis scope call callWords} {running : Option FuncDef}

theorem name_in_step (setting : TaggedSetting analysis scope running call callWords) (span : Span)
    (word : String) (binding : Binding) (found : scope.vars.get? word = some binding) :
    (name ⟨span, some binding.ty⟩ word).EvaluatesInStep analysis scope call callWords
      binding.ty := by
  intro tagged words alike frame
  simp only [eval]
  apply in_step_bind _ _ _ _ _ _ _ _ (in_step_read word binding.ty alike
    (has_of_frame setting.fits alike frame word binding found))
  rintro value _ after afterWords alikeAfter ⟨rfl, same, locals⟩
  exact in_step_yield _ value _ _ alikeAfter ⟨by rw [same]; rfl, trivial⟩ same locals

theorem call_in_step (setting : TaggedSetting analysis scope running call callWords) (span : Span)
    (name : String) (args : List Expr) (params : List (Option Ty)) (result : Ty)
    (callee : scope.callee? name = some (params, result))
    (arguments : ArgsTyped scope params args)
    (inArgs : AllEvaluateInStep analysis scope call callWords args) :
    (Expr.call ⟨span, some result⟩ name args).EvaluatesInStep analysis scope call callWords
      result := by
  intro tagged words alike frame
  simp only [eval]
  apply in_step_bind _ _ _ _ _ _ _ _ (inArgs tagged words alike frame)
  rintro values _ after afterWords alikeAfter ⟨rfl, tags, locals⟩
  apply in_step_bind _ _ _ _ _ _ _ _ (in_step_callee setting name params result callee args
    arguments values tags after afterWords alikeAfter)
  rintro value _ later laterWords alikeLater ⟨rfl, same, kept⟩
  refine in_step_yield _ value _ _ alikeLater ⟨by rw [same]; rfl, ?_⟩ same (kept.trans locals)
  intro notBuiltin func found
  rw [same]
  exact callee_result setting name params result callee notBuiltin func found

theorem is_none_in_step (span noneSpan : Span) (left : Expr) (leftTy : Ty)
    (operand : left.Typed scope leftTy)
    (inLeft : left.EvaluatesInStep analysis scope call callWords leftTy) :
    (binary ⟨span, some .bool⟩ .is left (lit ⟨noneSpan, some .none⟩ .none)).EvaluatesInStep
      analysis scope call callWords .bool := by
  intro tagged words alike frame
  simp only [eval, if_true, Expr.isNone]
  apply in_step_bind _ _ _ _ _ _ _ _ (inLeft tagged words alike frame)
  rintro value _ after afterWords alikeAfter ⟨rfl, same, locals⟩
  have answer : taggedModel.isNone left.ty? value = .bool (left.ty? = some .none) := by
    rw [operand.ty_eq, ← same]
    cases value <;> rfl
  have wordAnswer : wordModel.isNone left.ty? value.word =
      (taggedModel.isNone left.ty? value).word := by
    rw [answer]
    rfl
  rw [wordAnswer]
  exact in_step_yield _ _ _ _ alikeAfter ⟨rfl, answer⟩ rfl locals

theorem arithmetic_in_step (span : Span) (op : BinaryOp) (left right : Expr)
    (kind : op.isArithmetic = true)
    (inLeft : left.EvaluatesInStep analysis scope call callWords .int)
    (inRight : right.EvaluatesInStep analysis scope call callWords .int) :
    (binary ⟨span, some .int⟩ op left right).EvaluatesInStep analysis scope call callWords
      .int := by
  intro tagged words alike frame
  have distinct : op ≠ .is := by
    intro same
    rw [same] at kind
    cases kind
  simp only [eval, if_neg distinct]
  apply in_step_operation _ op _ _ distinct .int .int (fun _ => rfl) (by rw [if_pos kind]) rfl
    _ _ _ _ (inLeft tagged words alike frame)
  intro after afterWords alikeAfter locals
  exact inRight after afterWords alikeAfter (locals ▸ frame)

theorem comparison_in_step (span : Span) (op : BinaryOp) (left right : Expr) (ty : Ty)
    (distinct : op ≠ .is) (kind : op.isArithmetic = false)
    (inLeft : left.EvaluatesInStep analysis scope call callWords ty)
    (inRight : right.EvaluatesInStep analysis scope call callWords ty) :
    (binary ⟨span, some .bool⟩ op left right).EvaluatesInStep analysis scope call callWords
      .bool := by
  intro tagged words alike frame
  have notArithmetic : ¬ op.isArithmetic = true := by simp [kind]
  simp only [eval, if_neg distinct]
  apply in_step_operation _ op _ _ distinct ty .bool
    (fun arithmetic => absurd arithmetic notArithmetic) (by rw [if_neg notArithmetic]) rfl
    _ _ _ _ (inLeft tagged words alike frame)
  intro after afterWords alikeAfter locals
  exact inRight after afterWords alikeAfter (locals ▸ frame)

theorem negation_in_step (span : Span) (operand : Expr)
    (inOperand : operand.EvaluatesInStep analysis scope call callWords .int) :
    (unary ⟨span, some .int⟩ .neg operand).EvaluatesInStep analysis scope call callWords
      .int := by
  intro tagged words alike frame
  simp only [eval]
  apply in_step_bind _ _ _ _ _ _ _ _ (inOperand tagged words alike frame)
  rintro value _ after afterWords alikeAfter ⟨rfl, same, locals⟩
  have answers : ∃ result, taggedModel.negate value = .ok result ∧
      wordModel.negate value.word = .ok result.word ∧ result.ty = .int := by
    cases value with
    | int word => exact ⟨_, rfl, rfl, rfl⟩
    | bool truth => cases same
    | none => cases same
  apply in_step_bind _ _ _ _ _ _ _ _ (in_step_lift _ _ .int alikeAfter (Or.inl answers))
  rintro result _ last lastWords alikeLast ⟨rfl, resultTy, unchanged⟩
  exact in_step_yield _ result _ _ alikeLast ⟨by rw [resultTy]; rfl, trivial⟩ resultTy
    (unchanged.trans locals)

theorem complement_in_step (span : Span) (operand : Expr)
    (inOperand : operand.EvaluatesInStep analysis scope call callWords .bool) :
    (unary ⟨span, some .bool⟩ .not operand).EvaluatesInStep analysis scope call callWords
      .bool := by
  intro tagged words alike frame
  simp only [eval]
  apply in_step_bind _ _ _ _ _ _ _ _ (inOperand tagged words alike frame)
  rintro value _ after afterWords alikeAfter ⟨rfl, same, locals⟩
  have answers : ∃ result, taggedModel.complement value = .ok result ∧
      wordModel.complement value.word = .ok result.word ∧ result.ty = .bool := by
    cases value with
    | int word => cases same
    | bool truth => cases truth <;> exact ⟨_, rfl, rfl, rfl⟩
    | none => cases same
  apply in_step_bind _ _ _ _ _ _ _ _ (in_step_lift _ _ .bool alikeAfter (Or.inl answers))
  rintro result _ last lastWords alikeLast ⟨rfl, resultTy, unchanged⟩
  exact in_step_yield _ result _ _ alikeLast ⟨by rw [resultTy]; rfl, trivial⟩ resultTy
    (unchanged.trans locals)

theorem paren_in_step (span : Span) (inner : Expr) (ty : Ty)
    (inInner : inner.EvaluatesInStep analysis scope call callWords ty) :
    (paren ⟨span, some ty⟩ inner).EvaluatesInStep analysis scope call callWords ty := by
  intro tagged words alike frame
  simp only [eval]
  apply in_step_bind _ _ _ _ _ _ _ _ (inInner tagged words alike frame)
  rintro value _ after afterWords alikeAfter ⟨rfl, same, locals⟩
  exact in_step_yield _ value _ _ alikeAfter ⟨by rw [same]; rfl, trivial⟩ same locals

theorem arguments_in_step (arg : Expr) (args : List Expr) (ty : Ty) (typed : arg.Typed scope ty)
    (inFirst : arg.EvaluatesInStep analysis scope call callWords ty)
    (inRest : AllEvaluateInStep analysis scope call callWords args) :
    AllEvaluateInStep analysis scope call callWords (arg :: args) := by
  intro tagged words alike frame
  simp only [evalAll]
  apply in_step_bind _ _ _ _ _ _ _ _ (inFirst tagged words alike frame)
  rintro value _ after afterWords alikeAfter ⟨rfl, same, locals⟩
  apply in_step_bind _ _ _ _ _ _ _ _
    (inRest after afterWords alikeAfter (locals ▸ frame))
  rintro values _ later laterWords alikeLater ⟨rfl, tags, kept⟩
  refine ⟨alikeLater, rfl, ?_, kept.trans locals⟩
  rw [List.map_cons, List.map_cons, tags, typed.ty_eq, Function.comp_apply, same]

end Constructors

mutual

/-- A typed expression yields a value of its type, and its word. -/
theorem eval_in_step (setting : TaggedSetting analysis scope running call callWords) (expr : Expr)
    (ty : Ty) (typed : expr.Typed scope ty) :
    expr.EvaluatesInStep analysis scope call callWords ty := by
  cases expr with
  | lit note value =>
      cases typed with
      | lit span value => exact lit_in_step analysis scope call callWords span value
  | name note word =>
      cases typed with
      | name span word binding found => exact name_in_step setting span word binding found
  | call note name args =>
      cases typed with
      | call span name args params result callee arguments =>
          exact call_in_step setting span name args params ty callee arguments
            (eval_all_in_step setting args params arguments)
  | binary note op left right =>
      cases typed with
      | isNone span noneSpan left leftTy operand =>
          exact is_none_in_step span noneSpan left leftTy operand
            (eval_in_step setting left leftTy operand)
      | arithmetic span op left right kind first second =>
          exact arithmetic_in_step span op left right kind
            (eval_in_step setting left .int first) (eval_in_step setting right .int second)
      | comparison span op left right operandTy distinct kind first second =>
          exact comparison_in_step span op left right operandTy distinct kind
            (eval_in_step setting left operandTy first)
            (eval_in_step setting right operandTy second)
  | unary note op operand =>
      cases typed with
      | negation span operand number =>
          exact negation_in_step span operand (eval_in_step setting operand .int number)
      | complement span operand truth =>
          exact complement_in_step span operand (eval_in_step setting operand .bool truth)
  | paren note inner =>
      cases typed with
      | paren span inner ty typedInner =>
          exact paren_in_step span inner ty (eval_in_step setting inner ty typedInner)
  | attr note value member => cases typed
  | construct note className => cases typed
termination_by structural expr

theorem eval_all_in_step (setting : TaggedSetting analysis scope running call callWords)
    (args : List Expr) (params : List (Option Ty)) (typed : ArgsTyped scope params args) :
    AllEvaluateInStep analysis scope call callWords args := by
  cases args with
  | nil =>
      intro tagged words alike frame
      exact ⟨alike, rfl, rfl, rfl⟩
  | cons arg args =>
      cases typed with
      | cons param params arg args ty head accepted tail =>
          exact arguments_in_step arg args ty head (eval_in_step setting arg ty head)
            (eval_all_in_step setting args params tail)
termination_by structural args

end

end Expr

theorem test_in_step (setting : TaggedSetting analysis scope running call callWords) (test : Expr)
    (truth : test.Typed scope .bool) (tagged : RunState Literal String)
    (words : RunState Word Event) (alike : Alike analysis.program tagged words)
    (frame : FrameTagged scope.vars tagged.locals) :
    InStep analysis.program
      (fun truth same after => same = truth ∧ FrameTagged scope.vars after.locals)
      (test.evalTest taggedModel analysis.program call tagged)
      (test.evalTest wordModel analysis.program callWords words) := by
  apply in_step_bind _ _ _ _ _ _ _ _ (test.eval_in_step setting .bool truth tagged words alike frame)
  rintro value _ after afterWords alikeAfter ⟨rfl, same, locals⟩
  cases value with
  | int word => cases same
  | bool truth =>
      rw [Evaluation.lift_apply, Evaluation.lift_apply]
      cases truth <;> exact ⟨alikeAfter, rfl, locals ▸ frame⟩
  | none => cases same

namespace Stmt

section Constructors

variable (analysis : Analysis) (scope : Scope) (running : Option FuncDef)
  (call : FuncDef → List Literal → Evaluation Literal String Literal)
  (callWords : FuncDef → List Word → Evaluation Word Event Word) (fuel : Nat)

/-- From states that are alike a statement ends in step, and keeps the types of all variables. -/
def EndsInStep (stmt : Stmt) : Prop :=
  ∀ (tagged : RunState Literal String) (words : RunState Word Event),
    Alike analysis.program tagged words → FrameTagged scope.vars tagged.locals →
    InStep analysis.program (Finished scope.result scope.vars)
      (stmt.eval taggedModel analysis.program call running fuel tagged)
      (stmt.eval wordModel analysis.program callWords running fuel words)

def AllEndInStep (stmts : List Stmt) : Prop :=
  ∀ (tagged : RunState Literal String) (words : RunState Word Event),
    Alike analysis.program tagged words → FrameTagged scope.vars tagged.locals →
    InStep analysis.program (Finished scope.result scope.vars)
      (evalAll taggedModel analysis.program call running fuel stmts tagged)
      (evalAll wordModel analysis.program callWords running fuel stmts words)

variable {analysis scope running call callWords fuel}

theorem assign_in_step (setting : TaggedSetting analysis scope running call callWords)
    (span : Span) (target : String) (value : Expr) (binding : Binding)
    (found : scope.vars.get? target = some binding) (typed : value.Typed scope binding.ty) :
    (assign span target value).EndsInStep analysis scope running call callWords fuel := by
  intro tagged words alike frame
  simp only [eval]
  apply in_step_bind _ _ _ _ _ _ _ _
    (value.eval_in_step setting _ typed tagged words alike frame)
  rintro result _ after afterWords alikeAfter ⟨rfl, same, locals⟩
  apply in_step_bind _ _ _ _ _ _ _ _ (in_step_write setting.fits alikeAfter (locals ▸ frame)
    target binding found result same)
  intro _ _ later laterWords alikeLater written
  exact in_step_goes_on alikeLater written

theorem expr_in_step (setting : TaggedSetting analysis scope running call callWords) (span : Span)
    (value : Expr) (ty : Ty) (typed : value.Typed scope ty) :
    (expr span value).EndsInStep analysis scope running call callWords fuel := by
  intro tagged words alike frame
  simp only [eval]
  apply in_step_bind _ _ _ _ _ _ _ _
    (value.eval_in_step setting ty typed tagged words alike frame)
  rintro result _ after afterWords alikeAfter ⟨rfl, same, locals⟩
  cases running with
  | none =>
      apply in_step_bind _ _ _ _ _ _ _ _ (in_step_keep result alikeAfter)
      intro _ _ later laterWords alikeLater kept
      exact in_step_goes_on alikeLater (kept.trans locals ▸ frame)
  | some func => exact in_step_goes_on alikeAfter (locals ▸ frame)

theorem ret_in_step (setting : TaggedSetting analysis scope running call callWords) (span : Span)
    (value : Expr) (ty : Ty) (typed : value.Typed scope ty)
    (declared : ∀ expected, scope.result = some expected → ty = expected) :
    (ret span value).EndsInStep analysis scope running call callWords fuel := by
  intro tagged words alike frame
  simp only [eval]
  apply in_step_bind _ _ _ _ _ _ _ _
    (value.eval_in_step setting ty typed tagged words alike frame)
  rintro result _ after afterWords alikeAfter ⟨rfl, same, locals⟩
  refine ⟨alikeAfter, rfl, ?_, locals ▸ frame⟩
  intro returned expected here result
  cases here
  exact same.trans (declared expected result)

theorem cond_in_step (setting : TaggedSetting analysis scope running call callWords) (span : Span)
    (test : Expr) (truth : test.Typed scope .bool) (body orelse : List Stmt)
    (inBody : AllEndInStep analysis scope running call callWords fuel body)
    (inElse : AllEndInStep analysis scope running call callWords fuel orelse) :
    (cond span test body orelse).EndsInStep analysis scope running call callWords fuel := by
  intro tagged words alike frame
  simp only [eval]
  apply in_step_bind _ _ _ _ _ _ _ _ (test_in_step setting test truth tagged words alike frame)
  rintro _ holds after afterWords alikeAfter ⟨rfl, frameAfter⟩
  cases holds with
  | true => exact inBody after afterWords alikeAfter frameAfter
  | false => exact inElse after afterWords alikeAfter frameAfter

theorem loop_in_step (setting : TaggedSetting analysis scope running call callWords) (span : Span)
    (test : Expr) (truth : test.Typed scope .bool) (body : List Stmt)
    (inBody : AllEndInStep analysis scope running call callWords fuel body) :
    (loop span test body).EndsInStep analysis scope running call callWords fuel := by
  intro tagged words alike frame
  simp only [eval]
  exact in_step_loop _ _ _ _ (test_in_step setting test truth) inBody fuel tagged words alike frame

end Constructors

mutual

/-- A typed statement keeps the types of all variables. -/
theorem eval_in_step (setting : TaggedSetting analysis scope running call callWords) (fuel : Nat)
    (stmt : Stmt) (typed : stmt.Typed scope) :
    stmt.EndsInStep analysis scope running call callWords fuel := by
  cases stmt with
  | assign span target value =>
      cases typed with
      | assign span target value binding found typedValue =>
          exact assign_in_step setting span target value binding found typedValue
  | expr span value =>
      cases typed with
      | expr span value ty typedValue => exact expr_in_step setting span value ty typedValue
  | pass span =>
      intro tagged words alike frame
      exact in_step_goes_on alike frame
  | fieldAssign span object field value => cases typed
  | ret span value =>
      cases typed with
      | ret span value ty typedValue declared =>
          exact ret_in_step setting span value ty typedValue declared
  | cond span test body orelse =>
      cases typed with
      | cond span test body orelse truth first second =>
          exact cond_in_step setting span test truth body orelse
            (eval_all_in_step setting fuel body first)
            (eval_all_in_step setting fuel orelse second)
  | loop span test body =>
      cases typed with
      | loop span test body truth again =>
          exact loop_in_step setting span test truth body
            (eval_all_in_step setting fuel body again)
termination_by structural stmt

theorem eval_all_in_step (setting : TaggedSetting analysis scope running call callWords)
    (fuel : Nat) (stmts : List Stmt) (typed : AllTyped scope stmts) :
    AllEndInStep analysis scope running call callWords fuel stmts := by
  cases stmts with
  | nil =>
      intro tagged words alike frame
      exact in_step_goes_on alike frame
  | cons first rest =>
      cases typed with
      | cons first rest head tail =>
          intro tagged words alike frame
          simp only [evalAll]
          exact in_step_sequence _ _ _ _
            (eval_in_step setting fuel first head tagged words alike frame)
            (eval_all_in_step setting fuel rest tail)
termination_by structural stmts

end

end Stmt

end Bodies

end ScriptWasm
