import ScriptWasm.Proofs.Program.Erasure
import ScriptWasm.Proofs.Typing.Rules
import ScriptWasm.Proofs.Typing.Typed

/-!
The analysis accepts exactly the well-typed programs. A scope describes a place of a program when it
knows the variables and the functions that can be named there; in such a scope the checks of
expressions, statements and tail types agree with the rules in both directions.
-/

namespace ScriptWasm

set_option autoImplicit false

theorem builtin_of_name_iff (text : String) (builtin : Builtin) :
    Builtin.ofName? text = some builtin ↔ builtin.name = text := by
  constructor
  · intro found
    have holds := List.find?_some found
    simpa using holds
  · rintro rfl
    cases builtin <;> rfl

theorem primitive_of_name_iff (text : String) (primitive : HostImport) :
    HostImport.ofName? text = some primitive ↔ primitive.name = text := by
  constructor
  · intro found
    have holds := List.find?_some found
    simpa using holds
  · rintro rfl
    cases primitive <;> rfl

/-- A scope that knows what can be named inside a function of a program, or at its top level. -/
structure Scope.Describes (scope : Scope) (program : Program) (inside : Option FuncDef) :
    Prop where
  vars : ∀ name ty, (∃ binding, scope.vars.get? name = some binding ∧ binding.ty = ty) ↔
    program.Sees inside name ty
  functions : ∀ name signature, scope.functions.get? name = some signature ↔
    ∃ func ∈ program.funcs, func.name = name ∧ func.signature = signature
  notBuiltin : ∀ func ∈ program.funcs, Builtin.ofName? func.name = none
  result : scope.result = inside.map FuncDef.result

section Places

variable {program : Program} {inside : Option FuncDef} {scope : Scope}

/-- Arguments that fit parameters one by one. A parameter without a type takes everything. -/
def Expr.ArgsFit (program : Program) (inside : Option FuncDef) :
    List (Option Ty) → List Expr → Prop
  | [], [] => True
  | param :: params, arg :: args =>
      (∃ ty, arg.HasTy program inside ty ∧ ∀ expected, param = some expected → ty = expected) ∧
        ArgsFit program inside params args
  | _, _ => False

theorem Expr.args_fit_length (params : List (Option Ty)) (args : List Expr)
    (fit : ArgsFit program inside params args) : args.length = params.length := by
  induction params generalizing args with
  | nil =>
      cases args with
      | nil => rfl
      | cons arg args => exact fit.elim
  | cons param params induction =>
      cases args with
      | nil => exact fit.elim
      | cons arg args => rw [List.length_cons, List.length_cons, induction args fit.2]

theorem Expr.args_fit_typed_iff (tys : List Ty) (args : List Expr) :
    ArgsFit program inside (tys.map some) args ↔ HaveTys program inside args tys := by
  induction tys generalizing args with
  | nil =>
      cases args with
      | nil => exact ⟨fun _ => .nil, fun _ => trivial⟩
      | cons arg args => exact ⟨False.elim, fun typed => by cases typed⟩
  | cons ty tys induction =>
      cases args with
      | nil => exact ⟨False.elim, fun typed => by cases typed⟩
      | cons arg args =>
          constructor
          · rintro ⟨⟨got, typed, same⟩, rest⟩
            rw [same ty rfl] at typed
            exact .cons arg args ty tys typed ((induction args).mp rest)
          · intro typed
            cases typed with
            | cons arg args ty tys head tail =>
                exact ⟨⟨ty, head, fun _ same => Option.some.inj same⟩, (induction args).mpr tail⟩

/-- One argument of a known type, or of any type. -/
theorem Expr.args_fit_one (param : Option Ty) (args : List Expr) :
    ArgsFit program inside [param] args ↔ ∃ arg ty, args = [arg] ∧ arg.HasTy program inside ty ∧
      ∀ expected, param = some expected → ty = expected := by
  constructor
  · intro fit
    obtain ⟨arg, rfl⟩ := List.length_eq_one_iff.mp (args_fit_length _ _ fit)
    obtain ⟨⟨ty, typed, same⟩, _⟩ := fit
    exact ⟨arg, ty, rfl, typed, same⟩
  · rintro ⟨arg, ty, rfl, typed, same⟩
    exact ⟨⟨ty, typed, same⟩, trivial⟩

theorem Expr.args_fit_two_ints (args : List Expr) :
    ArgsFit program inside [some .int, some .int] args ↔ ∃ first second, args = [first, second] ∧
      first.HasTy program inside .int ∧ second.HasTy program inside .int := by
  constructor
  · intro fit
    obtain ⟨first, second, rfl⟩ := List.length_eq_two.mp (args_fit_length _ _ fit)
    obtain ⟨⟨ty, typed, same⟩, ⟨other, typedToo, sameToo⟩, _⟩ := fit
    cases same .int rfl
    cases sameToo .int rfl
    exact ⟨first, second, rfl, typed, typedToo⟩
  · rintro ⟨first, second, rfl, typed, typedToo⟩
    exact ⟨⟨.int, typed, fun _ same => Option.some.inj same⟩,
      ⟨.int, typedToo, fun _ same => Option.some.inj same⟩, trivial⟩

/-- A call has a type exactly when its name means something that takes the arguments. -/
theorem call_has_ty_iff (describes : scope.Describes program inside) (note : Note) (func : String)
    (args : List Expr) (result : Ty) :
    (Expr.call note func args).HasTy program inside result ↔
      ∃ params, scope.callee? func = some (params, result) ∧
        Expr.ArgsFit program inside params args := by
  have builtin : ∀ builtin : Builtin,
      scope.callee? builtin.name = some (builtin.params, builtin.result) := by
    intro builtin
    rw [Scope.callee?, (builtin_of_name_iff _ builtin).mpr rfl]
  constructor
  · intro typed
    cases typed with
    | print note arg ty typed =>
        refine ⟨_, builtin .print, ?_⟩
        exact (Expr.args_fit_one none _).mpr ⟨arg, ty, rfl, typed, nofun⟩
    | abs note arg number =>
        refine ⟨_, builtin .abs, ?_⟩
        exact (Expr.args_fit_one (some .int) _).mpr
          ⟨arg, .int, rfl, number, fun _ same => Option.some.inj same⟩
    | ofTwo note chosen first second kind one two =>
        have fit := (Expr.args_fit_two_ints _).mpr ⟨first, second, rfl, one, two⟩
        simp only [List.mem_cons, List.not_mem_nil, or_false] at kind
        rcases kind with rfl | rfl | rfl
        · exact ⟨_, builtin .max, fit⟩
        · exact ⟨_, builtin .min, fit⟩
        · exact ⟨_, builtin .pow, fit⟩
    | call note target args member fit =>
        refine ⟨(target.params.map Param.ty).map some, ?_, (Expr.args_fit_typed_iff _ _).mpr fit⟩
        have found := (describes.functions target.name _).mpr ⟨target, member, rfl, rfl⟩
        rw [Scope.callee?, describes.notBuiltin target member]
        simp only [found]
        rfl
  · rintro ⟨params, callee, fit⟩
    unfold Scope.callee? at callee
    split at callee
    · rename_i chosen named
      rw [builtin_of_name_iff] at named
      cases callee
      subst named
      cases chosen with
      | print =>
          obtain ⟨arg, ty, rfl, typed, _⟩ := (Expr.args_fit_one none args).mp fit
          exact .print note arg ty typed
      | abs =>
          obtain ⟨arg, ty, rfl, typed, same⟩ := (Expr.args_fit_one (some .int) args).mp fit
          cases same .int rfl
          exact .abs note arg typed
      | max =>
          obtain ⟨first, second, rfl, one, two⟩ := (Expr.args_fit_two_ints args).mp fit
          exact .ofTwo note .max first second (by decide) one two
      | min =>
          obtain ⟨first, second, rfl, one, two⟩ := (Expr.args_fit_two_ints args).mp fit
          exact .ofTwo note .min first second (by decide) one two
      | pow =>
          obtain ⟨first, second, rfl, one, two⟩ := (Expr.args_fit_two_ints args).mp fit
          exact .ofTwo note .pow first second (by decide) one two
    · simp only [Option.map_eq_some_iff, Prod.mk.injEq] at callee
      obtain ⟨signature, found, rfl, rfl⟩ := callee
      obtain ⟨target, member, rfl, rfl⟩ := (describes.functions func signature).mp found
      exact .call note target args member ((Expr.args_fit_typed_iff _ _).mp fit)

theorem arithmetic_iff (op : BinaryOp) :
    op.isArithmetic = true ↔ op ∈ [.add, .sub, .mul, .floorDivide, .modulo] := by
  cases op <;> decide

theorem comparison_iff (op : BinaryOp) : op ≠ .is ∧ op.isArithmetic = false ↔
    op ∈ [.equal, .notEqual, .lessEqual, .greaterEqual, .less, .greater] := by
  cases op <;> decide

theorem Expr.binary_sound (note : Note) (op : BinaryOp) (left right typed : Expr) (ty : Ty)
    (first : ∀ typed ty, left.check scope = .ok (typed, ty) → left.HasTy program inside ty)
    (second : ∀ typed ty, right.check scope = .ok (typed, ty) → right.HasTy program inside ty)
    (accepted : (binary note op left right).check scope = .ok (typed, ty)) :
    (binary note op left right).HasTy program inside ty := by
  simp only [check, bind_succeeds_iff, Prod.exists] at accepted
  obtain ⟨typedLeft, leftTy, acceptedLeft, accepted⟩ := accepted
  have leftHas := first typedLeft leftTy acceptedLeft
  split at accepted
  · rename_i isOperator
    split at accepted
    · rename_i isNone
      cases accepted
      cases isOperator
      obtain ⟨noneNote, rfl⟩ := (is_none_iff right).mp isNone
      exact .isNone note noneNote left leftTy leftHas
    · cases accepted
  · rename_i distinct
    simp only [bind_succeeds_iff, Prod.exists] at accepted
    obtain ⟨typedRight, rightTy, acceptedRight, accepted⟩ := accepted
    have rightHas := second typedRight rightTy acceptedRight
    split at accepted
    · rename_i kind
      simp only [bind_succeeds_iff, expect_ty_succeeds_iff] at accepted
      obtain ⟨_, rfl, _, rfl, same⟩ := accepted
      cases same
      exact .arithmetic note op left right ((arithmetic_iff op).mp kind) leftHas rightHas
    · rename_i kind
      simp only [bind_succeeds_iff, expect_ty_succeeds_iff] at accepted
      obtain ⟨_, rfl, same⟩ := accepted
      cases same
      exact .comparison note op left right _
        ((comparison_iff op).mp ⟨distinct, by simpa using kind⟩) leftHas rightHas

mutual

/-- What the check finds is a type by the rules. -/
theorem Expr.check_sound (describes : scope.Describes program inside) (expr typed : Expr) (ty : Ty)
    (accepted : expr.check scope = .ok (typed, ty)) : expr.HasTy program inside ty := by
  cases expr with
  | lit note value =>
      cases accepted
      exact .lit note value
  | name note word =>
      simp only [check] at accepted
      split at accepted
      · rename_i binding found
        cases accepted
        exact .name note word _ ((describes.vars word _).mp ⟨binding, found, rfl⟩)
      · cases accepted
  | call note func args =>
      rw [call_has_ty_iff describes]
      simp only [check] at accepted
      split at accepted
      · cases accepted
      · rename_i params result callee
        split at accepted
        · rename_i arity
          simp only [bind_succeeds_iff] at accepted
          obtain ⟨typedArgs, acceptedArgs, same⟩ := accepted
          cases same
          exact ⟨params, callee,
            Expr.check_args_sound describes params args typedArgs arity acceptedArgs⟩
        · cases accepted
  | binary note op left right =>
      exact binary_sound note op left right typed ty (Expr.check_sound describes left)
        (Expr.check_sound describes right) accepted
  | unary note op operand =>
      simp only [check, bind_succeeds_iff, Prod.exists, expect_ty_succeeds_iff] at accepted
      obtain ⟨typedOperand, got, acceptedOperand, _, rfl, same⟩ := accepted
      have inner := Expr.check_sound describes operand typedOperand _ acceptedOperand
      cases same
      cases op with
      | neg => exact .negation note operand inner
      | not => exact .complement note operand inner
  | paren note inner =>
      simp only [check, bind_succeeds_iff, Prod.exists] at accepted
      obtain ⟨typedInner, innerTy, acceptedInner, same⟩ := accepted
      cases same
      exact .paren note inner ty (Expr.check_sound describes inner typedInner ty acceptedInner)
  | attr note value member => simp [check] at accepted
  | construct note className => simp [check] at accepted
termination_by structural expr

theorem Expr.check_args_sound (describes : scope.Describes program inside)
    (params : List (Option Ty)) (args typed : List Expr) (arity : args.length = params.length)
    (accepted : checkArgs scope params args = .ok typed) :
    Expr.ArgsFit program inside params args := by
  cases args with
  | nil =>
      cases params with
      | nil => trivial
      | cons param params => cases arity
  | cons arg args =>
      cases params with
      | nil => cases arity
      | cons param params =>
          simp only [checkArgs, bind_succeeds_iff, Prod.exists] at accepted
          obtain ⟨typedArg, got, acceptedArg, accepted⟩ := accepted
          have head := Expr.check_sound describes arg typedArg got acceptedArg
          cases param with
          | none =>
              simp only [bind_succeeds_iff] at accepted
              obtain ⟨rest, acceptedRest, _⟩ := accepted
              exact ⟨⟨got, head, nofun⟩,
                Expr.check_args_sound describes params args rest (Nat.succ.inj arity) acceptedRest⟩
          | some wanted =>
              simp only [bind_succeeds_iff, expect_ty_succeeds_iff] at accepted
              obtain ⟨_, expected, rest, acceptedRest, _⟩ := accepted
              refine ⟨⟨got, head, fun other same => ?_⟩,
                Expr.check_args_sound describes params args rest (Nat.succ.inj arity) acceptedRest⟩
              exact expected.trans (Option.some.inj same)
termination_by structural args

end

mutual

theorem Expr.check_complete (describes : scope.Describes program inside) (expr : Expr) (ty : Ty)
    (has : expr.HasTy program inside ty) : ∃ typed, expr.check scope = .ok (typed, ty) := by
  -- The rules determine the form of the expression, so each case has the rules of its form only.
  cases expr with
  | lit note value =>
      cases has
      exact ⟨_, rfl⟩
  | name note word =>
      cases has with
      | name note word ty seen =>
          obtain ⟨binding, found, rfl⟩ := (describes.vars word ty).mpr seen
          exact ⟨_, by simp only [check, found]; rfl⟩
  | call note func args =>
      obtain ⟨params, callee, fit⟩ := (call_has_ty_iff describes note func args ty).mp has
      obtain ⟨typed, accepted⟩ := Expr.check_args_complete describes params args fit
      exact ⟨_, by simp only [check, callee, if_pos (args_fit_length _ _ fit), accepted]; rfl⟩
  | binary note op left right =>
      cases has with
      | arithmetic note op left right kind first second =>
          obtain ⟨typedLeft, acceptedLeft⟩ := Expr.check_complete describes left .int first
          obtain ⟨typedRight, acceptedRight⟩ := Expr.check_complete describes right .int second
          have distinct : op ≠ .is := by
            rintro rfl
            revert kind
            decide
          refine ⟨.binary ⟨note.span, some .int⟩ op typedLeft typedRight, ?_⟩
          simp only [check, acceptedLeft, acceptedRight, ok_bind, if_neg distinct,
            if_pos ((arithmetic_iff op).mpr kind), expectTy, if_pos]
          rfl
      | comparison note op left right operandTy kind first second =>
          obtain ⟨typedLeft, acceptedLeft⟩ := Expr.check_complete describes left operandTy first
          obtain ⟨typedRight, acceptedRight⟩ := Expr.check_complete describes right operandTy second
          obtain ⟨distinct, notArithmetic⟩ := (comparison_iff op).mpr kind
          refine ⟨.binary ⟨note.span, some .bool⟩ op typedLeft typedRight, ?_⟩
          simp only [check, acceptedLeft, acceptedRight, ok_bind, if_neg distinct, notArithmetic,
            expectTy, if_pos]
          rfl
      | isNone note noneNote left leftTy operand =>
          obtain ⟨typedLeft, acceptedLeft⟩ := Expr.check_complete describes left leftTy operand
          refine ⟨.binary ⟨note.span, some .bool⟩ .is typedLeft
            (.lit ⟨noneNote.span, some .none⟩ .none), ?_⟩
          simp only [check, acceptedLeft, ok_bind, if_pos, isNone]
          rfl
  | unary note op operand =>
      cases has with
      | negation note operand number =>
          obtain ⟨typed, accepted⟩ := Expr.check_complete describes operand .int number
          exact ⟨_, by simp only [check, accepted, ok_bind, expectTy, if_pos]; rfl⟩
      | complement note operand truth =>
          obtain ⟨typed, accepted⟩ := Expr.check_complete describes operand .bool truth
          exact ⟨_, by simp only [check, accepted, ok_bind, expectTy, if_pos]; rfl⟩
  | paren note inner =>
      cases has with
      | paren note inner ty inside =>
          obtain ⟨typed, accepted⟩ := Expr.check_complete describes inner ty inside
          exact ⟨_, by simp only [check, accepted, ok_bind]; rfl⟩
  | attr note value member => cases has
  | construct note className => cases has
termination_by structural expr

theorem Expr.check_args_complete (describes : scope.Describes program inside)
    (params : List (Option Ty)) (args : List Expr) (fit : Expr.ArgsFit program inside params args) :
    ∃ typed, checkArgs scope params args = .ok typed := by
  cases args with
  | nil =>
      cases params with
      | nil => exact ⟨[], rfl⟩
      | cons param params => exact fit.elim
  | cons arg args =>
      cases params with
      | nil => exact fit.elim
      | cons param params =>
          obtain ⟨⟨ty, has, expected⟩, rest⟩ := fit
          obtain ⟨typedArg, acceptedArg⟩ := Expr.check_complete describes arg ty has
          obtain ⟨typedRest, acceptedRest⟩ := Expr.check_args_complete describes params args rest
          refine ⟨typedArg :: typedRest, ?_⟩
          cases param with
          | none =>
              simp only [checkArgs, acceptedArg, acceptedRest, ok_bind]
              rfl
          | some wanted =>
              simp only [checkArgs, acceptedArg, acceptedRest, ok_bind, expectTy,
                if_pos (expected wanted rfl).symm]
              rfl
termination_by structural args

end

theorem Expr.check_iff_has_ty (describes : scope.Describes program inside) (expr : Expr) (ty : Ty) :
    (∃ typed, expr.check scope = .ok (typed, ty)) ↔ expr.HasTy program inside ty :=
  ⟨fun ⟨typed, accepted⟩ => expr.check_sound describes typed ty accepted,
    expr.check_complete describes ty⟩

theorem Expr.check_test_iff (describes : scope.Describes program inside) (test : Expr) :
    (∃ typed, test.checkTest scope = .ok typed) ↔ test.HasTy program inside .bool := by
  rw [← check_iff_has_ty describes]
  simp only [checkTest, bind_succeeds_iff, Prod.exists, expect_ty_succeeds_iff, pure_succeeds_iff]
  constructor
  · rintro ⟨_, typed, _, accepted, _, rfl, _⟩
    exact ⟨typed, accepted⟩
  · rintro ⟨typed, accepted⟩
    exact ⟨typed, typed, .bool, accepted, (), rfl, rfl⟩

theorem Stmt.assign_iff_fits (describes : scope.Describes program inside) (span : Span)
    (target : String) (value : Expr) :
    (∃ typed, (assign span target value).check scope = .ok typed) ↔
      (assign span target value).Fits program inside := by
  simp only [check, bind_succeeds_iff, Prod.exists]
  constructor
  · rintro ⟨_, typedValue, got, acceptedValue, accepted⟩
    split at accepted
    · cases accepted
    · rename_i binding found
      split at accepted
      · rename_i same
        exact .assign span target value got ((describes.vars target got).mp ⟨binding, found, same⟩)
          (value.check_sound describes typedValue got acceptedValue)
      · cases accepted
  · intro fits
    cases fits with
    | assign span target value ty seen typed =>
        obtain ⟨typedValue, accepted⟩ := value.check_complete describes ty typed
        obtain ⟨binding, found, same⟩ := (describes.vars target ty).mpr seen
        exact ⟨_, typedValue, ty, accepted, by simp only [found, if_pos same]; rfl⟩

theorem Stmt.expr_iff_fits (describes : scope.Describes program inside) (span : Span)
    (value : Expr) :
    (∃ typed, (expr span value).check scope = .ok typed) ↔
      (expr span value).Fits program inside := by
  simp only [check, bind_succeeds_iff, Prod.exists]
  constructor
  · rintro ⟨_, typedValue, got, accepted, _⟩
    exact .expr span value got (value.check_sound describes typedValue got accepted)
  · intro fits
    cases fits with
    | expr span value ty typed =>
        obtain ⟨typedValue, accepted⟩ := value.check_complete describes ty typed
        exact ⟨_, typedValue, ty, accepted, rfl⟩

theorem Stmt.ret_iff_fits (describes : scope.Describes program inside) (span : Span)
    (value : Expr) :
    (∃ typed, (ret span value).check scope = .ok typed) ↔
      (ret span value).Fits program inside := by
  simp only [check, bind_succeeds_iff, Prod.exists, describes.result]
  constructor
  · rintro ⟨_, typedValue, got, acceptedValue, accepted⟩
    refine .ret span value got (value.check_sound describes typedValue got acceptedValue) ?_
    rintro func rfl
    simp only [Option.map_some, bind_succeeds_iff, Expr.expect_ty_succeeds_iff] at accepted
    obtain ⟨_, same, _⟩ := accepted
    exact same
  · intro fits
    cases fits with
    | ret span value ty typed declared =>
        obtain ⟨typedValue, accepted⟩ := value.check_complete describes ty typed
        refine ⟨.ret span typedValue, typedValue, ty, accepted, ?_⟩
        cases inside with
        | none => rfl
        | some func =>
            simp only [Option.map_some, Expr.expectTy, if_pos (declared func rfl).symm, ok_bind]
            rfl

theorem Stmt.cond_iff_fits (describes : scope.Describes program inside) (span : Span)
    (test : Expr) (body orelse : List Stmt)
    (first : (∃ typed, checkAll scope body = .ok typed) ↔ AllFit program inside body)
    (second : (∃ typed, checkAll scope orelse = .ok typed) ↔ AllFit program inside orelse) :
    (∃ typed, (cond span test body orelse).check scope = .ok typed) ↔
      (cond span test body orelse).Fits program inside := by
  have truth := test.check_test_iff describes
  simp only [check, bind_succeeds_iff, pure_succeeds_iff]
  constructor
  · rintro ⟨_, typedTest, acceptedTest, typedBody, acceptedBody, typedElse, acceptedElse, _⟩
    exact .cond span test body orelse (truth.mp ⟨_, acceptedTest⟩) (first.mp ⟨_, acceptedBody⟩)
      (second.mp ⟨_, acceptedElse⟩)
  · intro fits
    cases fits with
    | cond span test body orelse isTruth fitBody fitElse =>
        obtain ⟨typedTest, acceptedTest⟩ := truth.mpr isTruth
        obtain ⟨typedBody, acceptedBody⟩ := first.mpr fitBody
        obtain ⟨typedElse, acceptedElse⟩ := second.mpr fitElse
        exact ⟨_, typedTest, acceptedTest, typedBody, acceptedBody, typedElse, acceptedElse, rfl⟩

theorem Stmt.loop_iff_fits (describes : scope.Describes program inside) (span : Span)
    (test : Expr) (body : List Stmt)
    (again : (∃ typed, checkAll scope body = .ok typed) ↔ AllFit program inside body) :
    (∃ typed, (loop span test body).check scope = .ok typed) ↔
      (loop span test body).Fits program inside := by
  have truth := test.check_test_iff describes
  simp only [check, bind_succeeds_iff, pure_succeeds_iff]
  constructor
  · rintro ⟨_, typedTest, acceptedTest, typedBody, acceptedBody, _⟩
    exact .loop span test body (truth.mp ⟨_, acceptedTest⟩) (again.mp ⟨_, acceptedBody⟩)
  · intro fits
    cases fits with
    | loop span test body isTruth fitBody =>
        obtain ⟨typedTest, acceptedTest⟩ := truth.mpr isTruth
        obtain ⟨typedBody, acceptedBody⟩ := again.mpr fitBody
        exact ⟨_, typedTest, acceptedTest, typedBody, acceptedBody, rfl⟩

mutual

/-- A statement passes the check exactly when it fits. -/
theorem Stmt.check_iff_fits (describes : scope.Describes program inside) (stmt : Stmt) :
    (∃ typed, stmt.check scope = .ok typed) ↔ stmt.Fits program inside := by
  cases stmt with
  | assign span target value => exact assign_iff_fits describes span target value
  | expr span value => exact expr_iff_fits describes span value
  | pass span => exact ⟨fun _ => .pass span, fun _ => ⟨_, rfl⟩⟩
  | fieldAssign span object field value =>
      constructor
      · rintro ⟨typed, accepted⟩
        simp [check] at accepted
      · intro fits
        cases fits
  | ret span value => exact ret_iff_fits describes span value
  | cond span test body orelse =>
      exact cond_iff_fits describes span test body orelse (Stmt.check_all_iff_fit describes body)
        (Stmt.check_all_iff_fit describes orelse)
  | loop span test body =>
      exact loop_iff_fits describes span test body (Stmt.check_all_iff_fit describes body)
termination_by structural stmt

theorem Stmt.check_all_iff_fit (describes : scope.Describes program inside) (stmts : List Stmt) :
    (∃ typed, Stmt.checkAll scope stmts = .ok typed) ↔ Stmt.AllFit program inside stmts := by
  cases stmts with
  | nil => exact ⟨fun _ => .nil, fun _ => ⟨[], rfl⟩⟩
  | cons first rest =>
      have head := Stmt.check_iff_fits describes first
      have tail := Stmt.check_all_iff_fit describes rest
      simp only [checkAll, bind_succeeds_iff, pure_succeeds_iff]
      constructor
      · rintro ⟨_, typedFirst, acceptedFirst, typedRest, acceptedRest, _⟩
        exact .cons first rest (head.mp ⟨_, acceptedFirst⟩) (tail.mp ⟨_, acceptedRest⟩)
      · intro fit
        cases fit with
        | cons first rest fitFirst fitRest =>
            obtain ⟨typedFirst, acceptedFirst⟩ := head.mpr fitFirst
            obtain ⟨typedRest, acceptedRest⟩ := tail.mpr fitRest
            exact ⟨_, typedFirst, acceptedFirst, typedRest, acceptedRest, rfl⟩
termination_by structural stmts

end

mutual

theorem Stmt.tail_ty_iff_gives (describes : scope.Describes program inside) (stmt : Stmt) (ty : Ty) :
    stmt.tailTy scope = .ok ty ↔ stmt.Gives program inside ty := by
  -- Returns, conditions and loops give the type of what is inside of them, and all others `None`.
  cases stmt with
  | ret span value =>
      simp only [tailTy, bind_succeeds_iff, Prod.exists, pure_succeeds_iff]
      constructor
      · rintro ⟨typed, _, accepted, rfl⟩
        exact .ret span value _ (value.check_sound describes typed _ accepted)
      · intro gives
        cases gives with
        | ret span value ty has =>
            obtain ⟨typed, accepted⟩ := value.check_complete describes ty has
            exact ⟨typed, ty, accepted, rfl⟩
  | cond span test body orelse =>
      have first := Stmt.block_ty_iff_ends_with describes body
      have second := Stmt.block_ty_iff_ends_with describes orelse
      simp only [tailTy, bind_succeeds_iff]
      constructor
      · rintro ⟨one, foundOne, two, foundTwo, found⟩
        split at found
        · rename_i same
          cases found
          exact .cond span test body orelse ty ((first ty).mp foundOne)
            ((second ty).mp (same ▸ foundTwo))
        · cases found
      · intro gives
        cases gives with
        | cond span test body orelse ty one two =>
            exact ⟨ty, (first ty).mpr one, ty, (second ty).mpr two, if_pos rfl⟩
  | loop span test body =>
      rw [tailTy, Stmt.block_ty_iff_ends_with describes body ty]
      constructor
      · exact .loop span test body ty
      · intro gives
        cases gives with
        | loop span test body ty again => exact again
  | assign _ _ _ | expr _ _ | pass _ | fieldAssign _ _ _ _ =>
      constructor
      · intro found
        cases found
        constructor
      · intro gives
        cases gives
        rfl
termination_by structural stmt

theorem Stmt.block_ty_iff_ends_with (describes : scope.Describes program inside)
    (stmts : List Stmt) (ty : Ty) :
    Stmt.blockTy scope stmts = .ok ty ↔ Stmt.EndsWith program inside stmts ty := by
  cases stmts with
  | nil =>
      constructor
      · intro found
        cases found
        exact .empty
      · intro ends
        cases ends
        rfl
  | cons first rest =>
      have tail := Stmt.block_ty_iff_ends_with describes rest ty
      cases rest with
      | nil =>
          rw [blockTy, Stmt.tail_ty_iff_gives describes first ty]
          constructor
          · exact .last first ty
          · intro ends
            cases ends with
            | last final ty gives => exact gives
      | cons second others =>
          rw [blockTy, tail]
          constructor
          · exact .earlier first second others ty
          · intro ends
            cases ends with
            | earlier first second rest ty tail => exact tail
termination_by structural stmts

end

end Places

end ScriptWasm
