import ScriptWasm.Proofs.Typing.Typed

/-!
Programs without the places they were read from. Two programs are the same up to spans when nothing
is different once all spans are forgotten, and the types in the notes of expressions can be forgotten
as well, with the spans or without them. A check changes nothing but those types.
-/

namespace ScriptWasm

set_option autoImplicit false

def nowhere : Span :=
  ⟨0, 0⟩

namespace Note

def withoutSpan (note : Note) : Note :=
  ⟨nowhere, note.ty⟩

def blank (_ : Note) : Note :=
  ⟨nowhere, none⟩

def withoutTy (note : Note) : Note :=
  ⟨note.span, none⟩

end Note

section Forgetting

variable (change : Note → Note)

namespace Expr

mutual

def mapNotes : Expr → Expr
  | lit note value => lit (change note) value
  | name note word => name (change note) word
  | call note func args => call (change note) func (mapAllNotes args)
  | binary note op left right => binary (change note) op left.mapNotes right.mapNotes
  | unary note op operand => unary (change note) op operand.mapNotes
  | paren note inner => paren (change note) inner.mapNotes
  | attr note value member => attr (change note) value.mapNotes member
  | construct note className => construct (change note) className

def mapAllNotes : List Expr → List Expr
  | [] => []
  | first :: rest => first.mapNotes :: mapAllNotes rest

end

end Expr

namespace Stmt

mutual

def mapNotes : Stmt → Stmt
  | assign _ target value => assign nowhere target (value.mapNotes change)
  | expr _ value => expr nowhere (value.mapNotes change)
  | pass _ => pass nowhere
  | fieldAssign _ object field value =>
      fieldAssign nowhere (object.mapNotes change) field (value.mapNotes change)
  | ret _ value => ret nowhere (value.mapNotes change)
  | cond _ test body orelse =>
      cond nowhere (test.mapNotes change) (mapAllNotes body) (mapAllNotes orelse)
  | loop _ test body => loop nowhere (test.mapNotes change) (mapAllNotes body)

def mapAllNotes : List Stmt → List Stmt
  | [] => []
  | first :: rest => first.mapNotes :: mapAllNotes rest

end

end Stmt

def VarDef.withoutSpans (var : VarDef) : VarDef :=
  ⟨var.name, var.ty, nowhere, var.init, nowhere, nowhere⟩

def Param.withoutSpan (param : Param) : Param :=
  ⟨param.name, param.ty, nowhere⟩

def FuncDef.mapNotes (func : FuncDef) : FuncDef :=
  ⟨func.name, func.params.map Param.withoutSpan, func.result, func.locals.map VarDef.withoutSpans,
    Stmt.mapAllNotes change func.body, nowhere⟩

def Def.mapNotes : Def → Def
  | .var definition => .var definition.withoutSpans
  | .func definition => .func (definition.mapNotes change)

def ClassDef.withoutSpans (definition : ClassDef) : ClassDef :=
  ⟨definition.name, definition.fields.map VarDef.withoutSpans, nowhere⟩

def Program.mapNotes (program : Program) : Program :=
  ⟨program.defs.map (Def.mapNotes change), Stmt.mapAllNotes change program.stmts,
    program.classes.map ClassDef.withoutSpans⟩

end Forgetting

def Program.withoutSpans (program : Program) : Program :=
  program.mapNotes Note.withoutSpan

def Program.erase (program : Program) : Program :=
  program.mapNotes Note.blank

namespace Stmt

mutual

/-- A statement with all its spans, but without annotations. -/
def unannotated : Stmt → Stmt
  | assign span target value => assign span target (value.mapNotes Note.withoutTy)
  | expr span value => expr span (value.mapNotes Note.withoutTy)
  | pass span => pass span
  | fieldAssign span object field value =>
      fieldAssign span (object.mapNotes Note.withoutTy) field (value.mapNotes Note.withoutTy)
  | ret span value => ret span (value.mapNotes Note.withoutTy)
  | cond span test body orelse =>
      cond span (test.mapNotes Note.withoutTy) (allUnannotated body) (allUnannotated orelse)
  | loop span test body => loop span (test.mapNotes Note.withoutTy) (allUnannotated body)

def allUnannotated : List Stmt → List Stmt
  | [] => []
  | first :: rest => first.unannotated :: allUnannotated rest

end

end Stmt

def FuncDef.unannotated (func : FuncDef) : FuncDef :=
  { func with body := Stmt.allUnannotated func.body }

def Def.unannotated : Def → Def
  | .var definition => .var definition
  | .func definition => .func definition.unannotated

/-- A program with all its spans, but without annotations. -/
def Program.unannotated (program : Program) : Program :=
  { program with
    defs := program.defs.map Def.unannotated
    stmts := Stmt.allUnannotated program.stmts }

section Allowed

variable (allowed : Note → Prop)

namespace Expr

mutual

def AllNotes : Expr → Prop
  | lit note _ => allowed note
  | name note _ => allowed note
  | call note _ args => allowed note ∧ NotesOfAll args
  | binary note _ left right => allowed note ∧ left.AllNotes ∧ right.AllNotes
  | unary note _ operand => allowed note ∧ operand.AllNotes
  | paren note inner => allowed note ∧ inner.AllNotes
  | attr note value _ => allowed note ∧ value.AllNotes
  | construct note _ => allowed note

def NotesOfAll : List Expr → Prop
  | [] => True
  | first :: rest => first.AllNotes ∧ NotesOfAll rest

end

end Expr

namespace Stmt

mutual

def AllNotes : Stmt → Prop
  | assign _ _ value => value.AllNotes allowed
  | expr _ value => value.AllNotes allowed
  | pass _ => True
  | fieldAssign _ object _ value => object.AllNotes allowed ∧ value.AllNotes allowed
  | ret _ value => value.AllNotes allowed
  | cond _ test body orelse => test.AllNotes allowed ∧ NotesOfAll body ∧ NotesOfAll orelse
  | loop _ test body => test.AllNotes allowed ∧ NotesOfAll body

def NotesOfAll : List Stmt → Prop
  | [] => True
  | first :: rest => first.AllNotes ∧ NotesOfAll rest

end

end Stmt

structure Program.AllNotes (program : Program) : Prop where
  funcs : ∀ func ∈ program.funcs, Stmt.NotesOfAll allowed func.body
  stmts : Stmt.NotesOfAll allowed program.stmts

end Allowed

def Note.Unannotated (note : Note) : Prop :=
  note.ty = none

/-- Where annotations are types whose values are words. -/
def Note.Plain (note : Note) : Prop :=
  ∀ ty, note.ty = some ty → ty.Plain

section Changes

variable (change other : Note → Note) {allowed : Note → Prop}

mutual

theorem Expr.map_notes_congr (same : ∀ note, allowed note → change note = other note)
    (expr : Expr) (notes : expr.AllNotes allowed) :
    expr.mapNotes change = expr.mapNotes other := by
  cases expr with
  | lit note value => rw [Expr.mapNotes, Expr.mapNotes, same note notes]
  | name note word => rw [Expr.mapNotes, Expr.mapNotes, same note notes]
  | call note func args =>
      rw [Expr.mapNotes, Expr.mapNotes, same note notes.1, Expr.map_all_notes_congr same args notes.2]
  | binary note op left right =>
      rw [Expr.mapNotes, Expr.mapNotes, same note notes.1, Expr.map_notes_congr same left notes.2.1,
        Expr.map_notes_congr same right notes.2.2]
  | unary note op operand =>
      rw [Expr.mapNotes, Expr.mapNotes, same note notes.1, Expr.map_notes_congr same operand notes.2]
  | paren note inner =>
      rw [Expr.mapNotes, Expr.mapNotes, same note notes.1, Expr.map_notes_congr same inner notes.2]
  | attr note value member =>
      rw [Expr.mapNotes, Expr.mapNotes, same note notes.1, Expr.map_notes_congr same value notes.2]
  | construct note className => rw [Expr.mapNotes, Expr.mapNotes, same note notes]
termination_by structural expr

theorem Expr.map_all_notes_congr (same : ∀ note, allowed note → change note = other note)
    (args : List Expr) (notes : Expr.NotesOfAll allowed args) :
    Expr.mapAllNotes change args = Expr.mapAllNotes other args := by
  cases args with
  | nil => rfl
  | cons first rest =>
      rw [Expr.mapAllNotes, Expr.mapAllNotes, Expr.map_notes_congr same first notes.1,
        Expr.map_all_notes_congr same rest notes.2]
termination_by structural args

end

mutual

theorem Stmt.map_notes_congr (same : ∀ note, allowed note → change note = other note)
    (stmt : Stmt) (notes : stmt.AllNotes allowed) :
    stmt.mapNotes change = stmt.mapNotes other := by
  have exprs := Expr.map_notes_congr change other same
  cases stmt with
  | assign span target value => rw [Stmt.mapNotes, Stmt.mapNotes, exprs value notes]
  | expr span value => rw [Stmt.mapNotes, Stmt.mapNotes, exprs value notes]
  | pass span => rfl
  | fieldAssign span object field value =>
      rw [Stmt.mapNotes, Stmt.mapNotes, exprs object notes.1, exprs value notes.2]
  | ret span value => rw [Stmt.mapNotes, Stmt.mapNotes, exprs value notes]
  | cond span test body orelse =>
      rw [Stmt.mapNotes, Stmt.mapNotes, exprs test notes.1,
        Stmt.map_all_notes_congr same body notes.2.1, Stmt.map_all_notes_congr same orelse notes.2.2]
  | loop span test body =>
      rw [Stmt.mapNotes, Stmt.mapNotes, exprs test notes.1,
        Stmt.map_all_notes_congr same body notes.2]
termination_by structural stmt

theorem Stmt.map_all_notes_congr (same : ∀ note, allowed note → change note = other note)
    (stmts : List Stmt) (notes : Stmt.NotesOfAll allowed stmts) :
    Stmt.mapAllNotes change stmts = Stmt.mapAllNotes other stmts := by
  cases stmts with
  | nil => rfl
  | cons first rest =>
      rw [Stmt.mapAllNotes, Stmt.mapAllNotes, Stmt.map_notes_congr same first notes.1,
        Stmt.map_all_notes_congr same rest notes.2]
termination_by structural stmts

end

theorem Program.map_notes_congr (same : ∀ note, allowed note → change note = other note)
    (program : Program) (notes : program.AllNotes allowed) :
    program.mapNotes change = program.mapNotes other := by
  rw [Program.mapNotes, Program.mapNotes, Stmt.map_all_notes_congr change other same _ notes.stmts]
  have defs : program.defs.map (Def.mapNotes change) = program.defs.map (Def.mapNotes other) := by
    apply List.map_congr_left
    intro definition member
    cases definition with
    | var var => rfl
    | func func =>
        have present : func ∈ program.funcs := List.mem_filterMap.mpr ⟨.func func, member, rfl⟩
        rw [Def.mapNotes, Def.mapNotes, FuncDef.mapNotes, FuncDef.mapNotes,
          Stmt.map_all_notes_congr change other same _ (notes.funcs func present)]
  rw [defs]

end Changes

/-- Where nothing is annotated, forgetting spans forgets everything. -/
theorem Program.erase_of_unannotated (program : Program)
    (notes : program.AllNotes Note.Unannotated) : program.withoutSpans = program.erase := by
  apply Program.map_notes_congr _ _ ?_ program notes
  intro note unannotated
  rw [Note.withoutSpan, unannotated]
  rfl

theorem is_none_iff (expr : Expr) : expr.isNone = true ↔ ∃ note, expr = .lit note .none := by
  constructor
  · intro isNone
    cases expr with
    | lit note value =>
        cases value with
        | none => exact ⟨note, rfl⟩
        | int value => cases isNone
        | bool value => cases isNone
    | _ => cases isNone
  · rintro ⟨note, rfl⟩
    rfl

namespace Expr

mutual

/-- A check gives back the expression with other annotations. -/
theorem check_unannotated (scope : Scope) (expr typed : Expr) (ty : Ty)
    (accepted : expr.check scope = .ok (typed, ty)) :
    typed.mapNotes Note.withoutTy = expr.mapNotes Note.withoutTy := by
  cases expr with
  | lit note value =>
      cases accepted
      rfl
  | name note word =>
      simp only [check] at accepted
      split at accepted
      · cases accepted
        rfl
      · cases accepted
  | call note func args =>
      simp only [check] at accepted
      split at accepted
      · cases accepted
      · rename_i params result callee
        split at accepted
        · rename_i arity
          simp only [bind_succeeds_iff] at accepted
          obtain ⟨typedArgs, acceptedArgs, same⟩ := accepted
          cases same
          rw [mapNotes, mapNotes,
            check_args_unannotated scope params args typedArgs arity acceptedArgs]
          rfl
        · cases accepted
  | binary note op left right =>
      simp only [check, bind_succeeds_iff, Prod.exists] at accepted
      obtain ⟨typedLeft, leftTy, acceptedLeft, accepted⟩ := accepted
      have first := check_unannotated scope left typedLeft leftTy acceptedLeft
      split at accepted
      · split at accepted
        · rename_i isNone
          obtain ⟨noneNote, rfl⟩ := (is_none_iff right).mp isNone
          cases accepted
          rw [mapNotes, mapNotes, first]
          rfl
        · cases accepted
      · simp only [bind_succeeds_iff, Prod.exists] at accepted
        obtain ⟨typedRight, rightTy, acceptedRight, accepted⟩ := accepted
        have second := check_unannotated scope right typedRight rightTy acceptedRight
        split at accepted
        · simp only [bind_succeeds_iff] at accepted
          obtain ⟨_, _, _, _, same⟩ := accepted
          cases same
          rw [mapNotes, mapNotes, first, second]
          rfl
        · simp only [bind_succeeds_iff] at accepted
          obtain ⟨_, _, same⟩ := accepted
          cases same
          rw [mapNotes, mapNotes, first, second]
          rfl
  | unary note op operand =>
      simp only [check, bind_succeeds_iff, Prod.exists] at accepted
      obtain ⟨typedOperand, got, acceptedOperand, _, _, same⟩ := accepted
      cases same
      rw [mapNotes, mapNotes, check_unannotated scope operand typedOperand got acceptedOperand]
      rfl
  | paren note inner =>
      simp only [check, bind_succeeds_iff, Prod.exists] at accepted
      obtain ⟨typedInner, innerTy, acceptedInner, same⟩ := accepted
      cases same
      rw [mapNotes, mapNotes, check_unannotated scope inner typedInner ty acceptedInner]
      rfl
  | attr note value member => simp [check] at accepted
  | construct note className => simp [check] at accepted
termination_by structural expr

theorem check_args_unannotated (scope : Scope) (params : List (Option Ty)) (args typed : List Expr)
    (arity : args.length = params.length) (accepted : checkArgs scope params args = .ok typed) :
    mapAllNotes Note.withoutTy typed = mapAllNotes Note.withoutTy args := by
  cases args with
  | nil =>
      cases params with
      | nil =>
          cases accepted
          rfl
      | cons param params => cases arity
  | cons arg args =>
      cases params with
      | nil => cases arity
      | cons param params =>
          simp only [checkArgs, bind_succeeds_iff, Prod.exists] at accepted
          obtain ⟨typedArg, got, acceptedArg, accepted⟩ := accepted
          have head := check_unannotated scope arg typedArg got acceptedArg
          cases param with
          | none =>
              simp only [bind_succeeds_iff] at accepted
              obtain ⟨rest, acceptedRest, same⟩ := accepted
              cases same
              rw [mapAllNotes, mapAllNotes, head,
                check_args_unannotated scope params args rest (Nat.succ.inj arity) acceptedRest]
          | some wanted =>
              simp only [bind_succeeds_iff] at accepted
              obtain ⟨_, _, rest, acceptedRest, same⟩ := accepted
              cases same
              rw [mapAllNotes, mapAllNotes, head,
                check_args_unannotated scope params args rest (Nat.succ.inj arity) acceptedRest]
termination_by structural args

end

theorem check_test_unannotated (scope : Scope) (test typed : Expr)
    (accepted : test.checkTest scope = .ok typed) :
    typed.mapNotes Note.withoutTy = test.mapNotes Note.withoutTy := by
  simp only [checkTest, bind_succeeds_iff, Prod.exists] at accepted
  obtain ⟨checkedTest, got, checked, _, _, same⟩ := accepted
  cases same
  exact check_unannotated scope test typed got checked

end Expr

namespace Stmt

mutual

theorem check_unannotated (scope : Scope) (stmt typed : Stmt)
    (accepted : stmt.check scope = .ok typed) :
    typed.unannotated = stmt.unannotated := by
  cases stmt with
  | assign span target value =>
      simp only [check, bind_succeeds_iff, Prod.exists] at accepted
      obtain ⟨typedValue, got, acceptedValue, accepted⟩ := accepted
      split at accepted
      · cases accepted
      · split at accepted
        · cases accepted
          rw [unannotated, unannotated, value.check_unannotated scope typedValue got acceptedValue]
        · cases accepted
  | expr span value =>
      simp only [check, bind_succeeds_iff, Prod.exists] at accepted
      obtain ⟨typedValue, got, acceptedValue, same⟩ := accepted
      cases same
      rw [unannotated, unannotated, value.check_unannotated scope typedValue got acceptedValue]
  | pass span =>
      cases accepted
      rfl
  | fieldAssign span object field value => simp [check] at accepted
  | ret span value =>
      simp only [check, bind_succeeds_iff, Prod.exists] at accepted
      obtain ⟨typedValue, got, acceptedValue, accepted⟩ := accepted
      have erased := value.check_unannotated scope typedValue got acceptedValue
      split at accepted
      · simp only [bind_succeeds_iff] at accepted
        obtain ⟨_, _, same⟩ := accepted
        cases same
        rw [unannotated, unannotated, erased]
      · cases accepted
        rw [unannotated, unannotated, erased]
  | cond span test body orelse =>
      simp only [check, bind_succeeds_iff] at accepted
      obtain ⟨typedTest, acceptedTest, typedBody, acceptedBody, typedElse, acceptedElse, same⟩ :=
        accepted
      cases same
      rw [unannotated, unannotated, test.check_test_unannotated scope typedTest acceptedTest,
        check_all_unannotated scope body typedBody acceptedBody,
        check_all_unannotated scope orelse typedElse acceptedElse]
  | loop span test body =>
      simp only [check, bind_succeeds_iff] at accepted
      obtain ⟨typedTest, acceptedTest, typedBody, acceptedBody, same⟩ := accepted
      cases same
      rw [unannotated, unannotated, test.check_test_unannotated scope typedTest acceptedTest,
        check_all_unannotated scope body typedBody acceptedBody]
termination_by structural stmt

theorem check_all_unannotated (scope : Scope) (stmts typed : List Stmt)
    (accepted : checkAll scope stmts = .ok typed) :
    allUnannotated typed = allUnannotated stmts := by
  cases stmts with
  | nil =>
      cases accepted
      rfl
  | cons first rest =>
      simp only [checkAll, bind_succeeds_iff] at accepted
      obtain ⟨typedFirst, acceptedFirst, typedRest, acceptedRest, same⟩ := accepted
      cases same
      rw [allUnannotated, allUnannotated, check_unannotated scope first typedFirst acceptedFirst,
        check_all_unannotated scope rest typedRest acceptedRest]
termination_by structural stmts

end

end Stmt

theorem FuncDef.check_unannotated (func typed : FuncDef) (functions : FuncTable) (vars : VarTable)
    (accepted : func.check functions vars = .ok typed) : typed.unannotated = func.unannotated := by
  simp only [FuncDef.check, bind_succeeds_iff] at accepted
  obtain ⟨body, acceptedBody, actual, _, accepted⟩ := accepted
  split at accepted
  · cases accepted
    rw [FuncDef.unannotated, FuncDef.unannotated,
      Stmt.check_all_unannotated _ func.body body acceptedBody]
  · cases accepted

theorem check_defs_unannotated (functions : FuncTable) (globals : VarTable)
    (scopes scopes' : Table VarTable) (defs typed : List Def)
    (accepted : checkDefs functions globals scopes defs = .ok (typed, scopes')) :
    typed.map Def.unannotated = defs.map Def.unannotated := by
  induction defs generalizing scopes typed with
  | nil =>
      cases accepted
      rfl
  | cons first rest induction =>
      cases first with
      | var var =>
          simp only [checkDefs, bind_succeeds_iff, Prod.exists] at accepted
          obtain ⟨typedRest, _, acceptedRest, same⟩ := accepted
          cases same
          rw [List.map_cons, List.map_cons, induction scopes typedRest acceptedRest]
      | func func =>
          simp only [checkDefs, bind_succeeds_iff, Prod.exists] at accepted
          obtain ⟨vars, _, typedFunc, acceptedFunc, typedRest, _, acceptedRest, same⟩ := accepted
          cases same
          rw [List.map_cons, List.map_cons, induction _ typedRest acceptedRest, Def.unannotated,
            Def.unannotated, FuncDef.check_unannotated func typedFunc functions vars acceptedFunc]

/-- An analysis keeps the program up to annotations. -/
theorem analyze_unannotated (program : Program) (analysis : Analysis)
    (accepted : program.analyze = .ok analysis) :
    analysis.program.unannotated = program.unannotated := by
  simp only [Program.analyze, bind_succeeds_iff, Prod.exists] at accepted
  obtain ⟨functions, globals, _, defs, scopes, checked, stmts, acceptedStmts, same⟩ := accepted
  cases same
  rw [Program.unannotated, Program.unannotated,
    check_defs_unannotated functions globals .empty scopes program.defs defs checked,
    Stmt.check_all_unannotated _ program.stmts stmts acceptedStmts]

mutual

theorem Expr.erase_without_ty (expr : Expr) :
    (expr.mapNotes Note.withoutTy).mapNotes Note.blank = expr.mapNotes Note.blank := by
  cases expr with
  | lit note value | name note word | construct note className => rfl
  | call note func args =>
      simp only [Expr.mapNotes, Expr.erase_all_without_ty args]
      rfl
  | binary note op left right =>
      simp only [Expr.mapNotes, Expr.erase_without_ty left, Expr.erase_without_ty right]
      rfl
  | unary note op operand =>
      simp only [Expr.mapNotes, Expr.erase_without_ty operand]
      rfl
  | paren note inner =>
      simp only [Expr.mapNotes, Expr.erase_without_ty inner]
      rfl
  | attr note value member =>
      simp only [Expr.mapNotes, Expr.erase_without_ty value]
      rfl
termination_by structural expr

theorem Expr.erase_all_without_ty (args : List Expr) :
    Expr.mapAllNotes Note.blank (Expr.mapAllNotes Note.withoutTy args) =
      Expr.mapAllNotes Note.blank args := by
  cases args with
  | nil => rfl
  | cons first rest =>
      simp only [Expr.mapAllNotes, Expr.erase_without_ty first, Expr.erase_all_without_ty rest]
termination_by structural args

end

mutual

theorem Stmt.erase_unannotated (stmt : Stmt) :
    stmt.unannotated.mapNotes Note.blank = stmt.mapNotes Note.blank := by
  cases stmt with
  | pass span => rfl
  | assign span target value | expr span value | ret span value =>
      simp only [Stmt.unannotated, Stmt.mapNotes, value.erase_without_ty]
  | fieldAssign span object field value =>
      simp only [Stmt.unannotated, Stmt.mapNotes, object.erase_without_ty, value.erase_without_ty]
  | cond span test body orelse =>
      simp only [Stmt.unannotated, Stmt.mapNotes, test.erase_without_ty,
        Stmt.erase_all_unannotated body, Stmt.erase_all_unannotated orelse]
  | loop span test body =>
      simp only [Stmt.unannotated, Stmt.mapNotes, test.erase_without_ty,
        Stmt.erase_all_unannotated body]
termination_by structural stmt

theorem Stmt.erase_all_unannotated (stmts : List Stmt) :
    Stmt.mapAllNotes Note.blank (Stmt.allUnannotated stmts) = Stmt.mapAllNotes Note.blank stmts := by
  cases stmts with
  | nil => rfl
  | cons first rest =>
      simp only [Stmt.allUnannotated, Stmt.mapAllNotes, Stmt.erase_unannotated first,
        Stmt.erase_all_unannotated rest]
termination_by structural stmts

end

theorem Program.erase_unannotated (program : Program) :
    program.unannotated.erase = program.erase := by
  have defs : Def.mapNotes Note.blank ∘ Def.unannotated = Def.mapNotes Note.blank := by
    funext definition
    cases definition with
    | var var => rfl
    | func func =>
        simp only [Function.comp_apply, Def.unannotated, Def.mapNotes, FuncDef.unannotated,
          FuncDef.mapNotes, Stmt.erase_all_unannotated]
  simp only [Program.erase, Program.mapNotes, Program.unannotated, List.map_map, defs,
    Stmt.erase_all_unannotated]

/-- An analysis keeps the program up to spans and annotations. -/
theorem analyze_erase (program : Program) (analysis : Analysis)
    (accepted : program.analyze = .ok analysis) : analysis.program.erase = program.erase := by
  rw [← analysis.program.erase_unannotated, analyze_unannotated program analysis accepted,
    program.erase_unannotated]

section TypedNotes

variable (scope : Scope) (allowed : Note → Prop)

def Scope.Notes : Prop :=
  ∀ (expr : Expr) (ty : Ty), expr.Typed scope ty → allowed expr.note

variable {scope : Scope} {allowed : Note → Prop}

mutual

/-- What holds of the note of every typed expression holds of all notes in it, also of the operand
that `is` compares with. -/
theorem Expr.notes_of_typed (own : scope.Notes allowed) (expr : Expr) (ty : Ty)
    (typed : expr.Typed scope ty) : expr.AllNotes allowed := by
  have here := own expr ty typed
  cases expr with
  | lit note value => exact here
  | name note word => exact here
  | call note func args =>
      cases typed with
      | call span func args params result callee arguments =>
          exact ⟨here, Expr.notes_of_args own args params arguments⟩
  | binary note op left right =>
      cases typed with
      | isNone span noneSpan left leftTy operand =>
          exact ⟨here, Expr.notes_of_typed own left leftTy operand, own _ _ (.lit noneSpan .none)⟩
      | arithmetic span op left right kind first second =>
          exact ⟨here, Expr.notes_of_typed own left .int first,
            Expr.notes_of_typed own right .int second⟩
      | comparison span op left right operandTy distinct kind first second =>
          exact ⟨here, Expr.notes_of_typed own left operandTy first,
            Expr.notes_of_typed own right operandTy second⟩
  | unary note op operand =>
      cases typed with
      | negation span operand number => exact ⟨here, Expr.notes_of_typed own operand .int number⟩
      | complement span operand truth => exact ⟨here, Expr.notes_of_typed own operand .bool truth⟩
  | paren note inner =>
      cases typed with
      | paren span inner ty typedInner => exact ⟨here, Expr.notes_of_typed own inner ty typedInner⟩
  | attr note value member => cases typed
  | construct note className => cases typed
termination_by structural expr

theorem Expr.notes_of_args (own : scope.Notes allowed) (args : List Expr)
    (params : List (Option Ty)) (typed : Expr.ArgsTyped scope params args) :
    Expr.NotesOfAll allowed args := by
  cases args with
  | nil => trivial
  | cons arg args =>
      cases typed with
      | cons param params arg args ty head accepted tail =>
          exact ⟨Expr.notes_of_typed own arg ty head, Expr.notes_of_args own args params tail⟩
termination_by structural args

end

mutual

theorem Stmt.notes_of_typed (own : scope.Notes allowed) (stmt : Stmt)
    (typed : stmt.Typed scope) : stmt.AllNotes allowed := by
  have exprs := Expr.notes_of_typed own
  cases stmt with
  | assign span target value =>
      cases typed with
      | assign span target value binding found typedValue => exact exprs value _ typedValue
  | expr span value =>
      cases typed with
      | expr span value ty typedValue => exact exprs value ty typedValue
  | pass span => trivial
  | fieldAssign span object field value => cases typed
  | ret span value =>
      cases typed with
      | ret span value ty typedValue declared => exact exprs value ty typedValue
  | cond span test body orelse =>
      cases typed with
      | cond span test body orelse truth first second =>
          exact ⟨exprs test .bool truth, Stmt.notes_of_all_typed own body first,
            Stmt.notes_of_all_typed own orelse second⟩
  | loop span test body =>
      cases typed with
      | loop span test body truth again =>
          exact ⟨exprs test .bool truth, Stmt.notes_of_all_typed own body again⟩
termination_by structural stmt

theorem Stmt.notes_of_all_typed (own : scope.Notes allowed) (stmts : List Stmt)
    (typed : Stmt.AllTyped scope stmts) : Stmt.NotesOfAll allowed stmts := by
  cases stmts with
  | nil => trivial
  | cons first rest =>
      cases typed with
      | cons first rest head tail =>
          exact ⟨Stmt.notes_of_typed own first head, Stmt.notes_of_all_typed own rest tail⟩
termination_by structural stmts

end

end TypedNotes

theorem Scope.Plain.notes {scope : Scope} (plain : scope.Plain) : scope.Notes Note.Plain := by
  intro expr ty typed annotation annotated
  have same : expr.ty? = some annotation := annotated
  rw [typed.ty_eq] at same
  exact Option.some.inj same ▸ typed.plain plain

theorem Analysis.Typed.notes_plain {analysis : Analysis} (typed : analysis.Typed)
    (plain : analysis.program.Plain) : analysis.program.AllNotes Note.Plain where
  funcs func member := by
    obtain ⟨vars, _, fits⟩ := typed.bodies func member
    have notes := (typed.body_scope_plain plain func member vars fits).notes
    exact Stmt.notes_of_all_typed notes func.body fits.body
  stmts := Stmt.notes_of_all_typed (typed.entry_scope_plain plain).notes analysis.program.stmts
    typed.stmts

end ScriptWasm
