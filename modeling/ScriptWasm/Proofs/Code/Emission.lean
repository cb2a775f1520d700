import ScriptWasm.Code.Generate
import ScriptWasm.Proofs.Typing.Typed

/-!
The code that a draft receives. Writing an expression or a statement into a draft appends to its
innermost frame, and what is appended depends only on the tree and the variables in scope. For
typed trees nothing can go wrong on the way, so an analysed program always has a module.
-/

namespace ScriptWasm

set_option autoImplicit false

namespace VarTable

def load (vars : VarTable) (name : String) : Instr :=
  match (vars.get? name).map Binding.storage with
  | some .global => .globalGet name
  | _ => .localGet name

def store (vars : VarTable) (name : String) : Instr :=
  match (vars.get? name).map Binding.storage with
  | some .global => .globalSet name
  | _ => .localSet name

end VarTable

namespace Expr

/-- The primitive that a call of a builtin becomes, by the type of the first argument. -/
def primitive? (builtin : Builtin) (args : List Expr) : Option HostImport :=
  HostImport.ofBuiltin? builtin ((args.head?.bind Expr.ty?).getD .none)

def targetName (func : String) (args : List Expr) : String :=
  match Builtin.ofName? func with
  | some builtin => ((primitive? builtin args).map HostImport.name).getD func
  | none => func

mutual

def code (vars : VarTable) : Expr → List Instr
  | lit _ value => [.const value.word]
  | name _ word => [vars.load word]
  | call _ func args => codeAll vars args ++ [.call (targetName func args)]
  | binary _ op left right =>
      match op.wordOp? with
      | some wordOp => left.code vars ++ right.code vars ++ [.binary wordOp]
      | none => left.code vars ++ [.drop, .const (Word.ofBool (left.ty? = some .none))]
  | unary _ .neg operand => .const 0 :: operand.code vars ++ [.binary .sub]
  | unary _ .not operand => operand.code vars ++ [.const 0, .binary .eq]
  | paren _ inner => inner.code vars
  | attr _ _ _ => []
  | construct _ _ => []

def codeAll (vars : VarTable) : List Expr → List Instr
  | [] => []
  | first :: rest => first.code vars ++ codeAll vars rest

end

end Expr

namespace Stmt

mutual

/-- The code of a statement. At the top level the value of an expression statement is kept. -/
def code (vars : VarTable) (topLevel : Bool) : Stmt → List Instr
  | assign _ target value => value.code vars ++ [vars.store target]
  | expr _ value =>
      value.code vars ++ [if topLevel then .localSet Draft.resultSlot else .drop]
  | pass _ => []
  | fieldAssign _ _ _ _ => []
  | ret _ value => value.code vars ++ [.ret]
  | cond _ test body orelse =>
      test.code vars ++ [.cond (codeAll vars topLevel body) (codeAll vars topLevel orelse)]
  | loop _ test body =>
      [.block [.loop (test.code vars ++ [.const 0, .binary .eq, .branchIf 1] ++
        codeAll vars topLevel body ++ [.branch 0])]]

def codeAll (vars : VarTable) (topLevel : Bool) : List Stmt → List Instr
  | [] => []
  | first :: rest => code vars topLevel first ++ codeAll vars topLevel rest

end

end Stmt

namespace FuncDef

def initCode (func : FuncDef) : List Instr :=
  func.locals.flatMap fun var => [.const var.init.word, .localSet var.name]

/-- The compiled function. A body that is left without a return does not go on from there. -/
def compiled (func : FuncDef) (vars : VarTable) : Func :=
  ⟨some func.name, none, func.params.map Param.name, func.locals.map VarDef.name,
    func.initCode ++ Stmt.codeAll vars false func.body ++ [.unreachable, .const 0]⟩

end FuncDef

def entryFunc (globals : VarTable) (stmts : List Stmt) : Func :=
  ⟨none, some entryExport, [], [Draft.resultSlot],
    [.const 0, .localSet Draft.resultSlot] ++ Stmt.codeAll globals true stmts ++
      [.localGet Draft.resultSlot]⟩

namespace VarDef

def compiled (var : VarDef) : Global :=
  ⟨var.name, var.init.word⟩

end VarDef

namespace Analysis

/-- The variables that a function of an analysed program sees. -/
def scopeOf (analysis : Analysis) (func : FuncDef) : VarTable :=
  (analysis.scopes.get? func.name).getD .empty

def compiled (analysis : Analysis) : Module :=
  ⟨analysis.program.vars.map VarDef.compiled,
    analysis.program.funcs.map fun func => func.compiled (analysis.scopeOf func),
    entryFunc analysis.globals analysis.program.stmts⟩

end Analysis

namespace Draft

def append (draft : Draft) (code : List Instr) : Draft :=
  { draft with inner := draft.inner ++ code }

@[simp] theorem append_vars (draft : Draft) (code : List Instr) :
    (draft.append code).vars = draft.vars :=
  rfl

@[simp] theorem append_top_level (draft : Draft) (code : List Instr) :
    (draft.append code).topLevel = draft.topLevel :=
  rfl

@[simp] theorem push_frame_vars (draft : Draft) : draft.pushFrame.vars = draft.vars :=
  rfl

@[simp] theorem push_frame_top_level (draft : Draft) :
    draft.pushFrame.topLevel = draft.topLevel :=
  rfl

@[simp] theorem append_nil (draft : Draft) : draft.append [] = draft := by
  simp [append]

@[simp] theorem append_append (draft : Draft) (first second : List Instr) :
    (draft.append first).append second = draft.append (first ++ second) := by
  simp [append, List.append_assoc]

@[simp] theorem emit_eq_append (draft : Draft) (instr : Instr) :
    draft.emit instr = draft.append [instr] :=
  rfl

/-- A frame that was opened and written to gives back its code when it is closed. -/
@[simp] theorem pop_frame_after_push (draft : Draft) (code : List Instr) :
    (draft.pushFrame.append code).popFrame = .ok (code, draft) := by
  simp [pushFrame, append, popFrame]

theorem emit_load_found (draft : Draft) (name : String) (binding : Binding)
    (found : draft.vars.get? name = some binding) :
    draft.emitLoad name = .ok (draft.append [draft.vars.load name]) := by
  unfold emitLoad VarTable.load storage
  rw [found]
  cases binding with
  | mk ty storage => cases storage <;> rfl

theorem emit_store_found (draft : Draft) (name : String) (binding : Binding)
    (found : draft.vars.get? name = some binding) :
    draft.emitStore name = .ok (draft.append [draft.vars.store name]) := by
  unfold emitStore VarTable.store storage
  rw [found]
  cases binding with
  | mk ty storage => cases storage <;> rfl

end Draft

theorem of_builtin_plain (builtin : Builtin) (ty : Ty) (plain : ty.Plain) :
    ∃ primitive, HostImport.ofBuiltin? builtin ty = some primitive := by
  cases ty with
  | object className => exact absurd rfl (plain className)
  | int => cases builtin <;> exact ⟨_, rfl⟩
  | bool => cases builtin <;> exact ⟨_, rfl⟩
  | none => cases builtin <;> exact ⟨_, rfl⟩

theorem arity_of_builtin (builtin : Builtin) (ty : Ty) (primitive : HostImport)
    (chosen : HostImport.ofBuiltin? builtin ty = some primitive) :
    primitive.arity = builtin.params.length := by
  cases builtin <;> cases ty <;> cases chosen <;> rfl

namespace Expr

theorem require_ty_typed (scope : Scope) (expr : Expr) (ty : Ty) (typed : expr.Typed scope ty) :
    expr.requireTy = .ok ty := by
  unfold requireTy
  rw [typed.ty_eq]

theorem call_target_typed (scope : Scope) (plain : scope.Plain) (func : String)
    (params : List (Option Ty)) (result : Ty) (callee : scope.callee? func = some (params, result))
    (args : List Expr) (arguments : ArgsTyped scope params args) :
    callTarget scope.functions func args = .ok (targetName func args) := by
  unfold callTarget targetName
  cases isBuiltin : Builtin.ofName? func with
  | none =>
      have found : ∃ signature, scope.functions.get? func = some signature := by
        rw [Scope.callee?, isBuiltin] at callee
        obtain ⟨signature, found, _⟩ := Option.map_eq_some_iff.mp callee
        exact ⟨signature, found⟩
      obtain ⟨signature, found⟩ := found
      simp [Table.contains, found]
  | some builtin =>
      cases arguments with
      | nil =>
          obtain ⟨primitive, chosen⟩ := of_builtin_plain builtin .none (by simp [Ty.Plain])
          simp [primitive?, chosen, pure, Except.pure]
      | cons param params arg args ty head accepted tail =>
          obtain ⟨primitive, chosen⟩ := of_builtin_plain builtin ty (head.plain plain)
          simp [primitive?, require_ty_typed scope arg ty head, head.ty_eq, chosen, pure,
            Except.pure]

mutual

theorem emit_typed (scope : Scope) (plain : scope.Plain) (expr : Expr) (ty : Ty)
    (typed : expr.Typed scope ty) (draft : Draft) (vars : draft.vars = scope.vars) :
    expr.emit scope.functions draft = .ok (draft.append (expr.code scope.vars)) := by
  -- A typed expression finds its variables and has an operation for its types, so no step of the
  -- emission fails.
  cases expr with
  | lit note value => rfl
  | name note word =>
      cases typed with
      | name span word binding found =>
          simp only [emit, code]
          rw [Draft.emit_load_found draft word binding (vars ▸ found), vars]
  | call note func args =>
      cases typed with
      | call span func args params result callee arguments =>
          simp only [emit, code]
          rw [emit_all_typed scope plain args params arguments draft vars, ok_bind,
            call_target_typed scope plain func params ty callee args arguments]
          simp [pure, Except.pure]
  | binary note op left right =>
      cases typed with
      | isNone span noneSpan left leftTy operand =>
          simp only [emit, code, BinaryOp.wordOp?]
          rw [require_ty_typed scope left leftTy operand, ok_bind,
            emit_typed scope plain left leftTy operand draft vars, operand.ty_eq]
          simp [pure, Except.pure]
      | arithmetic span op left right kind first second =>
          have lowered : ∃ wordOp, op.wordOp? = some wordOp := by
            cases op <;> first | exact ⟨_, rfl⟩ | cases kind
          obtain ⟨wordOp, lowered⟩ := lowered
          simp only [emit, code, lowered]
          rw [emit_typed scope plain left .int first draft vars, ok_bind,
            emit_typed scope plain right .int second _ (by simpa using vars)]
          simp [pure, Except.pure]
      | comparison span op left right operandTy distinct kind first second =>
          have lowered : ∃ wordOp, op.wordOp? = some wordOp := by
            cases op <;> simp [BinaryOp.wordOp?] at distinct ⊢
          obtain ⟨wordOp, lowered⟩ := lowered
          simp only [emit, code, lowered]
          rw [emit_typed scope plain left operandTy first draft vars, ok_bind,
            emit_typed scope plain right operandTy second _ (by simpa using vars)]
          simp [pure, Except.pure]
  | unary note op operand =>
      cases typed with
      | negation span operand number =>
          simp only [emit, code]
          rw [emit_typed scope plain operand .int number _ (by simpa using vars)]
          simp [pure, Except.pure]
      | complement span operand truth =>
          simp only [emit, code]
          rw [emit_typed scope plain operand .bool truth draft vars]
          simp [pure, Except.pure]
  | paren note inner =>
      cases typed with
      | paren span inner ty typedInner =>
          simp only [emit, code]
          exact emit_typed scope plain inner ty typedInner draft vars
  | attr note value member => cases typed
  | construct note className => cases typed
termination_by structural expr

theorem emit_all_typed (scope : Scope) (plain : scope.Plain) (args : List Expr)
    (params : List (Option Ty)) (typed : ArgsTyped scope params args) (draft : Draft)
    (vars : draft.vars = scope.vars) :
    emitAll scope.functions draft args = .ok (draft.append (codeAll scope.vars args)) := by
  cases args with
  | nil => simp [emitAll, codeAll, pure, Except.pure]
  | cons arg args =>
      cases typed with
      | cons param params arg args ty head accepted tail =>
          simp only [emitAll, codeAll]
          rw [emit_typed scope plain arg ty head draft vars, ok_bind,
            emit_all_typed scope plain args params tail _ (by simpa using vars),
            Draft.append_append]
termination_by structural args

end

end Expr

namespace Stmt

mutual

/-- Writing a typed statement into a draft appends its code. -/
theorem emit_typed (scope : Scope) (plain : scope.Plain) (stmt : Stmt) (typed : stmt.Typed scope)
    (draft : Draft) (vars : draft.vars = scope.vars) :
    stmt.emit scope.functions draft =
      .ok (draft.append (stmt.code scope.vars draft.topLevel)) := by
  cases stmt with
  | assign span target value =>
      cases typed with
      | assign span target value binding found typedValue =>
          simp only [emit, code]
          rw [value.emit_typed scope plain _ typedValue draft vars, ok_bind,
            Draft.emit_store_found _ target binding (by simpa [vars] using found)]
          simp [vars]
  | expr span value =>
      cases typed with
      | expr span value ty typedValue =>
          simp only [emit, code]
          rw [value.emit_typed scope plain ty typedValue draft vars, ok_bind,
            Draft.emit_eq_append, Draft.append_append]
          rfl
  | pass span => simp [emit, code, pure, Except.pure]
  | fieldAssign span object field value => cases typed
  | ret span value =>
      cases typed with
      | ret span value ty typedValue declared =>
          simp only [emit, code]
          rw [value.emit_typed scope plain ty typedValue draft vars]
          simp [pure, Except.pure]
  | cond span test body orelse =>
      cases typed with
      | cond span test body orelse truth first second =>
          simp only [emit, code]
          rw [test.emit_typed scope plain .bool truth draft vars, ok_bind,
            emit_all_typed scope plain body first _ (by simpa using vars), ok_bind,
            Draft.pop_frame_after_push, ok_bind]
          rw [emit_all_typed scope plain orelse second _ (by simpa using vars), ok_bind,
            Draft.pop_frame_after_push, ok_bind]
          simp [pure, Except.pure]
  | loop span test body =>
      cases typed with
      | loop span test body truth again =>
          simp only [emit, code]
          rw [test.emit_typed scope plain .bool truth _ (by simpa using vars), ok_bind,
            Draft.emit_eq_append, Draft.emit_eq_append, Draft.emit_eq_append,
            Draft.append_append, Draft.append_append, Draft.append_append,
            emit_all_typed scope plain body again _ (by simpa using vars), ok_bind,
            Draft.emit_eq_append, Draft.append_append, Draft.append_append,
            Draft.pop_frame_after_push]
          simp [pure, Except.pure]
termination_by structural stmt

theorem emit_all_typed (scope : Scope) (plain : scope.Plain) (stmts : List Stmt)
    (typed : AllTyped scope stmts) (draft : Draft) (vars : draft.vars = scope.vars) :
    emitAll scope.functions draft stmts =
      .ok (draft.append (codeAll scope.vars draft.topLevel stmts)) := by
  cases stmts with
  | nil => simp [emitAll, codeAll, pure, Except.pure]
  | cons first rest =>
      cases typed with
      | cons first rest head tail =>
          simp only [emitAll, codeAll]
          rw [emit_typed scope plain first head draft vars, ok_bind,
            emit_all_typed scope plain rest tail _ (by simpa using vars)]
          simp
termination_by structural stmts

end

end Stmt

theorem check_word_plain (ty : Ty) (plain : ty.Plain) : ty.checkWord = .ok () := by
  cases ty with
  | object className => exact absurd rfl (plain className)
  | _ => rfl

theorem check_params_plain (params : List Param) (plain : ∀ param ∈ params, param.ty.Plain) :
    (params.forM fun param => param.ty.checkWord) = .ok () := by
  induction params with
  | nil => rfl
  | cons first rest induction =>
      change (first.ty.checkWord >>= fun _ => rest.forM fun param => param.ty.checkWord) = _
      rw [check_word_plain first.ty (plain first (by simp)), ok_bind]
      exact induction fun param member => plain param (by simp [member])

theorem FuncDef.Typed.lookup_local {func : FuncDef} {functions : FuncTable}
    {globals vars : VarTable} (typed : func.Typed functions globals vars) (var : VarDef)
    (member : var ∈ func.locals) : vars.get? var.name = some ⟨var.ty, .local⟩ := by
  have own : Table.valueIn? var.name func.own = some ⟨var.ty, .local⟩ := by
    rw [Table.value_in_eq_some_iff _ _ _ typed.distinct, FuncDef.own, List.mem_append]
    exact Or.inr (List.mem_map_of_mem (f := VarDef.localEntry) member)
  rw [typed.lookup, own]
  rfl

theorem FuncDef.Typed.local_names_nodup {func : FuncDef} {functions : FuncTable}
    {globals vars : VarTable} (typed : func.Typed functions globals vars) :
    (func.locals.map VarDef.name).Nodup := by
  have names := typed.distinct
  rw [FuncDef.own, List.map_append, List.map_map] at names
  exact names.of_append_right

namespace Draft

theorem declare_locals_plain (draft : Draft) (locals : List VarDef)
    (plain : ∀ var ∈ locals, var.ty.Plain)
    (distinct : (draft.locals ++ locals.map VarDef.name).Nodup) :
    draft.declareLocals locals =
      .ok { draft with locals := draft.locals ++ locals.map VarDef.name } := by
  induction locals generalizing draft with
  | nil => simp [declareLocals, pure, Except.pure]
  | cons first rest induction =>
      have absent : first.name ∉ draft.locals := by
        intro member
        rw [List.nodup_append] at distinct
        exact distinct.2.2 _ member _ (by simp) rfl
      have declared : draft.declareLocal first.name =
          { draft with locals := draft.locals ++ [first.name] } := by
        simp [declareLocal, absent]
      simp only [declareLocals]
      rw [check_word_plain first.ty (plain first (by simp)), ok_bind, declared,
        induction _ (fun var member => plain var (by simp [member])) (by simpa using distinct)]
      simp

theorem emit_inits_found (draft : Draft) (locals : List VarDef)
    (found : ∀ var ∈ locals, draft.vars.get? var.name = some ⟨var.ty, .local⟩) :
    draft.emitInits locals =
      .ok (draft.append (locals.flatMap fun var => [.const var.init.word, .localSet var.name])) := by
  induction locals generalizing draft with
  | nil => simp [emitInits, pure, Except.pure]
  | cons first rest induction =>
      have here := found first (by simp)
      have stored : draft.vars.store first.name = .localSet first.name := by
        simp [VarTable.store, here]
      simp only [emitInits]
      rw [emit_eq_append, emit_store_found (draft.append _) first.name _ (by simpa using here),
        ok_bind, append_append, append_vars, stored]
      rw [induction (draft.append _) (fun var member => found var (by simp [member]))]
      simp

end Draft

theorem FuncDef.generate_typed (analysis : Analysis) (typed : analysis.Typed)
    (plain : analysis.program.Plain) (func : FuncDef) (member : func ∈ analysis.program.funcs) :
    func.generate analysis.functions analysis.scopes =
      .ok (func.compiled (analysis.scopeOf func)) := by
  obtain ⟨vars, scope, fits⟩ := typed.bodies func member
  have plainScope := typed.body_scope_plain plain func member vars fits
  have plainLocals : ∀ var ∈ func.locals, var.ty.Plain := fun var memberVar =>
    fits.inits var memberVar ▸ plain_of_literal var.init
  have bodyCode := fun (draft : Draft) (same : draft.vars = vars) =>
    Stmt.emit_all_typed _ plainScope func.body fits.body draft same
  unfold FuncDef.generate
  simp only [scope]
  rw [check_params_plain _ (plain func member).1, ok_bind,
    check_word_plain _ (plain func member).2, ok_bind, Draft.declare_locals_plain _ _ plainLocals
      (by simpa [Draft.ofFunction] using fits.local_names_nodup), ok_bind,
    Draft.emit_inits_found _ _ fits.lookup_local, ok_bind, bodyCode _ rfl, ok_bind]
  simp [Draft.build, Draft.append, Draft.ofFunction, FuncDef.compiled, FuncDef.initCode,
    Analysis.scopeOf, scope, fits.params]

theorem generate_defs_typed (functions : FuncTable) (scopes : Table VarTable)
    (compile : FuncDef → Func) (defs : List Def)
    (inits : ∀ var ∈ defs.filterMap Def.var?, var.ty.Plain)
    (bodies : ∀ func ∈ defs.filterMap Def.func?,
      func.generate functions scopes = .ok (compile func)) :
    generateDefs functions scopes defs =
      .ok ((defs.filterMap Def.var?).map VarDef.compiled,
        (defs.filterMap Def.func?).map compile) := by
  induction defs with
  | nil => rfl
  | cons first rest induction =>
      cases first with
      | var var =>
          have rest := induction (fun other member => inits other (by
            simpa [List.filterMap_cons] using Or.inr member)) (by
            simpa [List.filterMap_cons] using bodies)
          simp only [generateDefs]
          rw [check_word_plain var.ty (inits var (by simp)), ok_bind, rest]
          rfl
      | func func =>
          have rest := induction (by simpa [List.filterMap_cons] using inits)
            (fun other member => bodies other (by
              simpa [List.filterMap_cons] using Or.inr member))
          simp only [generateDefs]
          rw [bodies func (by simp), ok_bind, rest]
          rfl

/-- A typed analysis without objects has a module. -/
theorem generate_typed (analysis : Analysis) (typed : analysis.Typed)
    (plain : analysis.program.Plain) : analysis.generate = .ok analysis.compiled := by
  have defs := generate_defs_typed analysis.functions analysis.scopes
    (fun func => func.compiled (analysis.scopeOf func)) analysis.program.defs
    (fun var member => typed.inits var member ▸ plain_of_literal var.init)
    (fun func member => FuncDef.generate_typed analysis typed plain func member)
  have stmts := fun (draft : Draft) (same : draft.vars = analysis.globals) =>
    Stmt.emit_all_typed _ (typed.entry_scope_plain plain) analysis.program.stmts typed.stmts draft
      same
  have entry : generateEntry analysis.functions analysis.globals analysis.program.stmts =
      .ok (entryFunc analysis.globals analysis.program.stmts) := by
    simp only [generateEntry]
    rw [Draft.emit_eq_append, Draft.emit_eq_append, Draft.append_append, stmts _ rfl, ok_bind]
    rfl
  unfold Analysis.generate
  rw [defs, ok_bind]
  simp only [entry, ok_bind]
  rfl

end ScriptWasm
