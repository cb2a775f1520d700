import ScriptWasm.Proofs.Code.Frames

/-!
What the generator writes for any program, also for one that breaks the type rules or was never
annotated. It closes the frames that it opens, adds to the innermost frame and leaves the others
alone, and it never fails over a frame.
-/

namespace ScriptWasm

set_option autoImplicit false

/-! ### What the generator writes -/

/-- A failure that says nothing about frames. -/
def CodeError.SparesFrames (error : CodeError) : Prop :=
  ∀ count, error ≠ .unbalancedFrames count

def Delivers {Value : Type} (described : Value → Prop) : Except CodeError Value → Prop
  | .ok value => described value
  | .error error => error.SparesFrames

/-- What is delivered is the draft with the given code added to its innermost frame. -/
def Writes (draft : Draft) (code : List Instr) (computation : Except CodeError Draft) : Prop :=
  Delivers (fun after => after = draft.append code) computation

section Writing

variable {Value Result : Type} {described : Value → Prop} {wanted : Result → Prop}

theorem delivers_bind {first : Except CodeError Value} {next : Value → Except CodeError Result}
    (head : Delivers described first)
    (tail : ∀ value, described value → Delivers wanted (next value)) :
    Delivers wanted (first >>= next) := by
  cases first with
  | error error => exact head
  | ok value => exact tail value head

theorem delivers_of_ok {computation : Except CodeError Value} {value : Value}
    (delivers : Delivers described computation) (done : computation = .ok value) :
    described value := by
  rw [done] at delivers
  exact delivers

theorem delivers_mono {described wanted : Value → Prop} {computation : Except CodeError Value}
    (delivers : Delivers described computation)
    (implied : ∀ value, described value → wanted value) :
    Delivers wanted computation := by
  cases computation with
  | error error => exact delivers
  | ok value => exact implied value delivers

variable {draft : Draft} {code : List Instr} {computation : Except CodeError Draft}

theorem writes_append (draft : Draft) (code : List Instr) :
    Writes draft code (.ok (draft.append code)) :=
  rfl

theorem writes_nothing (draft : Draft) : Writes draft [] (.ok draft) :=
  (Draft.append_nil draft).symm

theorem writes_bind {more : List Instr} {next : Draft → Except CodeError Draft}
    (first : Writes draft code computation)
    (second : Writes (draft.append code) more (next (draft.append code))) :
    Writes draft (code ++ more) (computation >>= next) := by
  apply delivers_bind first
  intro after same
  rw [same, ← Draft.append_append]
  exact second

theorem writes_further {more : List Instr}
    (rest : Writes (draft.append code) more computation) :
    Writes draft (code ++ more) computation := by
  change Writes draft (code ++ more) (.ok (draft.append code) >>= fun _ => computation)
  exact writes_bind (writes_append draft code) rest

/-- Code that is written into a frame of its own comes back when the frame is closed. -/
theorem writes_framed {body : List Instr} (next : List Instr × Draft → Except CodeError Draft)
    (inside : Writes draft.pushFrame body computation)
    (around : Writes draft code (next (body, draft))) :
    Writes draft code (computation >>= fun written => written.popFrame >>= next) := by
  apply delivers_bind inside
  intro after same
  rw [same, Draft.pop_frame_after_push, ok_bind]
  exact around

end Writing

namespace Draft

theorem emit_load_writes (draft : Draft) (name : String) :
    Writes draft [draft.vars.load name] (draft.emitLoad name) := by
  cases found : draft.vars.get? name with
  | none =>
      unfold emitLoad storage
      rw [found]
      intro count impossible
      cases impossible
  | some binding =>
      rw [emit_load_found draft name binding found]
      exact writes_append _ _

theorem emit_store_writes (draft : Draft) (name : String) :
    Writes draft [draft.vars.store name] (draft.emitStore name) := by
  cases found : draft.vars.get? name with
  | none =>
      unfold emitStore storage
      rw [found]
      intro count impossible
      cases impossible
  | some binding =>
      rw [emit_store_found draft name binding found]
      exact writes_append _ _

end Draft

namespace Expr

theorem require_ty_delivers (expr : Expr) :
    Delivers (fun ty => expr.ty? = some ty) expr.requireTy := by
  unfold requireTy
  cases annotated : expr.ty? with
  | none =>
      intro count impossible
      cases impossible
  | some ty => rfl

theorem call_target_of_builtin (functions : FuncTable) (func : String) (args : List Expr)
    (builtin : Builtin) (isBuiltin : Builtin.ofName? func = some builtin) :
    callTarget functions func args =
      (match args with
        | [] => .ok Ty.none
        | first :: _ => first.requireTy) >>= fun ty =>
          match HostImport.ofBuiltin? builtin ty with
          | some primitive => .ok primitive.name
          | none => .error (.noWord ty) := by
  unfold callTarget
  rw [isBuiltin]
  cases args <;> rfl

theorem call_target_delivers (functions : FuncTable) (func : String) (args : List Expr) :
    Delivers (fun name => name = targetName func args) (callTarget functions func args) := by
  unfold targetName primitive?
  cases isBuiltin : Builtin.ofName? func with
  | none =>
      unfold callTarget
      rw [isBuiltin]
      cases functions.contains func with
      | false =>
          intro count impossible
          cases impossible
      | true => rfl
  | some builtin =>
      rw [call_target_of_builtin functions func args builtin isBuiltin]
      have chosenBy : Delivers (fun ty => (args.head?.bind Expr.ty?).getD .none = ty)
          (match args with
            | [] => .ok Ty.none
            | first :: _ => first.requireTy) := by
        cases args with
        | nil => rfl
        | cons first rest =>
            apply delivers_mono (require_ty_delivers first)
            intro ty annotated
            simp [annotated]
      apply delivers_bind chosenBy
      intro ty same
      rw [same]
      cases chosen : HostImport.ofBuiltin? builtin ty with
      | none =>
          intro count impossible
          cases impossible
      | some primitive =>
          change primitive.name = ((HostImport.ofBuiltin? builtin ty).map HostImport.name).getD func
          rw [chosen]
          rfl

mutual

/-- Whatever its annotations are, an expression is written to the innermost frame or not at all. -/
theorem emit_writes (functions : FuncTable) (draft : Draft) (expr : Expr) :
    Writes draft (expr.code draft.vars) (expr.emit functions draft) := by
  cases expr with
  | lit note value => exact writes_append draft [.const value.word]
  | name note word => exact Draft.emit_load_writes draft word
  | call note func args =>
      simp only [emit, code]
      apply writes_bind (emit_all_writes functions draft args)
      apply delivers_bind (call_target_delivers functions func args)
      intro name target
      rw [target]
      exact writes_append _ _
  | binary note op left right =>
      cases lowered : op.wordOp? with
      | some wordOp =>
          simp only [emit, code, lowered]
          rw [List.append_assoc]
          apply writes_bind (emit_writes functions draft left)
          apply writes_bind (emit_writes functions (draft.append _) right)
          exact writes_append _ _
      | none =>
          simp only [emit, code, lowered]
          apply delivers_bind (require_ty_delivers left)
          intro ty annotated
          rw [annotated]
          apply writes_bind (emit_writes functions draft left)
          rw [Draft.emit_eq_append, Draft.emit_eq_append, Draft.append_append]
          simp only [Option.some.injEq]
          exact writes_append _ _
  | unary note op operand =>
      cases op with
      | neg =>
          simp only [emit, code]
          change Writes draft ([.const 0] ++ (operand.code draft.vars ++ [.binary .sub])) _
          apply writes_further
          apply writes_bind (emit_writes functions (draft.append [.const 0]) operand)
          exact writes_append _ _
      | not =>
          simp only [emit, code]
          apply writes_bind (emit_writes functions draft operand)
          rw [Draft.emit_eq_append, Draft.emit_eq_append, Draft.append_append]
          exact writes_append _ _
  | paren note inner =>
      simp only [emit, code]
      exact emit_writes functions draft inner
  | attr note value member =>
      intro count impossible
      cases impossible
  | construct note className =>
      intro count impossible
      cases impossible
termination_by structural expr

theorem emit_all_writes (functions : FuncTable) (draft : Draft) (exprs : List Expr) :
    Writes draft (codeAll draft.vars exprs) (emitAll functions draft exprs) := by
  cases exprs with
  | nil => exact writes_nothing draft
  | cons first rest =>
      simp only [emitAll, codeAll]
      apply writes_bind (emit_writes functions draft first)
      exact emit_all_writes functions (draft.append _) rest
termination_by structural exprs

end

end Expr

namespace Stmt

mutual

/-- A statement closes the frames that it opens and is written to the innermost one. -/
theorem emit_writes (functions : FuncTable) (draft : Draft) (stmt : Stmt) :
    Writes draft (stmt.code draft.vars draft.topLevel) (stmt.emit functions draft) := by
  cases stmt with
  | assign span target value =>
      simp only [emit, code]
      apply writes_bind (value.emit_writes functions draft)
      exact Draft.emit_store_writes (draft.append _) target
  | expr span value =>
      simp only [emit, code]
      apply writes_bind (value.emit_writes functions draft)
      exact writes_append _ _
  | pass span => exact writes_nothing draft
  | ret span value =>
      simp only [emit, code]
      apply writes_bind (value.emit_writes functions draft)
      exact writes_append _ _
  | cond span test body orelse =>
      simp only [emit, code]
      apply writes_bind (test.emit_writes functions draft)
      apply writes_framed _ (emit_all_writes functions (draft.append _).pushFrame body)
      apply writes_framed _ (emit_all_writes functions (draft.append _).pushFrame orelse)
      exact writes_append _ _
  | loop span test body =>
      have looped : Writes draft.pushFrame
          (test.code draft.vars ++ ([.const 0, .binary .eq, .branchIf 1] ++
            (codeAll draft.vars draft.topLevel body ++ [.branch 0])))
          (test.emit functions draft.pushFrame >>= fun written =>
            emitAll functions (written.append [.const 0, .binary .eq, .branchIf 1]) body >>=
              fun written => .ok (written.append [.branch 0])) := by
        apply writes_bind (test.emit_writes functions draft.pushFrame)
        apply writes_further
        apply writes_bind (emit_all_writes functions (Draft.append _ _) body)
        exact writes_append _ _
      have closed := writes_framed
        (fun framed => .ok (framed.2.append [.block [.loop framed.1]])) looped (writes_append _ _)
      simp only [bind_assoc, ok_bind] at closed
      simp only [emit, code, List.append_assoc, Draft.emit_eq_append, Draft.append_append,
        List.singleton_append]
      exact closed
  | fieldAssign span object field value =>
      intro count impossible
      cases impossible
termination_by structural stmt

theorem emit_all_writes (functions : FuncTable) (draft : Draft) (stmts : List Stmt) :
    Writes draft (codeAll draft.vars draft.topLevel stmts) (emitAll functions draft stmts) := by
  cases stmts with
  | nil => exact writes_nothing draft
  | cons first rest =>
      simp only [emitAll, codeAll]
      apply writes_bind (emit_writes functions draft first)
      exact emit_all_writes functions (draft.append _) rest
termination_by structural stmts

end

end Stmt

/-! ### Whole functions -/

def Finishes (body : List Instr) (computation : Except CodeError Func) : Prop :=
  Delivers (fun func => func.body = body) computation

/-- A draft whose body is the only open frame can be finished after anything that was written. -/
theorem Writes.finishes {draft : Draft} {code : List Instr} {computation : Except CodeError Draft}
    (writes : Writes draft code computation) (alone : draft.outer = [])
    (id exportName : Option String) :
    Finishes (draft.inner ++ code)
      (computation >>= fun written => written.build id exportName) := by
  apply delivers_bind writes
  intro after same
  rw [same, Draft.build]
  simp only [Draft.append, alone]
  rfl

theorem check_word_delivers (ty : Ty) : Delivers (fun _ => True) ty.checkWord := by
  cases ty with
  | object className =>
      intro count impossible
      cases impossible
  | _ => exact trivial

theorem check_params_delivers (params : List Param) :
    Delivers (fun _ => True) (params.forM fun param => param.ty.checkWord) := by
  induction params with
  | nil => exact trivial
  | cons param rest induction =>
      exact delivers_bind (check_word_delivers param.ty) fun _ _ => induction

namespace Draft

theorem declare_local_eq (draft : Draft) (name : String) :
    ∃ names, draft.declareLocal name = { draft with locals := names } := by
  unfold declareLocal
  split
  · exact ⟨draft.locals, rfl⟩
  · exact ⟨draft.locals ++ [name], rfl⟩

/-- Declaring locals changes nothing but the locals. -/
theorem declare_locals_delivers (draft : Draft) (vars : List VarDef) :
    Delivers (fun after => ∃ names, after = { draft with locals := names })
      (draft.declareLocals vars) := by
  induction vars generalizing draft with
  | nil => exact ⟨draft.locals, rfl⟩
  | cons var rest induction =>
      simp only [declareLocals]
      apply delivers_bind (check_word_delivers var.ty)
      intro _ _
      obtain ⟨names, declared⟩ := declare_local_eq draft var.name
      rw [declared]
      exact induction { draft with locals := names }

def initCode (vars : VarTable) (locals : List VarDef) : List Instr :=
  locals.flatMap fun var => [.const var.init.word, vars.store var.name]

theorem emit_inits_writes (draft : Draft) (locals : List VarDef) :
    Writes draft (initCode draft.vars locals) (draft.emitInits locals) := by
  induction locals generalizing draft with
  | nil => exact writes_nothing draft
  | cons var rest induction =>
      have stored :=
        writes_further (emit_store_writes (draft.append [.const var.init.word]) var.name)
      exact writes_bind stored (induction (draft.append _))

end Draft

def FuncDef.bodyCode (vars : VarTable) (func : FuncDef) : List Instr :=
  Draft.initCode vars func.locals ++
    (Stmt.codeAll vars false func.body ++ [.unreachable, .const 0])

theorem FuncDef.generate_finishes (functions : FuncTable) (scopes : Table VarTable)
    (func : FuncDef) :
    Finishes (func.bodyCode ((scopes.get? func.name).getD .empty))
      (func.generate functions scopes) := by
  unfold FuncDef.generate
  cases known : scopes.get? func.name with
  | none =>
      intro count impossible
      cases impossible
  | some vars =>
      apply delivers_bind (check_params_delivers func.params)
      intro _ _
      apply delivers_bind (check_word_delivers func.result)
      intro _ _
      apply delivers_bind (Draft.declare_locals_delivers (Draft.ofFunction vars) func.locals)
      intro draft declared
      obtain ⟨names, rfl⟩ := declared
      have written : Writes { Draft.ofFunction vars with locals := names } (func.bodyCode vars)
          (Draft.emitInits { Draft.ofFunction vars with locals := names } func.locals >>=
            fun draft => Stmt.emitAll functions draft func.body >>= fun draft =>
              .ok (draft.append [.unreachable, .const 0])) := by
        apply writes_bind (Draft.emit_inits_writes _ func.locals)
        apply writes_bind (Stmt.emit_all_writes functions _ func.body)
        exact writes_append _ _
      have finished := written.finishes rfl (some func.name) none
      simp only [bind_assoc, ok_bind] at finished
      simp only [Draft.emit_eq_append, Draft.append_append, List.singleton_append]
      exact finished

theorem generate_entry_finishes (functions : FuncTable) (globals : VarTable) (stmts : List Stmt) :
    Finishes (entryFunc globals stmts).body (generateEntry functions globals stmts) := by
  have written : Writes (Draft.ofEntry globals) (entryFunc globals stmts).body
      (Stmt.emitAll functions
        ((Draft.ofEntry globals).append [.const 0, .localSet Draft.resultSlot]) stmts >>=
          fun draft => .ok (draft.append [.localGet Draft.resultSlot])) := by
    simp only [entryFunc, List.append_assoc]
    apply writes_further
    apply writes_bind (Stmt.emit_all_writes functions _ stmts)
    exact writes_append _ _
  have finished := written.finishes rfl none (some entryExport)
  simp only [bind_assoc, ok_bind] at finished
  exact finished

theorem generate_defs_delivers (functions : FuncTable) (scopes : Table VarTable) (defs : List Def) :
    Delivers (fun _ => True) (generateDefs functions scopes defs) := by
  induction defs with
  | nil => exact trivial
  | cons first rest induction =>
      cases first with
      | var var =>
          apply delivers_bind (check_word_delivers var.ty)
          intro _ _
          exact delivers_bind induction fun _ _ => trivial
      | func func =>
          apply delivers_bind (func.generate_finishes functions scopes)
          intro _ _
          exact delivers_bind induction fun _ _ => trivial

theorem generate_delivers (analysis : Analysis) : Delivers (fun _ => True) analysis.generate := by
  unfold Analysis.generate
  apply delivers_bind (generate_defs_delivers analysis.functions analysis.scopes _)
  intro _ _
  apply delivers_bind (generate_entry_finishes analysis.functions analysis.globals _)
  intro _ _
  exact trivial

/-- There is a frame to write to at all times: a stack that starts with one frame and goes through
the same operations never runs empty. A pop gives back what was written since the push that it
matches, or changes nothing, and a function can be finished exactly when every push had its pop.
Whatever an analysis holds, its expressions and statements only add to the innermost frame, its
functions start with frames of their own, and its module is not refused for its frames. -/
theorem frames_are_kept_in_order (draft : Draft) (fresh : draft.outer = []) :
    (∀ ops : List FrameOp,
      ops.foldl (fun stack op => (op.onStack stack).2) [draft.inner] ≠ [] ∧
      ops.foldl (fun stack op => (op.onStack stack).2) [draft.inner] =
        (draft.performAll ops).frames ∧
      (∀ op : FrameOp, (op.onStack (draft.performAll ops).frames).1 =
        ((draft.performAll ops).perform op).1) ∧
      (∀ error, (draft.performAll ops).popFrame = .error error →
        draft.performAll (ops ++ [.pop]) = draft.performAll ops) ∧
      (∀ body after, (draft.performAll ops).popFrame = .ok (body, after) ↔
        ∃ earlier inside, ops = earlier ++ .push :: inside ∧ FrameOp.Balanced inside body ∧
          after = draft.performAll earlier) ∧
      (∀ id exportName,
        (∃ func, (draft.performAll ops).build id exportName = .ok func) ↔
          draft.closings ops = ops.countP FrameOp.isPush)) ∧
    (∀ (functions : FuncTable) (draft after : Draft),
      (∀ expr : Expr, expr.emit functions draft = .ok after →
        after = draft.append (expr.code draft.vars)) ∧
      (∀ exprs, Expr.emitAll functions draft exprs = .ok after →
        after = draft.append (Expr.codeAll draft.vars exprs)) ∧
      (∀ stmt : Stmt, stmt.emit functions draft = .ok after →
        after = draft.append (stmt.code draft.vars draft.topLevel)) ∧
      (∀ stmts, Stmt.emitAll functions draft stmts = .ok after →
        after = draft.append (Stmt.codeAll draft.vars draft.topLevel stmts)) ∧
      (∀ locals, draft.emitInits locals = .ok after →
        after = draft.append (Draft.initCode draft.vars locals)) ∧
      (∀ name, draft.emitLoad name = .ok after →
        after = draft.append [draft.vars.load name]) ∧
      (∀ name, draft.emitStore name = .ok after →
        after = draft.append [draft.vars.store name])) ∧
    (∀ (functions : FuncTable) (written : Func),
      (∀ (scopes : Table VarTable) (func : FuncDef),
        func.generate functions scopes = .ok written →
          written.body = func.bodyCode ((scopes.get? func.name).getD .empty)) ∧
      (∀ (globals : VarTable) (stmts : List Stmt),
        generateEntry functions globals stmts = .ok written →
          written.body = (entryFunc globals stmts).body)) ∧
    ∀ (analysis : Analysis) (count : Nat),
      analysis.generate ≠ .error (.unbalancedFrames count) := by
  refine ⟨fun ops => ?_, fun functions draft after => ?_, fun functions written => ?_,
    fun analysis count refused => ?_⟩
  · have same : ops.foldl (fun stack op => (op.onStack stack).2) [draft.inner] =
        (draft.performAll ops).frames := by
      rw [← draft.perform_all_on_stack ops, Draft.frames, fresh]
    refine ⟨?_, same, ?_, draft.perform_all_refused ops, draft.pop_frame_after_run fresh ops,
      draft.build_after_run fresh ops⟩
    · rw [same]
      exact List.cons_ne_nil _ _
    · intro op
      rw [Draft.perform_on_stack]
  · exact ⟨fun expr => delivers_of_ok (expr.emit_writes functions draft),
      fun exprs => delivers_of_ok (Expr.emit_all_writes functions draft exprs),
      fun stmt => delivers_of_ok (stmt.emit_writes functions draft),
      fun stmts => delivers_of_ok (Stmt.emit_all_writes functions draft stmts),
      fun locals => delivers_of_ok (draft.emit_inits_writes locals),
      fun name => delivers_of_ok (draft.emit_load_writes name),
      fun name => delivers_of_ok (draft.emit_store_writes name)⟩
  · exact ⟨fun scopes func => delivers_of_ok (func.generate_finishes functions scopes),
      fun globals stmts => delivers_of_ok (generate_entry_finishes functions globals stmts)⟩
  · have delivers := generate_delivers analysis
    rw [refused] at delivers
    exact delivers count rfl

theorem entry_frames_are_kept_in_order :
    (Draft.ofEntry .empty).outer = [] ∧
    ((Draft.ofEntry .empty).performAll
      [.emit (.const 1), .push, .emit (.const 2)]).popFrame =
        .ok ([.const 2], (Draft.ofEntry .empty).performAll [.emit (.const 1)]) := by
  have kept := (frames_are_kept_in_order (Draft.ofEntry .empty) rfl).1
    [.emit (.const 1), .push, .emit (.const 2)]
  refine ⟨rfl, (kept.2.2.2.2.1 _ _).mpr ?_⟩
  exact ⟨[.emit (.const 1)], [.emit (.const 2)], rfl, .emit [] [] (.const 2) .nil, rfl⟩

end ScriptWasm
