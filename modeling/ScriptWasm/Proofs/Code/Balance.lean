import ScriptWasm.Proofs.Code.Acceptance
import ScriptWasm.Proofs.Code.Validation

/-!
The code of an analysed program is valid and clean. The code of an expression leaves one operand
more, whatever was on the stack, and that of a statement is only ever run without operands and
leaves none. A loop ends in a branch, and a return is followed by code that cannot be reached, so
the operands behind a statement may also be those of unreached code.
-/

namespace ScriptWasm

set_option autoImplicit false

namespace Instr

/-- Valid and clean code of a function, with the operands before and behind it. -/
def Balanced (module : Module) (func : Func) (labels : List Nat) (operands : Operands)
    (code : List Instr) (after : Operands) : Prop :=
  Indexed.Sound (module.surroundings func) labels operands (allIndexed module func code) after

variable {module : Module} {func : Func} {labels : List Nat} {operands middle after : Operands}

theorem balanced_nil : Balanced module func labels operands [] operands :=
  Indexed.sound_nil

theorem balanced_append (first second : List Instr)
    (head : Balanced module func labels operands first middle)
    (tail : Balanced module func labels middle second after) :
    Balanced module func labels operands (first ++ second) after := by
  unfold Balanced
  rw [all_indexed_append]
  exact Indexed.sound_append _ _ head tail

theorem balanced_cons (first : Instr) (rest : List Instr)
    (head : Balanced module func labels operands [first] middle)
    (tail : Balanced module func labels middle rest after) :
    Balanced module func labels operands (first :: rest) after :=
  balanced_append [first] rest head tail

theorem balanced_const (value : Word) :
    Balanced module func labels operands [.const value] (operands.push 1) :=
  Indexed.sound_single _ rfl trivial

theorem balanced_binary (op : WordOp) :
    Balanced module func labels (operands.push 2) [.binary op] (operands.push 1) :=
  Indexed.sound_single _ (by simp) trivial

theorem balanced_drop : Balanced module func labels (operands.push 1) [.drop] operands :=
  Indexed.sound_single _ (by simp) trivial

theorem slot_in_surroundings (name : String) (slot : Nat) (found : func.slot? name = some slot) :
    slot < (module.surroundings func).slots := by
  have bound := last_index_bound _ _ slot found
  rwa [List.length_append] at bound

theorem global_in_surroundings (name : String) (index : Nat)
    (found : module.globalIndex? name = some index) :
    index < (module.surroundings func).globals := by
  have bound := last_index_bound _ _ index found
  rwa [List.length_map] at bound

theorem balanced_local_get (name : String) (slot : Nat) (found : func.slot? name = some slot) :
    Balanced module func labels operands [.localGet name] (operands.push 1) :=
  Indexed.sound_single _
    (by simp [found, slot_in_surroundings name slot found]) trivial

theorem balanced_local_set (name : String) (slot : Nat) (found : func.slot? name = some slot) :
    Balanced module func labels (operands.push 1) [.localSet name] operands :=
  Indexed.sound_single _
    (by simp [found, slot_in_surroundings name slot found]) trivial

theorem balanced_global_get (name : String) (index : Nat)
    (found : module.globalIndex? name = some index) :
    Balanced module func labels operands [.globalGet name] (operands.push 1) :=
  Indexed.sound_single _
    (by simp [found, global_in_surroundings name index found]) trivial

theorem balanced_global_set (name : String) (index : Nat)
    (found : module.globalIndex? name = some index) :
    Balanced module func labels (operands.push 1) [.globalSet name] operands :=
  Indexed.sound_single _
    (by simp [found, global_in_surroundings name index found]) trivial

theorem balanced_call (name : String) (callee : Callee) (arity : Nat)
    (reached : module.callee? name = some callee)
    (arities : module.arities[Binary.calleeIndex callee]? = some arity) :
    Balanced module func labels (operands.push arity) [.call name] (operands.push 1) :=
  Indexed.sound_single _ (by simp [reached, Module.surroundings, arities]) trivial

/-- A condition takes its test, where there is nothing else. -/
theorem balanced_cond (body orelse : List Instr) (dead first second : Bool)
    (bodyBalanced : Balanced module func (0 :: labels) .empty body ⟨0, first⟩)
    (elseBalanced : Balanced module func (0 :: labels) .empty orelse ⟨0, second⟩) :
    Balanced module func labels ⟨1, dead⟩ [.cond body orelse] ⟨0, dead⟩ := by
  obtain ⟨valid, clean⟩ := Indexed.sound_body _ rfl bodyBalanced
  obtain ⟨validElse, cleanElse⟩ := Indexed.sound_body _ rfl elseBalanced
  apply Indexed.sound_single
  · simp only [indexed, Indexed.validate, Operands.pop, valid, validElse]
    rfl
  · exact fun _ => ⟨rfl, clean, cleanElse⟩

theorem balanced_block (body : List Instr) (dead leaves : Bool)
    (bodyBalanced : Balanced module func (0 :: labels) .empty body ⟨0, leaves⟩) :
    Balanced module func labels ⟨0, dead⟩ [.block body] ⟨0, dead⟩ := by
  obtain ⟨valid, clean⟩ := Indexed.sound_body _ rfl bodyBalanced
  apply Indexed.sound_single
  · simp only [indexed, Indexed.validate, valid]
    rfl
  · exact fun _ => ⟨rfl, clean⟩

theorem balanced_loop (body : List Instr) (dead leaves : Bool)
    (bodyBalanced : Balanced module func (0 :: labels) .empty body ⟨0, leaves⟩) :
    Balanced module func labels ⟨0, dead⟩ [.loop body] ⟨0, dead⟩ := by
  obtain ⟨valid, clean⟩ := Indexed.sound_body _ rfl bodyBalanced
  apply Indexed.sound_single
  · simp only [indexed, Indexed.validate, valid]
    rfl
  · exact fun _ => ⟨rfl, clean⟩

theorem balanced_branch (depth : Nat) (dead : Bool) (label : labels[depth]? = some 0) :
    Balanced module func labels ⟨0, dead⟩ [.branch depth] .unreached :=
  Indexed.sound_single _ (by simp [label, Operands.pop]) fun _ => rfl

theorem balanced_branch_if (depth : Nat) (dead : Bool) (label : labels[depth]? = some 0) :
    Balanced module func labels ⟨1, dead⟩ [.branchIf depth] ⟨0, dead⟩ :=
  Indexed.sound_single _ (by simp [label, Operands.pop, Operands.push]) fun _ => rfl

theorem balanced_ret (dead : Bool) :
    Balanced module func labels ⟨1, dead⟩ [.ret] .unreached :=
  Indexed.sound_single _ (by simp [Operands.pop]) fun _ => rfl

theorem balanced_unreachable : Balanced module func labels operands [.unreachable] .unreached :=
  Indexed.sound_single _ rfl trivial

end Instr

/-- What the code of a body relies on: its scope fits the tables of a typed program, and its
variables have places in its function. -/
structure CodeSetting (analysis : Analysis) (scope : Scope) (func : Func) : Prop where
  typed : analysis.Typed
  plain : scope.Plain
  functions : scope.functions = analysis.functions
  placed : scope.Placed analysis.compiled func

section Bodies

variable {analysis : Analysis} {scope : Scope} {func : Func}

theorem balanced_load (setting : CodeSetting analysis scope func) (name : String)
    (binding : Binding) (found : scope.vars.get? name = some binding) (labels : List Nat)
    (operands : Operands) :
    Instr.Balanced analysis.compiled func labels operands [scope.vars.load name]
      (operands.push 1) := by
  have resolved := load_resolved scope _ func setting.placed 0 name binding found
  unfold VarTable.load at resolved ⊢
  split at resolved
  · obtain ⟨index, there⟩ := resolved
    exact Instr.balanced_global_get name index there
  · obtain ⟨slot, there⟩ := resolved
    exact Instr.balanced_local_get name slot there

theorem balanced_store (setting : CodeSetting analysis scope func) (name : String)
    (binding : Binding) (found : scope.vars.get? name = some binding) (labels : List Nat)
    (operands : Operands) :
    Instr.Balanced analysis.compiled func labels (operands.push 1) [scope.vars.store name]
      operands := by
  have resolved := store_resolved scope _ func setting.placed 0 name binding found
  unfold VarTable.store at resolved ⊢
  split at resolved
  · obtain ⟨index, there⟩ := resolved
    exact Instr.balanced_global_set name index there
  · obtain ⟨slot, there⟩ := resolved
    exact Instr.balanced_local_set name slot there

theorem callee_of_call (setting : CodeSetting analysis scope func) (name : String)
    (params : List (Option Ty)) (result : Ty) (callee : scope.callee? name = some (params, result))
    (args : List Expr) (arguments : Expr.ArgsTyped scope params args) :
    ∃ target, analysis.compiled.callee? (Expr.targetName name args) = some target ∧
      analysis.compiled.arities[Binary.calleeIndex target]? = some args.length := by
  rw [arguments.length_eq]
  rcases Expr.target_name_cases scope setting.plain name params result callee args arguments with
    ⟨_, same, signature, found, sameParams, _⟩ |
      ⟨builtin, primitive, _, sameParams, _, chosen, same⟩
  · rw [setting.functions] at found
    obtain ⟨index, definition, here, rfl, rfl, reached⟩ :=
      setting.typed.callee_exists name signature found
    refine ⟨.function index, by rw [same]; exact reached, ?_⟩
    rw [Module.arities, Binary.calleeIndex, List.getElem?_append_right (by simp), List.length_map,
      Nat.add_sub_cancel_left, List.getElem?_map, Analysis.compiled_function index definition here,
      sameParams]
    simp [FuncDef.compiled, FuncDef.signature]
  · have reached := setting.typed.callee_of_primitive primitive
    refine ⟨.primitive primitive, by rw [same]; exact reached, ?_⟩
    rw [sameParams, ← arity_of_builtin builtin _ primitive chosen]
    cases primitive <;> rfl

namespace Expr

/-- Every operator but `is` takes its two operands. -/
theorem operation_balanced {labels : List Nat} {operands : Operands} (note : Note) (op : BinaryOp)
    (distinct : op ≠ .is) (left right : Expr)
    (first : Instr.Balanced analysis.compiled func labels operands (left.code scope.vars)
      (operands.push 1))
    (second : Instr.Balanced analysis.compiled func labels (operands.push 1)
      (right.code scope.vars) ((operands.push 1).push 1)) :
    Instr.Balanced analysis.compiled func labels operands
      ((binary note op left right).code scope.vars) (operands.push 1) := by
  cases lowered : op.wordOp? with
  | some wordOp =>
      simp only [code, lowered]
      exact Instr.balanced_append _ _ (Instr.balanced_append _ _ first second)
        (Instr.balanced_binary wordOp)
  | none => cases op <;> first | exact absurd rfl distinct | cases lowered

mutual

/-- The code of a typed expression leaves one operand more. -/
theorem code_balanced (setting : CodeSetting analysis scope func) (expr : Expr) (ty : Ty)
    (typed : expr.Typed scope ty) (labels : List Nat) (operands : Operands) :
    Instr.Balanced analysis.compiled func labels operands (expr.code scope.vars)
      (operands.push 1) := by
  cases expr with
  | lit note value => exact Instr.balanced_const value.word
  | name note word =>
      cases typed with
      | name span word binding found => exact balanced_load setting word binding found _ _
  | call note name args =>
      cases typed with
      | call span name args params result callee arguments =>
          obtain ⟨target, reached, arities⟩ :=
            callee_of_call setting name params ty callee args arguments
          exact Instr.balanced_append _ _
            (codes_balanced setting args params arguments labels operands)
            (Instr.balanced_call _ target _ reached arities)
  | binary note op left right =>
      cases typed with
      | isNone span noneSpan left leftTy operand =>
          exact Instr.balanced_append _ _
            (code_balanced setting left leftTy operand labels operands)
            (Instr.balanced_cons _ _ Instr.balanced_drop (Instr.balanced_const _))
      | arithmetic span op left right kind first second =>
          exact operation_balanced _ op (by rintro rfl; cases kind) left right
            (code_balanced setting left .int first labels operands)
            (code_balanced setting right .int second labels _)
      | comparison span op left right operandTy distinct kind first second =>
          exact operation_balanced _ op distinct left right
            (code_balanced setting left operandTy first labels operands)
            (code_balanced setting right operandTy second labels _)
  | unary note op operand =>
      cases typed with
      | negation span operand number =>
          exact Instr.balanced_append _ _ (Instr.balanced_cons _ _ (Instr.balanced_const 0)
            (code_balanced setting operand .int number labels _)) (Instr.balanced_binary .sub)
      | complement span operand truth =>
          exact Instr.balanced_append _ _
            (code_balanced setting operand .bool truth labels operands)
            (Instr.balanced_cons _ _ (Instr.balanced_const 0) (Instr.balanced_binary .eq))
  | paren note inner =>
      cases typed with
      | paren span inner ty typedInner =>
          exact code_balanced setting inner ty typedInner labels operands
  | attr note value member => cases typed
  | construct note className => cases typed
termination_by structural expr

theorem codes_balanced (setting : CodeSetting analysis scope func) (args : List Expr)
    (params : List (Option Ty)) (typed : ArgsTyped scope params args) (labels : List Nat)
    (operands : Operands) :
    Instr.Balanced analysis.compiled func labels operands (codeAll scope.vars args)
      (operands.push args.length) := by
  cases args with
  | nil => exact Instr.balanced_nil
  | cons arg args =>
      cases typed with
      | cons param params arg args ty head accepted tail =>
          have rest := codes_balanced setting args params tail labels (operands.push 1)
          rw [Operands.push_push, Nat.add_comm 1] at rest
          exact Instr.balanced_append _ _ (code_balanced setting arg ty head labels operands) rest
termination_by structural args

end

end Expr

namespace Stmt

mutual

theorem code_balanced (setting : CodeSetting analysis scope func) (topLevel : Bool)
    (kept : topLevel = true → ∃ slot, func.slot? Draft.resultSlot = some slot) (stmt : Stmt)
    (typed : stmt.Typed scope) (labels : List Nat) (dead : Bool) :
    ∃ leaves, Instr.Balanced analysis.compiled func labels ⟨0, dead⟩
      (stmt.code scope.vars topLevel) ⟨0, leaves⟩ := by
  cases stmt with
  | assign span target value =>
      cases typed with
      | assign span target value binding found typedValue =>
          exact ⟨dead, Instr.balanced_append _ _
            (value.code_balanced setting _ typedValue labels _)
            (balanced_store setting target binding found labels ⟨0, dead⟩)⟩
  | expr span value =>
      cases typed with
      | expr span value ty typedValue =>
          refine ⟨dead, Instr.balanced_append _ _
            (value.code_balanced setting ty typedValue labels _) ?_⟩
          split
          · obtain ⟨slot, found⟩ := kept ‹_›
            exact Instr.balanced_local_set Draft.resultSlot slot found
          · exact Instr.balanced_drop
  | pass span => exact ⟨dead, Instr.balanced_nil⟩
  | fieldAssign span object field value => cases typed
  | ret span value =>
      cases typed with
      | ret span value ty typedValue declared =>
          exact ⟨true, Instr.balanced_append _ _
            (value.code_balanced setting ty typedValue labels _) (Instr.balanced_ret dead)⟩
  | cond span test body orelse =>
      cases typed with
      | cond span test body orelse truth first second =>
          obtain ⟨_, bodyBalanced⟩ :=
            codes_balanced setting topLevel kept body first (0 :: labels) false
          obtain ⟨_, elseBalanced⟩ :=
            codes_balanced setting topLevel kept orelse second (0 :: labels) false
          exact ⟨dead, Instr.balanced_append _ _
            (test.code_balanced setting .bool truth labels _)
            (Instr.balanced_cond _ _ dead _ _ bodyBalanced elseBalanced)⟩
  | loop span test body =>
      cases typed with
      | loop span test body truth again =>
          obtain ⟨leaves, bodyBalanced⟩ :=
            codes_balanced setting topLevel kept body again (0 :: 0 :: labels) false
          have tested := Instr.balanced_append _ _
            (test.code_balanced setting .bool truth (0 :: 0 :: labels) .empty)
            (Instr.balanced_cons _ _ (Instr.balanced_const 0)
              (Instr.balanced_cons _ _ (Instr.balanced_binary .eq)
                (Instr.balanced_branch_if 1 false rfl)))
          have whole := Instr.balanced_append _ _
            (Instr.balanced_append _ _ tested bodyBalanced)
            (Instr.balanced_branch 0 leaves rfl)
          exact ⟨dead, Instr.balanced_block _ dead false
            (Instr.balanced_loop _ false true whole)⟩
termination_by structural stmt

theorem codes_balanced (setting : CodeSetting analysis scope func) (topLevel : Bool)
    (kept : topLevel = true → ∃ slot, func.slot? Draft.resultSlot = some slot)
    (stmts : List Stmt) (typed : AllTyped scope stmts) (labels : List Nat) (dead : Bool) :
    ∃ leaves, Instr.Balanced analysis.compiled func labels ⟨0, dead⟩
      (codeAll scope.vars topLevel stmts) ⟨0, leaves⟩ := by
  cases stmts with
  | nil => exact ⟨dead, Instr.balanced_nil⟩
  | cons first rest =>
      cases typed with
      | cons first rest head tail =>
          obtain ⟨middle, firstBalanced⟩ :=
            code_balanced setting topLevel kept first head labels dead
          obtain ⟨leaves, restBalanced⟩ :=
            codes_balanced setting topLevel kept rest tail labels middle
          exact ⟨leaves, Instr.balanced_append _ _ firstBalanced restBalanced⟩
termination_by structural stmts

end

end Stmt

end Bodies

/-- The code that gives variables their initial values takes and leaves nothing. -/
theorem balanced_inits (module : Module) (func : Func) (labels : List Nat) (vars : List VarDef)
    (placed : ∀ var ∈ vars, ∃ slot, func.slot? var.name = some slot) :
    Instr.Balanced module func labels .empty
      (vars.flatMap fun var => [.const var.init.word, .localSet var.name]) .empty := by
  induction vars with
  | nil => exact Instr.balanced_nil
  | cons var rest induction =>
      obtain ⟨slot, found⟩ := placed var (by simp)
      exact Instr.balanced_append _ _
        (Instr.balanced_cons _ _ (Instr.balanced_const _)
          (Instr.balanced_local_set var.name slot found))
        (induction fun other member => placed other (by simp [member]))

/-- A body that ends with one operand, its result, makes a valid and clean function. -/
theorem valid_of_balanced (module : Module) (func : Func) (dead : Bool)
    (balanced : Instr.Balanced module func [1] .empty func.body ⟨1, dead⟩) :
    func.Valid module ∧ func.Clean module := by
  obtain ⟨valid, clean⟩ := balanced
  refine ⟨?_, clean⟩
  simp only [Func.Valid, Indexed.validFunction, Func.indexed, valid]
  rfl

namespace Analysis

theorem Typed.entry_setting {analysis : Analysis} (typed : analysis.Typed)
    (plain : analysis.program.Plain) :
    CodeSetting analysis ⟨analysis.functions, analysis.globals, none⟩ analysis.compiled.entry :=
  ⟨typed, typed.entry_scope_plain plain, rfl, typed.entry_placed⟩

theorem Typed.body_setting {analysis : Analysis} (typed : analysis.Typed)
    (plain : analysis.program.Plain) (func : FuncDef) (member : func ∈ analysis.program.funcs) :
    CodeSetting analysis ⟨analysis.functions, analysis.scopeOf func, some func.result⟩
      (func.compiled (analysis.scopeOf func)) :=
  ⟨typed, typed.body_scope_plain plain func member _ (typed.scope_of func member), rfl,
    typed.body_placed func _ (typed.scope_of func member)⟩

theorem Typed.compiled_valid {analysis : Analysis} (typed : analysis.Typed)
    (plain : analysis.program.Plain) (func : Func)
    (member : func ∈ analysis.compiled.allFunctions) :
    func.Valid analysis.compiled ∧ func.Clean analysis.compiled := by
  rw [Module.allFunctions, List.mem_append] at member
  rcases member with memberFunctions | memberEntry
  · obtain ⟨source, memberSource, same⟩ := List.mem_map.mp memberFunctions
    have fits := typed.scope_of source memberSource
    cases same
    obtain ⟨leaves, body⟩ := Stmt.codes_balanced (typed.body_setting plain source memberSource)
      false (by simp) source.body fits.body [1] false
    have inits := balanced_inits analysis.compiled (source.compiled (analysis.scopeOf source)) [1]
      source.locals fun var memberVar => by
        rw [slot_exists_iff, own_names, List.mem_append]
        exact Or.inr (List.mem_map_of_mem memberVar)
    exact valid_of_balanced _ _ true (Instr.balanced_append _ _
      (Instr.balanced_append _ _ inits body)
      (Instr.balanced_cons _ _ Instr.balanced_unreachable (Instr.balanced_const 0)))
  · cases List.mem_singleton.mp memberEntry
    have slot : analysis.compiled.entry.slot? Draft.resultSlot = some 0 := rfl
    obtain ⟨leaves, body⟩ := Stmt.codes_balanced (typed.entry_setting plain) true
      (fun _ => ⟨0, slot⟩) analysis.program.stmts typed.stmts [1] false
    exact valid_of_balanced _ _ leaves (Instr.balanced_append _ _
      (Instr.balanced_append _ _
        (Instr.balanced_cons _ _ (Instr.balanced_const 0)
          (Instr.balanced_local_set Draft.resultSlot 0 slot)) body)
      (Instr.balanced_local_get Draft.resultSlot 0 slot))

end Analysis

/-- A module writes a function type for every number of parameters that its functions and the
primitives have, and the index of the type stands for that number. -/
theorem type_of_arity (module : Module) (arity : Nat) (member : arity ∈ module.arities) :
    (Binary.arities module)[(Binary.arities module).idxOf arity]? = some arity := by
  have listed : arity ∈ Binary.arities module := List.mem_eraseDups.mpr member
  rw [List.getElem?_eq_getElem (List.idxOf_lt_length_of_mem listed), List.getElem_idxOf]

/-- An analysed program without objects among its parameters and results has a module whose
functions are valid in the binary form and run every branch, and enter and end every structured
body, without operands. -/
theorem generated_functions_are_valid_and_clean (program : Program) (analysis : Analysis)
    (analysed : program.analyze = .ok analysis) (plain : program.Plain) :
    ∃ module, analysis.generate = .ok module ∧
      (∀ arity ∈ module.arities,
        (Binary.arities module)[(Binary.arities module).idxOf arity]? = some arity) ∧
      ∀ func ∈ module.allFunctions,
        Binary.body module func = .ok (Binary.sized (Binary.counted (Binary.localRuns func) ++
          Indexed.bytesOfAll (func.indexed module) ++ [Binary.endMark])) ∧
        func.Valid module ∧ func.Clean module := by
  obtain ⟨typed, _, _⟩ := analyze_typed program analysis analysed
  have plainAfter := analyze_plain program analysis analysed plain
  refine ⟨analysis.compiled, generate_typed analysis typed plainAfter,
    type_of_arity analysis.compiled, fun func member => ⟨?_, ?_⟩⟩
  · exact body_of_resolved _ func (typed.compiled_resolved plainAfter func member)
  · exact typed.compiled_valid plainAfter func member

def searchSource : List Char :=
  ("def f(n: int) -> int:\n    while n > 0:\n        if n == 2:\n            return n\n" ++
    "        n = n - 1\n    return 0\nprint(f(3))\n").toList

theorem search_is_valid_and_clean :
    ∃ program analysis module, Program.ofSource searchSource = .ok program ∧
      program.analyze = .ok analysis ∧ program.Plain ∧ analysis.generate = .ok module ∧
      ∀ func ∈ module.allFunctions, func.Valid module ∧ func.Clean module := by
  obtain ⟨analysis, checked⟩ := (is_ok_iff (checkSource searchSource)).mp (by decide +kernel)
  obtain ⟨program, read, analysed⟩ := (check_source_succeeds_iff _ analysis).mp checked
  have plain := program_of_source_plain _ program read
  obtain ⟨module, generated, _, functions⟩ :=
    generated_functions_are_valid_and_clean program analysis analysed plain
  exact ⟨program, analysis, module, read, analysed, plain, generated,
    fun func member => (functions func member).2⟩

end ScriptWasm
