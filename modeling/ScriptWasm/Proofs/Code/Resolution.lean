import ScriptWasm.Code.Binary.Encode
import ScriptWasm.Machine.Basic
import ScriptWasm.Proofs.Code.Emission
import ScriptWasm.Proofs.Code.Named
import ScriptWasm.Proofs.Code.Names
import ScriptWasm.Proofs.Machine.Translation

/-!
The names in a module. An instruction is resolved when its names have a place and its branches have
a body to leave. A function whose instructions are resolved has a binary form and a linear form, and
the instructions of an analysed program are all resolved.
-/

namespace ScriptWasm

set_option autoImplicit false

namespace Instr

mutual

/-- An instruction whose names have a place, and whose branches leave one of the enclosing bodies. -/
def Resolved (module : Module) (func : Func) (bodies : Nat) : Instr → Prop
  | localGet name | localSet name => ∃ slot, func.slot? name = some slot
  | globalGet name | globalSet name => ∃ index, module.globalIndex? name = some index
  | call name => ∃ callee, module.callee? name = some callee
  | cond body orelse =>
      AllResolved module func (bodies + 1) body ∧ AllResolved module func (bodies + 1) orelse
  | block body | loop body => AllResolved module func (bodies + 1) body
  | branch depth | branchIf depth => depth < bodies
  | const _ | binary _ | drop | ret | unreachable => True

def AllResolved (module : Module) (func : Func) (bodies : Nat) : List Instr → Prop
  | [] => True
  | first :: rest => Resolved module func bodies first ∧ AllResolved module func bodies rest

end

theorem all_resolved_append (module : Module) (func : Func) (bodies : Nat)
    (first second : List Instr) :
    AllResolved module func bodies (first ++ second) ↔
      AllResolved module func bodies first ∧ AllResolved module func bodies second := by
  induction first with
  | nil => simp [AllResolved]
  | cons head tail induction => simp [AllResolved, induction, and_assoc]

mutual

theorem named_of_resolved (module : Module) (func : Func) (bodies : Nat) (instr : Instr)
    (resolved : instr.Resolved module func bodies) : instr.Named module func := by
  cases instr with
  | const value | binary op | drop | ret | unreachable | branch depth | branchIf depth => trivial
  | localGet name | localSet name | globalGet name | globalSet name | call name => exact resolved
  | cond body orelse =>
      exact ⟨all_named_of_resolved module func _ body resolved.1,
        all_named_of_resolved module func _ orelse resolved.2⟩
  | block body => exact all_named_of_resolved module func _ body resolved
  | loop body => exact all_named_of_resolved module func _ body resolved
termination_by structural instr

theorem all_named_of_resolved (module : Module) (func : Func) (bodies : Nat)
    (instrs : List Instr) (resolved : AllResolved module func bodies instrs) :
    AllNamed module func instrs := by
  cases instrs with
  | nil => trivial
  | cons first rest =>
      exact ⟨named_of_resolved module func bodies first resolved.1,
        all_named_of_resolved module func bodies rest resolved.2⟩
termination_by structural instrs

end

theorem binaries_of_resolved (module : Module) (func : Func) (bodies : Nat) (instrs : List Instr)
    (resolved : AllResolved module func bodies instrs) :
    Binary.instrs module func instrs = .ok (Indexed.bytesOfAll (allIndexed module func instrs)) :=
  (binaries_succeed_iff module func instrs _).mpr
    ⟨all_named_of_resolved module func bodies instrs resolved, rfl⟩

mutual

theorem linear_of_resolved (module : Module) (func : Func) (targets : List Nat) (here : Nat)
    (instr : Instr) (resolved : instr.Resolved module func targets.length) :
    ∃ code, module.linear func targets here instr = .ok code := by
  cases instr with
  | const value | binary op | drop | ret | unreachable => exact ⟨_, rfl⟩
  | localGet name | localSet name =>
      obtain ⟨slot, found⟩ := resolved
      simp [Module.linear, Module.slotOrError, found, pure, Except.pure]
  | globalGet name | globalSet name =>
      obtain ⟨index, found⟩ := resolved
      simp [Module.linear, Module.globalOrError, found, pure, Except.pure]
  | call name =>
      obtain ⟨callee, found⟩ := resolved
      cases callee <;> simp [Module.linear, found, pure, Except.pure]
  | cond body orelse =>
      simp only [Module.linear]
      obtain ⟨bodyCode, bodyDone⟩ := linear_all_of_resolved module func
        ((here + 1 + linearSizes body + 1 + linearSizes orelse) :: targets) (here + 1) body
        resolved.1
      obtain ⟨elseCode, elseDone⟩ := linear_all_of_resolved module func
        ((here + 1 + linearSizes body + 1 + linearSizes orelse) :: targets)
        (here + 1 + linearSizes body + 1) orelse resolved.2
      simp only [bodyDone, elseDone, ok_bind]
      exact ⟨_, rfl⟩
  | block body =>
      simp only [Module.linear]
      exact linear_all_of_resolved module func ((here + linearSizes body) :: targets) here body
        resolved
  | loop body =>
      simp only [Module.linear]
      exact linear_all_of_resolved module func (here :: targets) here body resolved
  | branch depth | branchIf depth =>
      have bound : depth < targets.length := resolved
      simp [Module.linear, Module.targetOrError, bound, pure, Except.pure]
termination_by structural instr

theorem linear_all_of_resolved (module : Module) (func : Func) (targets : List Nat) (here : Nat)
    (instrs : List Instr) (resolved : AllResolved module func targets.length instrs) :
    ∃ code, module.linearAll func targets here instrs = .ok code := by
  cases instrs with
  | nil => exact ⟨_, rfl⟩
  | cons first rest =>
      obtain ⟨firstCode, firstDone⟩ := linear_of_resolved module func targets here first resolved.1
      obtain ⟨restCode, restDone⟩ := linear_all_of_resolved module func targets
        (here + first.linearSize) rest resolved.2
      simp only [Module.linearAll, firstDone, restDone, ok_bind]
      exact ⟨_, rfl⟩
termination_by structural instrs

end

end Instr

/-- A function whose body is resolved. The body itself can be left by a branch. -/
def Func.Resolved (module : Module) (func : Func) : Prop :=
  Instr.AllResolved module func 1 func.body

/-- A function whose body is resolved has a binary body, which is that of its indexed form. -/
theorem body_of_resolved (module : Module) (func : Func) (resolved : func.Resolved module) :
    Binary.body module func = .ok (Binary.sized (Binary.counted (Binary.localRuns func) ++
      Indexed.bytesOfAll (func.indexed module) ++ [Binary.endMark])) := by
  simp only [Binary.body, Instr.binaries_of_resolved module func 1 func.body resolved, ok_bind]
  rfl

/-- A module of resolved functions has a binary form. -/
theorem encode_of_resolved (module : Module)
    (resolved : ∀ func ∈ module.allFunctions, func.Resolved module) :
    ∃ bytes, module.encode = .ok bytes := by
  have bodies : ∀ func ∈ module.allFunctions, ∃ bytes, Binary.body module func = .ok bytes :=
    fun func member => ⟨_, body_of_resolved module func (resolved func member)⟩
  obtain ⟨bytes, done⟩ := map_m_succeeds (Binary.body module) module.allFunctions bodies
  simp only [Module.encode, done, ok_bind]
  exact ⟨_, rfl⟩

/-- A module of resolved functions has a linear form, and so every machine can load it. -/
theorem linearize_of_resolved (module : Module)
    (resolved : ∀ func ∈ module.allFunctions, func.Resolved module) :
    ∃ code, module.linearize = .ok code := by
  have funcs : ∀ func ∈ module.allFunctions, ∃ code, module.linearFunc func = .ok code := by
    intro func member
    obtain ⟨code, done⟩ := Instr.linear_all_of_resolved module func
      [Instr.linearSizes func.body] 0 func.body (resolved func member)
    simp only [Module.linear_func_eq, done, ok_bind]
    exact ⟨_, rfl⟩
  obtain ⟨code, done⟩ := map_m_succeeds module.linearFunc module.allFunctions funcs
  simp only [Module.linearize, done, ok_bind]
  exact ⟨_, rfl⟩

/-- Every variable of a table has a place in the code of a function, and every function that may be
called one in the module. -/
structure Scope.Placed (scope : Scope) (module : Module) (func : Func) : Prop where
  globals : ∀ name binding, scope.vars.get? name = some binding → binding.storage = .global →
    ∃ index, module.globalIndex? name = some index
  slots : ∀ name binding, scope.vars.get? name = some binding → binding.storage ≠ .global →
    ∃ slot, func.slot? name = some slot
  functions : ∀ name signature, scope.functions.get? name = some signature →
    ∃ callee, module.callee? name = some callee
  primitives : ∀ primitive : HostImport, ∃ callee, module.callee? primitive.name = some callee

theorem load_resolved (scope : Scope) (module : Module) (func : Func)
    (placed : scope.Placed module func) (bodies : Nat) (name : String) (binding : Binding)
    (found : scope.vars.get? name = some binding) :
    (scope.vars.load name).Resolved module func bodies := by
  unfold VarTable.load
  rw [found]
  cases binding with
  | mk ty storage =>
      cases storage with
      | global => exact placed.globals name _ found rfl
      | «local» => exact placed.slots name _ found (by simp)
      | param index => exact placed.slots name _ found (by simp)

theorem store_resolved (scope : Scope) (module : Module) (func : Func)
    (placed : scope.Placed module func) (bodies : Nat) (name : String) (binding : Binding)
    (found : scope.vars.get? name = some binding) :
    (scope.vars.store name).Resolved module func bodies := by
  unfold VarTable.store
  rw [found]
  cases binding with
  | mk ty storage =>
      cases storage with
      | global => exact placed.globals name _ found rfl
      | «local» => exact placed.slots name _ found (by simp)
      | param index => exact placed.slots name _ found (by simp)

namespace Expr

/-- What a typed call refers to in the code: a function of the program, or the primitive that the
type of the first argument chooses. -/
theorem target_name_cases (scope : Scope) (plain : scope.Plain) (func : String)
    (params : List (Option Ty)) (result : Ty) (callee : scope.callee? func = some (params, result))
    (args : List Expr) (arguments : ArgsTyped scope params args) :
    (Builtin.ofName? func = none ∧ targetName func args = func ∧
        ∃ signature, scope.functions.get? func = some signature ∧
          params = signature.params.map some ∧ result = signature.result) ∨
      ∃ builtin primitive, Builtin.ofName? func = some builtin ∧ params = builtin.params ∧
        result = builtin.result ∧ primitive? builtin args = some primitive ∧
        targetName func args = primitive.name := by
  unfold Scope.callee? at callee
  unfold targetName
  cases isBuiltin : Builtin.ofName? func with
  | none =>
      rw [isBuiltin] at callee
      obtain ⟨signature, found, same⟩ := Option.map_eq_some_iff.mp callee
      cases same
      exact Or.inl ⟨rfl, rfl, signature, found, rfl, rfl⟩
  | some builtin =>
      rw [isBuiltin] at callee
      have chosen : ∃ primitive, primitive? builtin args = some primitive := by
        cases arguments with
        | nil => exact of_builtin_plain builtin .none (by simp [Ty.Plain])
        | cons param params arg args ty head accepted tail =>
            obtain ⟨primitive, chosen⟩ := of_builtin_plain builtin ty (head.plain plain)
            exact ⟨primitive, by simp [primitive?, head.ty_eq, chosen]⟩
      obtain ⟨primitive, chosen⟩ := chosen
      cases callee
      exact Or.inr ⟨builtin, primitive, rfl, rfl, rfl, chosen, by simp [chosen]⟩

mutual

theorem code_resolved (scope : Scope) (plain : scope.Plain) (module : Module) (func : Func)
    (placed : scope.Placed module func) (bodies : Nat) (expr : Expr) (ty : Ty)
    (typed : expr.Typed scope ty) :
    Instr.AllResolved module func bodies (expr.code scope.vars) := by
  cases expr with
  | lit note value => simp [code, Instr.AllResolved, Instr.Resolved]
  | name note word =>
      cases typed with
      | name span word binding found =>
          exact ⟨load_resolved scope module func placed bodies word binding found, trivial⟩
  | call note name args =>
      cases typed with
      | call span name args params result callee arguments =>
          simp only [code, Instr.all_resolved_append]
          refine ⟨codes_resolved scope plain module func placed bodies args params arguments, ?_,
            trivial⟩
          -- The target is a function of the module or a primitive of the host.
          rcases target_name_cases scope plain name params ty callee args arguments with
            ⟨_, same, signature, found, _⟩ | ⟨builtin, primitive, _, _, _, _, same⟩
          · simpa [Instr.Resolved, same] using placed.functions name signature found
          · simpa [Instr.Resolved, same] using placed.primitives primitive
  | binary note op left right =>
      cases typed with
      | isNone span noneSpan left leftTy operand =>
          simp only [code, BinaryOp.wordOp?, Instr.all_resolved_append]
          exact ⟨code_resolved scope plain module func placed bodies left leftTy operand,
            trivial, trivial, trivial⟩
      | arithmetic span op left right kind first second =>
          have first := code_resolved scope plain module func placed bodies left .int first
          have second := code_resolved scope plain module func placed bodies right .int second
          simp only [code]
          split
          · simp [Instr.all_resolved_append, first, second, Instr.AllResolved, Instr.Resolved]
          · simp [Instr.all_resolved_append, first, Instr.AllResolved, Instr.Resolved]
      | comparison span op left right operandTy distinct kind first second =>
          have first := code_resolved scope plain module func placed bodies left operandTy first
          have second := code_resolved scope plain module func placed bodies right operandTy second
          simp only [code]
          split
          · simp [Instr.all_resolved_append, first, second, Instr.AllResolved, Instr.Resolved]
          · simp [Instr.all_resolved_append, first, Instr.AllResolved, Instr.Resolved]
  | unary note op operand =>
      cases typed with
      | negation span operand number =>
          have inner := code_resolved scope plain module func placed bodies operand .int number
          simp [code, Instr.AllResolved, Instr.Resolved, Instr.all_resolved_append, inner]
      | complement span operand truth =>
          have inner := code_resolved scope plain module func placed bodies operand .bool truth
          simp [code, Instr.AllResolved, Instr.Resolved, Instr.all_resolved_append, inner]
  | paren note inner =>
      cases typed with
      | paren span inner ty typedInner =>
          exact code_resolved scope plain module func placed bodies inner ty typedInner
  | attr note value member => cases typed
  | construct note className => cases typed
termination_by structural expr

theorem codes_resolved (scope : Scope) (plain : scope.Plain) (module : Module) (func : Func)
    (placed : scope.Placed module func) (bodies : Nat) (args : List Expr)
    (params : List (Option Ty)) (typed : ArgsTyped scope params args) :
    Instr.AllResolved module func bodies (codeAll scope.vars args) := by
  cases args with
  | nil => trivial
  | cons arg args =>
      cases typed with
      | cons param params arg args ty head accepted tail =>
          simp only [codeAll, Instr.all_resolved_append]
          exact ⟨code_resolved scope plain module func placed bodies arg ty head,
            codes_resolved scope plain module func placed bodies args params tail⟩
termination_by structural args

end

end Expr

namespace Stmt

mutual

/-- The code of a typed statement is resolved. The accumulator is needed at the top level only. -/
theorem code_resolved (scope : Scope) (plain : scope.Plain) (module : Module) (func : Func)
    (placed : scope.Placed module func) (topLevel : Bool)
    (kept : topLevel = true → ∃ slot, func.slot? Draft.resultSlot = some slot) (bodies : Nat)
    (stmt : Stmt) (typed : stmt.Typed scope) :
    Instr.AllResolved module func bodies (stmt.code scope.vars topLevel) := by
  cases stmt with
  | assign span target value =>
      cases typed with
      | assign span target value binding found typedValue =>
          simp only [code, Instr.all_resolved_append]
          exact ⟨value.code_resolved scope plain module func placed bodies _ typedValue,
            store_resolved scope module func placed bodies target binding found, trivial⟩
  | expr span value =>
      cases typed with
      | expr span value ty typedValue =>
          simp only [code, Instr.all_resolved_append]
          refine ⟨value.code_resolved scope plain module func placed bodies ty typedValue, ?_,
            trivial⟩
          split
          · exact kept ‹_›
          · trivial
  | pass span => trivial
  | fieldAssign span object field value => cases typed
  | ret span value =>
      cases typed with
      | ret span value ty typedValue declared =>
          simp only [code, Instr.all_resolved_append]
          exact ⟨value.code_resolved scope plain module func placed bodies ty typedValue,
            trivial, trivial⟩
  | cond span test body orelse =>
      cases typed with
      | cond span test body orelse truth first second =>
          simp only [code, Instr.all_resolved_append]
          exact ⟨test.code_resolved scope plain module func placed bodies .bool truth,
            ⟨codes_resolved scope plain module func placed topLevel kept _ body first,
              codes_resolved scope plain module func placed topLevel kept _ orelse second⟩,
            trivial⟩
  | loop span test body =>
      cases typed with
      | loop span test body truth again =>
          have testDone := test.code_resolved scope plain module func placed (bodies + 1 + 1) .bool
            truth
          have bodyDone := codes_resolved scope plain module func placed topLevel kept
            (bodies + 1 + 1) body again
          simp [code, Instr.AllResolved, Instr.Resolved, Instr.all_resolved_append, testDone,
            bodyDone]
termination_by structural stmt

theorem codes_resolved (scope : Scope) (plain : scope.Plain) (module : Module) (func : Func)
    (placed : scope.Placed module func) (topLevel : Bool)
    (kept : topLevel = true → ∃ slot, func.slot? Draft.resultSlot = some slot) (bodies : Nat)
    (stmts : List Stmt) (typed : AllTyped scope stmts) :
    Instr.AllResolved module func bodies (codeAll scope.vars topLevel stmts) := by
  cases stmts with
  | nil => trivial
  | cons first rest =>
      cases typed with
      | cons first rest head tail =>
          simp only [codeAll, Instr.all_resolved_append]
          exact ⟨code_resolved scope plain module func placed topLevel kept bodies first head,
            codes_resolved scope plain module func placed topLevel kept bodies rest tail⟩
termination_by structural stmts

end

end Stmt

theorem slot_exists_iff (func : FuncDef) (vars : VarTable) (name : String) :
    (∃ slot, (func.compiled vars).slot? name = some slot) ↔ name ∈ func.own.map Prod.fst := by
  rw [own_names]
  constructor
  · rintro ⟨slot, found⟩
    exact List.mem_of_getElem? (last_index_gives_value _ _ _ found)
  · intro member
    exact last_index_exists name _ member

namespace Analysis

theorem Typed.compiled_global_names {analysis : Analysis} (typed : analysis.Typed) :
    analysis.compiled.globals.map Global.name = analysis.globals.entries.map Prod.fst := by
  rw [typed.globals]
  simp [compiled, VarDef.compiled, VarDef.globalEntry, Function.comp_def]

theorem Typed.global_index {analysis : Analysis} (typed : analysis.Typed) (name : String)
    (binding : Binding) (found : analysis.globals.get? name = some binding) :
    ∃ index, analysis.compiled.globalIndex? name = some index := by
  apply last_index_exists
  rw [typed.compiled_global_names]
  rw [Table.get_eq_some_iff] at found
  exact List.mem_map_of_mem (f := Prod.fst) found

theorem compiled_ids (analysis : Analysis) :
    analysis.compiled.functions.map Func.id = analysis.program.funcs.map (some ∘ FuncDef.name) := by
  simp [compiled, FuncDef.compiled, Function.comp_def]

theorem Typed.function_names_nodup {analysis : Analysis} (typed : analysis.Typed) :
    (analysis.program.funcs.map FuncDef.name).Nodup := by
  have names := analysis.functions.distinct
  rw [typed.functions, List.map_map] at names
  exact names

/-- A call of a function by its name reaches the code of that function. -/
theorem Typed.callee_of_function {analysis : Analysis} (typed : analysis.Typed) (index : Nat)
    (func : FuncDef) (here : analysis.program.funcs[index]? = some func) :
    analysis.compiled.callee? func.name = some (.function index) := by
  have distinct : (analysis.program.funcs.map (some ∘ FuncDef.name)).Nodup := by
    rw [← List.map_map]
    exact typed.function_names_nodup.map (Option.some_injective String)
  have found : lastIndex? (some func.name) (analysis.compiled.functions.map Func.id) =
      some index := by
    rw [compiled_ids]
    exact last_index_of_nodup _ _ distinct index (by simp [here])
  simp [Module.callee?, found]

/-- The name of a primitive always means the primitive, because functions cannot have it. -/
theorem Typed.callee_of_primitive {analysis : Analysis} (typed : analysis.Typed)
    (primitive : HostImport) :
    analysis.compiled.callee? primitive.name = some (.primitive primitive) := by
  have absent : some primitive.name ∉ analysis.compiled.functions.map Func.id := by
    rw [compiled_ids]
    intro member
    obtain ⟨func, memberFunc, same⟩ := List.mem_map.mp member
    have free := typed.notReserved func memberFunc
    rw [Option.some.inj same] at free
    cases primitive <;> revert free <;> decide
  have named : HostImport.ofName? primitive.name = some primitive := by
    cases primitive <;> decide
  simp [Module.callee?, last_index_absent _ _ absent, named]

theorem Typed.callee_exists {analysis : Analysis} (typed : analysis.Typed) (name : String)
    (signature : Signature) (found : analysis.functions.get? name = some signature) :
    ∃ index func, analysis.program.funcs[index]? = some func ∧ func.name = name ∧
      func.signature = signature ∧ analysis.compiled.callee? name = some (.function index) := by
  rw [Table.get_eq_some_iff, typed.functions, List.mem_map] at found
  obtain ⟨func, member, same⟩ := found
  obtain ⟨index, here⟩ := List.mem_iff_getElem?.mp member
  cases same
  exact ⟨index, func, here, rfl, rfl, typed.callee_of_function index func here⟩

theorem compiled_function {analysis : Analysis} (index : Nat) (func : FuncDef)
    (here : analysis.program.funcs[index]? = some func) :
    analysis.compiled.allFunctions[index]? = some (func.compiled (analysis.scopeOf func)) := by
  have inside : analysis.compiled.functions[index]? =
      some (func.compiled (analysis.scopeOf func)) := by
    simp [compiled, here]
  have bound := (List.getElem?_eq_some_iff.mp inside).1
  rw [Module.allFunctions, List.getElem?_append_left bound, inside]

theorem Typed.entry_placed {analysis : Analysis} (typed : analysis.Typed) :
    Scope.Placed ⟨analysis.functions, analysis.globals, none⟩ analysis.compiled
      analysis.compiled.entry where
  globals name binding found _ := typed.global_index name binding found
  slots name binding found notGlobal :=
    absurd (globals_are_global _ _ typed.globals name binding found) notGlobal
  functions name signature found := by
    obtain ⟨index, _, _, _, _, callee⟩ := typed.callee_exists name signature found
    exact ⟨.function index, callee⟩
  primitives primitive := ⟨_, typed.callee_of_primitive primitive⟩

theorem Typed.body_placed {analysis : Analysis} (typed : analysis.Typed) (func : FuncDef)
    (vars : VarTable) (fits : func.Typed analysis.functions analysis.globals vars) :
    Scope.Placed ⟨analysis.functions, vars, some func.result⟩ analysis.compiled
      (func.compiled vars) where
  globals name binding found isGlobal := by
    rw [fits.lookup, Option.or_eq_some_iff] at found
    rcases found with own | ⟨_, outer⟩
    · rw [Table.value_in_eq_some_iff _ _ _ fits.distinct] at own
      simp only [FuncDef.own, List.mem_append, List.mem_mapIdx, List.mem_map] at own
      rcases own with ⟨_, _, same⟩ | ⟨_, _, same⟩
      · cases same
        cases isGlobal
      · cases same
        cases isGlobal
    · exact typed.global_index name binding outer
  slots name binding found notGlobal := by
    rw [slot_exists_iff]
    rw [fits.lookup, Option.or_eq_some_iff] at found
    rcases found with own | ⟨_, outer⟩
    · rw [← Table.value_in_map_fst, own]
      rfl
    · exact absurd (globals_are_global _ _ typed.globals name binding outer) notGlobal
  functions := typed.entry_placed.functions
  primitives := typed.entry_placed.primitives

theorem Typed.scope_of {analysis : Analysis} (typed : analysis.Typed) (func : FuncDef)
    (member : func ∈ analysis.program.funcs) :
    func.Typed analysis.functions analysis.globals (analysis.scopeOf func) := by
  obtain ⟨vars, found, fits⟩ := typed.bodies func member
  rw [scopeOf, found]
  exact fits

theorem Typed.compiled_resolved {analysis : Analysis} (typed : analysis.Typed)
    (plain : analysis.program.Plain) (func : Func) (member : func ∈ analysis.compiled.allFunctions) :
    func.Resolved analysis.compiled := by
  rw [Module.allFunctions, List.mem_append] at member
  rcases member with memberFunctions | memberEntry
  · obtain ⟨source, memberSource, same⟩ := List.mem_map.mp memberFunctions
    have fits := typed.scope_of source memberSource
    cases same
    have body := Stmt.codes_resolved _ (typed.body_scope_plain plain source memberSource _ fits)
      analysis.compiled _ (typed.body_placed source _ fits) false (by simp) 1 source.body fits.body
    have inits : ∀ list : List VarDef, (∀ var ∈ list, var ∈ source.locals) →
        Instr.AllResolved analysis.compiled (source.compiled (analysis.scopeOf source)) 1
          (list.flatMap fun var => [.const var.init.word, .localSet var.name]) := by
      intro list inside
      induction list with
      | nil => trivial
      | cons var rest induction =>
          refine ⟨trivial, ?_, induction fun other memberOther => inside other (by simp [memberOther])⟩
          apply (slot_exists_iff source _ var.name).mpr
          rw [own_names, List.mem_append]
          exact Or.inr (List.mem_map_of_mem (inside var (by simp)))
    simp only [Func.Resolved, FuncDef.compiled, FuncDef.initCode, Instr.all_resolved_append]
    exact ⟨⟨inits source.locals fun _ memberVar => memberVar, body⟩, trivial, trivial, trivial⟩
  · cases List.mem_singleton.mp memberEntry
    have slot : ∃ slot, analysis.compiled.entry.slot? Draft.resultSlot = some slot := ⟨0, rfl⟩
    have body := Stmt.codes_resolved _ (typed.entry_scope_plain plain) analysis.compiled _
      typed.entry_placed true (fun _ => slot) 1 analysis.program.stmts typed.stmts
    simp only [Func.Resolved, compiled, entryFunc, Instr.all_resolved_append]
    exact ⟨⟨⟨trivial, slot, trivial⟩, body⟩, slot, trivial⟩

end Analysis

theorem Analysis.compiled_entry (analysis : Analysis) :
    analysis.compiled.allFunctions[analysis.compiled.functions.length]? =
      some (entryFunc analysis.globals analysis.program.stmts) := by
  simp [Module.allFunctions, Analysis.compiled]

/-- The entry is the only export of a compiled program. -/
theorem entry_exported (analysis : Analysis) (code : LinearModule)
    (linearized : analysis.compiled.linearize = .ok code) :
    code.exports.get? entryExport = some analysis.compiled.functions.length := by
  have table : code.exports = analysis.compiled.exportTable := by
    simp only [Module.linearize, bind_succeeds_iff, pure_succeeds_iff] at linearized
    obtain ⟨_, _, rfl⟩ := linearized
    rfl
  have others : ∀ (funcs : List FuncDef) (index : Nat),
      ((funcs.map fun func => func.compiled (analysis.scopeOf func)).zipIdx index).filterMap
        (fun pair => pair.1.exportName.map fun name => (name, pair.2)) = [] := by
    intro funcs
    induction funcs with
    | nil => exact fun _ => rfl
    | cons func rest induction => exact fun index => induction (index + 1)
  have exports : analysis.compiled.allFunctions.zipIdx.filterMap
      (fun pair => pair.1.exportName.map fun name => (name, pair.2)) =
      [(entryExport, analysis.compiled.functions.length)] := by
    rw [Module.allFunctions, List.zipIdx_append, List.filterMap_append]
    simp only [Analysis.compiled, others, List.nil_append, Nat.zero_add]
    rfl
  have exported : analysis.compiled.exportTable =
      Table.ofList [(entryExport, analysis.compiled.functions.length)] :=
    congrArg Table.ofList exports
  rw [table, exported]
  rfl

end ScriptWasm
