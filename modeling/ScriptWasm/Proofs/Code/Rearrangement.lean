import ScriptWasm.Proofs.Code.Resolution
import ScriptWasm.Proofs.Machine.Numbering
import ScriptWasm.Proofs.Typing.Rearrangement

/-!
A program behaves the same in whatever order its definitions stand. The analysis accepts every order
or none, the code of each function stays as it is, and only the numbers of the functions and globals
move, which cannot be seen from outside.
-/

namespace ScriptWasm

set_option autoImplicit false

section Code

variable {first second : VarTable}

theorem Table.Same.load (same : first.Same second) (name : String) :
    second.load name = first.load name := by
  rw [VarTable.load, VarTable.load, same name]

theorem Table.Same.store (same : first.Same second) (name : String) :
    second.store name = first.store name := by
  rw [VarTable.store, VarTable.store, same name]

namespace Expr

mutual

theorem code_same (same : first.Same second) (expr : Expr) :
    expr.code second = expr.code first := by
  cases expr with
  | lit note value | attr note value member | construct note className => rfl
  | name note word => simp only [code, same.load]
  | call note func args => simp only [code, codes_same same args]
  | binary note op left right => simp only [code, code_same same left, code_same same right]
  | unary note op operand => cases op <;> simp only [code, code_same same operand]
  | paren note inner => simp only [code, code_same same inner]
termination_by structural expr

theorem codes_same (same : first.Same second) (args : List Expr) :
    codeAll second args = codeAll first args := by
  cases args with
  | nil => rfl
  | cons arg rest => simp only [codeAll, code_same same arg, codes_same same rest]
termination_by structural args

end

end Expr

namespace Stmt

mutual

theorem code_same (same : first.Same second) (topLevel : Bool) (stmt : Stmt) :
    stmt.code second topLevel = stmt.code first topLevel := by
  cases stmt with
  | assign span target value => simp only [code, Expr.code_same same, same.store]
  | expr span value | ret span value => simp only [code, Expr.code_same same]
  | pass span | fieldAssign span object field value => rfl
  | cond span test body orelse =>
      simp only [code, Expr.code_same same, codes_same same topLevel body,
        codes_same same topLevel orelse]
  | loop span test body =>
      simp only [code, Expr.code_same same, codes_same same topLevel body]
termination_by structural stmt

theorem codes_same (same : first.Same second) (topLevel : Bool) (stmts : List Stmt) :
    codeAll second topLevel stmts = codeAll first topLevel stmts := by
  cases stmts with
  | nil => rfl
  | cons stmt rest =>
      simp only [codeAll, code_same same topLevel stmt, codes_same same topLevel rest]
termination_by structural stmts

end

end Stmt

theorem FuncDef.compiled_same (same : first.Same second) (func : FuncDef) :
    func.compiled second = func.compiled first := by
  simp only [FuncDef.compiled, Stmt.codes_same same]

theorem entry_func_same (same : first.Same second) (stmts : List Stmt) :
    entryFunc second stmts = entryFunc first stmts := by
  simp only [entryFunc, Stmt.codes_same same]

end Code

namespace Analysis.Rearranged

variable {order : List Nat} {analysis other : Analysis} (moved : analysis.Rearranged order other)

include moved

theorem scope_of (func : FuncDef) : (analysis.scopeOf func).Same (other.scopeOf func) := by
  have same := moved.scopes func.name
  unfold Analysis.scopeOf
  generalize analysis.scopes.get? func.name = vars at same ⊢
  generalize other.scopes.get? func.name = vars' at same ⊢
  cases same with
  | none => exact fun _ => rfl
  | some same => exact same

/-- The modules of two orders are the same but for the order of their globals and functions. -/
theorem compiled_reordered (typed : analysis.Typed)
    (permutes : order.Perm (List.range analysis.program.defs.length)) :
    analysis.compiled.Reordered other.compiled := by
  have defs : analysis.program.defs.Perm other.program.defs := by
    rw [moved.program]
    exact (rearranged_perm order analysis.program.defs permutes).symm
  refine ⟨(defs.filterMap Def.var?).map VarDef.compiled, ?_, ?_, ?_, ?_⟩
  · have code : ∀ func : FuncDef, func.compiled (other.scopeOf func) =
        func.compiled (analysis.scopeOf func) :=
      fun func => func.compiled_same (moved.scope_of func)
    simp only [Analysis.compiled, code]
    exact (defs.filterMap Def.func?).map _
  · have stmts : other.program.stmts = analysis.program.stmts := by rw [moved.program]; rfl
    simp only [Analysis.compiled, stmts, entry_func_same moved.globals]
  · rw [typed.compiled_global_names]
    exact analysis.globals.distinct
  · rw [analysis.compiled_ids, ← List.map_map]
    exact typed.function_names_nodup.map (Option.some_injective String)

end Analysis.Rearranged

/-- The order of definitions does not matter. The analysis accepts a program in one order exactly
when it accepts it in another. Every name then means the same at the top level and in each function,
and the typed definitions are the same ones, in the other order. If no function takes or returns an
object, both orders compile and load, and nothing that can be seen of calls of the entry tells the
machines apart: not the outcomes, nor the number of steps, nor the events, nor the value of any
global. -/
theorem definition_order_does_not_matter (program : Program) (order : List Nat)
    (permutes : order.Perm (List.range program.defs.length)) :
    ((∃ analysis, program.analyze = .ok analysis) ↔
      ∃ other, (program.rearranged order).analyze = .ok other) ∧
    ∀ analysis other, program.analyze = .ok analysis →
      (program.rearranged order).analyze = .ok other →
      analysis.Rearranged order other ∧
      (program.Plain → ∃ module module', analysis.generate = .ok module ∧
        other.generate = .ok module' ∧ ∀ limit, ∃ machine machine',
          Machine.load module limit = .ok machine ∧ Machine.load module' limit = .ok machine' ∧
          ∀ calls, machine'.observe calls = machine.observe calls) := by
  have defs : program.defs.Perm (program.rearranged order).defs :=
    (rearranged_perm order program.defs permutes).symm
  refine ⟨⟨accepted_in_any_order program _ defs rfl, accepted_in_any_order _ program defs.symm rfl⟩,
    fun analysis other accepted accepted' => ?_⟩
  have moved := analyze_rearranged program order permutes analysis other accepted accepted'
  refine ⟨moved, fun plain => ?_⟩
  have plain' : (program.rearranged order).Plain := fun func member =>
    plain func ((defs.filterMap Def.func?).mem_iff.mpr member)
  have typed := (analyze_typed program analysis accepted).1
  have typed' := (analyze_typed _ other accepted').1
  have plainAfter := analyze_plain program analysis accepted plain
  have plainAfter' := analyze_plain _ other accepted' plain'
  have reordered := moved.compiled_reordered typed
    (by rwa [analyze_length program analysis accepted])
  obtain ⟨code, linearized⟩ :=
    linearize_of_resolved analysis.compiled (typed.compiled_resolved plainAfter)
  obtain ⟨code', linearized'⟩ :=
    linearize_of_resolved other.compiled (typed'.compiled_resolved plainAfter')
  refine ⟨analysis.compiled, other.compiled, generate_typed analysis typed plainAfter,
    generate_typed other typed' plainAfter', fun limit => ?_⟩
  have loads : ∀ (module : Module) (code : LinearModule), module.linearize = .ok code →
      Machine.load module limit =
        .ok ⟨code, limit, ⟨(code.globals.map Prod.snd).toArray, #[]⟩⟩ := by
    intro module code linearized
    rw [Machine.load, linearized]
    rfl
  -- The entry is the last function in both modules, and its body does not depend on the order.
  have entries : SamePlace analysis.compiled.allFunctions other.compiled.allFunctions
      analysis.compiled.functions.length other.compiled.functions.length := by
    refine ⟨_, analysis.compiled_entry, ?_⟩
    rw [other.compiled_entry, entry_func_same moved.globals, moved.program]
    rfl
  have alike := reordered.loaded_alike limit _ _ (loads _ code linearized)
    (loads _ code' linearized') _ _ (entry_exported analysis code linearized)
    (entry_exported other code' linearized') entries
  exact ⟨_, _, loads _ code linearized, loads _ code' linearized', alike.observe reordered⟩

/-- Two functions that call each other down to zero and then answer a global, which the statements
change. -/
def mutualProgram : Program :=
  let note : Note := ⟨nowhere, none⟩
  let one : Expr := .lit note (.int 1)
  let turn (name other : String) : FuncDef := ⟨name, [⟨"n", .int, nowhere⟩], .int, [],
    [.cond nowhere (.binary note .less (.name note "n") one) [.ret nowhere (.name note "x")]
      [.ret nowhere (.call note other [.binary note .sub (.name note "n") one])]], nowhere⟩
  ⟨[.func (turn "even" "odd"), .var ⟨"x", .int, nowhere, .int 5, nowhere, nowhere⟩,
      .func (turn "odd" "even"), .var ⟨"y", .bool, nowhere, .bool true, nowhere, nowhere⟩],
    [.assign nowhere "x" (.binary note .add (.name note "x")
        (.call note "even" [.lit note (.int 3)])),
      .expr nowhere (.call note "print" [.name note "x"])], []⟩

theorem mutual_program_runs_in_another_order :
    [3, 2, 0, 1].Perm (List.range mutualProgram.defs.length) ∧
    ∃ analysis other module module' machine machine', mutualProgram.analyze = .ok analysis ∧
      (mutualProgram.rearranged [3, 2, 0, 1]).analyze = .ok other ∧
      analysis.Rearranged [3, 2, 0, 1] other ∧ mutualProgram.Plain ∧
      analysis.generate = .ok module ∧ other.generate = .ok module' ∧
      Machine.load module 6 = .ok machine ∧ Machine.load module' 6 = .ok machine' ∧
      machine'.observe [([], 90), ([], 90)] = machine.observe [([], 90), ([], 90)] ∧
      (machine'.observe [([], 90), ([], 90)]).map (fun seen => (seen.1, seen.2.1, seen.2.2 "x")) =
        some ([.ok 0, .ok 0], #[⟨.print, 10⟩, ⟨.print, 20⟩], some 20) := by
  have permutes : [3, 2, 0, 1].Perm (List.range mutualProgram.defs.length) := by decide
  have plain : mutualProgram.Plain := by
    intro func member
    simp only [Program.funcs, mutualProgram, List.filterMap_cons, Def.func_of_func,
      Def.func_of_var, List.filterMap_nil, List.mem_cons, List.not_mem_nil, or_false] at member
    rcases member with rfl | rfl <;> simp [Ty.Plain]
  obtain ⟨decides, agree⟩ := definition_order_does_not_matter mutualProgram [3, 2, 0, 1] permutes
  obtain ⟨analysis, accepted⟩ := (is_ok_iff mutualProgram.analyze).mp (by decide +kernel)
  obtain ⟨other, accepted'⟩ := decides.mp ⟨analysis, accepted⟩
  obtain ⟨moved, behave⟩ := agree analysis other accepted accepted'
  obtain ⟨module, module', generated, generated', machines⟩ := behave plain
  obtain ⟨machine, machine', loaded, loaded', same⟩ := machines 6
  refine ⟨permutes, analysis, other, module, module', machine, machine', accepted, accepted', moved,
    plain, generated, generated', loaded, loaded', same _, ?_⟩
  have computed : ((mutualProgram.rearranged [3, 2, 0, 1]).analyze.toOption.bind fun other =>
      other.generate.toOption.bind fun module' =>
      (Machine.load module' 6).toOption.bind fun machine' =>
        (machine'.observe [([], 90), ([], 90)]).map fun seen => (seen.1, seen.2.1, seen.2.2 "x")) =
      some ([.ok 0, .ok 0], #[⟨.print, 10⟩, ⟨.print, 20⟩], some 20) := by
    decide +kernel
  simpa only [accepted', generated', loaded', Except.toOption, Option.bind_some] using computed

end ScriptWasm
