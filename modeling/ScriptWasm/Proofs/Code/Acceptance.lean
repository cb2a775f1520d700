import ScriptWasm.Pipeline
import ScriptWasm.Proofs.Code.Resolution
import ScriptWasm.Proofs.Program.Parts

/-!
What the type rules accept, every later stage accepts. The names of types that a source can write
are those of words, so a program that was read has no object among its parameters and results. The
analysis of such a program has a module, the module has a binary form, and every machine loads it.
-/

namespace ScriptWasm

set_option autoImplicit false

section Reading

variable (source : List Char)

theorem function_of_tree_plain (tree : Tree) (func : FuncDef)
    (read : FuncDef.ofTree source tree = .ok func) :
    (∀ param ∈ func.params, param.ty.Plain) ∧ func.result.Plain := by
  obtain ⟨_, _, params, _, _, _, _, _, _, _, _, readParams, _, result⟩ :=
    FuncDef.of_tree_succeeds source tree func read
  constructor
  · intro param member
    obtain ⟨_, declared, span, _, _, _, _, readTy⟩ :=
      Param.of_tree_succeeds source params func.params readParams param member
    exact type_of_tree_plain source declared param.ty span readTy
  · rcases result with ⟨_, same⟩ | ⟨declared, span, _, _, readTy⟩
    · rw [same]
      exact plain_of_literal .none
    · exact type_of_tree_plain source declared func.result span readTy

theorem program_of_parts_plain (parts : List Tree) (program : Program)
    (read : Program.ofParts source parts = .ok program) : program.Plain := by
  induction parts generalizing program with
  | nil =>
      cases read
      intro func member
      cases member
  | cons first rest induction =>
      unfold Program.ofParts at read
      split at read
      · simp only [bind_succeeds_iff, pure_succeeds_iff] at read
        obtain ⟨definition, _, others, readOthers, rfl⟩ := read
        exact induction others readOthers
      · simp only [bind_succeeds_iff, pure_succeeds_iff] at read
        obtain ⟨var, _, others, readOthers, rfl⟩ := read
        intro func member
        exact induction others readOthers func (by simpa [Program.funcs] using member)
      · simp only [bind_succeeds_iff, pure_succeeds_iff] at read
        obtain ⟨func, readFunc, others, readOthers, rfl⟩ := read
        intro other member
        simp only [Program.funcs, List.filterMap_cons, Def.func_of_func, List.mem_cons] at member
        rcases member with rfl | member
        · exact function_of_tree_plain source first other readFunc
        · exact induction others readOthers other member
      · simp only [bind_succeeds_iff, pure_succeeds_iff] at read
        obtain ⟨stmts, _, rfl⟩ := read
        intro func member
        cases member

end Reading

/-- A source has no way to write the type of an object where a function is declared. -/
theorem program_of_source_plain (source : List Char) (program : Program)
    (read : Program.ofSource source = .ok program) : program.Plain := by
  unfold Program.ofSource at read
  split at read
  · rename_i tree _
    unfold Program.ofTree at read
    simp only [bind_succeeds_iff] at read
    obtain ⟨_, _, readParts⟩ := read
    exact program_of_parts_plain source tree.children program readParts
  · cases read

/-- What the stages after the analysis have to answer: code, bytes, and a machine. -/
def Analysis.Accepted (analysis : Analysis) (module : Module) : Prop :=
  analysis.generate = .ok module ∧ (∃ bytes, module.encode = .ok bytes) ∧
    ∀ limit, ∃ machine, Machine.load module limit = .ok machine

theorem analysed_accepted (program : Program) (analysis : Analysis)
    (analysed : program.analyze = .ok analysis) (plain : program.Plain) :
    analysis.Accepted analysis.compiled := by
  obtain ⟨typed, _, _⟩ := analyze_typed program analysis analysed
  have plainAfter := analyze_plain program analysis analysed plain
  have resolved := typed.compiled_resolved plainAfter
  obtain ⟨code, linearized⟩ := linearize_of_resolved analysis.compiled resolved
  refine ⟨generate_typed analysis typed plainAfter, encode_of_resolved analysis.compiled resolved,
    fun limit => ?_⟩
  simp only [Machine.load, linearized, ok_bind]
  exact ⟨_, rfl⟩

theorem check_source_succeeds_iff (source : List Char) (analysis : Analysis) :
    checkSource source = .ok analysis ↔
      ∃ program, Program.ofSource source = .ok program ∧ program.analyze = .ok analysis := by
  simp only [checkSource, readProgram, bind_succeeds_iff, map_error_succeeds_iff]

/-- A source that passes the check compiles, and an analysed program without objects among its
parameters and results has code. The module can be written as bytes and loaded by every machine. -/
theorem checked_source_compiles_and_loads :
    (∀ (source : List Char) (analysis : Analysis), checkSource source = .ok analysis →
      ∃ module, compileSource source = .ok module ∧ analysis.Accepted module) ∧
    ∀ (program : Program) (analysis : Analysis), program.analyze = .ok analysis →
      program.Plain → ∃ module, analysis.Accepted module := by
  constructor
  · intro source analysis checked
    obtain ⟨program, read, analysed⟩ := (check_source_succeeds_iff source analysis).mp checked
    have plain := program_of_source_plain source program read
    have accepted := analysed_accepted program analysis analysed plain
    refine ⟨analysis.compiled, ?_, accepted⟩
    simp only [compileSource, bind_succeeds_iff, map_error_succeeds_iff]
    exact ⟨analysis, checked, accepted.1⟩
  · intro program analysis analysed plain
    exact ⟨analysis.compiled, analysed_accepted program analysis analysed plain⟩

theorem recursive_source_compiles_and_loads :
    (∃ analysis module,
      checkSource "def f(n: int) -> int:\n    return f(n - 1)\nprint(f(3) is None)".toList =
        .ok analysis ∧
      compileSource "def f(n: int) -> int:\n    return f(n - 1)\nprint(f(3) is None)".toList =
        .ok module ∧ analysis.Accepted module) ∧
    ∃ analysis module,
      Program.analyze ⟨[.var ⟨"x", .bool, ⟨0, 0⟩, .bool true, ⟨0, 0⟩, ⟨0, 0⟩⟩],
        [.expr ⟨0, 0⟩ (.unary ⟨⟨0, 0⟩, none⟩ .not (.name ⟨⟨0, 0⟩, none⟩ "x"))], []⟩ =
          .ok analysis ∧ analysis.Accepted module := by
  constructor
  · cases checked :
      checkSource "def f(n: int) -> int:\n    return f(n - 1)\nprint(f(3) is None)".toList with
    | error failure =>
        have succeeds : (checkSource
            "def f(n: int) -> int:\n    return f(n - 1)\nprint(f(3) is None)".toList).isOk =
              true := by
          decide +kernel
        rw [checked] at succeeds
        cases succeeds
    | ok analysis =>
        obtain ⟨module, facts⟩ := checked_source_compiles_and_loads.1 _ analysis checked
        exact ⟨analysis, module, rfl, facts⟩
  · have plain : Program.Plain ⟨[.var ⟨"x", .bool, ⟨0, 0⟩, .bool true, ⟨0, 0⟩, ⟨0, 0⟩⟩],
        [.expr ⟨0, 0⟩ (.unary ⟨⟨0, 0⟩, none⟩ .not (.name ⟨⟨0, 0⟩, none⟩ "x"))], []⟩ := by
      intro func member
      cases member
    obtain ⟨module, accepted⟩ := checked_source_compiles_and_loads.2 _ _ rfl plain
    exact ⟨_, module, rfl, accepted⟩

end ScriptWasm
