import ScriptWasm.Proofs.Program.Erasure
import ScriptWasm.Proofs.Typing.WellTyped

/-!
The tail positions of a body are its final statement and, where that is a condition, those of both
arms. The type rules look at nothing else to tell what a function gives. A function that has to give
a number or a truth value therefore has a return in every tail position, unless one of them holds a
loop, whose body may never run.
-/

namespace ScriptWasm

set_option autoImplicit false

namespace Stmt

mutual

def loopsLast : Stmt → Bool
  | loop _ _ _ => true
  | cond _ _ body orelse => blockLoopsLast body || blockLoopsLast orelse
  | _ => false

def blockLoopsLast : List Stmt → Bool
  | [] => false
  | [last] => loopsLast last
  | _ :: second :: rest => blockLoopsLast (second :: rest)

end

mutual

/-- A statement with a return in every tail position. -/
def Returns : Stmt → Prop
  | ret _ _ => True
  | cond _ _ body orelse => BlockReturns body ∧ BlockReturns orelse
  | _ => False

def BlockReturns : List Stmt → Prop
  | [] => False
  | [last] => Returns last
  | _ :: second :: rest => BlockReturns (second :: rest)

end

section Types

variable {program : Program} {inside : Option FuncDef}

mutual

/-- A final statement that gives more than `None` returns, unless it loops. -/
theorem returns_of_gives (stmt : Stmt) (ty : Ty) (gives : stmt.Gives program inside ty)
    (something : ty ≠ .none) (noLoop : stmt.loopsLast = false) : stmt.Returns := by
  cases stmt with
  | assign span target value | expr span value | pass span | fieldAssign span object field value =>
      cases gives
      exact absurd rfl something
  | ret span value => trivial
  | loop span test body => cases noLoop
  | cond span test body orelse =>
      cases gives with
      | cond span test body orelse ty first second =>
          obtain ⟨noneFirst, noneSecond⟩ := Bool.or_eq_false_iff.mp noLoop
          exact ⟨block_returns_of_ends_with body ty first something noneFirst,
            block_returns_of_ends_with orelse ty second something noneSecond⟩
termination_by structural stmt

theorem block_returns_of_ends_with (stmts : List Stmt) (ty : Ty)
    (ends : EndsWith program inside stmts ty) (something : ty ≠ .none)
    (noLoop : blockLoopsLast stmts = false) : BlockReturns stmts := by
  cases stmts with
  | nil =>
      cases ends
      exact absurd rfl something
  | cons first rest =>
      have later := block_returns_of_ends_with rest ty
      cases ends with
      | last final ty gives => exact returns_of_gives first ty gives something noLoop
      | earlier first second rest ty tail => exact later tail something noLoop
termination_by structural stmts

end

end Types

mutual

theorem returns_of_unannotated (stmt : Stmt) : stmt.unannotated.Returns ↔ stmt.Returns := by
  cases stmt with
  | assign span target value | expr span value | pass span | fieldAssign span object field value
    | ret span value | loop span test body => exact Iff.rfl
  | cond span test body orelse =>
      exact and_congr (block_returns_of_unannotated body) (block_returns_of_unannotated orelse)
termination_by structural stmt

theorem block_returns_of_unannotated (stmts : List Stmt) :
    BlockReturns (allUnannotated stmts) ↔ BlockReturns stmts := by
  cases stmts with
  | nil => exact Iff.rfl
  | cons first rest =>
      have later := block_returns_of_unannotated rest
      cases rest with
      | nil => exact returns_of_unannotated first
      | cons second others => exact later
termination_by structural stmts

end

end Stmt

/-- A function that has to give a number or a truth value, with no loop in tail position. -/
structure FuncDef.MustReturn (func : FuncDef) : Prop where
  result : func.result = .int ∨ func.result = .bool
  noLoop : Stmt.blockLoopsLast func.body = false

instance (func : FuncDef) : Decidable func.MustReturn :=
  decidable_of_iff
    ((func.result = .int ∨ func.result = .bool) ∧ Stmt.blockLoopsLast func.body = false)
    ⟨fun ⟨result, noLoop⟩ => ⟨result, noLoop⟩, fun must => ⟨must.result, must.noLoop⟩⟩

theorem FuncDef.MustReturn.returns {program : Program} {func : FuncDef} (must : func.MustReturn)
    (wellTyped : func.WellTyped program) : Stmt.BlockReturns func.body := by
  apply Stmt.block_returns_of_ends_with func.body func.result wellTyped.tail _ must.noLoop
  rcases must.result with number | truth
  · simp [number]
  · simp [truth]

theorem analyze_well_typed (program : Program) (analysis : Analysis)
    (accepted : program.analyze = .ok analysis) (func : FuncDef) (member : func ∈ program.funcs) :
    func.WellTyped program := by
  simp only [Program.analyze, bind_succeeds_iff, Prod.exists] at accepted
  obtain ⟨functions, globals, collects, defs, scopes, checked, _⟩ := accepted
  have collected := program.collected functions globals collects
  exact (collected.definitions_succeed_iff .empty program.defs).mp ⟨_, checked⟩ func member

theorem Program.funcs_of_unannotated (program : Program) :
    program.unannotated.funcs = program.funcs.map FuncDef.unannotated := by
  rw [Program.funcs, Program.unannotated, List.filterMap_map, Program.funcs, List.map_filterMap]
  congr 1
  funext definition
  cases definition <;> rfl

theorem analyze_funcs (program : Program) (analysis : Analysis)
    (accepted : program.analyze = .ok analysis) :
    analysis.program.funcs.map FuncDef.unannotated =
      program.funcs.map FuncDef.unannotated := by
  rw [← Program.funcs_of_unannotated, ← Program.funcs_of_unannotated,
    analyze_unannotated program analysis accepted]

/-- A function has its place in every list that differs only in annotations, and it returns in the
same tail positions there. -/
theorem found_but_for_annotations (first second : List FuncDef)
    (same : first.map FuncDef.unannotated = second.map FuncDef.unannotated) (index : Nat)
    (func : FuncDef) (found : first[index]? = some func) :
    ∃ other, second[index]? = some other ∧
      (Stmt.BlockReturns other.body ↔ Stmt.BlockReturns func.body) := by
  have here : (second.map FuncDef.unannotated)[index]? = some func.unannotated := by
    rw [← same, List.getElem?_map, found]
    rfl
  rw [List.getElem?_map, Option.map_eq_some_iff] at here
  obtain ⟨other, there, alike⟩ := here
  have bodies : Stmt.allUnannotated other.body = Stmt.allUnannotated func.body :=
    congrArg FuncDef.body alike
  refine ⟨other, there, ?_⟩
  rw [← Stmt.block_returns_of_unannotated, bodies, Stmt.block_returns_of_unannotated]

end ScriptWasm
