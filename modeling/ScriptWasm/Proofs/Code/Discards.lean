import ScriptWasm.Proofs.Code.Resolution
import ScriptWasm.Proofs.Code.Validation

/-!
What branches discard. A branch may be valid although there are more operands than its label was
entered with, and those are then discarded. Code is tidy when this never happens above operands
that the code behind the label may still use.
-/

namespace ScriptWasm

set_option autoImplicit false

namespace Operands

theorem closed {found : Option Operands} {results : Nat}
    (closes : found.any (closes results) = true) :
    ∃ after, found = some after ∧ after.closes results = true := by
  cases found with
  | none => cases closes
  | some after => exact ⟨after, rfl, closes⟩

theorem count_of_closes (operands : Operands) (results : Nat)
    (closes : operands.closes results = true) (alive : operands.dead = false) :
    operands.count = results := by
  unfold Operands.closes at closes
  cases popped : operands.pop results with
  | none =>
      rw [popped] at closes
      cases closes
  | some rest =>
      rw [popped] at closes
      obtain ⟨_, count⟩ := pop_alive operands rest results alive popped
      have none : rest.count = 0 := of_decide_eq_true closes
      omega

end Operands

/-- How many operands of a function there were when each of its open bodies was entered, with one
more body that is entered where there are so many since the last one. -/
def enteredAt (heights : List Nat) (count : Nat) : List Nat :=
  (heights.headD 0 + count) :: heights

namespace Indexed

section Rules

variable (around : Surroundings)

mutual

/-- An instruction that is tidy where the given operands are on the stack. Of every enclosing body,
from the inside out, it is known how many operands of the function there were when it was entered.
Where a branch can be reached, its body was entered without operands, or there are no more operands
than at that time. -/
def Tidy (labels heights : List Nat) (operands : Operands) : Indexed → Prop
  | cond body orelse =>
      operands.dead = false →
        TidyAll (0 :: labels) (enteredAt heights (operands.count - 1)) .empty body ∧
        TidyAll (0 :: labels) (enteredAt heights (operands.count - 1)) .empty orelse
  | block body | loop body =>
      operands.dead = false →
        TidyAll (0 :: labels) (enteredAt heights operands.count) .empty body
  | branch depth =>
      operands.dead = false → ∀ height, heights[depth]? = some height →
        height = 0 ∨ heights.headD 0 + operands.count = height
  | branchIf depth =>
      operands.dead = false → ∀ height, heights[depth]? = some height →
        height = 0 ∨ heights.headD 0 + (operands.count - 1) = height
  | _ => True

def TidyAll (labels heights : List Nat) (operands : Operands) : List Indexed → Prop
  | [] => True
  | first :: rest =>
      Tidy labels heights operands first ∧
        ∀ after, validate around labels operands first = some after →
          TidyAll labels heights after rest

end

variable {around : Surroundings}

mutual

/-- Clean code enters every body without operands, so it is tidy. -/
theorem tidy_of_clean (labels heights : List Nat) (bare : ∀ height ∈ heights, height = 0)
    (operands : Operands) (instr : Indexed) (clean : Clean around labels operands instr) :
    Tidy around labels heights operands instr := by
  have here : heights.headD 0 = 0 := by
    cases heights with
    | nil => rfl
    | cons height rest => exact bare height List.mem_cons_self
  cases instr with
  | const value | localGet index | localSet index | globalGet index | globalSet index | call index
  | binary op | drop | ret | unreachable => trivial
  | cond body orelse =>
      intro alive
      obtain ⟨count, ⟨cleanBody, _⟩, cleanElse, _⟩ := clean alive
      have bareToo : ∀ height ∈ enteredAt heights (operands.count - 1), height = 0 :=
        List.forall_mem_cons.mpr ⟨by omega, bare⟩
      exact ⟨tidy_all_of_clean _ _ bareToo _ body cleanBody,
        tidy_all_of_clean _ _ bareToo _ orelse cleanElse⟩
  | block body | loop body =>
      intro alive
      obtain ⟨count, cleanBody, _⟩ := clean alive
      have bareToo : ∀ height ∈ enteredAt heights operands.count, height = 0 :=
        List.forall_mem_cons.mpr ⟨by omega, bare⟩
      exact tidy_all_of_clean _ _ bareToo _ body cleanBody
  | branch depth | branchIf depth =>
      intro _ height found
      exact Or.inl (bare height (List.mem_of_getElem? found))
termination_by structural instr

theorem tidy_all_of_clean (labels heights : List Nat) (bare : ∀ height ∈ heights, height = 0)
    (operands : Operands) (instrs : List Indexed)
    (clean : CleanAll around labels operands instrs) :
    TidyAll around labels heights operands instrs := by
  cases instrs with
  | nil => trivial
  | cons first rest =>
      exact ⟨tidy_of_clean labels heights bare operands first clean.1, fun after valid =>
        tidy_all_of_clean labels heights bare after rest (clean.2 after valid)⟩
termination_by structural instrs

end

end Rules

end Indexed

/-- A function whose binary body is tidy. The body itself is entered without operands. -/
def Func.Tidy (func : Func) (module : Module) : Prop :=
  Indexed.TidyAll (module.surroundings func) [1] [0] .empty (func.indexed module)

theorem Func.tidy_of_clean (func : Func) (module : Module) (clean : func.Clean module) :
    func.Tidy module :=
  Indexed.tidy_all_of_clean [1] [0] (by simp) _ _ clean

namespace Instr

section Branches

variable (module : Module) (func : Func) (around : Surroundings)

mutual

/-- Valid code leaves bodies that are there. -/
theorem resolved_of_valid (labels : List Nat) (operands after : Operands) (instr : Instr)
    (named : instr.Named module func)
    (valid : Indexed.validate around labels operands (instr.indexed module func) = some after) :
    instr.Resolved module func labels.length := by
  cases instr with
  | const value | binary op | drop | ret | unreachable => trivial
  | localGet name | localSet name | globalGet name | globalSet name | call name => exact named
  | cond body orelse =>
      simp only [indexed, Indexed.validate] at valid
      split at valid
      · split at valid
        · rename_i arms
          obtain ⟨bodyEnd, validBody, _⟩ := Operands.closed arms.1
          obtain ⟨elseEnd, validElse, _⟩ := Operands.closed arms.2
          exact ⟨all_resolved_of_valid (0 :: labels) _ _ body named.1 validBody,
            all_resolved_of_valid (0 :: labels) _ _ orelse named.2 validElse⟩
        · cases valid
      · cases valid
  | block body | loop body =>
      simp only [indexed, Indexed.validate] at valid
      split at valid
      · rename_i closes
        obtain ⟨bodyEnd, validBody, _⟩ := Operands.closed closes
        exact all_resolved_of_valid (0 :: labels) _ _ body named validBody
      · cases valid
  | branch depth | branchIf depth =>
      simp only [indexed, Indexed.validate] at valid
      split at valid
      · exact (List.getElem?_eq_some_iff.mp (by assumption)).1
      · cases valid
termination_by structural instr

theorem all_resolved_of_valid (labels : List Nat) (operands after : Operands)
    (instrs : List Instr) (named : AllNamed module func instrs)
    (valid : Indexed.validateAll around labels operands (allIndexed module func instrs) =
      some after) : AllResolved module func labels.length instrs := by
  cases instrs with
  | nil => trivial
  | cons first rest =>
      simp only [allIndexed, Indexed.validateAll] at valid
      split at valid
      · rename_i middle validFirst
        exact ⟨resolved_of_valid labels operands middle first named.1 validFirst,
          all_resolved_of_valid labels middle after rest named.2 valid⟩
      · cases valid
termination_by structural instrs

end

end Branches

end Instr

end ScriptWasm
