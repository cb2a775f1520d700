import ScriptWasm.Proofs.Code.Indexed
import ScriptWasm.Proofs.Outcome
import ScriptWasm.Proofs.Typing.Tables

/-!
When a module has a binary form: exactly when all names in it have a place. Its bytes are then those
of its indexed form. Branches may go anywhere, and it is only the linear form that needs a body
around each of them.
-/

namespace ScriptWasm

set_option autoImplicit false

section Functions

variable (name : String)

theorem named_function_index (start : Nat) (functions : List Func) :
    Table.valueIn? name ((functions.zipIdx start).filterMap fun (func, index) =>
        func.id.map fun name => (name, index)).reverse =
      (lastIndex? (some name) (functions.map Func.id)).map fun index => start + index := by
  induction functions generalizing start with
  | nil => rfl
  | cons first rest induction =>
      have later : ∀ index, start + 1 + index = start + (index + 1) := fun index => by omega
      rw [List.zipIdx_cons, List.map_cons, lastIndex?]
      cases own : first.id with
      | none =>
          simp only [List.filterMap_cons, own, Option.map_none, induction (start + 1)]
          cases lastIndex? (some name) (rest.map Func.id) <;> simp [later]
      | some other =>
          simp only [List.filterMap_cons, own, Option.map_some, List.reverse_cons,
            Table.value_in_append, induction (start + 1), Table.valueIn?, Option.some.injEq]
          cases lastIndex? (some name) (rest.map Func.id) with
          | some index => simp [later]
          | none => by_cases same : other = name <;> simp [same]

theorem primitive_index :
    Table.valueIn? name (HostImport.all.map fun primitive =>
        (primitive.name, primitive.index)).reverse =
      (HostImport.ofName? name).map HostImport.index := by
  rw [Table.value_in_reverse _ _ (by decide), Table.value_in_named]
  rfl

/-- The one table of functions finds what is looked for in the functions of the module first and
then in the primitives. -/
theorem function_table_get (module : Module) :
    (Binary.functionTable module).get? name = (module.callee? name).map Binary.calleeIndex := by
  rw [Binary.functionTable, Table.get_of_list, List.reverse_append, Table.value_in_append,
    named_function_index, primitive_index, Module.callee?]
  cases lastIndex? (some name) (module.functions.map Func.id) with
  | some index => rfl
  | none =>
      cases HostImport.ofName? name with
      | none => rfl
      | some primitive => rfl

end Functions

namespace Instr

mutual

/-- An instruction whose names have a place. -/
def Named (module : Module) (func : Func) : Instr → Prop
  | localGet name | localSet name => ∃ slot, func.slot? name = some slot
  | globalGet name | globalSet name => ∃ index, module.globalIndex? name = some index
  | call name => ∃ callee, module.callee? name = some callee
  | cond body orelse => AllNamed module func body ∧ AllNamed module func orelse
  | block body | loop body => AllNamed module func body
  | const _ | binary _ | drop | ret | unreachable | branch _ | branchIf _ => True

def AllNamed (module : Module) (func : Func) : List Instr → Prop
  | [] => True
  | first :: rest => Named module func first ∧ AllNamed module func rest

end

mutual

def depths : Instr → List Nat
  | cond body orelse => depthsOfAll body ++ depthsOfAll orelse
  | block body | loop body => depthsOfAll body
  | branch depth | branchIf depth => [depth]
  | _ => []

def depthsOfAll : List Instr → List Nat
  | [] => []
  | first :: rest => depths first ++ depthsOfAll rest

end

section Binary

variable (module : Module) (func : Func)

theorem variable_succeeds_iff (index? : String → Option Nat) (code : Byte) (name : String)
    (bytes : List Byte) :
    (do return code :: (← Binary.variableIndex index? name)) = .ok bytes ↔
      (∃ index, index? name = some index) ∧
        bytes = code :: Leb128.unsigned ((index? name).getD 0) := by
  unfold Binary.variableIndex
  cases index? name with
  | none => simp
  | some index => simp [eq_comm]

mutual

theorem binary_succeeds_iff (instr : Instr) (bytes : List Byte) :
    Binary.instr module func instr = .ok bytes ↔
      instr.Named module func ∧ bytes = (instr.indexed module func).bytes := by
  cases instr with
  | const value | binary op | drop | ret | unreachable | branch depth | branchIf depth =>
      rw [Binary.instr, pure_succeeds_iff, eq_comm]
      exact ⟨fun same => ⟨trivial, same⟩, fun same => same.2⟩
  | localGet name | localSet name => exact variable_succeeds_iff func.slot? _ name bytes
  | globalGet name | globalSet name => exact variable_succeeds_iff module.globalIndex? _ name bytes
  | call name =>
      simp only [Binary.instr, function_table_get, Named, indexed, Indexed.bytes]
      cases module.callee? name with
      | none => simp
      | some callee =>
          simp only [Option.map_some]
          rw [pure_succeeds_iff, eq_comm]
          exact ⟨fun same => ⟨⟨callee, rfl⟩, same⟩, fun same => same.2⟩
  | cond body orelse =>
      have otherwise := binaries_succeed_iff orelse
      simp only [Binary.instr, bind_succeeds_iff, binaries_succeed_iff body, Named, indexed,
        Indexed.bytes]
      cases orelse with
      | nil =>
          simp only [pure_succeeds_iff, AllNamed, allIndexed]
          constructor
          · rintro ⟨_, ⟨named, rfl⟩, rfl⟩
            exact ⟨⟨named, trivial⟩, by simp⟩
          · rintro ⟨⟨named, _⟩, rfl⟩
            exact ⟨_, ⟨named, rfl⟩, by simp⟩
      | cons first rest =>
          simp only [Binary.instrs, bind_succeeds_iff, pure_succeeds_iff] at otherwise ⊢
          constructor
          · rintro ⟨_, ⟨named, rfl⟩, head, headDone, tail, tailDone, rfl⟩
            obtain ⟨others, same⟩ := (otherwise _).mp ⟨head, headDone, tail, tailDone, rfl⟩
            exact ⟨⟨named, others⟩, by rw [← same]; simp [allIndexed]⟩
          · rintro ⟨⟨named, others⟩, rfl⟩
            obtain ⟨head, headDone, tail, tailDone, same⟩ := (otherwise _).mpr ⟨others, rfl⟩
            refine ⟨_, ⟨named, rfl⟩, head, headDone, tail, tailDone, ?_⟩
            rw [← same]
            simp [allIndexed]
  | block body | loop body =>
      simp only [Binary.instr, bind_succeeds_iff, binaries_succeed_iff body, pure_succeeds_iff,
        Named, indexed, Indexed.bytes]
      constructor
      · rintro ⟨_, ⟨named, rfl⟩, rfl⟩
        exact ⟨named, rfl⟩
      · rintro ⟨named, rfl⟩
        exact ⟨_, ⟨named, rfl⟩, rfl⟩
termination_by structural instr

theorem binaries_succeed_iff (instrs : List Instr) (bytes : List Byte) :
    Binary.instrs module func instrs = .ok bytes ↔
      AllNamed module func instrs ∧ bytes = Indexed.bytesOfAll (allIndexed module func instrs) := by
  cases instrs with
  | nil =>
      rw [Binary.instrs, pure_succeeds_iff, eq_comm]
      exact ⟨fun same => ⟨trivial, same⟩, fun same => same.2⟩
  | cons first rest =>
      simp only [Binary.instrs, bind_succeeds_iff, pure_succeeds_iff, binary_succeeds_iff first,
        binaries_succeed_iff rest, AllNamed, allIndexed, Indexed.bytesOfAll]
      constructor
      · rintro ⟨_, ⟨named, rfl⟩, _, ⟨others, rfl⟩, rfl⟩
        exact ⟨⟨named, others⟩, rfl⟩
      · rintro ⟨⟨named, others⟩, rfl⟩
        exact ⟨_, ⟨named, rfl⟩, _, ⟨others, rfl⟩, rfl⟩
termination_by structural instrs

end

end Binary

end Instr

def Func.bodyBytes (module : Module) (func : Func) : List Byte :=
  Binary.sized (Binary.counted (Binary.localRuns func) ++
    Indexed.bytesOfAll (func.indexed module) ++ [Binary.endMark])

section Module

variable (module : Module)

theorem body_succeeds_iff (func : Func) (bytes : List Byte) :
    Binary.body module func = .ok bytes ↔
      Instr.AllNamed module func func.body ∧ bytes = func.bodyBytes module := by
  simp only [Binary.body, bind_succeeds_iff, Instr.binaries_succeed_iff, pure_succeeds_iff]
  constructor
  · rintro ⟨_, ⟨named, rfl⟩, rfl⟩
    exact ⟨named, rfl⟩
  · rintro ⟨named, rfl⟩
    exact ⟨_, ⟨named, rfl⟩, rfl⟩

theorem bodies_succeed_iff (functions : List Func) (bodies : List (List Byte)) :
    functions.mapM (Binary.body module) = .ok bodies ↔
      (∀ func ∈ functions, Instr.AllNamed module func func.body) ∧
        bodies = functions.map (Func.bodyBytes module) := by
  induction functions generalizing bodies with
  | nil =>
      rw [List.mapM_nil, pure_succeeds_iff, eq_comm]
      simp
  | cons first rest induction =>
      simp only [List.mapM_cons, bind_succeeds_iff, body_succeeds_iff, induction,
        pure_succeeds_iff, List.forall_mem_cons, List.map_cons]
      constructor
      · rintro ⟨_, ⟨named, rfl⟩, _, ⟨others, rfl⟩, rfl⟩
        exact ⟨⟨named, others⟩, rfl⟩
      · rintro ⟨⟨named, others⟩, rfl⟩
        exact ⟨_, ⟨named, rfl⟩, _, ⟨others, rfl⟩, rfl⟩

def Binary.sections : List (Byte × List (List Byte)) :=
  [(1, (arities module).map functionType), (2, HostImport.all.map (importEntry module)),
   (3, module.allFunctions.map fun func => typeIndex module func.params.length),
   (6, module.globals.map global), (7, exports HostImport.all.length module.allFunctions),
   (10, module.allFunctions.map (Func.bodyBytes module))]

/-- A module has a binary form exactly when all names in it have a place. -/
theorem encode_succeeds_iff (bytes : List Byte) :
    module.encode = .ok bytes ↔
      (∀ func ∈ module.allFunctions, Instr.AllNamed module func func.body) ∧
        bytes = Binary.header ++ (Binary.sections module).flatMap fun part =>
          Binary.sectionOf part.1 part.2 := by
  simp only [Module.encode, bind_succeeds_iff, bodies_succeed_iff, pure_succeeds_iff,
    Binary.sections, List.flatMap_cons, List.flatMap_nil, List.append_nil, List.append_assoc]
  constructor
  · rintro ⟨_, ⟨named, rfl⟩, rfl⟩
    exact ⟨named, rfl⟩
  · rintro ⟨named, rfl⟩
    exact ⟨_, ⟨named, rfl⟩, rfl⟩

end Module

end ScriptWasm
