import ScriptWasm.Proofs.Code.Binary.Instructions
import ScriptWasm.Proofs.Code.Named
import ScriptWasm.Proofs.Code.Names

/-!
What the binary form of a module stands for: its imports, globals, functions and exports, with
indices in the place of names. All indices are smaller than the tables that they point into.
-/

namespace ScriptWasm

set_option autoImplicit false

def exportedFrom (start : Nat) (functions : List Func) : List (String × Nat) :=
  (functions.zipIdx start).filterMap fun (func, index) =>
    func.exportName.map fun name => (name, index)

/-- A module with indices in the place of names. The functions come after the imports, and all of
them take words and return one. -/
def Module.indexed (module : Module) : BinaryModule where
  imports := HostImport.all.map fun primitive =>
    ⟨HostImport.moduleName, primitive.name, primitive.arity, 1⟩
  globals := module.globals.map fun cell => ⟨true, cell.init⟩
  functions := module.allFunctions.map fun func =>
    ⟨func.params.length, 1, func.locals.length, func.indexed module⟩
  exports := exportedFrom HostImport.all.length module.allFunctions

/-- A module whose tables, sections and depths can be written with numbers of so many bits. -/
structure Module.Fits (module : Module) (bits : Nat) : Prop where
  functions : HostImport.all.length + module.allFunctions.length < 2 ^ bits
  globals : module.globals.length < 2 ^ bits
  slots : ∀ func ∈ module.allFunctions, func.params.length + func.locals.length < 2 ^ bits
  depths : ∀ func ∈ module.allFunctions, ∀ depth ∈ Instr.depthsOfAll func.body, depth < 2 ^ bits
  sections : ∀ part ∈ Binary.sections module, (Binary.counted part.2).length < 2 ^ bits

def exportBytes (entry : String × Nat) : List Byte :=
  Binary.name entry.1 ++ 0x00 :: Leb128.unsigned entry.2

theorem exported_iff (start : Nat) (functions : List Func) (name : String) (index : Nat) :
    (name, index) ∈ exportedFrom start functions ↔ ∃ position func,
      functions[position]? = some func ∧ func.exportName = some name ∧
        index = start + position := by
  simp only [exportedFrom, List.mem_filterMap, Prod.exists,
    List.mk_mem_zipIdx_iff_le_and_getElem?_sub, Option.map_eq_some_iff, Prod.mk.injEq]
  constructor
  · rintro ⟨func, _, ⟨above, found⟩, _, exported, rfl, rfl⟩
    exact ⟨_, func, found, exported, by omega⟩
  · rintro ⟨position, func, found, exported, rfl⟩
    have there : functions[start + position - start]? = some func := by
      rwa [Nat.add_sub_cancel_left]
    exact ⟨func, _, ⟨Nat.le_add_right _ _, there⟩, name, exported, rfl, rfl⟩

section Indices

variable (module : Module) (func : Func) (bits : Nat) (fits : module.Fits bits)
variable (member : func ∈ module.allFunctions)

include fits

theorem global_index_fits (name : String) (index : Nat)
    (found : module.globalIndex? name = some index) : index < 2 ^ bits := by
  have bound := last_index_bound _ _ _ found
  rw [List.length_map] at bound
  exact Nat.lt_trans bound fits.globals

theorem callee_index_fits (name : String) (callee : Callee)
    (found : module.callee? name = some callee) : Binary.calleeIndex callee < 2 ^ bits := by
  have room := fits.functions
  cases callee with
  | function index =>
      obtain ⟨called, there⟩ := module.function_of_callee name index found
      have below := (List.getElem?_eq_some_iff.mp there).1
      change HostImport.all.length + index < 2 ^ bits
      omega
  | primitive primitive =>
      have below : primitive.index < HostImport.all.length := by cases primitive <;> decide
      change primitive.index < 2 ^ bits
      omega

include member

theorem slot_fits (name : String) (slot : Nat) (found : func.slot? name = some slot) :
    slot < 2 ^ bits := by
  have bound := last_index_bound _ _ _ found
  rw [List.length_append] at bound
  exact Nat.lt_trans bound (fits.slots func member)

end Indices

mutual

theorem indexed_fits (module : Module) (func : Func) (bits : Nat) (fits : module.Fits bits)
    (member : func ∈ module.allFunctions) (instr : Instr) (named : instr.Named module func)
    (shallow : ∀ depth ∈ instr.depths, depth < 2 ^ bits) :
    (instr.indexed module func).Fits bits := by
  cases instr with
  | const value | binary op | drop | ret | unreachable => trivial
  | localGet name | localSet name =>
      obtain ⟨slot, found⟩ := named
      simp only [Instr.indexed, found]
      exact slot_fits module func bits fits member name slot found
  | globalGet name | globalSet name =>
      obtain ⟨index, found⟩ := named
      simp only [Instr.indexed, found]
      exact global_index_fits module bits fits name index found
  | call name =>
      obtain ⟨callee, found⟩ := named
      simp only [Instr.indexed, found]
      exact callee_index_fits module bits fits name callee found
  | cond body orelse =>
      rw [Instr.depths] at shallow
      exact ⟨all_indexed_fit module func bits fits member body named.1
          fun depth here => shallow depth (List.mem_append_left _ here),
        all_indexed_fit module func bits fits member orelse named.2
          fun depth here => shallow depth (List.mem_append_right _ here)⟩
  | block body => exact all_indexed_fit module func bits fits member body named shallow
  | loop body => exact all_indexed_fit module func bits fits member body named shallow
  | branch depth | branchIf depth => exact shallow depth (by simp [Instr.depths])
termination_by structural instr

theorem all_indexed_fit (module : Module) (func : Func) (bits : Nat) (fits : module.Fits bits)
    (member : func ∈ module.allFunctions) (instrs : List Instr)
    (named : Instr.AllNamed module func instrs)
    (shallow : ∀ depth ∈ Instr.depthsOfAll instrs, depth < 2 ^ bits) :
    Indexed.AllFit bits (Instr.allIndexed module func instrs) := by
  cases instrs with
  | nil => trivial
  | cons first rest =>
      rw [Instr.depthsOfAll] at shallow
      exact ⟨indexed_fits module func bits fits member first named.1
          fun depth here => shallow depth (List.mem_append_left _ here),
        all_indexed_fit module func bits fits member rest named.2
          fun depth here => shallow depth (List.mem_append_right _ here)⟩
termination_by structural instrs

end

end ScriptWasm
