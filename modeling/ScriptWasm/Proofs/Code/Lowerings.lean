import ScriptWasm.Proofs.Machine.Translation
import ScriptWasm.Proofs.Code.Binary.RoundTrip

/-!
A module has two lowerings, one to linear code and one to bytes. Both give every name the same
meaning: the operations of a function are the same in both forms and stand in the same order, and
only the jumps of the one and the bodies of the other differ. The linear form is refused for one
more reason than the binary form, a branch that leaves its function.
-/

namespace ScriptWasm

set_option autoImplicit false

/-- What an instruction of linear code is in the binary form. A jump has no counterpart there. -/
def LinearInstr.operation? : LinearInstr → Option Indexed
  | const value => some (.const value)
  | localGet slot => some (.localGet slot)
  | localSet slot => some (.localSet slot)
  | globalGet index => some (.globalGet index)
  | globalSet index => some (.globalSet index)
  | binary op => some (.binary op)
  | drop => some .drop
  | jump _ | jumpIfZero _ | jumpUnlessZero _ => none
  | call index => some (.call (HostImport.all.length + index))
  | callHost primitive => some (.call primitive.index)
  | ret => some .ret
  | unreachable => some .unreachable

namespace Indexed

mutual

def operations : Indexed → List Indexed
  | cond body orelse => operationsOfAll body ++ operationsOfAll orelse
  | block body | loop body => operationsOfAll body
  | branch _ | branchIf _ => []
  | operation => [operation]

def operationsOfAll : List Indexed → List Indexed
  | [] => []
  | first :: rest => operations first ++ operationsOfAll rest

end

end Indexed

structure LinearFunc.Matches (linear : LinearFunc) (binary : BinaryFunc) : Prop where
  params : linear.params = binary.params
  locals : linear.locals = binary.locals
  operations : ∃ code, linear.code.toList = code ++ [.ret] ∧
    code.filterMap LinearInstr.operation? = Indexed.operationsOfAll binary.body

/-- A module in both forms. In the binary form the primitives come before the functions. -/
structure LinearModule.Matches (code : LinearModule) (binary : BinaryModule) : Prop where
  functions : List.Forall₂ LinearFunc.Matches code.functions.toList binary.functions
  globals : code.globals.map Prod.snd = binary.globals.map BinaryGlobal.init
  exports : (binary.exports.map Prod.fst).Nodup → ∀ name index,
    code.exports.get? name = some index ↔
      (name, HostImport.all.length + index) ∈ binary.exports

section Functions

variable (module : Module) (func : Func)

mutual

theorem linear_matches (targets : List Nat) (here : Nat) (instr : Instr) (code : List LinearInstr)
    (linearized : module.linear func targets here instr = .ok code) :
    instr.Named module func ∧
      code.filterMap LinearInstr.operation? = (instr.indexed module func).operations := by
  -- Both lowerings look the same names up, and they number what they find in the same way.
  cases instr with
  | const value | binary op | drop | ret | unreachable =>
      cases linearized
      exact ⟨trivial, rfl⟩
  | localGet name | localSet name =>
      simp only [Module.linear, bind_succeeds_iff, Module.slot_succeeds_iff, pure_succeeds_iff]
        at linearized
      obtain ⟨slot, found, rfl⟩ := linearized
      exact ⟨⟨slot, found⟩, by rw [Instr.indexed, found]; rfl⟩
  | globalGet name | globalSet name =>
      simp only [Module.linear, bind_succeeds_iff, Module.global_succeeds_iff, pure_succeeds_iff]
        at linearized
      obtain ⟨index, found, rfl⟩ := linearized
      exact ⟨⟨index, found⟩, by rw [Instr.indexed, found]; rfl⟩
  | call name =>
      rw [Module.linear] at linearized
      cases found : module.callee? name with
      | none =>
          rw [found] at linearized
          cases linearized
      | some callee =>
          rw [found] at linearized
          refine ⟨⟨callee, found⟩, ?_⟩
          rw [Instr.indexed, found]
          cases callee <;> cases linearized <;> rfl
  | cond body orelse =>
      simp only [Module.linear, bind_succeeds_iff, pure_succeeds_iff] at linearized
      obtain ⟨bodyCode, bodyDone, elseCode, elseDone, rfl⟩ := linearized
      obtain ⟨bodyNamed, bodySame⟩ := linear_all_matches _ _ body bodyCode bodyDone
      obtain ⟨elseNamed, elseSame⟩ := linear_all_matches _ _ orelse elseCode elseDone
      refine ⟨⟨bodyNamed, elseNamed⟩, ?_⟩
      change (bodyCode ++ .jump _ :: elseCode).filterMap LinearInstr.operation? = _
      rw [Instr.indexed, Indexed.operations, ← bodySame, ← elseSame, List.filterMap_append]
      rfl
  | block body => exact linear_all_matches _ _ body code linearized
  | loop body => exact linear_all_matches _ _ body code linearized
  | branch depth | branchIf depth =>
      simp only [Module.linear, bind_succeeds_iff, pure_succeeds_iff] at linearized
      obtain ⟨target, _, rfl⟩ := linearized
      exact ⟨trivial, rfl⟩
termination_by structural instr

theorem linear_all_matches (targets : List Nat) (here : Nat) (instrs : List Instr)
    (code : List LinearInstr) (linearized : module.linearAll func targets here instrs = .ok code) :
    Instr.AllNamed module func instrs ∧ code.filterMap LinearInstr.operation? =
      Indexed.operationsOfAll (Instr.allIndexed module func instrs) := by
  cases instrs with
  | nil =>
      cases linearized
      exact ⟨trivial, rfl⟩
  | cons first rest =>
      simp only [Module.linearAll, bind_succeeds_iff, pure_succeeds_iff] at linearized
      obtain ⟨firstCode, firstDone, restCode, restDone, rfl⟩ := linearized
      obtain ⟨firstNamed, firstSame⟩ := linear_matches _ _ first firstCode firstDone
      obtain ⟨restNamed, restSame⟩ := linear_all_matches _ _ rest restCode restDone
      refine ⟨⟨firstNamed, restNamed⟩, ?_⟩
      rw [Instr.allIndexed, Indexed.operationsOfAll, List.filterMap_append, firstSame, restSame]
termination_by structural instrs

end

def RuntimeError.IsBranch (error : RuntimeError) : Prop :=
  ∃ depth, error = .invalidBranch depth

theorem target_fails_only (targets : List Nat) (depth : Nat) :
    FailsOnly RuntimeError.IsBranch (Module.targetOrError targets depth) := by
  unfold Module.targetOrError
  cases targets[depth]? with
  | some target => exact trivial
  | none => exact ⟨depth, rfl⟩

mutual

theorem linear_fails_only (targets : List Nat) (here : Nat) (instr : Instr)
    (named : instr.Named module func) :
    FailsOnly RuntimeError.IsBranch (module.linear func targets here instr) := by
  cases instr with
  | const value | binary op | drop | ret | unreachable => exact trivial
  | localGet name | localSet name =>
      obtain ⟨slot, found⟩ := named
      rw [Module.linear, (Module.slot_succeeds_iff func name slot).mpr found]
      exact trivial
  | globalGet name | globalSet name =>
      obtain ⟨index, found⟩ := named
      rw [Module.linear, (Module.global_succeeds_iff module name index).mpr found]
      exact trivial
  | call name =>
      obtain ⟨callee, found⟩ := named
      rw [Module.linear, found]
      cases callee <;> exact trivial
  | cond body orelse =>
      exact fails_only_bind (linear_all_fails_only _ _ body named.1) fun _ _ =>
        fails_only_bind (linear_all_fails_only _ _ orelse named.2) fun _ _ => trivial
  | block body => exact linear_all_fails_only _ _ body named
  | loop body => exact linear_all_fails_only _ _ body named
  | branch depth | branchIf depth =>
      exact fails_only_bind (target_fails_only targets depth) fun _ _ => trivial
termination_by structural instr

theorem linear_all_fails_only (targets : List Nat) (here : Nat) (instrs : List Instr)
    (named : Instr.AllNamed module func instrs) :
    FailsOnly RuntimeError.IsBranch (module.linearAll func targets here instrs) := by
  cases instrs with
  | nil => exact trivial
  | cons first rest =>
      exact fails_only_bind (linear_fails_only _ _ first named.1) fun _ _ =>
        fails_only_bind (linear_all_fails_only _ _ rest named.2) fun _ _ => trivial
termination_by structural instrs

end

end Functions

section Modules

variable (module : Module)

theorem linear_func_matches (func : Func) (linear : LinearFunc)
    (linearized : module.linearFunc func = .ok linear) :
    Instr.AllNamed module func func.body ∧
      linear.Matches ⟨func.params.length, 1, func.locals.length, func.indexed module⟩ := by
  simp only [Module.linear_func_eq, bind_succeeds_iff, pure_succeeds_iff] at linearized
  obtain ⟨code, done, rfl⟩ := linearized
  obtain ⟨named, same⟩ := linear_all_matches module func _ _ func.body code done
  exact ⟨named, rfl, rfl, code, rfl, same⟩

theorem linear_functions_match (functions : List Func) (linears : List LinearFunc)
    (linearized : functions.mapM module.linearFunc = .ok linears) :
    (∀ func ∈ functions, Instr.AllNamed module func func.body) ∧
      List.Forall₂ LinearFunc.Matches linears (functions.map fun func =>
        ⟨func.params.length, 1, func.locals.length, func.indexed module⟩) := by
  have related := map_m_related module.linearFunc functions linears linearized
  clear linearized
  induction related with
  | nil => exact ⟨by simp, .nil⟩
  | cons done _ induction =>
      obtain ⟨named, same⟩ := linear_func_matches module _ _ done
      exact ⟨List.forall_mem_cons.mpr ⟨named, induction.1⟩, .cons same induction.2⟩

theorem linearize_fails_only
    (named : ∀ func ∈ module.allFunctions, Instr.AllNamed module func func.body) :
    FailsOnly RuntimeError.IsBranch module.linearize := by
  refine fails_only_bind ?_ fun _ _ => trivial
  refine fails_only_map_m _ _ fun func member => ?_
  rw [Module.linear_func_eq]
  exact fails_only_bind (linear_all_fails_only module func _ _ func.body (named func member))
    fun _ _ => trivial

theorem exported_names (start : Nat) (functions : List Func) :
    (exportedFrom start functions).map Prod.fst = functions.filterMap Func.exportName := by
  induction functions generalizing start with
  | nil => rfl
  | cons first rest induction =>
      have later := induction (start + 1)
      rw [exportedFrom] at later ⊢
      cases exported : first.exportName with
      | none => simpa [exported] using later
      | some name => simpa [exported] using later

/-- Where no two exports share a name, the table of the linear form has them all. -/
theorem export_table_get (name : String) (index : Nat)
    (distinct : (module.indexed.exports.map Prod.fst).Nodup) :
    module.exportTable.get? name = some index ↔
      (name, HostImport.all.length + index) ∈ module.indexed.exports := by
  have distinctToo : ((exportedFrom 0 module.allFunctions).map Prod.fst).Nodup := by
    rw [exported_names, ← exported_names HostImport.all.length]
    exact distinct
  have table : module.exportTable = Table.ofList (exportedFrom 0 module.allFunctions) := rfl
  rw [table, Table.get_of_list, Table.value_in_reverse _ _ distinctToo,
    Table.value_in_eq_some_iff _ _ _ distinctToo, Module.indexed, exported_iff, exported_iff]
  simp only [Nat.zero_add, Nat.add_left_cancel_iff]

theorem linearized_matches (code : LinearModule) (linearized : module.linearize = .ok code) :
    (∀ func ∈ module.allFunctions, Instr.AllNamed module func func.body) ∧
      code.Matches module.indexed := by
  simp only [Module.linearize, bind_succeeds_iff, pure_succeeds_iff] at linearized
  obtain ⟨functions, mapped, rfl⟩ := linearized
  obtain ⟨named, same⟩ := linear_functions_match module _ functions mapped
  refine ⟨named, same, ?_, fun distinct name index => export_table_get module name index distinct⟩
  simp [Module.indexed]

theorem sizes_bounded {Item : Type} (items : List Item) (size : Item → Nat) :
    ∃ bound, ∀ item ∈ items, size item ≤ bound :=
  ⟨(items.map size).max?.getD 0, fun _ member =>
    List.le_max?_getD_of_mem (List.mem_map_of_mem member)⟩

/-- Every module fits some width. -/
theorem fits_some_width : ∃ bits, module.Fits bits := by
  obtain ⟨slots, slotsBelow⟩ := sizes_bounded module.allFunctions fun func =>
    func.params.length + func.locals.length
  obtain ⟨depths, depthsBelow⟩ := sizes_bounded
    (module.allFunctions.flatMap fun func => Instr.depthsOfAll func.body) fun depth => depth
  obtain ⟨sections, sectionsBelow⟩ := sizes_bounded (Binary.sections module) fun part =>
    (Binary.counted part.2).length
  generalize total : HostImport.all.length + module.allFunctions.length + module.globals.length +
    slots + depths + sections = bits
  have room : bits < 2 ^ bits := Nat.lt_two_pow_self
  refine ⟨bits, by omega, by omega, fun func member => ?_, fun func member depth here => ?_,
    fun part member => ?_⟩
  · have bound := slotsBelow func member
    omega
  · have bound := depthsBelow depth (List.mem_flatMap.mpr ⟨func, member, here⟩)
    omega
  · have bound := sectionsBelow part member
    omega

/-- A module with linear code has a binary form, and one with a binary form has linear code unless a
branch leaves its function. The two forms then match, and what the bytes stand for is the same for
readers of every width that the module fits. -/
theorem lowerings_agree :
    (∀ code, module.linearize = .ok code → ∃ bytes, module.encode = .ok bytes) ∧
    (∀ bytes, module.encode = .ok bytes → (∃ code, module.linearize = .ok code) ∨
      ∃ depth, module.linearize = .error (.invalidBranch depth)) ∧
    ∀ code bytes, module.linearize = .ok code → module.encode = .ok bytes →
      ∃ binary, (∃ bits, module.Fits bits) ∧
        (∀ bits, module.Fits bits → Binary.read bits bytes = some binary) ∧
        code.Matches binary := by
  refine ⟨fun code linearized => ?_, fun bytes encoded => ?_,
    fun code bytes linearized encoded => ?_⟩
  · have named := (linearized_matches module code linearized).1
    exact ⟨_, (encode_succeeds_iff module _).mpr ⟨named, rfl⟩⟩
  · have named := ((encode_succeeds_iff module bytes).mp encoded).1
    have failure := linearize_fails_only module named
    cases outcome : module.linearize with
    | ok code => exact Or.inl ⟨code, rfl⟩
    | error error =>
        rw [outcome] at failure
        obtain ⟨depth, rfl⟩ := failure
        exact Or.inr ⟨depth, rfl⟩
  · exact ⟨module.indexed, fits_some_width module,
      fun bits fits => encoded_is_read module bits bytes fits encoded,
      (linearized_matches module code linearized).2⟩

end Modules

theorem hiding_names_agree :
    ∃ code bytes binary, hidingModule.linearize = .ok code ∧ hidingModule.encode = .ok bytes ∧
      Binary.read 32 bytes = some binary ∧ code.Matches binary ∧
      code.exports.get? "main" = some 1 ∧ ("main", 8) ∈ binary.exports := by
  obtain ⟨encodes, _, agree⟩ := lowerings_agree hidingModule
  have linearized : hidingModule.linearize = .ok _ := rfl
  obtain ⟨bytes, encoded⟩ := encodes _ linearized
  obtain ⟨binary, _, read, same⟩ := agree _ bytes linearized encoded
  have fit := read 32 hiding_module_fits
  have known := (encoded_is_read hidingModule 32 bytes hiding_module_fits encoded).symm.trans fit
  obtain rfl : hidingModule.indexed = binary := Option.some.inj known
  exact ⟨_, bytes, _, linearized, encoded, fit, same, by decide, by decide⟩

end ScriptWasm
