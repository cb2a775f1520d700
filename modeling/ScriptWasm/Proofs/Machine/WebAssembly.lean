import ScriptWasm.Proofs.Code.Balance
import ScriptWasm.Proofs.Code.Lowerings
import ScriptWasm.Proofs.Machine.Labels

/-!
The machine runs a module as WebAssembly runs its binary form, where the binary form is valid and
tidy. A valid module whose branches discard operands that lie above others is run in another way:
the machine finds the discarded operands where WebAssembly has the others.
-/

namespace ScriptWasm

set_option autoImplicit false

namespace BinaryModule

def surroundings (module : BinaryModule) (func : BinaryFunc) : Surroundings :=
  ⟨func.params + func.locals, module.globals.length,
    module.imports.map BinaryImport.params ++ module.functions.map BinaryFunc.params⟩

/-- The validation rules: every function is valid, and no two exports share a name. -/
structure Valid (module : BinaryModule) : Prop where
  bodies : ∀ func ∈ module.functions,
    Indexed.validFunction (module.surroundings func) func.body = true
  exports : (module.exports.map Prod.fst).Nodup

def Tidy (module : BinaryModule) : Prop :=
  ∀ func ∈ module.functions,
    Indexed.TidyAll (module.surroundings func) [1] [0] .empty func.body

def Answers (module : BinaryModule) (position : Nat) (args : List Word) (store : Store)
    (outcome : CallOutcome) : Prop :=
  ∃ fuel, module.invoke fuel position args store = some outcome

end BinaryModule

def Machine.Answers (machine : Machine) (name : String) (args : List Word)
    (outcome : CallOutcome) : Prop :=
  ∃ steps, machine.invoke name args steps = some (outcome.1, { machine with store := outcome.2 })

namespace Module

variable (module : Module)

theorem surroundings_of_indexed (func : Func) :
    module.indexed.surroundings
        ⟨func.params.length, 1, func.locals.length, func.indexed module⟩ =
      module.surroundings func := by
  simp [BinaryModule.surroundings, surroundings, indexed, arities, Function.comp_def]

theorem valid_of_indexed (valid : module.indexed.Valid) (func : Func)
    (member : func ∈ module.allFunctions) : func.Valid module := by
  have here := valid.bodies _ (List.mem_map_of_mem member)
  rwa [surroundings_of_indexed] at here

theorem tidy_of_indexed (tidy : module.indexed.Tidy) (func : Func)
    (member : func ∈ module.allFunctions) : func.Tidy module := by
  have here := tidy _ (List.mem_map_of_mem member)
  rwa [surroundings_of_indexed] at here

/-- The body of a function, whose end and whose label return the word on top. -/
theorem outcome_alike (limit : Nat) (after : Operands) (closes : after.closes 1 = true)
    (first second : Option Exit) (alike : EndsAlike limit ⟨1, 0, []⟩ [] after first second) :
    first.map Exit.outcome = second.map Exit.outcome ∨
      ∃ last, first.map Exit.outcome = some (.error (.callStackExhausted limit), last) := by
  -- one word on top is enough, whatever lies below it
  have top : ∀ (state : Activation) (below : List Word), 1 ≤ state.stack.length →
      (state.onto below).pop.map Prod.fst = state.pop.map Prod.fst := by
    intro state below enough
    obtain ⟨value, rest, stack⟩ := List.exists_cons_of_length_pos enough
    rw [Activation.pop_onto below stack, Activation.pop_top stack]
    rfl
  cases alike with
  | unanswered => exact .inl rfl
  | next state below alive count keeps =>
      have one := Operands.count_of_closes after 1 closes alive
      refine .inl (congrArg some (Prod.ext ?_ rfl))
      exact top state below (by omega)
  | branch depth state below target found taken keeps =>
      cases depth with
      | zero =>
          cases found
          exact .inl (congrArg some (Prod.ext (top state below taken) rfl))
      | succ depth => cases found
  | returned value state other store =>
      exact .inl (congrArg some (Prod.ext rfl store))
  | trapped error state other store =>
      exact .inl (congrArg some (Prod.ext rfl store))
  | exhausted state exit => exact .inr ⟨state.store, rfl⟩

variable {module}

theorem invoke_alike
    (named : ∀ func ∈ module.allFunctions, Instr.AllNamed module func func.body)
    (valid : ∀ func ∈ module.allFunctions, func.Valid module)
    (tidy : ∀ func ∈ module.allFunctions, func.Tidy module) (limit fuel room : Nat) :
    Calling.Alike module limit (module.invoke limit fuel room) (module.indexed.invoke fuel) := by
  induction fuel generalizing room with
  | zero => exact fun index func args store _ _ => .inl rfl
  | succ fuel induction =>
      intro index func args store found arity
      have member := List.mem_of_getElem? found
      obtain ⟨after, validBody, closes⟩ := Operands.closed (valid func member)
      have alike := Instr.run_all_alike module func limit _ _ fuel (induction (room - 1)) ⟨1, 0, []⟩
        [] nofun func.body (named func member) .empty after rfl validBody (tidy func member)
        ⟨(args ++ List.replicate func.locals.length 0).toArray, [], store⟩ [] rfl nofun
      by_cases full : room = 0
      · exact .inr ⟨store, by simp only [invoke, if_pos full]⟩
      · simp only [invoke, if_neg full, found, if_pos arity, BinaryModule.invoke,
          function_of_index module index func found]
        exact outcome_alike limit after closes _ _ alike

/-- A valid module has linear code. -/
theorem loads_of_valid
    (named : ∀ func ∈ module.allFunctions, Instr.AllNamed module func func.body)
    (valid : ∀ func ∈ module.allFunctions, func.Valid module) :
    ∃ code, module.linearize = .ok code := by
  refine linearize_of_resolved module fun func member => ?_
  obtain ⟨after, validBody, _⟩ := Operands.closed (valid func member)
  exact Instr.all_resolved_of_valid module func _ [1] .empty after func.body (named func member)
    validBody

/-- A machine answers a call as WebAssembly does, if it has not too many calls open. -/
theorem answers_alike
    (named : ∀ func ∈ module.allFunctions, Instr.AllNamed module func func.body)
    (valid : ∀ func ∈ module.allFunctions, func.Valid module)
    (tidy : ∀ func ∈ module.allFunctions, func.Tidy module) (machine : Machine)
    (linearized : module.linearize = .ok machine.code) (name : String) (position : Nat)
    (exported : machine.code.exports.get? name = some position) (func : Func)
    (found : module.allFunctions[position]? = some func) (args : List Word)
    (arity : args.length = func.params.length)
    (within : ∀ store,
      ¬machine.Answers name args (.error (.callStackExhausted machine.limit), store))
    (outcome : CallOutcome) :
    machine.Answers name args outcome ↔
      module.indexed.Answers position args machine.store outcome := by
  have outcomes : ∀ outcome : CallOutcome, machine.Answers name args outcome ↔ ∃ fuel,
      module.invoke machine.limit fuel machine.limit position args machine.store = some outcome :=
    fun outcome => export_outcome_iff linearized exported outcome.1 outcome.2
  have alike := fun fuel => invoke_alike named valid tidy machine.limit fuel machine.limit position
    func args machine.store found arity
  rw [outcomes]
  constructor
  · rintro ⟨fuel, answer⟩
    rcases alike fuel with same | ⟨last, full⟩
    · exact ⟨fuel, same ▸ answer⟩
    · exact absurd ((outcomes _).mpr ⟨fuel, full⟩) (within last)
  · rintro ⟨fuel, answer⟩
    rcases alike fuel with same | ⟨last, full⟩
    · exact ⟨fuel, same.trans answer⟩
    · exact absurd ((outcomes _).mpr ⟨fuel, full⟩) (within last)

/-- A call with another number of arguments than its function takes is refused. -/
theorem other_arity_refused (machine : Machine) (linearized : module.linearize = .ok machine.code)
    (name : String) (position : Nat) (exported : machine.code.exports.get? name = some position)
    (func : Func) (found : module.allFunctions[position]? = some func) (args : List Word)
    (arity : args.length ≠ func.params.length) (steps : Nat) :
    ∃ error, machine.invoke name args steps = some (.error error, machine) := by
  obtain ⟨linear, there, form⟩ :=
    linearized_functions module machine.code linearized position func found
  obtain ⟨_, _, _, params, _, _⟩ := linear_func_succeeds module func linear form
  have refused : ∃ error,
      machine.code.enter machine.limit machine.limit position args = .error error := by
    unfold LinearModule.enter
    split
    · exact ⟨_, rfl⟩
    · simp only [there, params, if_neg arity]
      exact ⟨_, rfl⟩
  obtain ⟨error, refused⟩ := refused
  exact ⟨error, invoke_refused exported error refused steps⟩

end Module

/-- The machine mirrors WebAssembly. The bytes of a module are read as a module that, if it is valid
and tidy, every machine loads with the same globals. Whatever is in the store, a call of an export
then ends on the machine exactly as its function ends by the rules of WebAssembly, with the same
result or trap, globals and calls of the host, and one of the two goes on forever exactly when the
other does, unless the machine gives up because of too many open calls. A call with another number
of arguments than the function takes is refused. -/
theorem machine_mirrors_webassembly (module : Module) (bytes : List Byte) (fits : module.Fits 32)
    (encoded : module.encode = .ok bytes) :
    ∃ binary, Binary.read 32 bytes = some binary ∧
      (binary.Valid → binary.Tidy → ∀ limit, ∃ machine, Machine.load module limit = .ok machine ∧
        machine.store = ⟨(binary.globals.map BinaryGlobal.init).toArray, #[]⟩ ∧
        ∀ name position func args store,
          (name, binary.imports.length + position) ∈ binary.exports →
          binary.functions[position]? = some func →
          (args.length = func.params →
            (∀ last, ¬{ machine with store : Machine }.Answers name args
              (.error (.callStackExhausted limit), last)) →
            ∀ outcome, { machine with store : Machine }.Answers name args outcome ↔
              binary.Answers position args store outcome) ∧
          (args.length ≠ func.params → ∀ steps, ∃ error,
            { machine with store : Machine }.invoke name args steps =
              some (.error error, { machine with store }))) := by
  have named := ((encode_succeeds_iff module bytes).mp encoded).1
  refine ⟨module.indexed, encoded_is_read module 32 bytes fits encoded, fun isValid isTidy limit =>
    ?_⟩
  -- Validity and tidiness of the binary module are those of the module it was encoded from.
  have valid := module.valid_of_indexed isValid
  have tidy := module.tidy_of_indexed isTidy
  obtain ⟨code, linearized⟩ := Module.loads_of_valid named valid
  have forms := (linearized_matches module code linearized).2
  refine ⟨⟨code, limit, ⟨(code.globals.map Prod.snd).toArray, #[]⟩⟩, ?_, by rw [forms.globals], ?_⟩
  · simp only [Machine.load, linearized, ok_bind]
    rfl
  · intro name position func args store exported found
    have exportedToo : code.exports.get? name = some position :=
      (forms.exports isValid.exports name position).mpr exported
    simp only [Module.indexed, List.getElem?_map, Option.map_eq_some_iff] at found
    obtain ⟨source, there, rfl⟩ := found
    exact ⟨fun arity within outcome => Module.answers_alike named valid tidy ⟨code, limit, store⟩
        linearized name position exportedToo source there args arity within outcome,
      Module.other_arity_refused ⟨code, limit, store⟩ linearized name position exportedToo source
        there args⟩

/-- The module of an analysed program without objects among its parameters and results is one that
every machine runs as WebAssembly does. -/
theorem generated_functions_are_tidy (program : Program) (analysis : Analysis)
    (analysed : program.analyze = .ok analysis) (plain : program.Plain) :
    ∃ module, analysis.generate = .ok module ∧
      ∀ func ∈ module.allFunctions, func.Valid module ∧ func.Tidy module := by
  obtain ⟨typed, _, _⟩ := analyze_typed program analysis analysed
  have plainAfter := analyze_plain program analysis analysed plain
  refine ⟨analysis.compiled, generate_typed analysis typed plainAfter, fun func member => ?_⟩
  obtain ⟨valid, clean⟩ := typed.compiled_valid plainAfter func member
  exact ⟨valid, func.tidy_of_clean analysis.compiled clean⟩

/-- A branch that discards an operand where the function has no others, before one that leaves two
bodies above an operand. -/
def tidyModule : Module where
  globals := []
  functions := []
  entry := ⟨none, some "main", ["n"], [],
    [.block [.const 9, .localGet "n", .branchIf 0, .drop], .localGet "n",
      .block [.block [.const 4, .call "print", .branchIf 0, .branch 1]], .const 5, .binary .add]⟩

/-- A branch that discards an operand above another one. -/
def discardingModule : Module where
  globals := []
  functions := []
  entry := ⟨none, some "exported_func", [], [],
    [.const 10, .block [.const 1, .branch 0], .const 5, .binary .add]⟩

theorem tidy_module_fits : tidyModule.Fits 32 where
  functions := by decide
  globals := by decide
  slots := by decide
  depths := by decide
  sections := by decide +kernel

theorem tidy_module_is_tidy : tidyModule.indexed.Tidy := by
  intro func member
  cases List.mem_singleton.mp member
  change Indexed.TidyAll ⟨1, 0, [1, 1, 1, 1, 2, 2, 2, 1]⟩ [1] [0] .empty
    [.block [.const 9, .localGet 0, .branchIf 0, .drop], .localGet 0,
      .block [.block [.const 4, .call 0, .branchIf 0, .branch 1]], .const 5, .binary .add]
  simp [Indexed.TidyAll, Indexed.Tidy, enteredAt, Operands.empty, Operands.push, Operands.pop,
    Operands.closes, Operands.unreached]

theorem tidy_module_is_mirrored :
    ∃ bytes binary machine, tidyModule.Fits 32 ∧ tidyModule.encode = .ok bytes ∧
      Binary.read 32 bytes = some binary ∧ binary.Valid ∧ binary.Tidy ∧
      Machine.load tidyModule 3 = .ok machine ∧
      machine.Answers "main" [7] (.ok 12, ⟨#[], #[⟨.print, 4⟩]⟩) ∧
      binary.Answers 0 [7] machine.store (.ok 12, ⟨#[], #[⟨.print, 4⟩]⟩) := by
  obtain ⟨bytes, encoded⟩ : ∃ bytes, tidyModule.encode = .ok bytes := ⟨_, rfl⟩
  obtain ⟨binary, read, mirrors⟩ :=
    machine_mirrors_webassembly tidyModule bytes tidy_module_fits encoded
  have known := (encoded_is_read tidyModule 32 bytes tidy_module_fits encoded).symm.trans read
  obtain rfl : tidyModule.indexed = binary := Option.some.inj known
  have valid : tidyModule.indexed.Valid := ⟨by decide, by decide⟩
  obtain ⟨machine, loaded, _, calls⟩ := mirrors valid tidy_module_is_tidy 3
  obtain ⟨agree, _⟩ := calls "main" 0 _ [7] machine.store (by decide) rfl
  have answers : machine.Answers "main" [7] (.ok 12, ⟨#[], #[⟨.print, 4⟩]⟩) := by
    have computed : Machine.load tidyModule 3 = .ok ⟨_, 3, ⟨#[], #[]⟩⟩ := rfl
    obtain rfl := Except.ok.inj (computed.symm.trans loaded)
    refine ⟨20, ?_⟩
    change Machine.invoke _ "main" [7] 20 = some (.ok 12, ⟨_, 3, ⟨#[], #[⟨.print, 4⟩]⟩⟩)
    cbv
  have exported : machine.code.exports.get? "main" = some 0 := by
    have computed : Machine.load tidyModule 3 = .ok _ := rfl
    obtain rfl := Except.ok.inj (computed.symm.trans loaded)
    rfl
  refine ⟨bytes, _, machine, tidy_module_fits, encoded, read, valid, tidy_module_is_tidy, loaded,
    answers, (agree rfl (fun last refused => ?_) _).mp answers⟩
  obtain ⟨steps, given⟩ := answers
  obtain ⟨more, exhausted⟩ := refused
  cases invoke_unique exported steps more _ _ given exhausted

theorem discarding_module_fits : discardingModule.Fits 32 where
  functions := by decide
  globals := by decide
  slots := by decide
  depths := by decide
  sections := by decide +kernel

/-- The machine keeps what a branch discards. This module is valid, and its binary form answers 15,
but the machine answers 6. -/
theorem discarded_operands_are_kept :
    ∃ bytes binary machine, discardingModule.encode = .ok bytes ∧
      Binary.read 32 bytes = some binary ∧ binary.Valid ∧
      Machine.load discardingModule 3 = .ok machine ∧ ("exported_func", 7) ∈ binary.exports ∧
      machine.Answers "exported_func" [] (.ok 6, machine.store) ∧
      binary.Answers 0 [] machine.store (.ok 15, machine.store) := by
  obtain ⟨bytes, encoded⟩ : ∃ bytes, discardingModule.encode = .ok bytes := ⟨_, rfl⟩
  exact ⟨bytes, discardingModule.indexed, _, encoded,
    encoded_is_read discardingModule 32 bytes discarding_module_fits encoded,
    ⟨by decide, by decide⟩, rfl, by decide, ⟨8, rfl⟩, ⟨1, rfl⟩⟩

end ScriptWasm
