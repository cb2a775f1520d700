import ScriptWasm.Proofs.Semantics.Compiled

/-!
Whole functions. A call starts with the arguments and the initial values of the locals in its slots,
runs the code of its body, and ends as the evaluator says, for every amount of fuel and every number
of calls that may still be opened.
-/

namespace ScriptWasm

set_option autoImplicit false

theorem get_of_zip (names : List String) (values : List Word) (distinct : names.Nodup)
    (length : values.length = names.length) (name : String) :
    (Table.ofList (names.zip values)).get? name =
      (lastIndex? name names).bind fun index => values[index]? := by
  have keys : (names.zip values).map Prod.fst = names := List.map_fst_zip (Nat.le_of_eq length.symm)
  have nodup : ((names.zip values).map Prod.fst).Nodup := by
    rw [keys]
    exact distinct
  rw [Table.ofList, Table.get_fold_insert _ _ _ nodup, Table.get_empty, Option.or_none]
  cases place : lastIndex? name names with
  | none =>
      rw [Option.bind_none, ← Option.not_isSome_iff_eq_none, Table.value_in_map_fst, keys]
      intro member
      obtain ⟨index, found⟩ := last_index_exists name names member
      rw [place] at found
      cases found
  | some index =>
      have here := last_index_gives_value name names index place
      have bound : index < values.length := length ▸ (List.getElem?_eq_some_iff.mp here).1
      rw [Option.bind_some, List.getElem?_eq_getElem bound,
        Table.value_in_eq_some_iff _ _ _ nodup]
      apply List.mem_of_getElem? (i := index)
      rw [List.getElem?_zip_eq_some]
      exact ⟨here, List.getElem?_eq_getElem bound⟩

def VarDef.word (var : VarDef) : Word :=
  var.init.word

namespace FuncDef

def startWords (func : FuncDef) (values : List Word) : List Word :=
  values ++ func.locals.map VarDef.word

end FuncDef

theorem start_words_length {func : FuncDef} {values : List Word}
    (arity : values.length = func.params.length) :
    (func.startWords values).length = func.ownNames.length := by
  simp [FuncDef.startWords, FuncDef.ownNames, arity]

theorem frame_get {func : FuncDef} {values : List Word}
    (arity : values.length = func.params.length) (distinct : func.ownNames.Nodup)
    (name : String) :
    (func.frame wordModel values).get? name =
      (lastIndex? name func.ownNames).bind fun index => (func.startWords values)[index]? := by
  have entries : (func.params.map Param.name).zip values ++
        func.locals.map (fun var => (var.name, wordModel.literal var.init)) =
      func.ownNames.zip (func.startWords values) := by
    rw [FuncDef.ownNames, FuncDef.startWords, List.zip_append (by simp [arity])]
    congr 1
    rw [List.zip_map']
    rfl
  rw [FuncDef.frame, entries]
  exact get_of_zip _ _ distinct (start_words_length arity) name

/-- The slots of a call while its locals are being initialized: those from `rest` on are still
zero. -/
theorem run_inits (module : Module) (calling : Calling) (fuel : Nat) (func : FuncDef)
    (vars : VarTable) (distinct : func.ownNames.Nodup) (values : List Word)
    (arity : values.length = func.params.length) (store : Store) (finished rest : List VarDef)
    (split : func.locals = finished ++ rest) :
    Instr.runAll module (func.compiled vars) calling fuel
        (rest.flatMap fun var => [.const var.init.word, .localSet var.name])
        ⟨(values ++ finished.map VarDef.word ++
          List.replicate rest.length 0).toArray, [], store⟩ =
      some (.next ⟨(func.startWords values).toArray, [], store⟩) := by
  induction rest generalizing finished with
  | nil =>
      rw [List.append_nil] at split
      simp [FuncDef.startWords, split]
  | cons var rest induction =>
      have place : (func.compiled vars).slot? var.name =
          some (values.length + finished.length) := by
        apply last_index_of_nodup _ _ distinct
        simp [FuncDef.ownNames, split, arity]
      have next := induction (finished ++ [var]) (by rw [split, List.append_assoc]; rfl)
      have written : ((values ++ finished.map VarDef.word ++
            List.replicate (var :: rest).length 0).toArray.setIfInBounds
              (values.length + finished.length) var.init.word) =
          (values ++ (finished ++ [var]).map VarDef.word ++
            List.replicate rest.length 0).toArray := by
        have prefix_ : values.length + finished.length =
            (values ++ finished.map VarDef.word).length := by simp
        rw [List.setIfInBounds_toArray, prefix_, List.set_append_right _ _ (Nat.le_refl _),
          Nat.sub_self]
        simp [VarDef.word, List.replicate_succ]
      have bound : values.length + finished.length < (values ++ finished.map VarDef.word ++
          List.replicate (var :: rest).length 0).toArray.size := by
        simp
      simp only [List.flatMap_cons, List.cons_append, List.nil_append, Instr.runAll, Instr.run,
        Exit.andThen, place, Activation.writeSlot, Activation.pop, Activation.push,
        Activation.withStack, ok_bind, if_pos bound, written]
      exact next

/-- The names that a function declares are not global in it, and all others are. -/
theorem own_iff_not_global {analysis : Analysis} (typed : analysis.Typed) (func : FuncDef)
    (vars : VarTable) (fits : func.Typed analysis.functions analysis.globals vars) (name : String)
    (binding : Binding) (found : vars.get? name = some binding) :
    name ∈ func.ownNames ↔ binding.storage ≠ .global := by
  rw [FuncDef.ownNames, ← own_names, ← Table.value_in_map_fst]
  rw [fits.lookup, Option.or_eq_some_iff] at found
  rcases found with own | ⟨absent, outer⟩
  · rw [own]
    rw [Table.value_in_eq_some_iff _ _ _ fits.distinct, FuncDef.own, List.mem_append] at own
    constructor
    · intro _ isGlobal
      rcases own with param | «local»
      · obtain ⟨_, _, same⟩ := List.mem_mapIdx.mp param
        cases same
        cases isGlobal
      · obtain ⟨_, _, same⟩ := List.mem_map.mp «local»
        cases same
        cases isGlobal
    · intro _
      rfl
  · have isGlobal := globals_are_global _ _ typed.globals name binding outer
    rw [absent]
    constructor
    · intro impossible
      cases impossible
    · intro notGlobal
      exact absurd isGlobal notGlobal

theorem frame_agrees {analysis : Analysis} (typed : analysis.Typed) (func : FuncDef)
    (vars : VarTable) (fits : func.Typed analysis.functions analysis.globals vars)
    (values : List Word) (arity : values.length = func.params.length)
    (state : RunState Word Event) :
    FrameAgrees (func.compiled vars) vars false (func.entered wordModel values state)
      (func.startWords values).toArray := by
  have distinct : func.ownNames.Nodup := by
    rw [FuncDef.ownNames, ← own_names]
    exact fits.distinct
  refine ⟨?_, ?_, fun impossible => by cases impossible⟩
  · intro name binding found isGlobal
    have absent : name ∉ func.ownNames := by
      intro own
      exact (own_iff_not_global typed func vars fits name binding found).mp own isGlobal
    change (func.frame wordModel values).get? name = none
    rw [frame_get arity distinct, last_index_absent name func.ownNames absent, Option.bind_none]
  · intro name binding found notGlobal
    have own := (own_iff_not_global typed func vars fits name binding found).mpr notGlobal
    obtain ⟨slot, place⟩ := last_index_exists name func.ownNames own
    have inNames := (List.getElem?_eq_some_iff.mp (last_index_gives_value _ _ _ place)).1
    have bound : slot < (func.startWords values).length := start_words_length arity ▸ inNames
    have inFrame := frame_get arity distinct name
    rw [place, Option.bind_some, List.getElem?_eq_getElem bound] at inFrame
    exact ⟨rfl, slot, _, place, by simp [bound], inFrame⟩

/-- The code of a function, started with its arguments, first fills the slots of its locals. -/
theorem run_compiled {analysis : Analysis} (module : Module) (calling : Calling) (fuel : Nat)
    (func : FuncDef) (vars : VarTable) (fits : func.Typed analysis.functions analysis.globals vars)
    (values : List Word) (arity : values.length = func.params.length) (store : Store) :
    Instr.runAll module (func.compiled vars) calling fuel (func.compiled vars).body
        ⟨(values ++ List.replicate (func.compiled vars).locals.length 0).toArray, [], store⟩ =
      Exit.andThen
        (Instr.runAll module (func.compiled vars) calling fuel [.unreachable, .const 0])
        (Instr.runAll module (func.compiled vars) calling fuel
          (Stmt.codeAll vars false func.body) ⟨(func.startWords values).toArray, [], store⟩) := by
  have distinct : func.ownNames.Nodup := by
    rw [FuncDef.ownNames, ← own_names]
    exact fits.distinct
  have started := run_inits module calling fuel func vars distinct values arity store []
    func.locals rfl
  have slots : (func.compiled vars).locals.length = func.locals.length := by
    simp [FuncDef.compiled]
  have body : (func.compiled vars).body =
      func.initCode ++ Stmt.codeAll vars false func.body ++ [.unreachable, .const 0] := rfl
  rw [List.map_nil, List.append_nil] at started
  rw [slots, body, Instr.run_all_append, Instr.run_all_append, FuncDef.initCode, started]
  rfl

/-- Calls end like the calls of the code, for every amount of fuel and every number of calls that
may still be opened. -/
theorem calls_match {analysis : Analysis} (typed : analysis.Typed)
    (plain : analysis.program.Plain) (before : List Event) (limit fuel room : Nat) :
    CallsMatch analysis before (analysis.program.call wordModel limit fuel room)
      (analysis.compiled.invoke limit fuel room) := by
  -- A body calls with less fuel and less room, so the induction is on the fuel for every room.
  induction fuel generalizing room with
  | zero =>
      intro index func here values state store arity agrees
      exact rfl
  | succ fuel induction =>
      intro index func here values state store arity agrees
      by_cases full : room = 0
      · simp only [Program.call, Module.invoke, if_pos full]
        exact ⟨rfl, agrees⟩
      have member := List.mem_of_getElem? here
      have fits := typed.scope_of func member
      have inModule := Analysis.compiled_function index func here
      have paramCount : values.length =
          (func.compiled (analysis.scopeOf func)).params.length := by
        simp [FuncDef.compiled, arity]
      have setting : BodySetting analysis ⟨analysis.functions, analysis.scopeOf func,
          some func.result⟩ (func.compiled (analysis.scopeOf func)) before
          (analysis.program.call wordModel limit fuel (room - 1))
          (analysis.compiled.invoke limit fuel (room - 1)) :=
        ⟨typed, typed.body_scope_plain plain func member _ fits, rfl,
          typed.body_placed func _ fits, induction (room - 1)⟩
      have frame := frame_agrees typed func _ fits values arity state
      have ran := Stmt.eval_all_matches setting fuel (some func)
        (func.entered wordModel values state) [] func.body fits.body
        (func.entered wordModel values state) ⟨(func.startWords values).toArray, [], store⟩
        ⟨rfl, ⟨agrees.globals, agrees.cells, agrees.events⟩, frame, fun _ => rfl⟩
      rw [call_apply wordModel analysis.program limit fuel room func values state full]
      simp only [Module.invoke, if_neg full, inModule, if_pos paramCount]
      rw [run_compiled _ _ _ func _ fits values arity store]
      cases outcome : Stmt.evalAll wordModel analysis.program
          (analysis.program.call wordModel limit fuel (room - 1)) (some func) fuel func.body
          (func.entered wordModel values state) with
      | mk result after =>
      rw [outcome] at ran
      simp only [Option.isNone_some] at ran
      cases ended : Instr.runAll analysis.compiled (func.compiled (analysis.scopeOf func))
          (analysis.compiled.invoke limit fuel (room - 1)) fuel
          (Stmt.codeAll (analysis.scopeOf func) false func.body)
          ⟨(func.startWords values).toArray, [], store⟩ with
      | none =>
          rw [ended] at ran
          cases result with
          | ok value => cases ran
          | error halt =>
              cases ran
              rfl
      | some exit =>
          rw [ended] at ran
          cases exit with
          | next done =>
              obtain ⟨_, same, rfl, continued⟩ := ran
              cases same
              exact ⟨rfl, continued.store⟩
          | branch depth done => exact ran.elim
          | returned value done =>
              obtain ⟨_, same, rfl, agreesAfter, kept⟩ := ran
              cases same
              exact ⟨rfl, ⟨agreesAfter.globals, agreesAfter.cells, agreesAfter.events⟩, rfl,
                kept rfl⟩
          | trapped error done =>
              obtain ⟨same, agreesAfter⟩ := ran
              cases same
              exact ⟨rfl, agreesAfter⟩

end ScriptWasm
