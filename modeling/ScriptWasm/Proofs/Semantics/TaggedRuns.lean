import ScriptWasm.Proofs.Semantics.Preservation
import ScriptWasm.Proofs.Semantics.Soundness

/-!
Programs that pass the check never go wrong. Values keep the tags that the check gave to the
expressions they come from, through every store, call and return, so the words of the compiled
program stand for exactly these values and print the same lines.
-/

namespace ScriptWasm

set_option autoImplicit false

theorem global_declared {analysis : Analysis} (typed : analysis.Typed) (name : String)
    (binding : Binding) (found : analysis.globals.get? name = some binding) :
    (∃ var ∈ analysis.program.vars, var.name = name) ∧
      ∀ var ∈ analysis.program.vars, var.name = name → var.ty = binding.ty := by
  have entries := typed.globals
  rw [Table.get_eq_some_iff, entries] at found
  obtain ⟨var, member, same⟩ := List.mem_map.mp found
  refine ⟨⟨var, member, congrArg Prod.fst same⟩, ?_⟩
  intro other memberOther named
  have here : analysis.globals.get? other.name = some ⟨other.ty, .global⟩ := by
    rw [Table.get_eq_some_iff, entries]
    exact List.mem_map.mpr ⟨other, memberOther, rfl⟩
  have there : analysis.globals.get? name = some binding := by
    rw [Table.get_eq_some_iff, entries]
    exact found
  rw [named, there] at here
  exact congrArg Binding.ty (Option.some.inj here).symm

theorem entry_fits {analysis : Analysis} (typed : analysis.Typed) :
    analysis.globals.Fits analysis.program none where
  globals name binding found _ := global_declared typed name binding found
  declared func impossible := by cases impossible

theorem body_fits {analysis : Analysis} (typed : analysis.Typed) (func : FuncDef)
    (vars : VarTable) (fits : func.Typed analysis.functions analysis.globals vars) :
    vars.Fits analysis.program (some func) where
  globals name binding found isGlobal := by
    have notOwn : name ∉ func.ownNames := by
      intro own
      exact (own_iff_not_global typed func vars fits name binding found).mp own isGlobal
    rw [FuncDef.ownNames, ← own_names, ← Table.value_in_map_fst, Bool.not_eq_true,
      Option.isSome_eq_false_iff, Option.isNone_iff_eq_none] at notOwn
    rw [fits.lookup, notOwn, Option.none_or] at found
    exact global_declared typed name binding found
  declared running same name ty declares := by
    cases same
    have entry : ∃ storage, (name, Binding.mk ty storage) ∈ func.own := by
      rcases declares with ⟨param, member, rfl, rfl⟩ | ⟨var, member, rfl, rfl⟩
      · obtain ⟨index, bound, same⟩ := List.getElem_of_mem member
        refine ⟨.param index, List.mem_append_left _ (List.mem_mapIdx.mpr ⟨index, bound, ?_⟩)⟩
        rw [same]
      · exact ⟨.local, List.mem_append_right _ (List.mem_map.mpr ⟨var, member, rfl⟩)⟩
    obtain ⟨storage, own⟩ := entry
    have found : vars.get? name = some ⟨ty, storage⟩ := by
      rw [fits.lookup, (Table.value_in_eq_some_iff _ _ _ fits.distinct).mpr own]
      rfl
    refine ⟨_, found, rfl, ?_⟩
    apply (own_iff_not_global typed func vars fits name _ found).mp
    rw [FuncDef.ownNames, ← own_names]
    exact List.mem_map_of_mem (f := Prod.fst) own

theorem frame_words (func : FuncDef) (values : List Literal) :
    func.frame wordModel (values.map Literal.word) =
      (func.frame taggedModel values).map Literal.word := by
  rw [FuncDef.frame, FuncDef.frame, Table.of_list_map, List.map_append, List.map_map,
    List.zip_map_right]
  rfl

theorem frame_get_iff {func : FuncDef} (distinct : func.ownNames.Nodup) (values : List Literal)
    (arity : values.length = func.params.length) (name : String) (value : Literal) :
    (func.frame taggedModel values).get? name = some value ↔
      (name, value) ∈ (func.params.map Param.name).zip values ∨
        ∃ var ∈ func.locals, var.name = name ∧ var.init = value := by
  have names : ((func.params.map Param.name).zip values ++
      func.locals.map fun var => (var.name, taggedModel.literal var.init)).map Prod.fst =
        func.ownNames := by
    rw [List.map_append, List.map_fst_zip (by simp [arity]), List.map_map]
    rfl
  have nodup := names ▸ distinct
  rw [FuncDef.frame, Table.ofList, Table.get_fold_insert _ _ _ nodup, Table.get_empty,
    Option.or_none, Table.value_in_eq_some_iff _ _ _ nodup, List.mem_append]
  apply or_congr Iff.rfl
  rw [List.mem_map]
  apply exists_congr
  intro var
  apply and_congr Iff.rfl
  exact Prod.mk.injEq _ _ _ _ ▸ Iff.rfl

theorem frame_tagged {analysis : Analysis} (typed : analysis.Typed) (func : FuncDef)
    (vars : VarTable) (fits : func.Typed analysis.functions analysis.globals vars)
    (values : List Literal) (types : values.map Literal.ty = func.params.map Param.ty) :
    FrameTagged vars (func.frame taggedModel values) := by
  have arity : values.length = func.params.length := by
    simpa using congrArg List.length types
  have distinct : func.ownNames.Nodup := by
    rw [FuncDef.ownNames, ← own_names]
    exact fits.distinct
  -- The frame holds exactly the names that the function declares: none of them is bound as a
  -- global, and each has a value of its type.
  constructor
  · intro name binding found isGlobal
    cases held : (func.frame taggedModel values).get? name with
    | none => rfl
    | some value =>
        have own : name ∈ func.ownNames := by
          rw [FuncDef.ownNames, List.mem_append]
          rcases (frame_get_iff distinct values arity name value).mp held with
            param | ⟨var, member, named, _⟩
          · exact Or.inl (List.of_mem_zip param).1
          · exact Or.inr (named ▸ List.mem_map_of_mem member)
        exact absurd isGlobal
          ((own_iff_not_global typed func vars fits name binding found).mp own)
  · intro name binding found notGlobal
    have own := (own_iff_not_global typed func vars fits name binding found).mpr notGlobal
    rw [FuncDef.ownNames, ← own_names, ← Table.value_in_map_fst, Option.isSome_iff_exists] at own
    obtain ⟨other, own⟩ := own
    have same : other = binding := by
      rw [fits.lookup, own] at found
      exact Option.some.inj found
    rw [same, Table.value_in_eq_some_iff _ _ _ fits.distinct, FuncDef.own, List.mem_append] at own
    rcases own with param | «local»
    · obtain ⟨index, bound, here⟩ := List.mem_mapIdx.mp param
      cases here
      have inValues : index < values.length := arity ▸ bound
      have ty : values[index].ty = func.params[index].ty := by
        have sameAt := congrArg (fun list => list[index]?) types
        simpa [inValues, bound] using sameAt
      refine ⟨values[index], ?_, ty⟩
      apply (frame_get_iff distinct values arity _ _).mpr
      left
      apply List.mem_of_getElem? (i := index)
      rw [List.getElem?_zip_eq_some]
      simp [inValues, bound]
    · obtain ⟨var, member, here⟩ := List.mem_map.mp «local»
      cases here
      refine ⟨var.init, ?_, fits.inits var member⟩
      apply (frame_get_iff distinct values arity _ _).mpr
      exact Or.inr ⟨var, member, rfl, rfl⟩

theorem in_step_of_body {program : Program} {vars : VarTable} {ty : Ty}
    {ran : Except Halt (Option Literal) × RunState Literal String}
    {ranWords : Except Halt (Option Word) × RunState Word Event}
    (inStep : InStep program (Finished (some ty) vars) ran ranWords)
    {tagged : RunState Literal String} {words : RunState Word Event}
    (alike : Alike program tagged words) :
    InStep program (Evaluated ty tagged) (ofBody tagged.locals ran)
      (ofBody words.locals ranWords) := by
  obtain ⟨result, after⟩ := ran
  obtain ⟨resultWords, afterWords⟩ := ranWords
  obtain ⟨alikeAfter, ends⟩ := inStep
  cases result with
  | error halt =>
      cases resultWords with
      | error same => exact ⟨alikeAfter, ends⟩
      | ok image => exact ends.elim
  | ok returned =>
      cases resultWords with
      | error halt => exact ends.elim
      | ok image =>
          obtain ⟨same, types, _⟩ := ends
          cases same
          cases returned with
          | none => exact ⟨alikeAfter, rfl, fun fault stuck => by cases stuck⟩
          | some value =>
              exact ⟨{ alikeAfter with locals := alike.locals }, rfl, types value ty rfl rfl, rfl⟩

/-- Calls are in step, for every amount of fuel and every number of calls that may still be
opened. -/
theorem calls_in_step {analysis : Analysis} (typed : analysis.Typed)
    (plain : analysis.program.Plain) (limit fuel room : Nat) :
    CallsInStep analysis.program (analysis.program.call taggedModel limit fuel room)
      (analysis.program.call wordModel limit fuel room) := by
  -- As for the code, a body calls with less fuel and less room.
  induction fuel generalizing room with
  | zero =>
      intro func member values tagged words types alike
      exact ⟨alike, rfl, fun fault stuck => by cases stuck⟩
  | succ fuel induction =>
      intro func member values tagged words types alike
      by_cases full : room = 0
      · simp only [Program.call, if_pos full]
        exact ⟨alike, rfl, fun fault stuck => by cases stuck⟩
      have fits := typed.scope_of func member
      have frame := frame_tagged typed func _ fits values types
      have setting : TaggedSetting analysis ⟨analysis.functions, analysis.scopeOf func,
          some func.result⟩ (some func) (analysis.program.call taggedModel limit fuel (room - 1))
          (analysis.program.call wordModel limit fuel (room - 1)) :=
        ⟨typed, typed.body_scope_plain plain func member _ fits, rfl, body_fits typed func _ fits,
          induction (room - 1)⟩
      -- The new frames hold the same values, with tags on one side and as words on the other.
      have opened : Alike analysis.program
          { tagged with locals := func.frame taggedModel values }
          { words with locals := func.frame wordModel (values.map Literal.word) } :=
        { alike with locals := frame_words func values }
      have entered := opened.record (some func) (tagged_of_frame setting.fits frame)
      have ran : InStep analysis.program (Finished (some func.result) (analysis.scopeOf func))
          (Stmt.evalAll taggedModel analysis.program
            (analysis.program.call taggedModel limit fuel (room - 1)) (some func) fuel func.body
            (func.entered taggedModel values tagged))
          (Stmt.evalAll wordModel analysis.program
            (analysis.program.call wordModel limit fuel (room - 1)) (some func) fuel func.body
            (func.entered wordModel (values.map Literal.word) words)) :=
        Stmt.eval_all_in_step setting fuel func.body fits.body _ _ entered frame
      rw [call_apply taggedModel _ _ _ _ _ _ _ full, call_apply wordModel _ _ _ _ _ _ _ full]
      exact in_step_of_body ran alike

theorem in_step_of_top_level {program : Program} {vars : VarTable}
    {ran : Except Halt (Option Literal) × RunState Literal String}
    {ranWords : Except Halt (Option Word) × RunState Word Event}
    (inStep : InStep program (Finished none vars) ran ranWords) :
    InStep program (fun value word _ => word = value.word) (ofTopLevel ran)
      (ofTopLevel ranWords) := by
  obtain ⟨result, after⟩ := ran
  obtain ⟨resultWords, afterWords⟩ := ranWords
  obtain ⟨alikeAfter, ends⟩ := inStep
  cases result with
  | error halt =>
      cases resultWords with
      | error same => exact ⟨alikeAfter, ends⟩
      | ok image => exact ends.elim
  | ok returned =>
      cases resultWords with
      | error halt => exact ends.elim
      | ok image =>
          obtain ⟨same, _⟩ := ends
          cases same
          cases returned with
          | none => exact ⟨alikeAfter, alikeAfter.result⟩
          | some value => exact ⟨alikeAfter, rfl⟩

theorem run_in_step {analysis : Analysis} (typed : analysis.Typed)
    (plain : analysis.program.Plain) (limit fuel : Nat) (globals : Table Literal)
    (tagged : analysis.program.Tagged globals) :
    InStep analysis.program (fun value word _ => word = value.word)
      (analysis.program.run taggedModel limit fuel globals)
      (analysis.program.run wordModel limit fuel (globals.map Literal.word)) := by
  have alike : Alike analysis.program ⟨globals, .empty, .int 0, [], []⟩
      ⟨globals.map Literal.word, .empty, 0, [], []⟩ :=
    ⟨rfl, rfl, rfl, rfl, rfl, tagged, fun _ impossible => by cases impossible⟩
  cases fuel with
  | zero => exact ⟨alike, rfl, fun fault stuck => by cases stuck⟩
  | succ fuel =>
      by_cases closed : limit = 0
      · simp only [Program.run, Program.topLevel, if_pos closed]
        exact ⟨alike, rfl, fun fault stuck => by cases stuck⟩
      have setting : TaggedSetting analysis ⟨analysis.functions, analysis.globals, none⟩ none
          (analysis.program.call taggedModel limit fuel (limit - 1))
          (analysis.program.call wordModel limit fuel (limit - 1)) :=
        ⟨typed, typed.entry_scope_plain plain, rfl, entry_fits typed,
          calls_in_step typed plain limit fuel (limit - 1)⟩
      have frame : FrameTagged analysis.globals .empty := by
        constructor
        · intro name binding found isGlobal
          rfl
        · intro name binding found notGlobal
          exact absurd (globals_are_global _ _ typed.globals name binding found) notGlobal
      have entered := alike.record none fun running impossible => by cases impossible
      rw [Program.run, Program.run, top_level_apply taggedModel _ _ _ _ closed,
        top_level_apply wordModel _ _ _ _ closed]
      exact in_step_of_top_level
        (Stmt.eval_all_in_step setting fuel analysis.program.stmts typed.stmts _ _ entered frame)

/-- A run in which nothing is missing or refused, and everything has the promised tag. -/
structure SoundRun (program : Program) (ran : Except Halt Literal × RunState Literal String) :
    Prop where
  never_stuck : ∀ fault, ran.1 ≠ .error (.stuck fault)
  observed : ∀ observation ∈ ran.2.trace, observation.Sound program
  globals : program.Tagged ran.2.globals

/-- A run on words that stand for the values of a run: an integer for itself, one and zero for the
truth values, and zero for `None`. -/
structure RunInWords (ran : Except Halt Literal × RunState Literal String)
    (words : Except Halt Word × RunState Word Event) : Prop where
  outcome : words.1 = ran.1.map Literal.word
  globals : words.2.globals = ran.2.globals.map Literal.word
  trace : words.2.trace = ran.2.trace.map Observation.words
  lines : words.2.output.map Event.line = ran.2.output

theorem sound_of_in_step {program : Program}
    {ran : Except Halt Literal × RunState Literal String}
    {words : Except Halt Word × RunState Word Event}
    (inStep : InStep program (fun value word _ => word = value.word) ran words) :
    SoundRun program ran ∧ RunInWords ran words := by
  obtain ⟨result, after⟩ := ran
  obtain ⟨resultWords, afterWords⟩ := words
  obtain ⟨alike, ends⟩ := inStep
  cases result with
  | ok value =>
      cases resultWords with
      | error halt => exact ends.elim
      | ok word =>
          cases ends
          exact ⟨⟨fun fault stuck => (by cases stuck), alike.sound, alike.declared⟩,
            ⟨rfl, alike.globals, alike.trace, alike.lines⟩⟩
  | error halt =>
      cases resultWords with
      | ok word => exact ends.elim
      | error same =>
          obtain ⟨rfl, notStuck⟩ := ends
          exact ⟨⟨fun fault stuck => notStuck fault (Except.error.inj stuck), alike.sound,
            alike.declared⟩, ⟨rfl, alike.globals, alike.trace, alike.lines⟩⟩

/-- A machine ends like a run on tagged values: its words stand for the values, and what it has
printed are the lines of the run. -/
structure TaggedEnd (vars : List VarDef) (machine : Machine)
    (ran : Except Halt Literal × RunState Literal String)
    (answer : Except RuntimeError Word × Machine) : Prop where
  outcome : ran.1.map Literal.word = answer.1.mapError Halt.trap
  globals : answer.2.Holds vars (ran.2.globals.map Literal.word)
  lines : answer.2.store.events.toList.map Event.line =
    machine.store.events.toList.map Event.line ++ ran.2.output

/-- Calls of the entry of a machine and a run on tagged values that is given more and more fuel.
Either both have an end, which is then the same, or both go on forever. -/
structure SameTaggedRuns (vars : List VarDef) (machine : Machine)
    (run : Nat → Except Halt Literal × RunState Literal String) : Prop where
  ends_iff : (∃ fuel, (run fuel).1 ≠ .error .outOfFuel) ↔
    ∃ steps answer, machine.invoke entryExport [] steps = some answer
  same_end : ∀ fuel steps answer, (run fuel).1 ≠ .error .outOfFuel →
    machine.invoke entryExport [] steps = some answer → TaggedEnd vars machine (run fuel) answer

theorem out_of_fuel_iff {ran : Except Halt Literal × RunState Literal String}
    {words : Except Halt Word × RunState Word Event} (same : RunInWords ran words) :
    words.1 = .error .outOfFuel ↔ ran.1 = .error .outOfFuel := by
  rw [same.outcome]
  cases ran.1 with
  | ok value =>
      constructor
      · intro impossible
        cases impossible
      · intro impossible
        cases impossible
  | error halt =>
      constructor
      · intro same
        rw [Except.error.inj same]
      · intro same
        rw [Except.error.inj same]
        rfl

theorem same_tagged_runs {vars : List VarDef} {machine : Machine}
    {run : Nat → Except Halt Literal × RunState Literal String}
    {words : Nat → Except Halt Word × RunState Word Event}
    (inWords : ∀ fuel, RunInWords (run fuel) (words fuel))
    (runs : SameRuns vars machine words) : SameTaggedRuns vars machine run := by
  constructor
  · rw [← runs.ends_iff]
    apply exists_congr
    intro fuel
    exact not_congr (out_of_fuel_iff (inWords fuel)).symm
  · intro fuel steps answer ends finished
    have same := runs.same_end fuel steps answer
      (mt (out_of_fuel_iff (inWords fuel)).mp ends) finished
    refine ⟨(inWords fuel).outcome.symm.trans same.outcome, ?_, ?_⟩
    · rw [← (inWords fuel).globals]
      exact same.globals
    · rw [same.events, List.map_append, (inWords fuel).lines]

/-- Every run of an analysed program without objects is sound, from all globals that hold values of
their declared types, and the words of its compiled code stand for the values of the run. -/
theorem analysed_programs_keep_tags (program : Program) (analysis : Analysis)
    (analysed : program.analyze = .ok analysis) (plain : program.Plain) :
    (∀ (limit fuel : Nat) (globals : Table Literal), analysis.program.Tagged globals →
      SoundRun analysis.program (analysis.program.run taggedModel limit fuel globals) ∧
        RunInWords (analysis.program.run taggedModel limit fuel globals)
          (analysis.program.run wordModel limit fuel (globals.map Literal.word))) ∧
    ∃ module code, analysis.generate = .ok module ∧ module.linearize = .ok code ∧
      ∀ (machine : Machine) (globals : Table Literal), machine.code = code →
        analysis.program.Tagged globals →
        machine.Holds analysis.program.vars (globals.map Literal.word) →
        SameTaggedRuns analysis.program.vars machine
          fun fuel => analysis.program.run taggedModel machine.limit fuel globals := by
  obtain ⟨typed, _, _⟩ := analyze_typed program analysis analysed
  have plainAfter := analyze_plain program analysis analysed plain
  have sound := fun limit fuel globals tagged =>
    sound_of_in_step (run_in_step typed plainAfter limit fuel globals tagged)
  have resolved := typed.compiled_resolved plainAfter
  obtain ⟨code, linearized⟩ := linearize_of_resolved analysis.compiled resolved
  refine ⟨sound, analysis.compiled, code, generate_typed analysis typed plainAfter, linearized, ?_⟩
  intro machine globals same tagged holds
  exact same_tagged_runs (fun fuel => (sound machine.limit fuel globals tagged).2)
    (compiled_runs typed plainAfter machine (same ▸ linearized) _ holds)

theorem printed_truth_keeps_tags :
    ∃ program analysis code,
      Program.ofSource
        "x: bool = False\ndef f(n: int) -> bool:\n    x = n < 3\n    return x\nprint(f(2))\nx".toList =
          .ok program ∧
      program.analyze = .ok analysis ∧
      SameTaggedRuns analysis.program.vars ⟨code, 5, ⟨#[0], #[]⟩⟩ (fun fuel =>
        analysis.program.run taggedModel 5 fuel (Table.ofList [("x", .bool false)])) ∧
      SoundRun analysis.program
        (analysis.program.run taggedModel 5 9 (Table.ofList [("x", .bool false)])) ∧
      (analysis.program.run taggedModel 5 9 (Table.ofList [("x", .bool false)])).2.output =
        ["True"] := by
  have computed :
      (match Program.ofSource
          "x: bool = False\ndef f(n: int) -> bool:\n    x = n < 3\n    return x\nprint(f(2))\nx".toList with
        | .ok program =>
            match program.analyze with
            | .ok analysis => decide (
                analysis.program.vars.map (fun var => (var.name, var.ty)) = [("x", .bool)] ∧
                (analysis.program.run taggedModel 5 9
                  (Table.ofList [("x", .bool false)])).2.output = ["True"])
            | .error _ => false
        | .error _ => false) = true := by
    decide +kernel
  cases read : Program.ofSource
      "x: bool = False\ndef f(n: int) -> bool:\n    x = n < 3\n    return x\nprint(f(2))\nx".toList with
  | error error =>
      rw [read] at computed
      cases computed
  | ok program =>
      cases analysed : program.analyze with
      | error error =>
          rw [read] at computed
          simp only [analysed] at computed
          cases computed
      | ok analysis =>
          rw [read] at computed
          simp only [analysed] at computed
          obtain ⟨vars, lines⟩ := of_decide_eq_true computed
          have plain := program_of_source_plain _ program read
          obtain ⟨typed, _, _⟩ := analyze_typed program analysis analysed
          obtain ⟨sound, module, code, generated, linearized, runs⟩ :=
            analysed_programs_keep_tags program analysis analysed plain
          rw [generate_typed analysis typed (analyze_plain program analysis analysed plain)]
            at generated
          cases generated
          have names : analysis.program.vars.map VarDef.name = ["x"] := by
            simpa using congrArg (List.map Prod.fst) vars
          have tagged : analysis.program.Tagged (Table.ofList [("x", .bool false)]) := by
            intro var member
            have declared := List.mem_map_of_mem (f := fun var : VarDef => (var.name, var.ty)) member
            rw [vars, List.mem_singleton, Prod.mk.injEq] at declared
            rw [declared.1, declared.2]
            exact ⟨.bool false, rfl, rfl⟩
          have size := congrArg List.length names
          rw [List.length_map] at size
          have holds := store_is_held typed ⟨code, 5, ⟨#[0], #[]⟩⟩ linearized size.symm
          rw [names] at holds
          exact ⟨program, analysis, code, rfl, analysed, runs _ _ rfl tagged holds,
            (sound 5 9 _ tagged).1, lines⟩

end ScriptWasm
