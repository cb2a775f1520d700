import ScriptWasm.Proofs.Code.Acceptance
import ScriptWasm.Proofs.Machine.Simulation
import ScriptWasm.Proofs.Semantics.Calls

/-!
What a machine answers when the entry of a compiled program is called. The entry runs the statements
of the top level on the globals as they are, so its end, what it prints and the globals that it
leaves are those of the evaluator.
-/

namespace ScriptWasm

set_option autoImplicit false

/-- The statements of the top level and the code of the entry end in the same way. -/
def EntryMatches (module : Module) (before : List Event)
    (outcome : Except Halt Word × RunState Word Event) : Option CallOutcome → Prop
  | none => outcome.1 = .error .outOfFuel
  | some (ended, store) =>
      outcome.1 = ended.mapError Halt.trap ∧ StoreAgrees module before outcome.2 store

section Entry

theorem not_stuck_of_matches {module : Module} {before : List Event}
    {outcome : Except Halt Word × RunState Word Event} {ended : Option CallOutcome}
    (matched : EntryMatches module before outcome ended) (fault : Fault) :
    outcome.1 ≠ .error (.stuck fault) := by
  intro stuck
  cases ended with
  | none => cases stuck.symm.trans matched
  | some answer =>
      have ended := stuck.symm.trans matched.1
      cases answer with
      | mk result store => cases result <;> cases ended

theorem ends_iff_of_matches {module : Module} {before : List Event}
    {outcome : Except Halt Word × RunState Word Event} {ended : Option CallOutcome}
    (matched : EntryMatches module before outcome ended) :
    outcome.1 ≠ .error .outOfFuel ↔ ∃ answer, ended = some answer := by
  cases ended with
  | none =>
      constructor
      · intro runs
        exact absurd matched runs
      · rintro ⟨_, impossible⟩
        cases impossible
  | some answer =>
      constructor
      · intro _
        exact ⟨answer, rfl⟩
      · intro _ outOfFuel
        have ended := outOfFuel.symm.trans matched.1
        cases answer with
        | mk result store => cases result <;> cases ended

variable {analysis : Analysis}

/-- The entry starts with a result of zero. -/
theorem run_entry (module : Module) (calling : Calling) (fuel : Nat) (globals : VarTable)
    (stmts : List Stmt) (store : Store) :
    Instr.runAll module (entryFunc globals stmts) calling fuel (entryFunc globals stmts).body
        ⟨(([] : List Word) ++ List.replicate (entryFunc globals stmts).locals.length 0).toArray, [],
          store⟩ =
      Exit.andThen
        (Instr.runAll module (entryFunc globals stmts) calling fuel [.localGet Draft.resultSlot])
        (Instr.runAll module (entryFunc globals stmts) calling fuel
          (Stmt.codeAll globals true stmts) ⟨#[0], [], store⟩) := by
  have body : (entryFunc globals stmts).body =
      [.const 0, .localSet Draft.resultSlot] ++ Stmt.codeAll globals true stmts ++
        [.localGet Draft.resultSlot] := rfl
  rw [body, Instr.run_all_append, Instr.run_all_append]
  rfl

theorem entry_frame_agrees (typed : analysis.Typed) (state : RunState Word Event)
    (fresh : state.locals = .empty) (zero : state.result = 0) :
    FrameAgrees (entryFunc analysis.globals analysis.program.stmts) analysis.globals true state
      #[0] := by
  refine ⟨?_, ?_, fun _ => ⟨0, rfl, ?_⟩⟩
  · intro name binding found isGlobal
    rw [fresh, Table.get_empty]
  · intro name binding found notGlobal
    exact absurd (globals_are_global _ _ typed.globals name binding found) notGlobal
  · rw [zero]
    rfl

theorem entry_matches (typed : analysis.Typed) (plain : analysis.program.Plain)
    (before : List Event) (limit fuel : Nat) (globals : Table Word) (store : Store)
    (agrees : StoreAgrees analysis.compiled before ⟨globals, .empty, 0, [], []⟩ store) :
    EntryMatches analysis.compiled before (analysis.program.run wordModel limit fuel globals)
      (analysis.compiled.invoke limit fuel limit analysis.compiled.functions.length [] store) := by
  cases fuel with
  | zero => exact rfl
  | succ fuel =>
      by_cases closed : limit = 0
      · simp only [Program.run, Program.topLevel, Module.invoke, if_pos closed]
        exact ⟨rfl, agrees⟩
      have setting : BodySetting analysis ⟨analysis.functions, analysis.globals, none⟩
          (entryFunc analysis.globals analysis.program.stmts) before
          (analysis.program.call wordModel limit fuel (limit - 1))
          (analysis.compiled.invoke limit fuel (limit - 1)) :=
        ⟨typed, typed.entry_scope_plain plain, rfl, typed.entry_placed,
          calls_match typed plain before limit fuel (limit - 1)⟩
      -- The entry keeps the value of its last expression statement in its only slot.
      have entered : Continued analysis.compiled before
          (entryFunc analysis.globals analysis.program.stmts) analysis.globals true
          ⟨globals, .empty, 0, [], []⟩ []
          ⟨globals, .empty, 0, [], [.variables none globals .empty]⟩ ⟨#[0], [], store⟩ :=
        ⟨rfl, agrees.noted _, entry_frame_agrees typed _ rfl rfl, fun _ => rfl⟩
      have ran := Stmt.eval_all_matches setting fuel none ⟨globals, .empty, 0, [], []⟩ []
        analysis.program.stmts typed.stmts _ _ entered
      have arity : ([] : List Word).length =
          (entryFunc analysis.globals analysis.program.stmts).params.length := rfl
      rw [Program.run, top_level_apply wordModel analysis.program limit fuel _ closed]
      simp only [Module.invoke, if_neg closed, analysis.compiled_entry, if_pos arity]
      rw [run_entry]
      simp only [Option.isNone_none] at ran
      have start : wordModel.literal (.int 0) = 0 := rfl
      rw [start, List.nil_append]
      -- What the statements give and what their code ends in are taken apart side by side.
      cases outcome : Stmt.evalAll wordModel analysis.program
          (analysis.program.call wordModel limit fuel (limit - 1)) none fuel
          analysis.program.stmts
          ⟨globals, .empty, 0, [], [.variables none globals .empty]⟩ with
      | mk result after =>
      rw [outcome] at ran
      cases ended : Instr.runAll analysis.compiled
          (entryFunc analysis.globals analysis.program.stmts)
          (analysis.compiled.invoke limit fuel (limit - 1)) fuel
          (Stmt.codeAll analysis.globals true analysis.program.stmts) ⟨#[0], [], store⟩ with
      | none =>
          rw [ended] at ran
          cases result with
          | ok value => cases ran
          | error halt =>
              cases ran
              rfl
      | some exit =>
          rw [ended] at ran
          cases exit with
          | next done =>
              obtain ⟨_, same, rfl, continued⟩ := ran
              obtain ⟨slot, place, inSlot⟩ := continued.frame.kept rfl
              cases same
              simp only [Exit.andThen, Instr.run_all_singleton, Instr.run, place,
                Activation.readSlot, inSlot]
              exact ⟨rfl, continued.store⟩
          | branch depth done => exact ran.elim
          | returned value done =>
              obtain ⟨_, same, rfl, agreesAfter, _⟩ := ran
              cases same
              exact ⟨rfl, agreesAfter⟩
          | trapped error done =>
              obtain ⟨same, agreesAfter⟩ := ran
              cases same
              exact ⟨rfl, agreesAfter⟩

end Entry

structure Machine.Holds (machine : Machine) (vars : List VarDef) (globals : Table Word) : Prop where
  values : ∀ name, machine.global? name = globals.get? name
  declared : ∀ var ∈ vars, ∃ value, globals.get? var.name = some value

theorem find_index_of_nodup (names : List String) (distinct : names.Nodup) (name : String) :
    names.findIdx? (fun other => other = name) = lastIndex? name names := by
  cases found : names.findIdx? fun other => other = name with
  | none =>
      rw [last_index_absent]
      intro member
      have different := List.findIdx?_eq_none_iff.mp found name member
      simp at different
  | some index =>
      obtain ⟨bound, same, _⟩ := List.findIdx?_eq_some_iff_getElem.mp found
      rw [last_index_of_nodup name names distinct index]
      rw [List.getElem?_eq_getElem bound]
      simpa using same

theorem global_of_index {analysis : Analysis} (typed : analysis.Typed) (machine : Machine)
    (linearized : analysis.compiled.linearize = .ok machine.code) (name : String) :
    machine.global? name =
      (analysis.compiled.globalIndex? name).bind fun index => machine.store.globals[index]? := by
  have cells : machine.code.globals.map Prod.fst = analysis.compiled.globals.map Global.name := by
    simp only [Module.linearize, bind_succeeds_iff, pure_succeeds_iff] at linearized
    obtain ⟨_, _, same⟩ := linearized
    rw [← same, List.map_map]
    rfl
  have distinct : (analysis.compiled.globals.map Global.name).Nodup := by
    rw [typed.compiled_global_names]
    exact analysis.globals.distinct
  have index : machine.code.globals.findIdx? (fun cell => cell.1 = name) =
      analysis.compiled.globalIndex? name := by
    rw [Module.globalIndex?, ← find_index_of_nodup _ distinct, ← cells, List.findIdx?_map]
    rfl
  rw [Machine.global?, index]
  cases analysis.compiled.globalIndex? name with
  | none => rfl
  | some index => rfl

/-- The stores that agree with a state are those of the machines that hold its globals. -/
theorem store_agrees_iff {analysis : Analysis} (typed : analysis.Typed) (machine : Machine)
    (linearized : analysis.compiled.linearize = .ok machine.code) (before : List Event)
    (state : RunState Word Event) :
    StoreAgrees analysis.compiled before state machine.store ↔
      machine.Holds analysis.program.vars state.globals ∧
        machine.store.events.toList = before ++ state.output := by
  have names : analysis.compiled.globals.map Global.name =
      analysis.program.vars.map VarDef.name := by
    simp [Analysis.compiled, VarDef.compiled, Function.comp_def]
  have place := global_of_index typed machine linearized
  constructor
  · intro agrees
    refine ⟨⟨fun name => (place name).trans (agrees.globals name).symm, ?_⟩, agrees.events⟩
    intro var member
    obtain ⟨index, cell⟩ := last_index_exists var.name
      (analysis.compiled.globals.map Global.name) (by
        rw [names]
        exact List.mem_map_of_mem member)
    have bound := agrees.cells var.name index cell
    rw [agrees.globals var.name, Module.globalIndex?, cell, Option.bind_some,
      Array.getElem?_eq_getElem bound]
    exact ⟨_, rfl⟩
  · rintro ⟨holds, events⟩
    refine ⟨fun name => (holds.values name).symm.trans (place name), ?_, events⟩
    intro name index cell
    have declared := List.mem_of_getElem? (last_index_gives_value _ _ _ cell)
    rw [names] at declared
    obtain ⟨var, member, rfl⟩ := List.mem_map.mp declared
    obtain ⟨value, found⟩ := holds.declared var member
    rw [← holds.values, place, cell, Option.bind_some] at found
    exact (Array.getElem?_eq_some_iff.mp found).1

/-- Whatever the store of a machine holds, there is a table with the same globals. -/
theorem store_is_held {analysis : Analysis} (typed : analysis.Typed) (machine : Machine)
    (linearized : analysis.compiled.linearize = .ok machine.code)
    (size : machine.store.globals.size = analysis.program.vars.length) :
    machine.Holds analysis.program.vars (Table.ofList
      ((analysis.program.vars.map VarDef.name).zip machine.store.globals.toList)) := by
  have names : analysis.compiled.globals.map Global.name =
      analysis.program.vars.map VarDef.name := by
    simp [Analysis.compiled, VarDef.compiled, Function.comp_def]
  have distinct : (analysis.program.vars.map VarDef.name).Nodup := by
    rw [← names, typed.compiled_global_names]
    exact analysis.globals.distinct
  have lookup := get_of_zip _ machine.store.globals.toList distinct (by simp [size])
  constructor
  · intro name
    rw [global_of_index typed machine linearized, lookup, Module.globalIndex?, names]
    simp
  · intro var member
    obtain ⟨index, place⟩ := last_index_exists var.name _
      (List.mem_map_of_mem (f := VarDef.name) member)
    have bound := (List.getElem?_eq_some_iff.mp (last_index_gives_value _ _ _ place)).1
    rw [List.length_map, ← size] at bound
    rw [lookup, place, Option.bind_some]
    exact ⟨machine.store.globals[index], by simp [bound]⟩

/-- An evaluation ends like a call that leaves another machine behind: with the same value or trap,
the same events and the same globals. -/
structure SameEnd (vars : List VarDef) (machine : Machine)
    (evaluated : Except Halt Word × RunState Word Event)
    (answer : Except RuntimeError Word × Machine) : Prop where
  outcome : evaluated.1 = answer.1.mapError Halt.trap
  code : answer.2.code = machine.code
  limit : answer.2.limit = machine.limit
  events : answer.2.store.events.toList = machine.store.events.toList ++ evaluated.2.output
  globals : answer.2.Holds vars evaluated.2.globals

/-- Calls of the entry of a machine and an evaluation that is given more and more fuel. Either both
have an end, which is then the same, or both go on forever. -/
structure SameRuns (vars : List VarDef) (machine : Machine)
    (evaluation : Nat → Except Halt Word × RunState Word Event) : Prop where
  never_stuck : ∀ fuel fault, (evaluation fuel).1 ≠ .error (.stuck fault)
  ends_iff : (∃ fuel, (evaluation fuel).1 ≠ .error .outOfFuel) ↔
    ∃ steps answer, machine.invoke entryExport [] steps = some answer
  same_end : ∀ fuel steps answer, (evaluation fuel).1 ≠ .error .outOfFuel →
    machine.invoke entryExport [] steps = some answer →
    SameEnd vars machine (evaluation fuel) answer

/-- A call leaves the code and the limit of a machine as they are. -/
theorem answered_machine (machine : Machine) (name : String) (args : List Word) (steps : Nat)
    (outcome : Except RuntimeError Word) (after : Machine)
    (answer : machine.invoke name args steps = some (outcome, after)) :
    after = { machine with store := after.store } := by
  unfold Machine.invoke at answer
  split at answer
  · cases answer
    rfl
  · split at answer
    · cases answer
    · cases answer
      rfl

/-- The machine that runs the code of an analysed program runs as the program is evaluated, on
whatever its globals hold at the moment and after whatever was printed before. -/
theorem compiled_runs {analysis : Analysis} (typed : analysis.Typed)
    (plain : analysis.program.Plain) (machine : Machine)
    (linearized : analysis.compiled.linearize = .ok machine.code) (globals : Table Word)
    (holds : machine.Holds analysis.program.vars globals) :
    SameRuns analysis.program.vars machine
      fun fuel => analysis.program.run wordModel machine.limit fuel globals := by
  have exported := entry_exported analysis machine.code linearized
  have agrees : StoreAgrees analysis.compiled machine.store.events.toList
      ⟨globals, .empty, 0, [], []⟩ machine.store :=
    (store_agrees_iff typed machine linearized _ _).mpr ⟨holds, (List.append_nil _).symm⟩
  have ran := fun fuel => entry_matches typed plain machine.store.events.toList machine.limit fuel
    globals machine.store agrees
  have answered := @export_outcome_iff machine entryExport _ [] _ linearized exported
  refine ⟨fun fuel fault => not_stuck_of_matches (ran fuel) fault, ?_, ?_⟩
  · constructor
    · rintro ⟨fuel, ends⟩
      obtain ⟨⟨outcome, store⟩, answer⟩ := (ends_iff_of_matches (ran fuel)).mp ends
      obtain ⟨steps, finished⟩ := (answered outcome store).mpr ⟨fuel, answer⟩
      exact ⟨steps, _, finished⟩
    · rintro ⟨steps, ⟨outcome, after⟩, finished⟩
      rw [answered_machine _ _ _ _ _ _ finished] at finished
      obtain ⟨fuel, answer⟩ := (answered outcome after.store).mp ⟨steps, finished⟩
      exact ⟨fuel, (ends_iff_of_matches (ran fuel)).mpr ⟨_, answer⟩⟩
  · intro fuel steps answer ends finished
    obtain ⟨⟨outcome, store⟩, invoked⟩ := (ends_iff_of_matches (ran fuel)).mp ends
    obtain ⟨others, finishedToo⟩ := (answered outcome store).mpr ⟨fuel, invoked⟩
    have same := invoke_unique exported _ _ _ _ finished finishedToo
    have matched := ran fuel
    rw [invoked] at matched
    obtain ⟨ended, agreesAfter⟩ := matched
    obtain ⟨holdsAfter, events⟩ := (store_agrees_iff typed { machine with store } linearized
      _ _).mp agreesAfter
    rw [same]
    exact ⟨ended, rfl, rfl, events, holdsAfter⟩

/-- Every analysed program without objects among its parameters and results has a module that can be
run, and the machines that run it behave like the evaluator. -/
theorem entry_runs_as_evaluated (program : Program) (analysis : Analysis)
    (analysed : program.analyze = .ok analysis) (plain : program.Plain) :
    ∃ module code, analysis.generate = .ok module ∧ module.linearize = .ok code ∧
      ∀ (machine : Machine) (globals : Table Word), machine.code = code →
        machine.Holds analysis.program.vars globals →
        SameRuns analysis.program.vars machine
          fun fuel => analysis.program.run wordModel machine.limit fuel globals := by
  obtain ⟨typed, _, _⟩ := analyze_typed program analysis analysed
  have plainAfter := analyze_plain program analysis analysed plain
  have resolved := typed.compiled_resolved plainAfter
  obtain ⟨code, linearized⟩ := linearize_of_resolved analysis.compiled resolved
  refine ⟨analysis.compiled, code, generate_typed analysis typed plainAfter, linearized, ?_⟩
  intro machine globals same holds
  exact compiled_runs typed plainAfter machine (same ▸ linearized) globals holds

theorem product_runs_as_evaluated :
    ∃ program analysis code,
      Program.ofSource
        "x: int = 2\ndef f(n: int) -> int:\n    x = x * n\n    return x\nf(3) + x".toList =
          .ok program ∧
      program.analyze = .ok analysis ∧
      SameRuns analysis.program.vars ⟨code, 5, ⟨#[4], #[⟨.print, 9⟩]⟩⟩ (fun fuel =>
        analysis.program.run wordModel 5 fuel (Table.ofList [("x", 4)])) ∧
      (analysis.program.run wordModel 5 9 (Table.ofList [("x", 4)])).1 = .ok 24 := by
  have computed :
      (match Program.ofSource
          "x: int = 2\ndef f(n: int) -> int:\n    x = x * n\n    return x\nf(3) + x".toList with
        | .ok program =>
            match program.analyze with
            | .ok analysis => decide (analysis.program.vars.map VarDef.name = ["x"] ∧
                (analysis.program.run wordModel 5 9 (Table.ofList [("x", 4)])).1 = .ok 24)
            | .error _ => false
        | .error _ => false) = true := by
    decide +kernel
  cases read : Program.ofSource
      "x: int = 2\ndef f(n: int) -> int:\n    x = x * n\n    return x\nf(3) + x".toList with
  | error error =>
      rw [read] at computed
      cases computed
  | ok program =>
      cases analysed : program.analyze with
      | error error =>
          rw [read] at computed
          simp only [analysed] at computed
          cases computed
      | ok analysis =>
          rw [read] at computed
          simp only [analysed] at computed
          obtain ⟨names, value⟩ := of_decide_eq_true computed
          have plain := program_of_source_plain _ program read
          obtain ⟨typed, _, _⟩ := analyze_typed program analysis analysed
          obtain ⟨module, code, generated, linearized, runs⟩ :=
            entry_runs_as_evaluated program analysis analysed plain
          rw [generate_typed analysis typed (analyze_plain program analysis analysed plain)]
            at generated
          cases generated
          have size := congrArg List.length names
          rw [List.length_map] at size
          have holds := store_is_held typed ⟨code, 5, ⟨#[4], #[⟨.print, 9⟩]⟩⟩ linearized size.symm
          rw [names] at holds
          exact ⟨program, analysis, code, rfl, analysed, runs _ _ rfl holds, value⟩

end ScriptWasm
