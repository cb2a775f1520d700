import ScriptWasm.Proofs.Code.Balance
import ScriptWasm.Proofs.Machine.Heights

/-!
A compiled program does not go wrong on the machine. In every frame of a run the operands are as
many as the code of the function says for the position where the frame stands, and one less in a
frame that waits for a result. One step keeps this, so a run that never ends keeps it forever, and
it holds again whenever the entry is called once more.
-/

namespace ScriptWasm

set_option autoImplicit false

/-- The operands at the positions of all functions are known. -/
def LinearModule.Measured (code : LinearModule) : Prop :=
  ∀ (index : Nat) (func : LinearFunc), code.functions[index]? = some func →
    ∃ heights, func.Measured code heights

/-- A frame whose operands are as many as its position says once it gets those it waits for. -/
structure Frame.Sound (code : LinearModule) (waiting : Nat) (frame : Frame) : Prop where
  slots : frame.slots.size = frame.func.params + frame.func.locals
  stack : ∃ heights, frame.func.Measured code heights ∧
    heights frame.position (frame.stack.length + waiting)

structure Run.Sound (run : Run) : Prop where
  code : run.code.Measured
  globals : run.store.globals.size = run.code.globals.length
  frame : run.frame.Sound run.code 0
  callers : ∀ caller ∈ run.callers, caller.Sound run.code 1

/-- The instruction that a run executes next. -/
def Run.fetched (run : Run) : Option LinearInstr :=
  run.frame.func.code[run.frame.position]?

inductive Run.MayEnd (run : Run) : Except RuntimeError Word → Prop where
  | returned (value : Word) (fetched : run.fetched = some .ret) (last : run.callers = [])
      (only : run.frame.stack = [value]) : MayEnd run (.ok value)
  | trapped (op : WordOp) (trap : ArithmeticTrap) (fetched : run.fetched = some (.binary op)) :
      MayEnd run (.error (.arithmetic trap))
  | unreachable (fetched : run.fetched = some .unreachable) : MayEnd run (.error .unreachable)
  | exhausted (index : Nat) (fetched : run.fetched = some (.call index)) (full : run.room = 0) :
      MayEnd run (.error (.callStackExhausted run.limit))

def Progress.Kept (run : Run) : Progress → Prop
  | .running next => next.Sound ∧ next.code = run.code ∧ next.limit = run.limit
  | .finished outcome store =>
      run.MayEnd outcome ∧ store.globals.size = run.code.globals.length

theorem primitive_answers (primitive : HostImport) (args : List Word) (events : Array Event)
    (arity : args.length = primitive.arity) :
    ∃ answer later, primitive.call args events = .ok (answer, later) := by
  have evaluated : ∃ answer, primitive.eval args = .ok answer := by
    cases args with
    | nil => cases primitive <;> cases arity
    | cons first rest =>
        cases rest with
        | nil => cases primitive <;> first | exact ⟨_, rfl⟩ | cases arity
        | cons second rest => cases primitive <;> exact ⟨_, rfl⟩
  obtain ⟨answer, done⟩ := evaluated
  exact ⟨answer, _, by simp only [HostImport.call, done, ok_bind]; rfl⟩

theorem take_args_succeeds (count rest : Nat) (stack : List Word)
    (enough : stack.length = rest + count) :
    ∃ args below, Run.takeArgs count stack = some (args, below) ∧ args.length = count ∧
      below.length = rest := by
  refine ⟨(stack.take count).reverse, stack.drop count, ?_, ?_, ?_⟩
  · rw [Run.takeArgs, if_pos (by omega)]
  · rw [List.length_reverse, List.length_take]
    omega
  · rw [List.length_drop]
    omega

theorem take_args_length {count : Nat} {stack args rest : List Word}
    (taken : Run.takeArgs count stack = some (args, rest)) : args.length = count := by
  unfold Run.takeArgs at taken
  split at taken
  · rename_i enough
    cases taken
    simpa using enough
  · cases taken

namespace Run

variable {run : Run} {heights : Nat → Nat → Prop}

theorem Sound.goes_on (sound : run.Sound) (measured : run.frame.func.Measured run.code heights)
    (position : Nat) (state : Activation) (there : heights position state.stack.length)
    (slots : state.slots.size = run.frame.slots.size)
    (globals : state.store.globals.size = run.store.globals.size) :
    Progress.Kept run (.running (run.place position state)) :=
  ⟨⟨sound.code, globals.trans sound.globals,
    ⟨slots.trans sound.frame.slots, heights, measured, there⟩, sound.callers⟩, rfl, rfl⟩

theorem stack_of_length (stack : List Word) (rest : Nat) (count : stack.length = rest + 1) :
    ∃ value below, stack = value :: below ∧ below.length = rest := by
  obtain ⟨value, below, rfl⟩ := List.exists_cons_of_length_eq_add_one count
  exact ⟨value, below, rfl, Nat.succ.inj count⟩

/-- A call opens a frame at the start of its function, and the frame around it waits behind the
call. -/
theorem Sound.call_kept (sound : run.Sound) (measured : run.frame.func.Measured run.code heights)
    (index : Nat) (fetched : run.fetched = some (.call index)) (callee : LinearFunc)
    (called : run.code.functions[index]? = some callee) (rest : Nat)
    (count : run.frame.stack.length = rest + callee.params)
    (behind : heights (run.frame.position + 1) (rest + 1)) :
    Progress.Kept run ((run.place (run.frame.position + 1) run.activation).execute (.call index)) := by
  obtain ⟨args, below, taken, arity, left⟩ := take_args_succeeds callee.params rest _ count
  simp only [execute, callFunction, place, activation, called, taken, LinearModule.enter]
  by_cases full : run.room = 0
  · rw [if_pos full]
    exact ⟨.exhausted index fetched full, sound.globals⟩
  · rw [if_neg full, if_pos arity]
    obtain ⟨calleeHeights, calleeMeasured⟩ := sound.code index callee called
    refine ⟨⟨sound.code, sound.globals, ⟨?_, calleeHeights, calleeMeasured, calleeMeasured.starts⟩,
      ?_⟩, rfl, rfl⟩
    · simp [arity]
    · intro caller member
      rcases List.mem_cons.mp member with rfl | member
      · exact ⟨sound.frame.slots, heights, measured, by rw [left]; exact behind⟩
      · exact sound.callers caller member

/-- A return hands its only operand to the frame that waits for it. -/
theorem Sound.leave_kept (sound : run.Sound) (fetched : run.fetched = some .ret)
    (single : run.frame.stack.length = 1) :
    Progress.Kept run ((run.place (run.frame.position + 1) run.activation).execute .ret) := by
  obtain ⟨value, only⟩ := List.length_eq_one_iff.mp single
  simp only [execute, leave, place, activation, only]
  cases callers : run.callers with
  | nil => exact ⟨.returned value fetched callers only, sound.globals⟩
  | cons caller rest =>
      obtain ⟨slots, callerHeights, measured, there⟩ := sound.callers caller (by simp [callers])
      exact ⟨⟨sound.code, sound.globals, ⟨slots, callerHeights, measured, there⟩,
        fun other member => sound.callers other (by simp [callers, member])⟩, rfl, rfl⟩

theorem Sound.read_slot_kept (sound : run.Sound)
    (measured : run.frame.func.Measured run.code heights) (slot : Nat)
    (fits : (LinearInstr.localGet slot).Fits run.code run.frame.func heights run.frame.position
      run.frame.stack.length) :
    Progress.Kept run
      ((run.place (run.frame.position + 1) run.activation).execute (.localGet slot)) := by
  obtain ⟨bound, behind⟩ := fits
  have found := Array.getElem?_eq_getElem (sound.frame.slots.symm ▸ bound)
  rw [execute_read_slot]
  simp only [activation, Activation.readSlot, found, settle]
  exact sound.goes_on measured _ _ behind rfl rfl

theorem Sound.write_slot_kept (sound : run.Sound)
    (measured : run.frame.func.Measured run.code heights) (slot : Nat)
    (fits : (LinearInstr.localSet slot).Fits run.code run.frame.func heights run.frame.position
      run.frame.stack.length) :
    Progress.Kept run
      ((run.place (run.frame.position + 1) run.activation).execute (.localSet slot)) := by
  obtain ⟨bound, rest, count, behind⟩ := fits
  obtain ⟨value, below, same, left⟩ := stack_of_length _ rest count
  rw [execute_write_slot]
  simp only [activation, Activation.writeSlot, Activation.pop, same, ok_bind,
    if_pos (sound.frame.slots.symm ▸ bound), settle]
  exact sound.goes_on measured _ _ (left ▸ behind) (Array.size_setIfInBounds ..) rfl

theorem Sound.read_global_kept (sound : run.Sound)
    (measured : run.frame.func.Measured run.code heights) (index : Nat)
    (fits : (LinearInstr.globalGet index).Fits run.code run.frame.func heights run.frame.position
      run.frame.stack.length) :
    Progress.Kept run
      ((run.place (run.frame.position + 1) run.activation).execute (.globalGet index)) := by
  obtain ⟨bound, behind⟩ := fits
  have found := Array.getElem?_eq_getElem (sound.globals.symm ▸ bound)
  rw [execute_read_global]
  simp only [activation, Activation.readGlobal, found, settle]
  exact sound.goes_on measured _ _ behind rfl rfl

theorem Sound.write_global_kept (sound : run.Sound)
    (measured : run.frame.func.Measured run.code heights) (index : Nat)
    (fits : (LinearInstr.globalSet index).Fits run.code run.frame.func heights run.frame.position
      run.frame.stack.length) :
    Progress.Kept run
      ((run.place (run.frame.position + 1) run.activation).execute (.globalSet index)) := by
  obtain ⟨bound, rest, count, behind⟩ := fits
  obtain ⟨value, below, same, left⟩ := stack_of_length _ rest count
  rw [execute_write_global]
  simp only [activation, Activation.writeGlobal, Activation.pop, same, ok_bind,
    if_pos (sound.globals.symm ▸ bound), settle]
  exact sound.goes_on measured _ _ (left ▸ behind) rfl (Array.size_setIfInBounds ..)

theorem Sound.binary_kept (sound : run.Sound)
    (measured : run.frame.func.Measured run.code heights) (op : WordOp)
    (fetched : run.fetched = some (.binary op))
    (fits : (LinearInstr.binary op).Fits run.code run.frame.func heights run.frame.position
      run.frame.stack.length) :
    Progress.Kept run
      ((run.place (run.frame.position + 1) run.activation).execute (.binary op)) := by
  obtain ⟨rest, count, behind⟩ := fits
  obtain ⟨right, others, same, leftOthers⟩ := stack_of_length _ (rest + 1) count
  obtain ⟨left, below, rfl, leftBelow⟩ := stack_of_length _ rest leftOthers
  rw [execute_binary]
  simp only [activation, Activation.operate, same]
  cases op.apply left right with
  | ok value =>
      rw [← leftBelow] at behind
      exact sound.goes_on measured _ _ behind rfl rfl
  | error trap => exact ⟨.trapped op trap fetched, sound.globals⟩

theorem Sound.drop_kept (sound : run.Sound)
    (measured : run.frame.func.Measured run.code heights)
    (fits : LinearInstr.drop.Fits run.code run.frame.func heights run.frame.position
      run.frame.stack.length) :
    Progress.Kept run
      ((run.place (run.frame.position + 1) run.activation).execute .drop) := by
  obtain ⟨rest, count, behind⟩ := fits
  obtain ⟨value, below, same, left⟩ := stack_of_length _ rest count
  rw [execute_drop]
  simp only [activation, Activation.pop, same]
  exact sound.goes_on measured _ _ (left ▸ behind) rfl rfl

theorem Sound.jump_if_zero_kept (sound : run.Sound)
    (measured : run.frame.func.Measured run.code heights) (target : Nat)
    (fits : (LinearInstr.jumpIfZero target).Fits run.code run.frame.func heights
      run.frame.position run.frame.stack.length) :
    Progress.Kept run
      ((run.place (run.frame.position + 1) run.activation).execute (.jumpIfZero target)) := by
  obtain ⟨rest, count, jumps, behind⟩ := fits
  obtain ⟨test, below, same, left⟩ := stack_of_length _ rest count
  rw [execute_jump_if_zero]
  simp only [activation, same]
  split
  · exact sound.goes_on measured _ _ (left ▸ jumps) rfl rfl
  · exact sound.goes_on measured _ _ (left ▸ behind) rfl rfl

theorem Sound.jump_unless_zero_kept (sound : run.Sound)
    (measured : run.frame.func.Measured run.code heights) (target : Nat)
    (fits : (LinearInstr.jumpUnlessZero target).Fits run.code run.frame.func heights
      run.frame.position run.frame.stack.length) :
    Progress.Kept run
      ((run.place (run.frame.position + 1) run.activation).execute (.jumpUnlessZero target)) := by
  obtain ⟨rest, count, jumps, behind⟩ := fits
  obtain ⟨test, below, same, left⟩ := stack_of_length _ rest count
  rw [execute_jump_unless_zero]
  simp only [activation, same]
  split
  · exact sound.goes_on measured _ _ (left ▸ behind) rfl rfl
  · exact sound.goes_on measured _ _ (left ▸ jumps) rfl rfl

theorem Sound.call_host_kept (sound : run.Sound)
    (measured : run.frame.func.Measured run.code heights) (primitive : HostImport)
    (fits : (LinearInstr.callHost primitive).Fits run.code run.frame.func heights
      run.frame.position run.frame.stack.length) :
    Progress.Kept run
      ((run.place (run.frame.position + 1) run.activation).execute (.callHost primitive)) := by
  obtain ⟨rest, count, behind⟩ := fits
  obtain ⟨args, below, taken, arity, left⟩ := take_args_succeeds primitive.arity rest _ count
  obtain ⟨answer, events, answered⟩ := primitive_answers primitive args run.store.events arity
  rw [execute_call_host]
  simp only [activation, Activation.callHost, taken, answered, ok_bind]
  rw [← left] at behind
  exact sound.goes_on measured _ _ behind rfl rfl

/-- One step of a sound run keeps it sound, or ends it in one of the ways in which it may end. -/
theorem Sound.step_kept (sound : run.Sound) : Progress.Kept run run.step := by
  obtain ⟨heights, measured, there⟩ := sound.frame.stack
  obtain ⟨instr, fetched, fits⟩ := measured.fits _ _ there
  rw [run.step_executes instr fetched]
  cases instr with
  | const value => exact sound.goes_on measured _ (run.activation.push value) fits rfl rfl
  | localGet slot => exact sound.read_slot_kept measured slot fits
  | localSet slot => exact sound.write_slot_kept measured slot fits
  | globalGet index => exact sound.read_global_kept measured index fits
  | globalSet index => exact sound.write_global_kept measured index fits
  | binary op => exact sound.binary_kept measured op fetched fits
  | drop => exact sound.drop_kept measured fits
  | jump target => exact sound.goes_on measured target run.activation fits rfl rfl
  | jumpIfZero target => exact sound.jump_if_zero_kept measured target fits
  | jumpUnlessZero target => exact sound.jump_unless_zero_kept measured target fits
  | call index =>
      obtain ⟨callee, called, rest, count, behind⟩ := fits
      exact sound.call_kept measured index fetched callee called rest count behind
  | callHost primitive => exact sound.call_host_kept measured primitive fits
  | ret => exact sound.leave_kept fetched fits
  | unreachable => exact ⟨.unreachable fetched, sound.globals⟩

/-- A return of a sound run finds no operand but the one that it takes. -/
theorem Sound.return_takes_all (sound : run.Sound) (fetched : run.fetched = some .ret) :
    ∃ value, run.frame.stack = [value] := by
  obtain ⟨heights, measured, there⟩ := sound.frame.stack
  obtain ⟨instr, found, fits⟩ := measured.fits _ _ there
  cases found.symm.trans fetched
  exact List.length_eq_one_iff.mp fits

theorem Sound.advance_kept (sound : run.Sound) (steps : Nat) :
    match run.advance steps with
    | .running next => next.Sound ∧ next.code = run.code ∧ next.limit = run.limit
    | .finished _ store => store.globals.size = run.code.globals.length := by
  induction steps generalizing run with
  | zero => exact ⟨sound, rfl, rfl⟩
  | succ steps induction =>
      have kept := sound.step_kept
      simp only [advance]
      cases stepped : run.step with
      | finished outcome store =>
          rw [stepped] at kept
          exact kept.2
      | running next =>
          rw [stepped] at kept
          obtain ⟨soundNext, sameCode, sameLimit⟩ := kept
          have rest := induction soundNext
          simp only
          rwa [sameCode, sameLimit] at rest

end Run

/-- The linear form of a module whose functions are valid and clean. -/
theorem measured_of_linearize (module : Module) (code : LinearModule)
    (linearized : module.linearize = .ok code)
    (valid : ∀ func ∈ module.allFunctions, func.Valid module ∧ func.Clean module) :
    code.Measured := by
  intro index linear there
  cases found : module.allFunctions[index]? with
  | none =>
      rw [linearized_functions_absent module code linearized index found] at there
      cases there
  | some func =>
      obtain ⟨other, present, form⟩ := linearized_functions module code linearized index func found
      cases present.symm.trans there
      obtain ⟨isValid, isClean⟩ := valid func (List.mem_of_getElem? found)
      exact ⟨_, measured_of_valid module code linearized func linear form isValid isClean⟩

namespace Machine

/-- A machine that can be called: the operands at all positions of its code are known, and its
globals are those of the code. -/
structure Sound (machine : Machine) : Prop where
  code : machine.code.Measured
  globals : machine.store.globals.size = machine.code.globals.length

/-- The machines that a machine becomes when its entry is called, any number of times. A call that
traps counts as well as one that returns. -/
inductive Reached (loaded : Machine) : Machine → Prop where
  | loaded : Reached loaded loaded
  | called (machine next : Machine) (steps : Nat) (outcome : Except RuntimeError Word)
      (before : Reached loaded machine)
      (ended : machine.invoke entryExport [] steps = some (outcome, next)) : Reached loaded next

variable {analysis : Analysis} {machine : Machine}

/-- A call of the entry starts in a sound run, unless no frame may be opened at all. -/
theorem Sound.start_kept (sound : machine.Sound)
    (linearized : analysis.compiled.linearize = .ok machine.code) :
    match machine.start entryExport [] with
    | .error error => machine.limit = 0 ∧ error = .callStackExhausted machine.limit
    | .ok run => run.Sound ∧ run.code = machine.code ∧ run.limit = machine.limit := by
  obtain ⟨linear, there, form⟩ := linearized_functions analysis.compiled machine.code linearized
    analysis.compiled.functions.length _ analysis.compiled_entry
  obtain ⟨_, _, _, params, _, _⟩ := linear_func_succeeds _ _ linear form
  have none : linear.params = 0 := params
  simp only [start, entry_exported analysis machine.code linearized, LinearModule.enter, there]
  by_cases full : machine.limit = 0
  · simp only [if_pos full, error_bind]
    exact ⟨full, trivial⟩
  · obtain ⟨heights, measured⟩ := sound.code _ linear there
    simp only [if_neg full, if_pos (show ([] : List Word).length = linear.params from none.symm),
      ok_bind]
    refine ⟨⟨sound.code, sound.globals, ⟨?_, heights, measured, measured.starts⟩, ?_⟩, rfl, rfl⟩
    · simp [none]
    · intro caller member
      cases member

/-- A machine can be called again after every call, also after one that trapped. -/
theorem Sound.invoke_kept (sound : machine.Sound)
    (linearized : analysis.compiled.linearize = .ok machine.code) (steps : Nat)
    (outcome : Except RuntimeError Word) (next : Machine)
    (ended : machine.invoke entryExport [] steps = some (outcome, next)) :
    next.Sound ∧ next.code = machine.code ∧ next.limit = machine.limit := by
  have started := sound.start_kept linearized
  unfold invoke at ended
  split at ended
  · cases ended
    exact ⟨sound, rfl, rfl⟩
  · rename_i run starts
    rw [starts] at started
    obtain ⟨soundRun, sameCode, _⟩ := started
    have kept := soundRun.advance_kept steps
    split at ended
    · cases ended
    · rename_i result store finished
      cases ended
      rw [finished] at kept
      exact ⟨⟨sound.code, by rw [← sameCode]; exact kept⟩, rfl, rfl⟩

theorem Reached.kept {loaded : Machine} (reached : loaded.Reached machine) (sound : loaded.Sound)
    (linearized : analysis.compiled.linearize = .ok loaded.code) :
    machine.Sound ∧ machine.code = loaded.code ∧ machine.limit = loaded.limit := by
  induction reached with
  | loaded => exact ⟨sound, rfl, rfl⟩
  | called machine next steps outcome before ended induction =>
      obtain ⟨soundMachine, sameCode, sameLimit⟩ := induction
      obtain ⟨soundNext, code, limit⟩ :=
        soundMachine.invoke_kept (sameCode ▸ linearized) steps outcome next ended
      exact ⟨soundNext, code.trans sameCode, limit.trans sameLimit⟩

end Machine

/-- A compiled program without objects among its parameters and results does not go wrong. However
many frames may be open and whatever calls of the entry came before, a call is refused only if no
frame may be open, and every run of the entry goes on with each step, returns from its last frame,
or stops for one of three reasons: an operator has no answer, code that must not be reached was
reached, or too many frames are open. A return always takes the only operand of its frame. -/
theorem compiled_programs_do_not_go_wrong (program : Program) (analysis : Analysis)
    (analysed : program.analyze = .ok analysis) (plain : program.Plain) :
    ∃ module, analysis.generate = .ok module ∧ ∀ limit, ∃ loaded,
      Machine.load module limit = .ok loaded ∧ ∀ machine, loaded.Reached machine →
        (∀ error, machine.start entryExport [] = .error error →
          limit = 0 ∧ error = .callStackExhausted limit) ∧
        ∀ (run state : Run) (steps : Nat), machine.start entryExport [] = .ok run →
          run.advance steps = .running state →
          state.limit = limit ∧
            (∀ outcome store, state.step = .finished outcome store → state.MayEnd outcome) ∧
            (state.fetched = some .ret → ∃ value, state.frame.stack = [value]) := by
  obtain ⟨typed, _, _⟩ := analyze_typed program analysis analysed
  have plainAfter := analyze_plain program analysis analysed plain
  obtain ⟨code, linearized⟩ :=
    linearize_of_resolved analysis.compiled (typed.compiled_resolved plainAfter)
  have measured := measured_of_linearize analysis.compiled code linearized
    (typed.compiled_valid plainAfter)
  refine ⟨analysis.compiled, generate_typed analysis typed plainAfter, fun limit =>
    ⟨⟨code, limit, ⟨(code.globals.map Prod.snd).toArray, #[]⟩⟩, ?_, fun machine reached => ?_⟩⟩
  · simp only [Machine.load, linearized, ok_bind]
    rfl
  -- Earlier calls may have trapped, but they leave a machine that is sound.
  · obtain ⟨sound, sameCode, sameLimit⟩ := reached.kept ⟨measured, by simp⟩ linearized
    have started := sound.start_kept (by rw [sameCode]; exact linearized)
    constructor
    · intro error refused
      rw [refused, sameLimit] at started
      exact started
    · intro run state steps starts advanced
      rw [starts] at started
      obtain ⟨soundRun, _, runLimit⟩ := started
      have kept := soundRun.advance_kept steps
      rw [advanced] at kept
      obtain ⟨soundState, _, stateLimit⟩ := kept
      refine ⟨stateLimit.trans (runLimit.trans sameLimit), fun outcome store ends => ?_,
        soundState.return_takes_all⟩
      have last := soundState.step_kept
      rw [ends] at last
      exact last.1

def quotientSource : List Char :=
  "x: int = 1\nx = x - 1\nprint(1 // x)\n".toList

theorem quotient_goes_on_after_a_trap :
    ∃ program analysis module loaded next, Program.ofSource quotientSource = .ok program ∧
      program.analyze = .ok analysis ∧ program.Plain ∧ analysis.generate = .ok module ∧
      Machine.load module 3 = .ok loaded ∧
      loaded.invoke entryExport [] 50 =
        some (.error (.arithmetic .divideByZero), next) ∧
      ∀ (run state : Run) (steps : Nat), next.start entryExport [] = .ok run →
        run.advance steps = .running state →
          ∀ outcome store, state.step = .finished outcome store → state.MayEnd outcome := by
  have computed : ((compileSource quotientSource).toOption.bind fun module =>
      (Machine.load module 3).toOption.bind fun loaded =>
        (loaded.invoke entryExport [] 50).map Prod.fst) =
      some (.error (.arithmetic .divideByZero)) := by
    decide +kernel
  cases compiled : compileSource quotientSource with
  | error failure =>
      rw [compiled] at computed
      cases computed
  | ok module =>
      rw [compiled] at computed
      simp only [compileSource, bind_succeeds_iff, map_error_succeeds_iff] at compiled
      obtain ⟨analysis, checked, generated⟩ := compiled
      obtain ⟨program, read, analysed⟩ := (check_source_succeeds_iff _ analysis).mp checked
      have plain := program_of_source_plain _ program read
      obtain ⟨other, generatedToo, machines⟩ :=
        compiled_programs_do_not_go_wrong program analysis analysed plain
      cases generated.symm.trans generatedToo
      obtain ⟨loaded, load, safe⟩ := machines 3
      simp only [Except.toOption, Option.bind_some, load] at computed
      obtain ⟨⟨_, next⟩, ended, rfl⟩ := Option.map_eq_some_iff.mp computed
      have reached := Machine.Reached.called loaded next 50 _ .loaded ended
      exact ⟨program, analysis, module, loaded, next, read, analysed, plain, generated, load, ended,
        fun run state steps starts advanced =>
          ((safe next reached).2 run state steps starts advanced).2.1⟩

end ScriptWasm
