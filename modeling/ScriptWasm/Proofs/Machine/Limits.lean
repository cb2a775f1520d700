import ScriptWasm.Proofs.Machine.Control
import Mathlib.Order.Bounds.Basic

/-!
How many frames may be open at once decides only whether a run is stopped. Under another limit a run
takes the same steps, as long as no step opens a frame too many; that step traps instead and changes
nothing. So the limits under which a call ends as it does are those that reach the largest number of
frames that it ever has open.
-/

namespace ScriptWasm

set_option autoImplicit false

namespace Run

def depth (run : Run) : Nat :=
  run.callers.length + 1

def underLimit (run : Run) (limit : Nat) : Run :=
  { run with limit, room := limit - run.depth }

section Fields

variable (run : Run) (limit : Nat)

@[simp] theorem under_limit_code : (run.underLimit limit).code = run.code :=
  rfl

@[simp] theorem under_limit_limit : (run.underLimit limit).limit = limit :=
  rfl

@[simp] theorem under_limit_room : (run.underLimit limit).room = limit - run.depth :=
  rfl

@[simp] theorem under_limit_store : (run.underLimit limit).store = run.store :=
  rfl

@[simp] theorem under_limit_frame : (run.underLimit limit).frame = run.frame :=
  rfl

@[simp] theorem under_limit_callers : (run.underLimit limit).callers = run.callers :=
  rfl

end Fields

end Run

namespace Progress

def store : Progress → Store
  | running run => run.store
  | finished _ store => store

/-- What becomes of a step under another limit, where `before` is stored before the step. A step
that opens a frame too many traps. -/
def underLimit (limit : Nat) (before : Store) : Progress → Progress
  | running next =>
      if next.depth ≤ limit then .running (next.underLimit limit)
      else .finished (.error (.callStackExhausted limit)) before
  | finished outcome store => .finished outcome store

variable {limit : Nat} {before : Store} {next : Run}

theorem under_limit_within (within : next.depth ≤ limit) :
    (running next).underLimit limit before = .running (next.underLimit limit) :=
  if_pos within

theorem under_limit_beyond (beyond : limit < next.depth) :
    (running next).underLimit limit before =
      .finished (.error (.callStackExhausted limit)) before :=
  if_neg (Nat.not_le_of_lt beyond)

end Progress

namespace Run

variable {run : Run} {limit : Nat}

/-- A step that ends a run because no more frame may be opened. -/
def Exhausts (run : Run) (progress : Progress) : Prop :=
  ∃ store, progress = .finished (.error (.callStackExhausted run.limit)) store

section Steps

variable (within : run.depth ≤ limit)

include within

theorem with_stack_under_limit (stack : List Word) :
    (run.underLimit limit).withStack stack =
      (run.withStack stack).underLimit limit run.store := by
  unfold withStack
  rw [Progress.under_limit_within]
  · rfl
  · exact within

theorem with_jump_under_limit (target : Nat) (stack : List Word) :
    (run.underLimit limit).withJump target stack =
      (run.withJump target stack).underLimit limit run.store := by
  unfold withJump
  rw [Progress.under_limit_within]
  · rfl
  · exact within

theorem call_host_under_limit (primitive : HostImport) :
    (run.underLimit limit).callHost primitive =
      (run.callHost primitive).underLimit limit run.store := by
  simp only [callHost, under_limit_frame, under_limit_store]
  cases takeArgs primitive.arity run.frame.stack with
  | none => rfl
  | some taken =>
      simp only
      cases primitive.call taken.1 run.store.events with
      | error error => rfl
      | ok answered =>
          simp only
          rw [Progress.under_limit_within]
          · rfl
          · exact within

theorem leave_under_limit :
    (run.underLimit limit).leave = run.leave.underLimit limit run.store := by
  simp only [leave, under_limit_frame, under_limit_callers]
  cases run.frame.stack with
  | nil => rfl
  | cons result stack =>
      cases waiting : run.callers with
      | nil => rfl
      | cons caller callers =>
          have deep : run.depth = callers.length + 2 := by rw [depth, waiting, List.length_cons]
          have room : limit - run.depth + 1 = limit - (callers.length + 1) := by omega
          have fits : callers.length + 1 ≤ limit := by omega
          simp only [under_limit_room, room]
          rw [Progress.under_limit_within]
          · rfl
          · exact fits

theorem call_function_under_limit (index : Nat)
    (room : ¬run.Exhausts (run.callFunction index)) :
    (run.underLimit limit).callFunction index =
      (run.callFunction index).underLimit limit run.store := by
  simp only [callFunction, under_limit_code, under_limit_frame, under_limit_limit,
    under_limit_room] at room ⊢
  cases found : run.code.functions[index]? with
  | none => rfl
  | some func =>
      simp only [found] at room ⊢
      cases taken : takeArgs func.params run.frame.stack with
      | none => rfl
      | some pair =>
          obtain ⟨args, stack⟩ := pair
          have arity := take_args_length taken
          simp only [taken, LinearModule.enter, found, if_pos arity] at room ⊢
          by_cases full : run.room = 0
          · rw [if_pos full] at room
            exact absurd ⟨_, rfl⟩ room
          · simp only [if_neg full]
            by_cases fits : run.depth + 1 ≤ limit
            · have opens : limit - run.depth ≠ 0 := by omega
              simp only [if_neg opens]
              rw [Progress.under_limit_within]
              · rfl
              · exact fits
            · have closed : limit - run.depth = 0 := by omega
              simp only [if_pos closed]
              rw [Progress.under_limit_beyond]
              · rfl
              · exact Nat.lt_of_not_le fits

theorem write_slot_under_limit (slot : Nat) :
    (run.underLimit limit).execute (.localSet slot) =
      (run.execute (.localSet slot)).underLimit limit run.store := by
  simp only [execute, under_limit_frame]
  cases run.frame.stack with
  | nil => rfl
  | cons value stack =>
      simp only
      by_cases bound : slot < run.frame.slots.size
      · refine (if_pos bound).trans ?_
        rw [if_pos bound, Progress.under_limit_within]
        · rfl
        · exact within
      · refine (if_neg bound).trans ?_
        rw [if_neg bound]
        rfl

theorem write_global_under_limit (index : Nat) :
    (run.underLimit limit).execute (.globalSet index) =
      (run.execute (.globalSet index)).underLimit limit run.store := by
  simp only [execute, under_limit_frame, under_limit_store]
  cases run.frame.stack with
  | nil => rfl
  | cons value stack =>
      simp only
      by_cases bound : index < run.store.globals.size
      · refine (if_pos bound).trans ?_
        rw [if_pos bound, Progress.under_limit_within]
        · rfl
        · exact within
      · refine (if_neg bound).trans ?_
        rw [if_neg bound]
        rfl

theorem execute_under_limit (instr : LinearInstr)
    (room : ¬run.Exhausts (run.execute instr)) :
    (run.underLimit limit).execute instr =
      (run.execute instr).underLimit limit run.store := by
  have onStack := with_stack_under_limit within
  have onJump := with_jump_under_limit within
  -- Only a call looks at the limit, and `room` says that it does not exhaust it.
  cases instr with
  | const value => exact onStack _
  | localGet slot =>
      simp only [execute, under_limit_frame]
      cases run.frame.slots[slot]? with
      | none => rfl
      | some value => exact onStack _
  | globalGet index =>
      simp only [execute, under_limit_frame, under_limit_store]
      cases run.store.globals[index]? with
      | none => rfl
      | some value => exact onStack _
  | localSet slot => exact write_slot_under_limit within slot
  | globalSet index => exact write_global_under_limit within index
  | binary op =>
      simp only [execute, under_limit_frame]
      split
      · split
        · exact onStack _
        · rfl
      · rfl
  | drop =>
      simp only [execute, under_limit_frame]
      cases run.frame.stack with
      | nil => rfl
      | cons value stack => exact onStack _
  | jump target => exact onJump _ _
  | jumpIfZero target =>
      simp only [execute, under_limit_frame]
      cases run.frame.stack with
      | nil => rfl
      | cons test stack =>
          simp only
          split
          · exact onJump _ _
          · exact onStack _
  | jumpUnlessZero target =>
      simp only [execute, under_limit_frame]
      cases run.frame.stack with
      | nil => rfl
      | cons test stack =>
          simp only
          split
          · exact onStack _
          · exact onJump _ _
  | call index => exact call_function_under_limit within index room
  | callHost primitive => exact call_host_under_limit within primitive
  | ret => exact leave_under_limit within
  | unreachable => rfl

/-- A step is taken under another limit as well, unless it opens a frame too many. -/
theorem step_under_limit (room : ¬run.Exhausts run.step) :
    (run.underLimit limit).step = run.step.underLimit limit run.store := by
  simp only [step, under_limit_frame] at room ⊢
  cases fetched : run.frame.func.code[run.frame.position]? with
  | none => rfl
  | some instr =>
      simp only [fetched] at room
      let moved : Run := { run with frame := { run.frame with position := run.frame.position + 1 } }
      exact execute_under_limit (show moved.depth ≤ limit from within) instr room

end Steps

section Histories

variable {next : Run} {outcome : Except RuntimeError Word} {store : Store} {steps : Nat}

/-- The events before a run are the first ones after it. -/
theorem events_before (finished : run.advance steps = .finished outcome store) :
    run.store.events.toList <+: store.events.toList := by
  induction steps generalizing run with
  | zero => cases finished
  | succ steps induction =>
      have continues := run.step_continues
      simp only [advance] at finished
      cases stepped : run.step with
      | running next =>
          rw [stepped] at finished continues
          exact continues.2.2.trans (induction finished)
      | finished outcome' store' =>
          rw [stepped] at finished continues
          cases finished
          exact (show store.events = run.store.events from continues) ▸ List.prefix_rfl

/-- The numbers of frames that are open at some time of a run. -/
def depths (run : Run) : Set Nat :=
  {depth | ∃ steps state, run.advance steps = .running state ∧ state.depth = depth}

theorem depth_mem_depths (run : Run) : run.depth ∈ run.depths :=
  ⟨0, run, rfl, rfl⟩

theorem depths_of_end (stepped : run.step = .finished outcome store) :
    run.depths = {run.depth} := by
  ext depth
  constructor
  · rintro ⟨steps, state, advanced, rfl⟩
    cases steps with
    | zero =>
        cases advanced
        exact rfl
    | succ steps =>
        simp only [advance, stepped] at advanced
        cases advanced
  · rintro rfl
    exact run.depth_mem_depths

theorem depths_of_step (stepped : run.step = .running next) :
    run.depths = insert run.depth next.depths := by
  ext depth
  constructor
  · rintro ⟨steps, state, advanced, rfl⟩
    cases steps with
    | zero =>
        cases advanced
        exact .inl rfl
    | succ steps =>
        simp only [advance, stepped] at advanced
        exact .inr ⟨steps, state, advanced, rfl⟩
  · rintro (rfl | ⟨steps, state, advanced, rfl⟩)
    · exact run.depth_mem_depths
    · exact ⟨steps + 1, state, by simp only [advance, stepped, advanced], rfl⟩

/-- A run that ends has a time at which the most frames are open. -/
theorem greatest_depth (finished : run.advance steps = .finished outcome store) :
    ∃ greatest, IsGreatest run.depths greatest := by
  induction steps generalizing run with
  | zero => cases finished
  | succ steps induction =>
      simp only [advance] at finished
      cases stepped : run.step with
      | running next =>
          rw [stepped] at finished
          obtain ⟨greatest, isGreatest⟩ := induction finished
          rw [depths_of_step stepped]
          exact ⟨_, isGreatest.insert run.depth⟩
      | finished outcome' store' =>
          rw [depths_of_end stepped]
          exact ⟨_, isGreatest_singleton⟩

variable (answers : outcome ≠ .error (.callStackExhausted run.limit))

include answers

/-- A run that ends otherwise always had enough room. -/
theorem step_has_room (finished : run.advance (steps + 1) = .finished outcome store) :
    ¬run.Exhausts run.step := by
  rintro ⟨last, stepped⟩
  simp only [advance, stepped] at finished
  cases finished
  exact answers rfl

/-- A run ends as it does under every limit that it keeps to. -/
theorem advance_within_limit (fits : ∀ depth ∈ run.depths, depth ≤ limit)
    (finished : run.advance steps = .finished outcome store) :
    (run.underLimit limit).advance steps = .finished outcome store := by
  induction steps generalizing run with
  | zero => cases finished
  | succ steps induction =>
      have follows :=
        step_under_limit (fits _ run.depth_mem_depths) (step_has_room answers finished)
      have continues := run.step_continues
      simp only [advance, follows] at finished ⊢
      cases stepped : run.step with
      | finished outcome' store' =>
          rw [stepped] at finished
          exact finished
      | running next =>
          rw [stepped] at finished continues
          rw [depths_of_step stepped] at fits
          rw [Progress.under_limit_within (fits _ (.inr next.depth_mem_depths))]
          exact induction (continues.2.1.symm ▸ answers)
            (fun depth member => fits depth (.inr member)) finished

/-- Under a limit that a run does not keep to, it stops where it would open a frame too many. -/
theorem advance_beyond_limit (within : run.depth ≤ limit)
    (deep : ∃ depth ∈ run.depths, limit < depth)
    (finished : run.advance steps = .finished outcome store) :
    ∃ earlier,
      (run.underLimit limit).advance steps =
        .finished (.error (.callStackExhausted limit)) earlier ∧
      run.store.events.toList <+: earlier.events.toList ∧
      earlier.events.toList <+: store.events.toList := by
  induction steps generalizing run with
  | zero => cases finished
  | succ steps induction =>
      have follows := step_under_limit within (step_has_room answers finished)
      have continues := run.step_continues
      have events := events_before finished
      simp only [advance, follows] at finished ⊢
      cases stepped : run.step with
      | finished outcome' store' =>
          rw [depths_of_end stepped] at deep
          obtain ⟨depth, rfl, beyond⟩ := deep
          exact absurd within (Nat.not_le_of_lt beyond)
      | running next =>
          rw [stepped] at finished continues
          obtain ⟨-, sameLimit, added⟩ := continues
          -- Either the next frame is one too many, or the depth that is too great comes later.
          by_cases fits : next.depth ≤ limit
          · rw [Progress.under_limit_within fits]
            obtain ⟨depth, reached, beyond⟩ := deep
            rw [depths_of_step stepped] at reached
            have later : depth ∈ next.depths :=
              reached.resolve_left fun same => by
                rw [same] at beyond
                exact absurd within (Nat.not_le_of_lt beyond)
            obtain ⟨earlier, stops, before, behind⟩ :=
              induction (sameLimit.symm ▸ answers) fits ⟨depth, later, beyond⟩ finished
            exact ⟨earlier, stops, added.trans before, behind⟩
          · rw [Progress.under_limit_beyond (Nat.lt_of_not_le fits)]
            exact ⟨run.store, rfl, List.prefix_rfl, events⟩

end Histories

end Run

def Machine.depths (machine : Machine) (name : String) (args : List Word) : Set Nat :=
  {depth | ∃ run, machine.start name args = .ok run ∧ depth ∈ run.depths}

/-- The limit of open frames is exact, and has no other effect. If a call of an export ends without
exhausting it, then so it does under every limit that is not below the largest number of frames that
are open at once; under a smaller limit the call traps, and what it printed until then is the
beginning of what it prints otherwise. -/
theorem frame_limit_is_exact (module : Module) (limit : Nat) (loaded : Machine)
    (loads : Machine.load module limit = .ok loaded) (store : Store) (name : String) (index : Nat)
    (func : Func) (args : List Word)
    (exported : loaded.code.exports.get? name = some index)
    (found : module.allFunctions[index]? = some func)
    (arity : args.length = func.params.length) (steps : Nat) (outcome : Except RuntimeError Word)
    (after : Machine)
    (ended : Machine.invoke { loaded with store } name args steps = some (outcome, after))
    (answers : outcome ≠ .error (.callStackExhausted limit)) :
    ∃ greatest, IsGreatest (Machine.depths { loaded with store } name args) greatest ∧
      (∀ other, greatest ≤ other →
        Machine.invoke { loaded with limit := other, store } name args steps =
          some (outcome, { after with limit := other })) ∧
      ∀ other, other < greatest →
        ∃ earlier,
          Machine.invoke { loaded with limit := other, store } name args steps =
            some (.error (.callStackExhausted other),
              { loaded with limit := other, store := earlier }) ∧
          store.events.toList <+: earlier.events.toList ∧
          earlier.events.toList <+: after.store.events.toList := by
  simp only [Machine.load, bind_succeeds_iff, pure_succeeds_iff] at loads
  obtain ⟨code, linearized, rfl⟩ := loads
  dsimp only at exported ended ⊢
  obtain ⟨linear, present, form⟩ := linearized_functions module code linearized index func found
  obtain ⟨_, _, _, params, _, _⟩ := linear_func_succeeds module func linear form
  let run : Run := linear.begin code limit store args
  have start : ∀ other, Machine.start ⟨code, other, store⟩ name args =
      if other = 0 then .error (.callStackExhausted other) else .ok (run.underLimit other) :=
    fun other => Machine.start_of_export exported present (arity.trans params.symm)
  -- A limit of zero refuses the call at once, and that is an answer that exhausts the limit.
  have room : limit ≠ 0 := by
    intro closed
    simp only [Machine.invoke, start, if_pos closed] at ended
    cases ended
    exact answers rfl
  have finished : run.advance steps = .finished outcome after.store ∧
      after = ⟨code, limit, after.store⟩ := by
    simp only [Machine.invoke, start, if_neg room] at ended
    split at ended
    · cases ended
    · rename_i outcome' store' finished
      cases ended
      exact ⟨finished, rfl⟩
  obtain ⟨finished, sameMachine⟩ := finished
  obtain ⟨greatest, isGreatest⟩ := Run.greatest_depth finished
  have sameDepths : Machine.depths ⟨code, limit, store⟩ name args = run.depths := by
    ext depth
    simp only [Machine.depths, start, if_neg room, Set.mem_ofPred_eq]
    constructor
    · rintro ⟨_, ⟨rfl⟩, reached⟩
      exact reached
    · exact fun reached => ⟨_, rfl, reached⟩
  -- A larger limit is never met, and a smaller one is met when the greatest depth would be reached.
  refine ⟨greatest, sameDepths ▸ isGreatest, fun other fits => ?_, fun other below => ?_⟩
  · have first : run.depth ≤ other := (isGreatest.2 run.depth_mem_depths).trans fits
    have opens : other ≠ 0 := Nat.ne_of_gt (Nat.lt_of_lt_of_le (Nat.succ_pos _) first)
    have same := Run.advance_within_limit answers
      (fun depth reached => (isGreatest.2 reached).trans fits) finished
    simp only [Machine.invoke, start, if_neg opens, same]
    rw [sameMachine]
  · by_cases closed : other = 0
    · refine ⟨store, ?_, List.prefix_rfl, Run.events_before finished⟩
      simp only [Machine.invoke, start, if_pos closed]
    · obtain ⟨earlier, stops, before, behind⟩ := Run.advance_beyond_limit answers
        (Nat.pos_of_ne_zero closed) ⟨greatest, isGreatest.1, below⟩ finished
      refine ⟨earlier, ?_, before, behind⟩
      simp only [Machine.invoke, start, if_neg closed, stops]

def descendingModule : Module :=
  ⟨[], [⟨some "down", some "down", ["n"], [],
      [.localGet "n", .call "print", .drop,
        .localGet "n", .cond [.localGet "n", .const 1, .binary .sub, .call "down", .ret] [],
        .const 9]⟩],
    ⟨none, none, [], [], [.const 0]⟩⟩

theorem descent_opens_three_frames :
    ∃ loaded, Machine.load descendingModule 5 = .ok loaded ∧
      IsGreatest (Machine.depths loaded "down" [2]) 3 := by
  have outcomes : ((Machine.load descendingModule 5).toOption.map fun loaded =>
      ((loaded.invoke "down" [2] 60).map Prod.fst,
        (Machine.invoke { loaded with limit := 3 } "down" [2] 60).map Prod.fst,
        (Machine.invoke { loaded with limit := 2 } "down" [2] 60).map Prod.fst,
        loaded.code.exports.get? "down")) =
      some (some (.ok 9), some (.ok 9), some (.error (.callStackExhausted 2)), some 0) := by
    decide +kernel
  cases loads : Machine.load descendingModule 5 with
  | error error =>
      rw [loads] at outcomes
      cases outcomes
  | ok loaded =>
      simp only [loads, Except.toOption, Option.map_some, Option.some.injEq, Prod.mk.injEq,
        Option.map_eq_some_iff, Prod.exists] at outcomes
      obtain ⟨⟨_, after, ended, rfl⟩, ⟨_, _, three, rfl⟩, ⟨_, _, two, rfl⟩, exported⟩ := outcomes
      obtain ⟨greatest, isGreatest, within, beyond⟩ :=
        frame_limit_is_exact descendingModule 5 loaded loads loaded.store "down" 0 _ [2] exported
          rfl rfl 60 _ after ended (by decide)
      refine ⟨loaded, rfl, ?_⟩
      have atMost : greatest ≤ 3 := by
        refine Nat.le_of_not_lt fun above => ?_
        obtain ⟨earlier, stops, _⟩ := beyond 3 above
        cases three.symm.trans stops
      have atLeast : 3 ≤ greatest := by
        refine Nat.le_of_not_lt fun below => ?_
        cases two.symm.trans (within 2 (Nat.le_of_lt_succ below))
      rwa [Nat.le_antisymm atMost atLeast] at isGreatest

end ScriptWasm
