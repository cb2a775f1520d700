import ScriptWasm.Proofs.Machine.Simulation

/-!
Linear code ends as the structured code that it was made from. The frame of a function is followed
from its first instruction to the one that ends it, whatever its slots and operands are and whatever
frames wait below it. The outcome, the store and the slots of the frame are the same, and one of the
two goes on forever exactly when the other does.
-/

namespace ScriptWasm

set_option autoImplicit false

def Exit.slots : Exit → Array Word
  | next state | branch _ state | returned _ state | trapped _ state => state.slots

/-- The body of a function, run in any state, where `room` more calls may be open at once. -/
def Module.runBody (module : Module) (limit room fuel : Nat) (func : Func) (state : Activation) :
    Option Exit :=
  Instr.runAll module func (module.invoke limit fuel room) fuel func.body state

def LinearFunc.started (func : LinearFunc) (code : LinearModule) (limit room : Nat)
    (state : Activation) (callers : List Frame) : Run :=
  ⟨code, limit, room, state.store, ⟨func, 0, state.slots, state.stack⟩, callers⟩

namespace Run

/-- What follows when the frame of a run has an outcome: its word is handed over, or the run
traps. -/
def answered (run : Run) : CallOutcome → Progress
  | (.ok value, store) => run.handOver value store
  | (.error error, store) => .finished (.error error) store

def FrameEnds (run : Run) (outcome : CallOutcome) (slots : Array Word) : Prop :=
  ∃ steps last, run.advance steps = .running last ∧ last.step = run.answered outcome ∧
    ∃ inner frame, last.frames = inner ++ frame :: run.callers ∧ frame.slots = slots

/-- Where no frame waits, the run ends with its frame. -/
theorem FrameEnds.finished {run : Run} {outcome : CallOutcome} {slots : Array Word}
    (alone : run.callers = []) (ends : run.FrameEnds outcome slots) :
    ∃ steps last, run.advance steps = .running last ∧
      last.step = .finished outcome.1 outcome.2 ∧
      ∃ frame, last.frames.getLast? = some frame ∧ frame.slots = slots := by
  obtain ⟨steps, last, arrives, answer, inner, frame, frames, same⟩ := ends
  refine ⟨steps, last, arrives, ?_, frame, ?_, same⟩
  · rw [answer]
    obtain ⟨result, store⟩ := outcome
    cases result with
    | ok value => simp only [answered, handOver, alone]
    | error error => rfl
  · rw [frames, alone, List.getLast?_append_cons]
    rfl

theorem FrameEnds.unique {run : Run} {outcome other : CallOutcome} {slots otherSlots : Array Word}
    (alone : run.callers = []) (ends : run.FrameEnds outcome slots)
    (endsToo : run.FrameEnds other otherSlots) : outcome = other ∧ slots = otherSlots := by
  obtain ⟨steps, last, arrives, finished, frame, there, rfl⟩ := ends.finished alone
  obtain ⟨more, lastToo, arrivesToo, finishedToo, frameToo, thereToo, rfl⟩ :=
    endsToo.finished alone
  have first := advance_last run last steps arrives _ _ finished
  have second := advance_last run lastToo more arrivesToo _ _ finishedToo
  -- A run that is still going on after some steps is not finished after fewer.
  have order : ∀ (fewer many : Nat) (next : Run) (result : Except RuntimeError Word)
      (store : Store), run.advance (fewer + 1) = .finished result store →
      run.advance many = .running next → many ≤ fewer := by
    intro fewer many next result store done running
    by_contra later
    have stays := finished_after run (fewer + 1) many (by omega) result store done
    rw [running] at stays
    cases stays
  have same : steps = more := Nat.le_antisymm (order _ _ _ _ _ second arrives)
    (order _ _ _ _ _ first arrivesToo)
  subst same
  cases arrives.symm.trans arrivesToo
  obtain ⟨result, store⟩ := outcome
  obtain ⟨resultToo, storeToo⟩ := other
  cases finished.symm.trans finishedToo
  cases there.symm.trans thereToo
  exact ⟨rfl, rfl⟩

end Run

section Bodies

variable {module : Module} {code : LinearModule} {func : Func} {linear : LinearFunc}

/-- The machine follows the body of a function from its first instruction up to the return behind
it. -/
theorem body_followed (linearized : module.linearize = .ok code)
    (form : module.linearFunc func = .ok linear) (limit room fuel : Nat) (state : Activation)
    (callers : List Frame) :
    Exit.Followed (linear.started code limit room state callers) 0
        (Instr.linearSizes func.body) [Instr.linearSizes func.body] fuel state
        (module.runBody limit room fuel func state) ∧
      linear.code[Instr.linearSizes func.body]? = some .ret := by
  obtain ⟨body, lowered, _, _, _, holds⟩ := linear_func_succeeds module func linear form
  rw [LinearFunc.holds_append, LinearFunc.holds_cons,
    Instr.linear_all_length module func _ _ func.body body lowered, Nat.zero_add] at holds
  have followed := Instr.run_all_followed module func
    (linear.started code limit room state callers) linearized (module.invoke limit fuel room) fuel
    (invoke_followed module code linearized limit fuel room) _ 0 func.body body lowered holds.1 state
  rw [Nat.zero_add] at followed
  exact ⟨followed, holds.2.1⟩

theorem ends_at_return (run : Run) (position steps : Nat) (after : Activation)
    (fetched : run.frame.func.code[position]? = some .ret)
    (arrives : run.advance steps = .running (run.place position after)) :
    run.FrameEnds (after.pop.map Prod.fst, after.store) after.slots := by
  refine ⟨steps, _, arrives, ?_, [], _, rfl, rfl⟩
  rw [Run.step_fetched run position after _ fetched, Run.execute_ret]
  unfold Activation.pop
  cases after.stack with
  | nil => rfl
  | cons value rest => rfl

/-- A frame ends as its structured body does, whatever frames wait below it. -/
theorem body_ends (linearized : module.linearize = .ok code)
    (form : module.linearFunc func = .ok linear) (limit room fuel : Nat) (state : Activation)
    (callers : List Frame) (exit : Exit)
    (answer : module.runBody limit room fuel func state = some exit) :
    (linear.started code limit room state callers).FrameEnds exit.outcome exit.slots := by
  obtain ⟨followed, behind⟩ := body_followed linearized form limit room fuel state callers
  rw [answer] at followed
  cases exit with
  | next after =>
      obtain ⟨steps, arrives⟩ := followed
      exact ends_at_return _ _ steps after behind arrives
  | branch depth after =>
      obtain ⟨target, found, steps, arrives⟩ := followed
      cases depth with
      | zero =>
          cases found
          exact ends_at_return _ _ (steps + 1) after behind arrives
      | succ depth => cases found
  | returned value after =>
      obtain ⟨steps, position, arrives, fetched, top⟩ := followed
      obtain ⟨below, operands⟩ := List.head?_eq_some_iff.mp top
      have ends := ends_at_return _ position steps after fetched arrives
      unfold Activation.pop at ends
      rw [operands] at ends
      exact ends
  | trapped error after =>
      obtain ⟨steps, last, arrives, traps⟩ := followed
      exact ⟨steps, last, arrives, traps.step, traps.slots⟩

/-- The machine goes on for as many steps as there is fuel that does not suffice. -/
theorem body_goes_on (linearized : module.linearize = .ok code)
    (form : module.linearFunc func = .ok linear) (limit room fuel : Nat) (state : Activation)
    (callers : List Frame) (unanswered : module.runBody limit room fuel func state = none) :
    ∃ next, (linear.started code limit room state callers).advance fuel = .running next := by
  obtain ⟨followed, _⟩ := body_followed linearized form limit room fuel state callers
  rw [unanswered] at followed
  exact followed

end Bodies

/-- The linear code of a function, run in a state of its frame, ends as the structured body does. -/
structure LinearFunc.RunsAs (linear : LinearFunc) (code : LinearModule) (module : Module)
    (func : Func) (limit room : Nat) (state : Activation) : Prop where
  /-- With no frame below, both have the same outcomes and leave the same slots. -/
  ends : ∀ outcome slots,
    (∃ fuel exit, module.runBody limit room fuel func state = some exit ∧
        exit.outcome = outcome ∧ exit.slots = slots) ↔
      (linear.started code limit room state []).FrameEnds outcome slots
  /-- Both go on forever, or none of them does. -/
  forever : (∀ fuel, module.runBody limit room fuel func state = none) ↔
    ∀ steps, ∃ next, (linear.started code limit room state []).advance steps = .running next
  /-- The frames that wait below do not matter. -/
  above : ∀ callers fuel,
    match module.runBody limit room fuel func state with
    | none => ∃ next, (linear.started code limit room state callers).advance fuel = .running next
    | some exit =>
        (linear.started code limit room state callers).FrameEnds exit.outcome exit.slots

/-- A call of the linear function is refused where that of the structured one is, and opens a frame
in which the structured body would run. -/
def LinearFunc.CalledAs (linear : LinearFunc) (code : LinearModule) (module : Module) (func : Func)
    (index limit room : Nat) (args : List Word) (store : Store) : Prop :=
  match code.enter limit room index args with
  | .error error =>
      ∀ fuel, module.invoke limit (fuel + 1) room index args store = some (.error error, store)
  | .ok frame =>
      frame = ⟨linear, 0, frame.slots, []⟩ ∧
        ∀ fuel, module.invoke limit (fuel + 1) room index args store =
          (module.runBody limit (room - 1) fuel func ⟨frame.slots, [], store⟩).map Exit.outcome

theorem runs_as_structured (module : Module) (code : LinearModule)
    (linearized : module.linearize = .ok code) (func : Func) (linear : LinearFunc)
    (form : module.linearFunc func = .ok linear) (limit room : Nat) (state : Activation) :
    linear.RunsAs code module func limit room state := by
  have answers := body_ends linearized form limit room
  have unanswered := body_goes_on linearized form limit room
  -- In both directions: what the machine does, the code with enough fuel does, since runs have one
  -- end only.
  refine ⟨fun outcome slots => ⟨?_, ?_⟩, ⟨?_, ?_⟩, ?_⟩
  · rintro ⟨fuel, exit, answer, rfl, rfl⟩
    exact answers fuel state [] exit answer
  · intro ends
    obtain ⟨steps, last, arrives, finished, _⟩ := ends.finished rfl
    have done := Run.advance_last _ last steps arrives _ _ finished
    cases answer : module.runBody limit room (steps + 1) func state with
    | none =>
        obtain ⟨next, running⟩ := unanswered (steps + 1) state [] answer
        rw [running] at done
        cases done
    | some exit =>
        obtain ⟨sameOutcome, sameSlots⟩ := (answers _ state [] exit answer).unique rfl ends
        exact ⟨steps + 1, exit, answer, sameOutcome, sameSlots⟩
  · exact fun never steps => unanswered steps state [] (never steps)
  · intro always fuel
    cases answer : module.runBody limit room fuel func state with
    | none => rfl
    | some exit =>
        obtain ⟨steps, last, arrives, finished, _⟩ :=
          (answers fuel state [] exit answer).finished rfl
        obtain ⟨next, running⟩ := always (steps + 1)
        rw [Run.advance_last _ last steps arrives _ _ finished] at running
        cases running
  · intro callers fuel
    cases answer : module.runBody limit room fuel func state with
    | none => exact unanswered fuel state callers answer
    | some exit => exact answers fuel state callers exit answer

theorem called_as_structured (module : Module) (code : LinearModule) (index : Nat) (func : Func)
    (found : module.allFunctions[index]? = some func) (linear : LinearFunc)
    (there : code.functions[index]? = some linear) (form : module.linearFunc func = .ok linear)
    (limit room : Nat) (args : List Word) (store : Store) :
    linear.CalledAs code module func index limit room args store := by
  obtain ⟨_, _, name, params, locals, _⟩ := linear_func_succeeds module func linear form
  unfold LinearFunc.CalledAs LinearModule.enter
  by_cases full : room = 0
  · simp only [if_pos full]
    intro fuel
    simp only [Module.invoke, if_pos full]
  · simp only [if_neg full, there]
    by_cases arity : args.length = func.params.length
    · rw [if_pos (arity.trans params.symm)]
      refine ⟨rfl, fun fuel => ?_⟩
      simp only [Module.invoke, if_neg full, found, if_pos arity, locals]
      rfl
    · rw [if_neg (by rw [params]; exact arity)]
      intro fuel
      simp only [Module.invoke, if_neg full, found, if_neg arity, name, params]

/-- The linear code of every function of a module ends as its structured body does, in every state
of a frame, and so does every call of it. -/
theorem linear_code_runs_as_structured_code (module : Module) (code : LinearModule)
    (linearized : module.linearize = .ok code) (index : Nat) (func : Func)
    (found : module.allFunctions[index]? = some func) :
    ∃ linear, code.functions[index]? = some linear ∧
      (∀ limit room state, linear.RunsAs code module func limit room state) ∧
      ∀ limit room args store, linear.CalledAs code module func index limit room args store := by
  obtain ⟨linear, there, form⟩ := linearized_functions module code linearized index func found
  exact ⟨linear, there, runs_as_structured module code linearized func linear form,
    called_as_structured module code index func found linear there form⟩

/-- A module of one function, which counts down in a loop and leaves it from inside a condition. -/
def countingModule : Module :=
  ⟨[⟨"calls", 0⟩], [],
    ⟨none, some "count", ["n"], [],
      [.const 1, .globalSet "calls",
        .block [.loop [.localGet "n", .cond [] [.branch 2],
          .localGet "n", .const 1, .binary .sub, .localSet "n", .branch 0]],
        .const 7, .branch 0]⟩⟩

theorem counting_ends_as_structured :
    ∃ code linear, countingModule.linearize = .ok code ∧ code.functions[0]? = some linear ∧
      (linear.started code 4 3 ⟨#[2], [5], ⟨#[0], #[]⟩⟩ []).FrameEnds (.ok 7, ⟨#[1], #[]⟩) #[0] := by
  obtain ⟨code, linearized⟩ := (is_ok_iff countingModule.linearize).mp (by decide +kernel)
  obtain ⟨linear, there, runs, _⟩ :=
    linear_code_runs_as_structured_code countingModule code linearized 0 _ rfl
  refine ⟨code, linear, linearized, there, ?_⟩
  apply (runs 4 3 ⟨#[2], [5], ⟨#[0], #[]⟩⟩).ends _ _ |>.mp
  exact ⟨5, .branch 0 ⟨#[0], [7, 5], ⟨#[1], #[]⟩⟩, by cbv, rfl, rfl⟩

end ScriptWasm
