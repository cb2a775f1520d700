import ScriptWasm.Machine.Basic
import ScriptWasm.Proofs.Code.Names
import ScriptWasm.Proofs.Machine.Structured
import ScriptWasm.Proofs.Machine.Translation

/-!
The machine runs structured code. A piece of structured code that stands in the linear code of a
function is followed instruction by instruction: where the piece goes on, so does the machine behind
its linear code, a branch arrives at its target, and a piece that has no answer for some fuel keeps
the machine running for at least that many steps.
-/

namespace ScriptWasm

set_option autoImplicit false

namespace Run

def place (run : Run) (position : Nat) (state : Activation) : Run :=
  { run with
    store := state.store
    frame := { run.frame with position, slots := state.slots, stack := state.stack } }

def frames (run : Run) : List Frame :=
  run.frame :: run.callers

def activation (run : Run) : Activation :=
  ⟨run.frame.slots, run.frame.stack, run.store⟩

/-- The next step of a run traps, and the frame above the given callers has the given slots. -/
structure Traps (run : Run) (callers : List Frame) (error : RuntimeError) (after : Activation) :
    Prop where
  step : run.step = .finished (.error error) after.store
  slots : ∃ inner frame, run.frames = inner ++ frame :: callers ∧ frame.slots = after.slots

def handOver (run : Run) (value : Word) (store : Store) : Progress :=
  match run.callers with
  | [] => .finished (.ok value) store
  | caller :: callers =>
      .running { run with
        room := run.room + 1
        store
        frame := { caller with stack := value :: caller.stack }
        callers }

theorem advance_add (run : Run) (first second : Nat) :
    run.advance (first + second) =
      match run.advance first with
      | .running next => next.advance second
      | .finished outcome store => .finished outcome store := by
  induction first generalizing run with
  | zero => simp [advance]
  | succ first induction =>
      rw [Nat.succ_add]
      simp only [advance]
      cases run.step with
      | running next => exact induction next
      | finished outcome store => rfl

theorem advance_through (run next : Run) (first second : Nat)
    (arrives : run.advance first = .running next) :
    run.advance (first + second) = next.advance second := by
  rw [advance_add, arrives]

theorem advance_last (run last : Run) (steps : Nat) (arrives : run.advance steps = .running last)
    (outcome : Except RuntimeError Word) (store : Store)
    (ends : last.step = .finished outcome store) :
    run.advance (steps + 1) = .finished outcome store := by
  rw [advance_through _ _ _ 1 arrives]
  simp only [advance, ends]

theorem running_before (run : Run) (steps fewer : Nat) (bound : fewer ≤ steps)
    (running : ∃ next, run.advance steps = .running next) :
    ∃ next, run.advance fewer = .running next := by
  obtain ⟨rest, rfl⟩ := Nat.exists_eq_add_of_le bound
  obtain ⟨next, running⟩ := running
  rw [advance_add] at running
  cases progress : run.advance fewer with
  | running middle => exact ⟨middle, rfl⟩
  | finished outcome store =>
      rw [progress] at running
      cases running

theorem finished_after (run : Run) (steps more : Nat) (bound : steps ≤ more)
    (outcome : Except RuntimeError Word) (store : Store)
    (finished : run.advance steps = .finished outcome store) :
    run.advance more = .finished outcome store := by
  obtain ⟨rest, rfl⟩ := Nat.exists_eq_add_of_le bound
  rw [advance_add, finished]

theorem finished_unique (run : Run) (steps other : Nat) (outcome outcome' : Except RuntimeError Word)
    (store store' : Store) (finished : run.advance steps = .finished outcome store)
    (finishedToo : run.advance other = .finished outcome' store') :
    outcome = outcome' ∧ store = store' := by
  have first := finished_after run steps (max steps other) (Nat.le_max_left _ _) _ _ finished
  have second := finished_after run other (max steps other) (Nat.le_max_right _ _) _ _ finishedToo
  rw [first] at second
  cases second
  exact ⟨rfl, rfl⟩

end Run

namespace LinearFunc

def Holds (func : LinearFunc) (here : Nat) (code : List LinearInstr) : Prop :=
  ∀ index instr, code[index]? = some instr → func.code[here + index]? = some instr

theorem holds_cons (func : LinearFunc) (here : Nat) (first : LinearInstr)
    (rest : List LinearInstr) :
    func.Holds here (first :: rest) ↔
      func.code[here]? = some first ∧ func.Holds (here + 1) rest := by
  constructor
  · intro holds
    constructor
    · exact holds 0 first rfl
    · intro index instr found
      have there := holds (index + 1) instr found
      rwa [Nat.add_comm index 1, ← Nat.add_assoc] at there
  · rintro ⟨head, tail⟩ index instr found
    cases index with
    | zero =>
        cases found
        exact head
    | succ index =>
        rw [Nat.add_comm index 1, ← Nat.add_assoc]
        exact tail index instr found

theorem Holds.fetched {func : LinearFunc} {here : Nat} {first : LinearInstr}
    {rest : List LinearInstr} (holds : func.Holds here (first :: rest)) :
    func.code[here]? = some first :=
  holds 0 first rfl

theorem holds_append (func : LinearFunc) (here : Nat) (first second : List LinearInstr) :
    func.Holds here (first ++ second) ↔
      func.Holds here first ∧ func.Holds (here + first.length) second := by
  induction first generalizing here with
  | nil => simp [Holds]
  | cons head tail induction =>
      rw [List.cons_append, holds_cons, holds_cons, induction, List.length_cons, and_assoc]
      rw [Nat.add_right_comm here 1, ← Nat.add_assoc]

end LinearFunc

/-- The machine does what structured code does that stands at the positions from `here` up to `stop`
and whose branches go to the given targets. It arrives at a return with the operand that is handed
over, and at a trap in a frame above the callers of this one. -/
def Exit.Followed (run : Run) (here stop : Nat) (targets : List Nat) (fuel : Nat)
    (state : Activation) : Option Exit → Prop
  | none => ∃ next, (run.place here state).advance fuel = .running next
  | some (.next after) =>
      ∃ steps, (run.place here state).advance steps = .running (run.place stop after)
  | some (.branch depth after) =>
      ∃ target, targets[depth]? = some target ∧
        ∃ steps, (run.place here state).advance (steps + 1) = .running (run.place target after)
  | some (.returned value after) =>
      ∃ steps position, (run.place here state).advance steps = .running (run.place position after) ∧
        run.frame.func.code[position]? = some .ret ∧ after.stack.head? = some value
  | some (.trapped error after) =>
      ∃ steps last, (run.place here state).advance steps = .running last ∧
        last.Traps run.callers error after

/-- What the machine does in one step where structured code has a simple operation. -/
def Run.settle (run : Run) (stop : Nat) (state : Activation) :
    Except RuntimeError Activation → Progress
  | .ok after => .running (run.place stop after)
  | .error error => .finished (.error error) state.store

namespace Run

variable (run : Run)

theorem step_executes (instr : LinearInstr)
    (fetched : run.frame.func.code[run.frame.position]? = some instr) :
    run.step = (run.place (run.frame.position + 1) run.activation).execute instr := by
  simp only [step, fetched]
  rfl

theorem step_fetched (here : Nat) (state : Activation) (instr : LinearInstr)
    (fetched : run.frame.func.code[here]? = some instr) :
    (run.place here state).step = (run.place (here + 1) state).execute instr := by
  simp only [step, place, fetched]

theorem advance_one (next : Progress) (here : Nat) (state : Activation) (instr : LinearInstr)
    (fetched : run.frame.func.code[here]? = some instr)
    (executed : (run.place (here + 1) state).execute instr = next) :
    (run.place here state).advance 1 = next := by
  simp only [advance, run.step_fetched here state instr fetched, executed]
  cases next <;> rfl

/-- An instruction that traps is followed up to itself. -/
theorem followed_trap (here stop : Nat) (targets : List Nat) (fuel : Nat) (state : Activation)
    (instr : LinearInstr) (error : RuntimeError)
    (fetched : run.frame.func.code[here]? = some instr)
    (executed : (run.place (here + 1) state).execute instr =
      .finished (.error error) state.store) :
    Exit.Followed run here stop targets fuel state (some (.trapped error state)) :=
  ⟨0, _, rfl, ⟨(run.step_fetched here state instr fetched).trans executed,
    [], (run.place here state).frame, rfl, rfl⟩⟩

theorem followed_of_step (here : Nat) (targets : List Nat) (fuel : Nat) (state : Activation)
    (instr : LinearInstr) (operation : Except RuntimeError Activation)
    (fetched : run.frame.func.code[here]? = some instr)
    (executed : (run.place (here + 1) state).execute instr =
      run.settle (here + 1) state operation) :
    Exit.Followed run here (here + 1) targets fuel state (some (state.settle operation)) := by
  cases operation with
  | ok after => exact ⟨1, advance_one run _ here state instr fetched executed⟩
  | error error => exact followed_trap run here _ targets fuel state instr error fetched executed

variable (stop : Nat) (state : Activation)

theorem execute_read_slot (slot : Nat) :
    (run.place stop state).execute (.localGet slot) =
      run.settle stop state (state.readSlot slot) := by
  simp only [execute, place, Activation.readSlot]
  cases state.slots[slot]? <;> rfl

theorem execute_read_global (index : Nat) :
    (run.place stop state).execute (.globalGet index) =
      run.settle stop state (state.readGlobal index) := by
  simp only [execute, place, Activation.readGlobal]
  cases state.store.globals[index]? <;> rfl

theorem execute_write_slot (slot : Nat) :
    (run.place stop state).execute (.localSet slot) =
      run.settle stop state (state.writeSlot slot) := by
  simp only [execute, place, Activation.writeSlot, Activation.pop]
  cases state.stack with
  | nil => rfl
  | cons value stack =>
      by_cases bound : slot < state.slots.size <;> simp only [bound, ok_bind] <;> rfl

theorem execute_write_global (index : Nat) :
    (run.place stop state).execute (.globalSet index) =
      run.settle stop state (state.writeGlobal index) := by
  simp only [execute, place, Activation.writeGlobal, Activation.pop]
  cases state.stack with
  | nil => rfl
  | cons value stack =>
      by_cases bound : index < state.store.globals.size <;> simp only [bound, ok_bind] <;> rfl

theorem execute_binary (op : WordOp) :
    (run.place stop state).execute (.binary op) = run.settle stop state (state.operate op) := by
  simp only [execute, place, Activation.operate]
  cases state.stack with
  | nil => rfl
  | cons right rest =>
      cases rest with
      | nil => rfl
      | cons left stack =>
          simp only
          cases op.apply left right <;> rfl

theorem execute_call_host (primitive : HostImport) :
    (run.place stop state).execute (.callHost primitive) =
      run.settle stop state (state.callHost primitive) := by
  simp only [execute, Run.callHost, place, Activation.callHost]
  cases takeArgs primitive.arity state.stack with
  | none => rfl
  | some taken =>
      obtain ⟨args, stack⟩ := taken
      simp only
      cases primitive.call args state.store.events with
      | error error => rfl
      | ok answered => rfl

theorem execute_drop :
    (run.place stop state).execute .drop = run.settle stop state (state.pop.map Prod.snd) := by
  simp only [execute, place, Activation.pop]
  cases state.stack <;> rfl

theorem execute_ret :
    (run.place stop state).execute .ret =
      match state.stack with
      | [] => .finished (.error .stackUnderflow) state.store
      | value :: _ => run.handOver value state.store := by
  simp only [execute, Run.leave, place, handOver]
  cases state.stack with
  | nil => rfl
  | cons value stack => cases run.callers <;> rfl

/-- A return takes one step and hands the top operand over. -/
theorem handed_over (position : Nat) (after : Activation) (value : Word)
    (fetched : run.frame.func.code[position]? = some .ret)
    (top : after.stack.head? = some value) :
    (run.place position after).advance 1 = run.handOver value after.store := by
  apply advance_one run _ position after _ fetched
  rw [execute_ret]
  cases stack : after.stack with
  | nil =>
      rw [stack] at top
      cases top
  | cons first rest =>
      rw [stack] at top
      cases top
      rfl

theorem execute_jump_if_zero (target : Nat) :
    (run.place stop state).execute (.jumpIfZero target) =
      match state.stack with
      | [] => .finished (.error .stackUnderflow) state.store
      | test :: stack =>
          .running (run.place (if test = 0 then target else stop) (state.withStack stack)) := by
  simp only [execute, place]
  cases state.stack with
  | nil => rfl
  | cons test stack => by_cases zero : test = 0 <;> simp only [zero] <;> rfl

theorem execute_jump_unless_zero (target : Nat) :
    (run.place stop state).execute (.jumpUnlessZero target) =
      match state.stack with
      | [] => .finished (.error .stackUnderflow) state.store
      | test :: stack =>
          .running (run.place (if test = 0 then stop else target) (state.withStack stack)) := by
  simp only [execute, place]
  cases state.stack with
  | nil => rfl
  | cons test stack => by_cases zero : test = 0 <;> simp only [zero] <;> rfl

end Run

section Pieces

variable {run : Run} {here stop : Nat} {targets : List Nat} {state : Activation}

/-- Fuel matters only where there is no answer. -/
theorem followed_with_any_fuel (fuel other : Nat) (exit : Exit)
    (followed : Exit.Followed run here stop targets fuel state (some exit)) :
    Exit.Followed run here stop targets other state (some exit) := by
  cases exit with
  | next after => exact followed
  | branch depth after => exact followed
  | returned value after => exact followed
  | trapped error after => exact followed

variable {fuel : Nat}

/-- What is followed from a later place is followed from every place that leads there. -/
theorem followed_after {there : Nat} {later : Activation} (exit : Option Exit) (steps : Nat)
    (arrives : (run.place here state).advance steps = .running (run.place there later))
    (followed : Exit.Followed run there stop targets fuel later exit) :
    Exit.Followed run here stop targets fuel state exit := by
  have through := fun more => Run.advance_through _ _ steps more arrives
  cases exit with
  | none =>
      obtain ⟨next, running⟩ := followed
      apply Run.running_before _ (steps + fuel) fuel (Nat.le_add_left fuel steps)
      exact ⟨next, by rw [through, running]⟩
  | some exit =>
      cases exit with
      | next after =>
          obtain ⟨more, arrived⟩ := followed
          exact ⟨steps + more, by rw [through, arrived]⟩
      | branch depth after =>
          obtain ⟨target, found, more, arrived⟩ := followed
          exact ⟨target, found, steps + more, by rw [Nat.add_assoc, through, arrived]⟩
      | returned value after =>
          obtain ⟨more, position, arrived, returns⟩ := followed
          exact ⟨steps + more, position, by rw [through, arrived], returns⟩
      | trapped error after =>
          obtain ⟨more, last, arrived, traps⟩ := followed
          exact ⟨steps + more, last, by rw [through, arrived], traps⟩

theorem followed_then {middle : Nat} (exit : Option Exit) (rest : Activation → Option Exit)
    (first : Exit.Followed run here middle targets fuel state exit)
    (second : ∀ after, exit = some (.next after) →
      Exit.Followed run middle stop targets fuel after (rest after)) :
    Exit.Followed run here stop targets fuel state (Exit.andThen rest exit) := by
  cases exit with
  | none => exact first
  | some exit =>
      cases exit with
      | next after =>
          obtain ⟨steps, arrives⟩ := first
          exact followed_after _ steps arrives (second after rfl)
      | branch depth after => exact first
      | returned value after => exact first
      | trapped error after => exact first

theorem followed_on {middle : Nat} (exit : Option Exit)
    (followed : Exit.Followed run here middle targets fuel state exit)
    (jumps : ∀ after, (run.place middle after).advance 1 = .running (run.place stop after)) :
    Exit.Followed run here stop targets fuel state exit := by
  cases exit with
  | none => exact followed
  | some exit =>
      cases exit with
      | next after =>
          obtain ⟨steps, arrives⟩ := followed
          exact ⟨steps + 1, by rw [Run.advance_through _ _ _ _ arrives, jumps after]⟩
      | branch depth after => exact followed
      | returned value after => exact followed
      | trapped error after => exact followed

/-- A body that ends where its branches of depth zero go is left there. -/
theorem followed_out_of_body (exit : Option Exit)
    (followed : Exit.Followed run here stop (stop :: targets) fuel state exit) :
    Exit.Followed run here stop targets fuel state (exit.map Exit.outOfBody) := by
  cases exit with
  | none => exact followed
  | some exit =>
      cases exit with
      | next after => exact followed
      | branch depth after =>
          obtain ⟨target, found, steps, arrives⟩ := followed
          cases depth with
          | zero =>
              cases found
              exact ⟨steps + 1, arrives⟩
          | succ depth => exact ⟨target, found, steps, arrives⟩
      | returned value after => exact followed
      | trapped error after => exact followed

/-- Every further round of a loop takes the machine at least the step of its branch. -/
theorem followed_loop (body : Activation → Option Exit) (count : Nat) (enough : count ≤ fuel)
    (state : Activation)
    (followed : ∀ state, Exit.Followed run here stop (here :: targets) fuel state (body state)) :
    Exit.Followed run here stop targets count state (runLoop body count state) := by
  -- The induction is on the rounds that are left. A branch to the loop starts the next one, and
  -- every other end is the end of the loop.
  induction count generalizing state with
  | zero => exact ⟨_, rfl⟩
  | succ count induction =>
      have round := followed state
      simp only [runLoop]
      cases answer : body state with
      | none =>
          rw [answer] at round
          exact Run.running_before _ fuel (count + 1) enough round
      | some exit =>
          rw [answer] at round
          cases exit with
          | next after => exact round
          | branch depth after =>
              obtain ⟨target, found, steps, arrives⟩ := round
              cases depth with
              | zero =>
                  cases found
                  have again := induction (Nat.le_of_succ_le enough) after
                  simp only
                  cases rest : runLoop body count after with
                  | none =>
                      rw [rest] at again
                      obtain ⟨next, running⟩ := again
                      -- The rounds so far took a step each at least, so the machine is still
                      -- running after as many steps.
                      apply Run.running_before _ (steps + 1 + count) (count + 1) (by omega)
                      exact ⟨next, by rw [Run.advance_through _ _ _ _ arrives, running]⟩
                  | some exit =>
                      rw [rest] at again
                      exact followed_after (some exit) (steps + 1) arrives
                        (followed_with_any_fuel count (count + 1) exit again)
              | succ depth => exact ⟨target, found, steps, arrives⟩
          | returned value after => exact round
          | trapped error after => exact round

end Pieces

theorem linearized_functions (module : Module) (code : LinearModule)
    (linearized : module.linearize = .ok code) (index : Nat) (func : Func)
    (found : module.allFunctions[index]? = some func) :
    ∃ linear, code.functions[index]? = some linear ∧ module.linearFunc func = .ok linear := by
  unfold Module.linearize at linearized
  simp only [bind_succeeds_iff, pure_succeeds_iff] at linearized
  obtain ⟨functions, mapped, rfl⟩ := linearized
  have each := map_m_related module.linearFunc module.allFunctions functions mapped
  obtain ⟨bound, atIndex⟩ := List.getElem?_eq_some_iff.mp found
  have otherBound : index < functions.length := each.length_eq ▸ bound
  refine ⟨functions[index], by simp [otherBound], ?_⟩
  rw [← atIndex]
  exact each.get bound otherBound

theorem linearized_functions_absent (module : Module) (code : LinearModule)
    (linearized : module.linearize = .ok code) (index : Nat)
    (absent : module.allFunctions[index]? = none) : code.functions[index]? = none := by
  unfold Module.linearize at linearized
  simp only [bind_succeeds_iff, pure_succeeds_iff] at linearized
  obtain ⟨functions, mapped, rfl⟩ := linearized
  have each := map_m_related module.linearFunc module.allFunctions functions mapped
  rw [List.getElem?_eq_none_iff, each.length_eq] at absent
  simpa using absent

theorem linear_func_succeeds (module : Module) (func : Func) (linear : LinearFunc)
    (linearized : module.linearFunc func = .ok linear) :
    ∃ code, module.linearAll func [Instr.linearSizes func.body] 0 func.body = .ok code ∧
      linear.name = (func.id.or func.exportName).getD "" ∧
      linear.params = func.params.length ∧ linear.locals = func.locals.length ∧
      linear.Holds 0 (code ++ [.ret]) := by
  rw [Module.linear_func_eq] at linearized
  simp only [bind_succeeds_iff, pure_succeeds_iff] at linearized
  obtain ⟨code, done, rfl⟩ := linearized
  refine ⟨code, done, rfl, rfl, rfl, ?_⟩
  intro index instr found
  simpa using found

/-- The machine makes a call with the given outcome, where `room` more calls may be open: the call
is refused, or it opens a frame above the given callers. -/
def CallOutcome.Followed (code : LinearModule) (limit room fuel index : Nat) (args : List Word)
    (store : Store) (callers : List Frame) : Option CallOutcome → Prop
  | none =>
      fuel = 0 ∨ ∃ frame, code.enter limit room index args = .ok frame ∧
        ∃ next, (Run.mk code limit (room - 1) store frame callers).advance (fuel - 1) =
          .running next
  | some (.ok value, after) =>
      ∃ frame, code.enter limit room index args = .ok frame ∧
        ∃ steps, (Run.mk code limit (room - 1) store frame callers).advance steps =
          (Run.mk code limit (room - 1) store frame callers).handOver value after
  | some (.error error, after) =>
      (code.enter limit room index args = .error error ∧ after = store) ∨
        ∃ frame, code.enter limit room index args = .ok frame ∧
          ∃ steps last, (Run.mk code limit (room - 1) store frame callers).advance steps =
            .running last ∧ last.step = .finished (.error error) after ∧
              ∃ inner, last.frames = inner ++ callers

def Calling.Followed (call : Calling) (code : LinearModule) (limit room fuel : Nat) : Prop :=
  ∀ (index : Nat) (args : List Word) (store : Store) (callers : List Frame),
    CallOutcome.Followed code limit room fuel index args store callers (call index args store)

theorem room_of_enter (code : LinearModule) (limit room index : Nat) (args : List Word)
    (frame : Frame) (entered : code.enter limit room index args = .ok frame) : 0 < room := by
  unfold LinearModule.enter at entered
  by_cases full : room = 0
  · rw [if_pos full] at entered
    cases entered
  · exact Nat.pos_of_ne_zero full

/-- The machine follows a call of a function: it opens a frame, and the callee hands its word over
to the caller that waits behind the call. -/
theorem followed_call (module : Module) (run : Run) (linearized : module.linearize = .ok run.code)
    (call : Calling) (fuel : Nat) (calls : call.Followed run.code run.limit run.room fuel)
    (here index : Nat) (targets : List Nat)
    (fetched : run.frame.func.code[here]? = some (.call index)) (name : String)
    (callee : module.callee? name = some (.function index)) (state : Activation) :
    Exit.Followed run here (here + 1) targets fuel state
      (Instr.runCall module call name state) := by
  obtain ⟨func, found⟩ := module.function_of_callee name index callee
  obtain ⟨linear, there, linearFunc⟩ :=
    linearized_functions module run.code linearized index func found
  obtain ⟨_, _, _, params, _, _⟩ := linear_func_succeeds module func linear linearFunc
  have executed : (run.place (here + 1) state).execute (.call index) =
      (run.place (here + 1) state).callFunction index := rfl
  simp only [Run.callFunction, Run.place, there, params] at executed
  simp only [Instr.runCall, callee, found]
  cases taken : Run.takeArgs func.params.length state.stack with
  | none =>
      rw [taken] at executed
      exact Run.followed_trap run here _ targets fuel state _ _ fetched executed
  | some split =>
      obtain ⟨args, stack⟩ := split
      rw [taken] at executed
      simp only at executed ⊢
      have one := Run.advance_one run _ here state _ fetched executed
      have called := calls index args state.store
        ((run.place (here + 1) (state.withStack stack)).frame :: run.callers)
      -- A call without an answer keeps the machine running for as long as its fuel lasts.
      cases answer : call index args state.store with
      | none =>
          rw [answer] at called
          rcases called with noFuel | ⟨frame, entered, next, running⟩
          · rw [noFuel]
            exact ⟨_, rfl⟩
          · rw [entered] at one
            apply Run.running_before _ (1 + (fuel - 1)) fuel (by omega)
            exact ⟨next, (Run.advance_through _ _ _ _ one).trans running⟩
      | some outcome =>
          obtain ⟨result, after⟩ := outcome
          rw [answer] at called
          cases result with
          | ok value =>
              obtain ⟨frame, entered, steps, returned⟩ := called
              rw [entered] at one
              -- The callee gives the room of its frame back when it hands its word over.
              have open_ := room_of_enter run.code run.limit run.room index args frame entered
              refine ⟨1 + steps, ?_⟩
              refine ((Run.advance_through _ _ _ _ one).trans returned).trans ?_
              simp only [Run.handOver, Nat.sub_add_cancel open_]
              rfl
          | error error =>
              rcases called with ⟨refused, same⟩ | ⟨frame, entered, steps, last, arrives, ends, open_⟩
              · rw [refused] at executed
                rw [same]
                exact ⟨0, _, rfl, (run.step_fetched here state _ fetched).trans executed,
                  [], (run.place here state).frame, rfl, rfl⟩
              · rw [entered] at one
                obtain ⟨inner, frames⟩ := open_
                exact ⟨1 + steps, last, (Run.advance_through _ _ _ _ one).trans arrives, ends,
                  inner, _, frames, rfl⟩

namespace Instr

section Constructors

variable (module : Module) (func : Func) (run : Run) (call : Calling) (fuel : Nat)
  (targets : List Nat) (here : Nat)

/-- The machine follows an instruction from `here` on if its function holds the linear code there. -/
def Followed (instr : Instr) : Prop :=
  ∀ code, module.linear func targets here instr = .ok code → run.frame.func.Holds here code →
    ∀ state, Exit.Followed run here (here + instr.linearSize) targets fuel state
      (instr.run module func call fuel state)

def AllFollowed (instrs : List Instr) : Prop :=
  ∀ code, module.linearAll func targets here instrs = .ok code → run.frame.func.Holds here code →
    ∀ state, Exit.Followed run here (here + linearSizes instrs) targets fuel state
      (runAll module func call fuel instrs state)

theorem const_followed (value : Word) :
    (const value).Followed module func run call fuel targets here := by
  intro code linear holds state
  cases linear
  exact Run.followed_of_step run here targets fuel state _ (.ok (state.push value)) holds.fetched
    rfl

theorem local_get_followed (name : String) :
    (localGet name).Followed module func run call fuel targets here := by
  intro code linear holds state
  simp only [Module.linear, bind_succeeds_iff, Module.slot_succeeds_iff, pure_succeeds_iff]
    at linear
  obtain ⟨slot, found, rfl⟩ := linear
  simp only [Instr.run, found]
  exact Run.followed_of_step run here targets fuel state _ _ holds.fetched
    (Run.execute_read_slot run _ state slot)

theorem local_set_followed (name : String) :
    (localSet name).Followed module func run call fuel targets here := by
  intro code linear holds state
  simp only [Module.linear, bind_succeeds_iff, Module.slot_succeeds_iff, pure_succeeds_iff]
    at linear
  obtain ⟨slot, found, rfl⟩ := linear
  simp only [Instr.run, found]
  exact Run.followed_of_step run here targets fuel state _ _ holds.fetched
    (Run.execute_write_slot run _ state slot)

theorem global_get_followed (name : String) :
    (globalGet name).Followed module func run call fuel targets here := by
  intro code linear holds state
  simp only [Module.linear, bind_succeeds_iff, Module.global_succeeds_iff, pure_succeeds_iff]
    at linear
  obtain ⟨index, found, rfl⟩ := linear
  simp only [Instr.run, found]
  exact Run.followed_of_step run here targets fuel state _ _ holds.fetched
    (Run.execute_read_global run _ state index)

theorem global_set_followed (name : String) :
    (globalSet name).Followed module func run call fuel targets here := by
  intro code linear holds state
  simp only [Module.linear, bind_succeeds_iff, Module.global_succeeds_iff, pure_succeeds_iff]
    at linear
  obtain ⟨index, found, rfl⟩ := linear
  simp only [Instr.run, found]
  exact Run.followed_of_step run here targets fuel state _ _ holds.fetched
    (Run.execute_write_global run _ state index)

theorem call_followed (linearized : module.linearize = .ok run.code)
    (calls : call.Followed run.code run.limit run.room fuel) (name : String) :
    (Instr.call name).Followed module func run call fuel targets here := by
  intro code linear holds state
  simp only [Module.linear] at linear
  simp only [Instr.run]
  cases callee : module.callee? name with
  | none =>
      rw [callee] at linear
      cases linear
  | some target =>
      rw [callee] at linear
      cases target with
      | function index =>
          cases linear
          exact followed_call module run linearized call fuel calls here index targets
            holds.fetched name callee state
      | primitive primitive =>
          cases linear
          simp only [runCall, callee]
          exact Run.followed_of_step run here targets fuel state _ _ holds.fetched
            (Run.execute_call_host run _ state primitive)

theorem binary_followed (op : WordOp) :
    (binary op).Followed module func run call fuel targets here := by
  intro code linear holds state
  cases linear
  exact Run.followed_of_step run here targets fuel state _ _ holds.fetched
    (Run.execute_binary run _ state op)

theorem drop_followed : drop.Followed module func run call fuel targets here := by
  intro code linear holds state
  cases linear
  exact Run.followed_of_step run here targets fuel state _ _ holds.fetched
    (Run.execute_drop run _ state)

theorem ret_followed : ret.Followed module func run call fuel targets here := by
  intro code linear holds state
  cases linear
  simp only [Instr.run, Activation.leave]
  cases stack : state.stack with
  | nil =>
      apply Run.followed_trap run here _ targets fuel state _ _ holds.fetched
      rw [Run.execute_ret, stack]
  | cons value rest => exact ⟨0, here, rfl, holds.fetched, by rw [stack]; rfl⟩

theorem unreachable_followed : unreachable.Followed module func run call fuel targets here := by
  intro code linear holds state
  cases linear
  exact Run.followed_trap run here _ targets fuel state _ _ holds.fetched rfl

/-- The machine follows a condition when it follows both arms. Each arm ends behind the other. -/
theorem followed_cond (middle stop : Nat) (body orelse : List Instr)
    (fetched : run.frame.func.code[here]? = some (.jumpIfZero (middle + 1)))
    (jumps : run.frame.func.code[middle]? = some (.jump stop))
    (first : ∀ state, Exit.Followed run (here + 1) middle (stop :: targets) fuel state
      (runAll module func call fuel body state))
    (second : ∀ state, Exit.Followed run (middle + 1) stop (stop :: targets) fuel state
      (runAll module func call fuel orelse state)) (state : Activation) :
    Exit.Followed run here stop targets fuel state
      ((cond body orelse).run module func call fuel state) := by
  have executed := Run.execute_jump_if_zero run (here + 1) state (middle + 1)
  simp only [Instr.run]
  cases stack : state.stack with
  | nil =>
      rw [stack] at executed
      exact Run.followed_trap run here _ targets fuel state _ _ fetched executed
  | cons test rest =>
      rw [stack] at executed
      have one := Run.advance_one run _ here state _ fetched executed
      by_cases zero : test = 0
      · simp only [if_pos zero] at one ⊢
        exact followed_after _ 1 one (followed_out_of_body _ (second (state.withStack rest)))
      · simp only [if_neg zero] at one ⊢
        have jump := fun after => Run.advance_one run _ _ after _ jumps rfl
        exact followed_after _ 1 one
          (followed_out_of_body _ (followed_on _ (first (state.withStack rest)) jump))

theorem cond_followed (body orelse : List Instr)
    (inBody : ∀ targets here, AllFollowed module func run call fuel targets here body)
    (inElse : ∀ targets here, AllFollowed module func run call fuel targets here orelse) :
    (cond body orelse).Followed module func run call fuel targets here := by
  intro code linear holds state
  simp only [Module.linear, bind_succeeds_iff, pure_succeeds_iff] at linear
  obtain ⟨first, firstDone, second, secondDone, rfl⟩ := linear
  have firstLength := linear_all_length module func _ _ body first firstDone
  rw [List.cons_append, LinearFunc.holds_cons, LinearFunc.holds_append,
    LinearFunc.holds_cons, firstLength] at holds
  obtain ⟨fetched, holdsFirst, jumps, holdsSecond⟩ := holds
  have stop : here + (cond body orelse).linearSize =
      here + 1 + linearSizes body + 1 + linearSizes orelse := by
    simp only [linearSize]
    omega
  rw [stop]
  exact followed_cond module func run call fuel targets here _ _ body orelse fetched jumps
    (inBody _ _ first firstDone holdsFirst) (inElse _ _ second secondDone holdsSecond) state

theorem block_followed (body : List Instr)
    (inside : ∀ targets here, AllFollowed module func run call fuel targets here body) :
    (block body).Followed module func run call fuel targets here := by
  intro code linear holds state
  simp only [Module.linear] at linear
  exact followed_out_of_body _
    (inside ((here + linearSizes body) :: targets) here code linear holds state)

theorem loop_followed (body : List Instr)
    (inside : ∀ targets here, AllFollowed module func run call fuel targets here body) :
    (loop body).Followed module func run call fuel targets here := by
  intro code linear holds state
  simp only [Module.linear] at linear
  exact followed_loop _ fuel (Nat.le_refl fuel) state
    (inside (here :: targets) here code linear holds)

theorem branch_followed (depth : Nat) :
    (branch depth).Followed module func run call fuel targets here := by
  intro code linear holds state
  simp only [Module.linear, bind_succeeds_iff, Module.target_succeeds_iff, pure_succeeds_iff]
    at linear
  obtain ⟨target, found, rfl⟩ := linear
  exact ⟨target, found, 0, Run.advance_one run _ here state _ holds.fetched rfl⟩

theorem branch_if_followed (depth : Nat) :
    (branchIf depth).Followed module func run call fuel targets here := by
  intro code linear holds state
  simp only [Module.linear, bind_succeeds_iff, Module.target_succeeds_iff, pure_succeeds_iff]
    at linear
  obtain ⟨target, label, rfl⟩ := linear
  have executed := Run.execute_jump_unless_zero run (here + 1) state target
  simp only [Instr.run]
  cases stack : state.stack with
  | nil =>
      rw [stack] at executed
      exact Run.followed_trap run here _ targets fuel state _ _ holds.fetched executed
  | cons test rest =>
      rw [stack] at executed
      have one := Run.advance_one run _ here state _ holds.fetched executed
      by_cases zero : test = 0
      · simp only [if_pos zero] at one ⊢
        exact ⟨1, one⟩
      · simp only [if_neg zero] at one ⊢
        exact ⟨target, label, 0, one⟩

theorem none_followed : AllFollowed module func run call fuel targets here [] := by
  intro code linear holds state
  exact ⟨0, rfl⟩

theorem sequence_followed (first : Instr) (rest : List Instr)
    (inFirst : first.Followed module func run call fuel targets here)
    (inRest : AllFollowed module func run call fuel targets (here + first.linearSize) rest) :
    AllFollowed module func run call fuel targets here (first :: rest) := by
  intro code linear holds state
  simp only [Module.linearAll, bind_succeeds_iff, pure_succeeds_iff] at linear
  obtain ⟨head, headDone, tail, tailDone, rfl⟩ := linear
  have headLength := linear_length module func _ _ first head headDone
  rw [LinearFunc.holds_append, headLength] at holds
  have stop : here + linearSizes (first :: rest) =
      here + first.linearSize + linearSizes rest := by
    rw [Nat.add_assoc]
    rfl
  rw [stop]
  simp only [runAll]
  apply followed_then _ _ (inFirst head headDone holds.1 state)
  intro after _
  exact inRest tail tailDone holds.2 after

end Constructors

mutual

theorem run_followed (module : Module) (func : Func) (run : Run)
    (linearized : module.linearize = .ok run.code) (call : Calling) (fuel : Nat)
    (calls : call.Followed run.code run.limit run.room fuel) (targets : List Nat) (here : Nat)
    (instr : Instr) : instr.Followed module func run call fuel targets here := by
  cases instr with
  | const value => exact const_followed module func run call fuel targets here value
  | localGet name => exact local_get_followed module func run call fuel targets here name
  | localSet name => exact local_set_followed module func run call fuel targets here name
  | globalGet name => exact global_get_followed module func run call fuel targets here name
  | globalSet name => exact global_set_followed module func run call fuel targets here name
  | call name =>
      exact call_followed module func run call fuel targets here linearized calls name
  | binary op => exact binary_followed module func run call fuel targets here op
  | drop => exact drop_followed module func run call fuel targets here
  | ret => exact ret_followed module func run call fuel targets here
  | unreachable => exact unreachable_followed module func run call fuel targets here
  | cond body orelse =>
      apply cond_followed module func run call fuel targets here body orelse
      · intro targets here
        exact run_all_followed module func run linearized call fuel calls targets here body
      · intro targets here
        exact run_all_followed module func run linearized call fuel calls targets here orelse
  | block body =>
      apply block_followed module func run call fuel targets here body
      intro targets here
      exact run_all_followed module func run linearized call fuel calls targets here body
  | loop body =>
      apply loop_followed module func run call fuel targets here body
      intro targets here
      exact run_all_followed module func run linearized call fuel calls targets here body
  | branch depth => exact branch_followed module func run call fuel targets here depth
  | branchIf depth => exact branch_if_followed module func run call fuel targets here depth
termination_by structural instr

/-- The machine follows every piece of code that it holds. -/
theorem run_all_followed (module : Module) (func : Func) (run : Run)
    (linearized : module.linearize = .ok run.code) (call : Calling) (fuel : Nat)
    (calls : call.Followed run.code run.limit run.room fuel) (targets : List Nat) (here : Nat)
    (instrs : List Instr) : AllFollowed module func run call fuel targets here instrs := by
  cases instrs with
  | nil => exact none_followed module func run call fuel targets here
  | cons first rest =>
      apply sequence_followed module func run call fuel targets here first rest
      · exact run_followed module func run linearized call fuel calls targets here first
      · exact run_all_followed module func run linearized call fuel calls targets _ rest
termination_by structural instrs

end

end Instr

/-- What a call answers when the machine follows the body of its function up to the return behind
it. -/
theorem outcome_followed {code : LinearModule} {limit room index : Nat} {args : List Word}
    {store : Store} {callers : List Frame} (func : LinearFunc) (slots : Array Word) (stop : Nat)
    (exit : Option Exit) (fuel : Nat)
    (entered : code.enter limit room index args = .ok ⟨func, 0, slots, []⟩)
    (followed : Exit.Followed ⟨code, limit, room - 1, store, ⟨func, 0, slots, []⟩, callers⟩ 0 stop
      [stop] fuel ⟨slots, [], store⟩ exit)
    (returns : func.code[stop]? = some .ret) :
    CallOutcome.Followed code limit room (fuel + 1) index args store callers
      (exit.map Exit.outcome) := by
  -- A body that ends and one that branches out of the function both arrive at the return behind it.
  have finish : ∀ (after : Activation) (steps : Nat),
      (Run.mk code limit (room - 1) store ⟨func, 0, slots, []⟩ callers).advance steps =
        .running (Run.place ⟨code, limit, room - 1, store, ⟨func, 0, slots, []⟩, callers⟩ stop
          after) →
      CallOutcome.Followed code limit room (fuel + 1) index args store callers
        (some (after.pop.map Prod.fst, after.store)) := by
    intro after steps arrives
    unfold Activation.pop
    cases stack : after.stack with
    | nil =>
        refine Or.inr ⟨_, entered, steps, _, arrives, ?_, [_], rfl⟩
        rw [Run.step_fetched _ stop after _ returns, Run.execute_ret, stack]
    | cons value rest =>
        refine ⟨_, entered, steps + 1, ?_⟩
        rw [Run.advance_through _ _ _ _ arrives]
        exact Run.handed_over _ stop after value returns (by rw [stack]; rfl)
  cases exit with
  | none => exact Or.inr ⟨_, entered, followed⟩
  | some exit =>
      cases exit with
      | next after =>
          obtain ⟨steps, arrives⟩ := followed
          exact finish after steps arrives
      | branch depth after =>
          obtain ⟨target, found, steps, arrives⟩ := followed
          have same : stop = target := by
            cases depth with
            | zero => exact Option.some.inj found
            | succ depth => cases found
          rw [← same] at arrives
          exact finish after (steps + 1) arrives
      | returned value after =>
          obtain ⟨steps, position, arrives, fetched, top⟩ := followed
          refine ⟨_, entered, steps + 1, (Run.advance_through _ _ _ 1 arrives).trans ?_⟩
          exact Run.handed_over _ position after value fetched top
      | trapped error after =>
          obtain ⟨steps, last, arrives, ends, inner, frame, frames, _⟩ := followed
          refine Or.inr ⟨_, entered, steps, last, arrives, ends, inner ++ [frame], ?_⟩
          rw [frames, List.append_assoc]
          rfl

/-- The machine makes every call of structured code, however many calls may be open and however
much fuel there is. -/
theorem invoke_followed (module : Module) (code : LinearModule)
    (linearized : module.linearize = .ok code) (limit fuel room : Nat) :
    Calling.Followed (module.invoke limit fuel room) code limit room fuel := by
  -- Calls inside the body have less fuel, and the room that is left beside the frame of the caller.
  induction fuel generalizing room with
  | zero =>
      intro index args store callers
      exact Or.inl rfl
  | succ fuel induction =>
      intro index args store callers
      by_cases full : room = 0
      · simp only [Module.invoke, if_pos full]
        exact Or.inl ⟨by rw [LinearModule.enter, if_pos full], rfl⟩
      · simp only [Module.invoke, if_neg full]
        cases found : module.allFunctions[index]? with
        | none =>
            have absent := linearized_functions_absent module code linearized index found
            exact Or.inl ⟨by rw [LinearModule.enter, if_neg full, absent], rfl⟩
        | some func =>
            obtain ⟨linear, there, linearFunc⟩ :=
              linearized_functions module code linearized index func found
            obtain ⟨body, bodyDone, name, params, locals, holds⟩ :=
              linear_func_succeeds module func linear linearFunc
            by_cases arity : args.length = func.params.length
            · have entered : code.enter limit room index args = .ok ⟨linear, 0,
                  (args ++ List.replicate func.locals.length 0).toArray, []⟩ := by
                rw [LinearModule.enter, if_neg full, there]
                simp only [params, locals, if_pos arity]
              have bodyLength := Instr.linear_all_length module func _ _ func.body body bodyDone
              rw [LinearFunc.holds_append, LinearFunc.holds_cons, bodyLength] at holds
              have inside := Instr.run_all_followed module func
                ⟨code, limit, room - 1, store, ⟨linear, 0,
                  (args ++ List.replicate func.locals.length 0).toArray, []⟩, callers⟩
                linearized (module.invoke limit fuel (room - 1)) fuel (induction (room - 1)) _ 0
                func.body body bodyDone holds.1
                ⟨(args ++ List.replicate func.locals.length 0).toArray, [], store⟩
              rw [Nat.zero_add] at inside holds
              simp only [if_pos arity]
              exact outcome_followed linear _ _ _ fuel entered inside holds.2.1
            · simp only [if_neg arity]
              refine Or.inl ⟨?_, rfl⟩
              rw [LinearModule.enter, if_neg full, there]
              simp only [params, if_neg arity, name]

section Exports

variable {machine : Machine} {name : String} {index : Nat} {args : List Word}

theorem invoke_refused (exported : machine.code.exports.get? name = some index)
    (error : RuntimeError)
    (refused : machine.code.enter machine.limit machine.limit index args = .error error)
    (steps : Nat) : machine.invoke name args steps = some (.error error, machine) := by
  simp only [Machine.invoke, Machine.start, exported, refused, error_bind]

theorem invoke_entered (exported : machine.code.exports.get? name = some index) (frame : Frame)
    (entered : machine.code.enter machine.limit machine.limit index args = .ok frame)
    (steps : Nat) :
    machine.invoke name args steps =
      match (Run.mk machine.code machine.limit (machine.limit - 1) machine.store frame
        []).advance steps with
      | .running _ => none
      | .finished outcome store => some (outcome, { machine with store }) := by
  simp only [Machine.invoke, Machine.start, exported, entered, ok_bind]
  rfl

theorem invoke_unique (exported : machine.code.exports.get? name = some index) (steps other : Nat)
    (first second : Except RuntimeError Word × Machine)
    (finished : machine.invoke name args steps = some first)
    (finishedToo : machine.invoke name args other = some second) : first = second := by
  cases entered : machine.code.enter machine.limit machine.limit index args with
  | error error =>
      rw [invoke_refused exported error entered] at finished finishedToo
      exact Option.some.inj (finished.symm.trans finishedToo)
  | ok frame =>
      rw [invoke_entered exported frame entered] at finished finishedToo
      split at finished
      · cases finished
      · rename_i outcome store ends
        split at finishedToo
        · cases finishedToo
        · rename_i outcome' store' endsToo
          obtain ⟨rfl, rfl⟩ := Run.finished_unique _ _ _ _ _ _ _ ends endsToo
          exact Option.some.inj (finished.symm.trans finishedToo)

variable {module : Module} (linearized : module.linearize = .ok machine.code)

include linearized

theorem invoke_answers (exported : machine.code.exports.get? name = some index) (fuel : Nat)
    (outcome : Except RuntimeError Word) (store : Store)
    (answer : module.invoke machine.limit fuel machine.limit index args machine.store =
      some (outcome, store)) :
    ∃ steps, machine.invoke name args steps = some (outcome, { machine with store }) := by
  have called := invoke_followed module machine.code linearized machine.limit fuel machine.limit
    index args machine.store []
  rw [answer] at called
  cases outcome with
  | ok value =>
      obtain ⟨frame, entered, steps, returned⟩ := called
      exact ⟨steps, by rw [invoke_entered exported frame entered, returned]; rfl⟩
  | error error =>
      rcases called with ⟨refused, rfl⟩ | ⟨frame, entered, steps, last, arrives, ends, _⟩
      · exact ⟨0, invoke_refused exported error refused 0⟩
      · refine ⟨steps + 1, ?_⟩
        rw [invoke_entered exported frame entered, Run.advance_last _ last steps arrives _ _ ends]

theorem invoke_runs_on (exported : machine.code.exports.get? name = some index) (steps : Nat)
    (unanswered : module.invoke machine.limit (steps + 1) machine.limit index args machine.store =
      none) : machine.invoke name args steps = none := by
  have called := invoke_followed module machine.code linearized machine.limit (steps + 1)
    machine.limit index args machine.store []
  rw [unanswered] at called
  rcases called with impossible | ⟨frame, entered, next, running⟩
  · cases impossible
  · rw [invoke_entered exported frame entered]
    rw [Nat.add_sub_cancel] at running
    rw [running]

/-- A call of an export and the structured code of its function have the same outcomes. In
particular one of them goes on forever exactly when the other does. -/
theorem export_outcome_iff (exported : machine.code.exports.get? name = some index)
    (outcome : Except RuntimeError Word) (store : Store) :
    (∃ steps, machine.invoke name args steps = some (outcome, { machine with store })) ↔
      ∃ fuel, module.invoke machine.limit fuel machine.limit index args machine.store =
        some (outcome, store) := by
  constructor
  · rintro ⟨steps, finished⟩
    cases answer : module.invoke machine.limit (steps + 1) machine.limit index args
        machine.store with
    | none =>
        rw [invoke_runs_on linearized exported steps answer] at finished
        cases finished
    | some found =>
        obtain ⟨outcome', store'⟩ := found
        obtain ⟨more, finishedToo⟩ := invoke_answers linearized exported _ _ _ answer
        have same := invoke_unique exported _ _ _ _ finished finishedToo
        have sameOutcome : outcome = outcome' := congrArg Prod.fst same
        have sameStore : store = store' := congrArg (fun pair => pair.2.store) same
        exact ⟨steps + 1, by rw [answer, sameOutcome, sameStore]⟩
  · rintro ⟨fuel, answer⟩
    exact invoke_answers linearized exported fuel outcome store answer

end Exports

end ScriptWasm
