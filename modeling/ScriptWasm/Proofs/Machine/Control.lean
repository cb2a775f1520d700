import Mathlib.Logic.Relation
import ScriptWasm.Proofs.Machine.Safety

/-!
Where control may go in linear code. Every frame of a run stands at a position that control reaches
from the start of its function, whatever the operands are, so code that no control reaches is never
run. A call whose frame is open stays open until it returns or the run ends.
-/

namespace ScriptWasm

set_option autoImplicit false

/-- An instruction leads to the positions where its frame may stand behind it. A return and a trap
lead nowhere. -/
def LinearInstr.Leads (position next : Nat) : LinearInstr → Prop
  | jump target => next = target
  | jumpIfZero target | jumpUnlessZero target => next = target ∨ next = position + 1
  | ret | unreachable => False
  | const _ | localGet _ | localSet _ | globalGet _ | globalSet _ | binary _ | drop | call _
  | callHost _ => next = position + 1

namespace LinearFunc

variable {func : LinearFunc} {stop start : Nat}

def Leads (func : LinearFunc) (position next : Nat) : Prop :=
  ∃ instr, func.code[position]? = some instr ∧ instr.Leads position next

/-- Control may come to a position from the start of the function. -/
def Reaches (func : LinearFunc) (position : Nat) : Prop :=
  Relation.ReflTransGen func.Leads 0 position

/-- Control comes to no `unreachable`. -/
def Safe (func : LinearFunc) : Prop :=
  ∀ position, func.Reaches position → func.code[position]? ≠ some .unreachable

/-- Control that is at the position `start` never comes to `stop` or behind it. -/
def StaysBefore (func : LinearFunc) (stop start : Nat) : Prop :=
  ∀ position, Relation.ReflTransGen func.Leads start position → position < stop

/-- Control stays before an end if it can only leave a region to positions from which it does. -/
theorem stays_before_of_region (region : Nat → Prop) (starts : region start)
    (bound : ∀ position, region position → position < stop)
    (leaves : ∀ position next, region position → func.Leads position next →
      region next ∨ func.StaysBefore stop next) : func.StaysBefore stop start := by
  intro last path
  have followed : region last ∨ func.StaysBefore stop last := by
    induction path with
    | refl => exact .inl starts
    | tail earlier leads induction =>
        rcases induction with inRegion | stays
        · exact leaves _ _ inRegion leads
        · exact .inr fun position later => stays position (.head leads later)
  rcases followed with inRegion | stays
  · exact bound last inRegion
  · exact stays last .refl

theorem stays_before_of_leads (bound : start < stop)
    (leads : ∀ next, func.Leads start next → func.StaysBefore stop next) :
    func.StaysBefore stop start :=
  stays_before_of_region (· = start) rfl (fun _ same => same ▸ bound)
    fun _ next same lead => .inr (leads next (same ▸ lead))

end LinearFunc

namespace Run

variable {run next : Run}

/-- What one step does to the open frames. The current frame follows the control flow of its
function, or it calls a function and waits behind the call, or it returns to the frame that waits
for it. -/
inductive Moves (run next : Run) : Prop where
  | goes (func : next.frame.func = run.frame.func) (callers : next.callers = run.callers)
      (leads : run.frame.func.Leads run.frame.position next.frame.position)
  | calls (index : Nat) (fetched : run.fetched = some (.call index))
      (called : run.code.functions[index]? = some next.frame.func)
      (starts : next.frame.position = 0) (waiting : Frame)
      (func : waiting.func = run.frame.func) (behind : waiting.position = run.frame.position + 1)
      (callers : next.callers = waiting :: run.callers)
  | leaves (fetched : run.fetched = some .ret) (waiting : Frame)
      (func : next.frame.func = waiting.func) (position : next.frame.position = waiting.position)
      (callers : run.callers = waiting :: next.callers)

theorem entered_function {code : LinearModule} {limit room index : Nat} {args : List Word}
    {frame : Frame} (entered : code.enter limit room index args = .ok frame) :
    code.functions[index]? = some frame.func ∧ frame.position = 0 := by
  unfold LinearModule.enter at entered
  split at entered
  · cases entered
  · split at entered
    · cases entered
    · rename_i func found
      split at entered <;> cases entered
      exact ⟨found, rfl⟩

theorem moves_of_call (index : Nat)
    (found : run.frame.func.code[run.frame.position]? = some (.call index))
    (executed : Run.execute { run with frame := { run.frame with
      position := run.frame.position + 1 } } (.call index) = .running next) : run.Moves next := by
  simp only [execute, callFunction, trap] at executed
  split at executed
  · cases executed
  · split at executed
    · cases executed
    · rename_i args stack taken
      split at executed
      · cases executed
      · rename_i frame entered
        cases executed
        obtain ⟨called, starts⟩ := entered_function entered
        exact .calls index found called starts
          { run.frame with position := run.frame.position + 1, stack } rfl rfl rfl

theorem moves_of_return (found : run.frame.func.code[run.frame.position]? = some .ret)
    (executed : Run.execute { run with frame := { run.frame with
      position := run.frame.position + 1 } } .ret = .running next) : run.Moves next := by
  simp only [execute, leave, trap] at executed
  split at executed
  · cases executed
  · split at executed
    · cases executed
    · rename_i caller callers waiting
      cases executed
      exact .leaves found caller rfl rfl waiting

/-- A step that does not end the run moves its frames, and keeps the code. -/
theorem moves_of_step (stepped : run.step = .running next) : run.Moves next := by
  simp only [step] at stepped
  cases found : run.frame.func.code[run.frame.position]? with
  | none =>
      rw [found] at stepped
      cases stepped
  | some instr =>
      rw [found] at stepped
      -- A step within a frame goes to the next position or to the target of a jump.
      cases instr with
      | const value =>
          cases stepped
          exact .goes rfl rfl ⟨_, found, rfl⟩
      | jump target =>
          cases stepped
          exact .goes rfl rfl ⟨_, found, rfl⟩
      | localGet _ | globalGet _ | drop =>
          simp only [execute, withStack, trap] at stepped
          split at stepped <;> cases stepped
          exact .goes rfl rfl ⟨_, found, rfl⟩
      | localSet _ | globalSet _ =>
          simp only [execute, trap] at stepped
          split at stepped
          · cases stepped
          · split at stepped <;> cases stepped
            exact .goes rfl rfl ⟨_, found, rfl⟩
      | binary op =>
          simp only [execute, withStack, trap] at stepped
          split at stepped
          · split at stepped <;> cases stepped
            exact .goes rfl rfl ⟨_, found, rfl⟩
          · cases stepped
      | jumpIfZero target =>
          simp only [execute, withStack, withJump, trap] at stepped
          split at stepped
          · cases stepped
          · split at stepped <;> cases stepped
            · exact .goes rfl rfl ⟨_, found, .inl rfl⟩
            · exact .goes rfl rfl ⟨_, found, .inr rfl⟩
      | jumpUnlessZero target =>
          simp only [execute, withStack, withJump, trap] at stepped
          split at stepped
          · cases stepped
          · split at stepped <;> cases stepped
            · exact .goes rfl rfl ⟨_, found, .inr rfl⟩
            · exact .goes rfl rfl ⟨_, found, .inl rfl⟩
      | callHost primitive =>
          simp only [execute, callHost, trap] at stepped
          split at stepped
          · cases stepped
          · split at stepped <;> cases stepped
            exact .goes rfl rfl ⟨_, found, rfl⟩
      | call index => exact moves_of_call index found stepped
      | ret => exact moves_of_return found stepped
      | unreachable => cases stepped

/-- No step changes the code or the limit, and events are only added. A step that ends the run adds
none. -/
def Continues (run : Run) : Progress → Prop
  | .running next =>
      next.code = run.code ∧ next.limit = run.limit ∧
        run.store.events.toList <+: next.store.events.toList
  | .finished _ store => store.events = run.store.events

theorem execute_continues (run : Run) (instr : LinearInstr) :
    run.Continues (run.execute instr) := by
  have goes : ∀ frame, run.Continues (.running { run with frame }) :=
    fun _ => ⟨rfl, rfl, List.prefix_rfl⟩
  -- Apart from calls and returns, an instruction goes on in its own frame or traps.
  cases instr with
  | const _ | jump _ => exact goes _
  | unreachable => exact rfl
  | localGet _ | globalGet _ | drop =>
      simp only [execute, withStack, trap]
      split
      · exact rfl
      · exact goes _
  | localSet _ | globalSet _ =>
      simp only [execute, trap]
      split
      · exact rfl
      · split
        · exact ⟨rfl, rfl, List.prefix_rfl⟩
        · exact rfl
  | binary _ =>
      simp only [execute, withStack, trap]
      split
      · split
        · exact goes _
        · exact rfl
      · exact rfl
  | jumpIfZero _ | jumpUnlessZero _ =>
      simp only [execute, withStack, withJump, trap]
      split
      · exact rfl
      · split <;> exact goes _
  | call index =>
      simp only [execute, callFunction, trap]
      split
      · exact rfl
      · split
        · exact rfl
        · split
          · exact rfl
          · exact ⟨rfl, rfl, List.prefix_rfl⟩
  | callHost primitive =>
      simp only [execute, callHost, trap]
      split
      · exact rfl
      · rename_i args stack _
        simp only [HostImport.call]
        cases primitive.eval args with
        | error error => exact rfl
        | ok answer =>
            refine ⟨rfl, rfl, ?_⟩
            simp
  | ret =>
      simp only [execute, leave, trap]
      split
      · exact rfl
      · split
        · exact rfl
        · exact ⟨rfl, rfl, List.prefix_rfl⟩

theorem step_continues (run : Run) : run.Continues run.step := by
  simp only [step]
  split
  · exact rfl
  · exact execute_continues
      { run with frame := { run.frame with position := run.frame.position + 1 } } _

/-- A property of runs that holds at the start and is kept by every step holds all along. -/
theorem advance_induction (holds : Run → Prop) (start : holds run)
    (kept : ∀ before state later, run.advance before = .running state →
      state.step = .running later → holds state → holds later)
    (steps : Nat) (state : Run) (advanced : run.advance steps = .running state) : holds state := by
  induction steps generalizing state with
  | zero =>
      cases advanced
      exact start
  | succ steps induction =>
      rw [advance_add] at advanced
      cases earlier : run.advance steps with
      | finished outcome store =>
          rw [earlier] at advanced
          cases advanced
      | running middle =>
          rw [earlier] at advanced
          simp only [advance] at advanced
          cases stepped : middle.step with
          | finished outcome store =>
              rw [stepped] at advanced
              cases advanced
          | running later =>
              rw [stepped] at advanced
              cases advanced
              exact kept steps middle state earlier stepped (induction middle earlier)

theorem last_of_finished (steps : Nat) (outcome : Except RuntimeError Word) (store : Store)
    (finished : run.advance steps = .finished outcome store) :
    ∃ before last, run.advance before = .running last ∧ last.step = .finished outcome store := by
  induction steps with
  | zero => cases finished
  | succ steps induction =>
      rw [advance_add] at finished
      cases earlier : run.advance steps with
      | finished outcome store =>
          rw [earlier] at finished
          cases finished
          exact induction earlier
      | running middle =>
          rw [earlier] at finished
          simp only [advance] at finished
          cases stepped : middle.step with
          | running later =>
              rw [stepped] at finished
              cases finished
          | finished outcome store =>
              rw [stepped] at finished
              cases finished
              exact ⟨steps, middle, earlier, stepped⟩

def Each (holds : LinearFunc → Nat → Prop) (run : Run) : Prop :=
  ∀ frame ∈ run.frames, holds frame.func frame.position

theorem each_iff (holds : LinearFunc → Nat → Prop) :
    run.Each holds ↔ holds run.frame.func run.frame.position ∧
      ∀ frame ∈ run.callers, holds frame.func frame.position :=
  List.forall_mem_cons

section Frames

variable (holds : LinearFunc → Nat → Prop)
  (follows : ∀ func position after, func.Leads position after → holds func position →
    holds func after)

include follows in
/-- What control takes along holds of every frame after a step if it holds at the start of the
function that the step calls, if any. -/
theorem Moves.each (moves : run.Moves next)
    (starts : ∀ index callee, run.fetched = some (.call index) →
      run.code.functions[index]? = some callee → holds callee 0)
    (before : run.Each holds) : next.Each holds := by
  obtain ⟨current, others⟩ := (each_iff holds).mp before
  rw [each_iff]
  cases moves with
  | goes func callers leads =>
      refine ⟨?_, callers ▸ others⟩
      rw [func]
      exact follows _ _ _ leads current
  | calls index fetched called start waiting func behind callers =>
      refine ⟨?_, ?_⟩
      · rw [start]
        exact starts index _ fetched called
      · rw [callers]
        refine List.forall_mem_cons.mpr ⟨?_, others⟩
        rw [func, behind]
        exact follows _ _ _ ⟨_, fetched, rfl⟩ current
  | leaves fetched waiting func position callers =>
      rw [callers] at others
      obtain ⟨there, rest⟩ := List.forall_mem_cons.mp others
      rw [func, position]
      exact ⟨there, rest⟩

include follows in
theorem each_advanced (first : run.Each holds)
    (starts : ∀ before state index callee, run.advance before = .running state →
      state.fetched = some (.call index) → state.code.functions[index]? = some callee →
      holds callee 0)
    (steps : Nat) (state : Run) (advanced : run.advance steps = .running state) :
    state.Each holds :=
  advance_induction (Each holds) first
    (fun before middle _ reached stepped each =>
      (moves_of_step stepped).each holds follows
        (fun index callee => starts before middle index callee reached) each)
    steps state advanced

end Frames

def Placed (run : Run) : Prop :=
  run.Each LinearFunc.Reaches

/-- What holds at the start of its function holds of all frames of a run with a single frame. -/
theorem each_of_start (holds : LinearFunc → Nat → Prop) (start : run.frame.position = 0)
    (alone : run.callers = []) (first : holds run.frame.func 0) : run.Each holds := by
  rw [each_iff, start, alone]
  exact ⟨first, List.forall_mem_nil _⟩

theorem Placed.advanced (placed : run.Placed) (steps : Nat) (state : Run)
    (advanced : run.advance steps = .running state) : state.Placed :=
  each_advanced LinearFunc.Reaches (fun _ _ _ leads reaches => .tail reaches leads) placed
    (fun _ _ _ _ _ _ _ => .refl) steps state advanced

/-- The frame of a call of a function is among some frames, directly above those that wait for the
call. -/
def HoldsCall (func : LinearFunc) (callers frames : List Frame) : Prop :=
  ∃ inner own, frames = inner ++ own :: callers ∧ own.func = func

theorem holds_call_cons (func : LinearFunc) (callers frames : List Frame) (first : Frame) :
    HoldsCall func callers (first :: frames) ↔
      (first.func = func ∧ frames = callers) ∨ HoldsCall func callers frames := by
  constructor
  · rintro ⟨inner, own, same, belongs⟩
    cases inner with
    | nil =>
        cases same
        exact .inl ⟨belongs, rfl⟩
    | cons other inner =>
        cases same
        exact .inr ⟨inner, own, rfl, belongs⟩
  · rintro (⟨belongs, rfl⟩ | ⟨inner, own, rfl, belongs⟩)
    · exact ⟨[], first, rfl, belongs⟩
    · exact ⟨first :: inner, own, rfl, belongs⟩

/-- A call that is open stays open in a step, unless the step returns from it. -/
theorem Moves.call_open (moves : run.Moves next) (func : LinearFunc) (callers : List Frame)
    (isOpen : HoldsCall func callers run.frames) :
    HoldsCall func callers next.frames ∨
      (run.frame.func = func ∧ run.callers = callers ∧ run.fetched = some .ret) := by
  have either := (holds_call_cons _ _ _ _).mp isOpen
  rw [frames, holds_call_cons]
  cases moves with
  | goes sameFunc sameCallers leads =>
      rw [sameFunc, sameCallers]
      exact .inl either
  | calls index fetched called starts waiting sameFunc behind above =>
      rw [above, holds_call_cons, sameFunc]
      exact .inl (.inr either)
  | leaves fetched waiting sameFunc position above =>
      rcases either with ⟨own, rest⟩ | inside
      · exact .inr ⟨own, rest, fetched⟩
      · rw [above, holds_call_cons] at inside
        rw [sameFunc]
        exact .inl inside

/-- The call in whose frame a run began is open during some steps of the run. -/
def StaysOpen (opened : Run) (steps : Nat) : Prop :=
  ∀ fewer ≤ steps, ∃ state, opened.advance fewer = .running state ∧
    HoldsCall opened.frame.func opened.callers state.frames

/-- How the call in whose frame a run began ends with the next step of the run, where the body of its
function ends at `stop`. It returns from the body, or it traps for another reason than that code was
reached which must not be, or a call that it made traps. -/
inductive CallEnds (opened : Run) (stop : Nat) (last : Run) : Prop where
  | returned (own : last.frame.func = opened.frame.func) (callers : last.callers = opened.callers)
      (fetched : last.fetched = some .ret) (inside : last.frame.position < stop)
      (value : Word) (answers : last.step = last.handOver value last.store)
  | trapped (own : last.frame.func = opened.frame.func) (callers : last.callers = opened.callers)
      (error : RuntimeError) (store : Store) (ends : last.step = .finished (.error error) store)
      (other : error ≠ .unreachable)
  | trappedInside (waits : HoldsCall opened.frame.func opened.callers last.callers)
      (error : RuntimeError) (store : Store) (ends : last.step = .finished (.error error) store)

inductive CallComesTo (opened : Run) (stop steps : Nat) : Prop where
  | goesOn (isOpen : opened.StaysOpen steps)
  | ended (before : Nat) (earlier : before < steps) (isOpen : opened.StaysOpen before) (last : Run)
      (advanced : opened.advance before = .running last) (ends : opened.CallEnds stop last)

/-- A return with a single operand hands it over. -/
theorem step_of_return (fetched : run.fetched = some .ret) (value : Word)
    (only : run.frame.stack = [value]) : run.step = run.handOver value run.store := by
  have found : run.frame.func.code[run.frame.position]? = some .ret := fetched
  cases waiting : run.callers <;>
    simp only [step, found, execute, leave, only, handOver, waiting]

theorem Sound.call_step (sound : run.Sound) (opened : Run) (stop : Nat)
    (isOpen : HoldsCall opened.frame.func opened.callers run.frames)
    (inside : run.frame.func = opened.frame.func → run.frame.position < stop)
    (safe : ∀ position < stop, opened.frame.func.code[position]? ≠ some .unreachable) :
    (∃ later, run.step = .running later ∧
      HoldsCall opened.frame.func opened.callers later.frames) ∨ opened.CallEnds stop run := by
  -- A sound state ends for a known reason, and what the reason is decides how the call ends.
  have kept := sound.step_kept
  cases stepped : run.step with
  | running later =>
      rcases (moves_of_step stepped).call_open _ _ isOpen with stays | ⟨own, rest, fetched⟩
      · exact .inl ⟨later, rfl, stays⟩
      · obtain ⟨value, only⟩ := sound.return_takes_all fetched
        have answers := step_of_return fetched value only
        exact .inr (.returned own rest fetched (inside own) value answers)
  | finished outcome store =>
      rw [stepped] at kept
      right
      rcases (holds_call_cons _ _ _ _).mp isOpen with ⟨own, rest⟩ | waits
      · cases kept.1 with
        | returned value fetched last only =>
            have answers := step_of_return fetched value only
            exact .returned own rest fetched (inside own) value answers
        | trapped op trap fetched => exact .trapped own rest _ store stepped (by simp)
        | exhausted index fetched full => exact .trapped own rest _ store stepped (by simp)
        | unreachable fetched =>
            have found : run.frame.func.code[run.frame.position]? = some .unreachable := fetched
            rw [own] at found
            exact absurd found (safe _ (inside own))
      · cases outcome with
        | error error => exact .trappedInside waits error store stepped
        | ok value =>
            -- Only the outermost frame ends a run with a word, and here the call waits for another.
            cases kept.1 with
            | returned value fetched last only =>
                obtain ⟨inner, own, same, _⟩ := waits
                simp [last] at same

/-- A call stays open or ends in one of the ways in which it may if control stays inside the body of
its function. -/
theorem Sound.call_comes_to (sound : run.Sound) (placed : run.Placed) (stop : Nat)
    (inside : ∀ position, run.frame.func.Reaches position → position < stop)
    (safe : ∀ position < stop, run.frame.func.code[position]? ≠ some .unreachable) (steps : Nat) :
    run.CallComesTo stop steps := by
  induction steps with
  | zero =>
      refine .goesOn fun fewer none => ⟨run, ?_, (holds_call_cons _ _ _ _).mpr (.inl ⟨rfl, rfl⟩)⟩
      rw [Nat.le_zero.mp none, advance]
  | succ steps induction =>
      cases induction with
      | ended before earlier isOpen last advanced ends =>
          exact .ended before (Nat.lt_succ_of_lt earlier) isOpen last advanced ends
      | goesOn isOpen =>
          obtain ⟨state, advanced, here⟩ := isOpen steps (Nat.le_refl _)
          have kept := sound.advance_kept steps
          rw [advanced] at kept
          have reached := placed.advanced steps state advanced state.frame List.mem_cons_self
          rcases kept.1.call_step run stop here (fun own => inside _ (own ▸ reached)) safe with
            ⟨later, stepped, stays⟩ | ends
          · refine .goesOn fun fewer bound => ?_
            rcases Nat.le_succ_iff.mp bound with before | rfl
            · exact isOpen fewer before
            · refine ⟨later, ?_, stays⟩
              rw [advance_through _ _ _ 1 advanced]
              simp only [advance, stepped]
          · exact .ended steps (Nat.lt_succ_self _) isOpen state advanced ends

/-- A run of safe functions that calls only safe functions does not end because code was reached
which must not be. -/
theorem Sound.never_unreachable (sound : run.Sound) (placed : run.Placed)
    (first : run.Each fun func _ => func.Safe)
    (called : ∀ before state index callee, run.advance before = .running state →
      state.fetched = some (.call index) → run.code.functions[index]? = some callee → callee.Safe)
    (steps : Nat) (store : Store) :
    run.advance steps ≠ .finished (.error .unreachable) store := by
  intro finished
  obtain ⟨before, last, advanced, ends⟩ := last_of_finished steps _ store finished
  have codes : ∀ before state, run.advance before = .running state →
      state.Sound ∧ state.code = run.code := by
    intro before state advanced
    have kept := sound.advance_kept before
    rw [advanced] at kept
    exact ⟨kept.1, kept.2.1⟩
  have safe := each_advanced (fun func _ => func.Safe) (fun _ _ _ _ safe => safe) first
    (fun before state index callee reached fetched present =>
      called before state index callee reached fetched
        ((codes before state reached).2 ▸ present)) before last advanced
  have current := ((each_iff _).mp safe).1
  have reached := placed.advanced before last advanced last.frame List.mem_cons_self
  have kept := (codes before last advanced).1.step_kept
  rw [ends] at kept
  cases kept.1 with
  | unreachable fetched => exact current _ reached fetched

end Run

theorem Machine.started_run {machine : Machine} {name : String} {index : Nat} {args : List Word}
    {run : Run} (exported : machine.code.exports.get? name = some index)
    (starts : machine.start name args = .ok run) :
    machine.code.functions[index]? = some run.frame.func ∧ run.frame.position = 0 ∧
      run.callers = [] := by
  simp only [Machine.start, exported, bind_succeeds_iff, pure_succeeds_iff] at starts
  obtain ⟨frame, entered, rfl⟩ := starts
  obtain ⟨called, start⟩ := Run.entered_function entered
  exact ⟨called, start, rfl⟩

def LinearFunc.begin (func : LinearFunc) (code : LinearModule) (limit : Nat) (store : Store)
    (args : List Word) : Run :=
  ⟨code, limit, limit - 1, store, ⟨func, 0, (args ++ List.replicate func.locals 0).toArray, []⟩, []⟩

/-- With the right number of arguments an export is called, unless no frame may be open at all. -/
theorem Machine.start_of_export {machine : Machine} {name : String} {index : Nat}
    {args : List Word} {func : LinearFunc}
    (exported : machine.code.exports.get? name = some index)
    (present : machine.code.functions[index]? = some func) (arity : args.length = func.params) :
    machine.start name args =
      if machine.limit = 0 then .error (.callStackExhausted machine.limit)
      else .ok (func.begin machine.code machine.limit machine.store args) := by
  simp only [start, exported, LinearModule.enter, present, if_pos arity]
  split <;> rfl

end ScriptWasm
