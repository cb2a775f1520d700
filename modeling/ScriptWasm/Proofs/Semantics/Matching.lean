import ScriptWasm.Proofs.Code.Emission
import ScriptWasm.Proofs.Code.Names
import ScriptWasm.Proofs.Machine.Structured
import ScriptWasm.Proofs.Semantics.Words

/-!
An evaluation on words and a run of structured code side by side. The two agree on the globals and
on what was printed, the slots of a call hold the parameters and locals, and at the top level also
the result so far. They spend the same fuel, so that they end together or not at all.
-/

namespace ScriptWasm

set_option autoImplicit false

namespace Instr

variable (module : Module) (func : Func) (call : Calling) (fuel : Nat)

theorem run_all_append (first second : List Instr) (state : Activation) :
    runAll module func call fuel (first ++ second) state =
      Exit.andThen (runAll module func call fuel second)
        (runAll module func call fuel first state) := by
  induction first generalizing state with
  | nil => rfl
  | cons head tail induction =>
      simp only [List.cons_append, runAll]
      cases run module func call fuel head state with
      | none => rfl
      | some exit =>
          cases exit with
          | next after => exact induction after
          | branch depth after => rfl
          | returned value done => rfl
          | trapped error done => rfl

theorem run_all_singleton (instr : Instr) (state : Activation) :
    runAll module func call fuel [instr] state = run module func call fuel instr state := by
  simp only [runAll]
  cases run module func call fuel instr state with
  | none => rfl
  | some exit => cases exit <;> rfl

end Instr

/-- The globals by name are the cells of the store, and the store holds the events from before
together with those of the run. -/
structure StoreAgrees (module : Module) (before : List Event) (state : RunState Word Event)
    (store : Store) : Prop where
  globals : ∀ name,
    state.globals.get? name = (module.globalIndex? name).bind fun index => store.globals[index]?
  cells : ∀ name index, module.globalIndex? name = some index → index < store.globals.size
  events : store.events.toList = before ++ state.output

/-- The slots hold the parameters and locals in scope, which hide no global, and at the top level
the result so far. -/
structure FrameAgrees (func : Func) (vars : VarTable) (topLevel : Bool)
    (state : RunState Word Event) (slots : Array Word) : Prop where
  globals : ∀ name binding, vars.get? name = some binding → binding.storage = .global →
    state.locals.get? name = none
  own : ∀ name binding, vars.get? name = some binding → binding.storage ≠ .global →
    topLevel = false ∧ ∃ slot value, func.slot? name = some slot ∧ slots[slot]? = some value ∧
      state.locals.get? name = some value
  kept : topLevel = true → ∃ slot, func.slot? Draft.resultSlot = some slot ∧
    slots[slot]? = some state.result

/-- An evaluation and a piece of code end in the same way, where the two relations say what holds
when the code goes on and when it returns. -/
def Matches {Result : Type} (module : Module) (before : List Event)
    (goesOn : Result → RunState Word Event → Activation → Prop)
    (returns : Result → RunState Word Event → Word → Store → Prop)
    (outcome : Except Halt Result × RunState Word Event) : Option Exit → Prop
  | none => outcome.1 = .error .outOfFuel
  | some (.next after) => ∃ result, outcome.1 = .ok result ∧ goesOn result outcome.2 after
  | some (.returned value after) =>
      ∃ result, outcome.1 = .ok result ∧ returns result outcome.2 value after.store
  | some (.trapped error after) =>
      outcome.1 = .error (.trap error) ∧ StoreAgrees module before outcome.2 after.store
  | some (.branch _ _) => False

def NoReturn {Result : Type} (_ : Result) (_ : RunState Word Event) (_ : Word) (_ : Store) : Prop :=
  False

section Sequences

variable {module : Module} {before : List Event} {Result Next : Type}

theorem matches_bind (first : Evaluation Word Event Result)
    (next : Result → Evaluation Word Event Next) (state : RunState Word Event)
    (middle : Result → RunState Word Event → Activation → Prop)
    (goesOn : Next → RunState Word Event → Activation → Prop)
    (returns : Next → RunState Word Event → Word → Store → Prop) (exit : Option Exit)
    (rest : Activation → Option Exit)
    (head : Matches module before middle NoReturn (first state) exit)
    (tail : ∀ result after activation, middle result after activation →
      Matches module before goesOn returns (next result after) (rest activation)) :
    Matches module before goesOn returns ((first >>= next) state) (Exit.andThen rest exit) := by
  rw [Evaluation.bind_apply]
  cases outcome : first state with
  | mk result after =>
      rw [outcome] at head
      cases exit with
      | none =>
          cases result with
          | ok value => cases head
          | error halt =>
              cases head
              rfl
      | some exit =>
          cases exit with
          | next activation =>
              obtain ⟨value, rfl, holds⟩ := head
              exact tail value after activation holds
          | branch depth activation => exact head.elim
          | returned value done => exact head.elim fun _ impossible => impossible.2.elim
          | trapped error done =>
              obtain ⟨rfl, agrees⟩ := head
              exact ⟨rfl, agrees⟩

/-- What is done behind the code of an evaluation, without code of its own. -/
theorem matches_map (first : Evaluation Word Event Result)
    (next : Result → Evaluation Word Event Next) (state : RunState Word Event)
    (middle : Result → RunState Word Event → Activation → Prop)
    (goesOn : Next → RunState Word Event → Activation → Prop)
    (returns : Next → RunState Word Event → Word → Store → Prop) (exit : Option Exit)
    (head : Matches module before middle NoReturn (first state) exit)
    (tail : ∀ result after activation, middle result after activation →
      Matches module before goesOn returns (next result after) (some (.next activation))) :
    Matches module before goesOn returns ((first >>= next) state) exit := by
  have joined := matches_bind first next state middle goesOn returns exit
    (fun activation => some (.next activation)) head tail
  have same : Exit.andThen (fun activation => some (.next activation)) exit = exit := by
    cases exit with
    | none => rfl
    | some exit => cases exit <;> rfl
  rwa [same] at joined

theorem matches_weaken {goesOn goesOn' : Result → RunState Word Event → Activation → Prop}
    {returns : Result → RunState Word Event → Word → Store → Prop}
    {outcome : Except Halt Result × RunState Word Event} {exit : Option Exit}
    (holds : Matches module before goesOn returns outcome exit)
    (weaker : ∀ result after activation, goesOn result after activation →
      goesOn' result after activation) :
    Matches module before goesOn' returns outcome exit := by
  cases exit with
  | none => exact holds
  | some exit =>
      cases exit with
      | next activation =>
          obtain ⟨result, same, goes⟩ := holds
          exact ⟨result, same, weaker result outcome.2 activation goes⟩
      | branch depth activation => exact holds
      | returned value done => exact holds
      | trapped error done => exact holds

end Sequences

structure Pushed (module : Module) (before : List Event) (state : RunState Word Event)
    (activation : Activation) (words : List Word) (after : RunState Word Event)
    (done : Activation) : Prop where
  slots : done.slots = activation.slots
  stack : done.stack = words ++ activation.stack
  store : StoreAgrees module before after done.store
  locals : after.locals = state.locals
  result : after.result = state.result

theorem StoreAgrees.noted {module : Module} {before : List Event} {state : RunState Word Event}
    {store : Store} (agrees : StoreAgrees module before state store)
    (trace : List (Observation Word)) : StoreAgrees module before { state with trace } store :=
  ⟨agrees.globals, agrees.cells, agrees.events⟩

theorem FrameAgrees.moved {func : Func} {vars : VarTable} {topLevel : Bool}
    {state after : RunState Word Event} {slots : Array Word}
    (agrees : FrameAgrees func vars topLevel state slots) (locals : after.locals = state.locals)
    (result : after.result = state.result) : FrameAgrees func vars topLevel after slots :=
  ⟨locals ▸ agrees.globals, locals ▸ agrees.own, result ▸ agrees.kept⟩

theorem Pushed.trans {module : Module} {before : List Event}
    {state middle after : RunState Word Event} {activation center done : Activation}
    {first second : List Word} (head : Pushed module before state activation first middle center)
    (tail : Pushed module before middle center second after done) :
    Pushed module before state activation (second ++ first) after done where
  slots := tail.slots.trans head.slots
  stack := by rw [tail.stack, head.stack, List.append_assoc]
  store := tail.store
  locals := tail.locals.trans head.locals
  result := tail.result.trans head.result

theorem Pushed.frame {module : Module} {before : List Event} {state after : RunState Word Event}
    {activation done : Activation} {words : List Word}
    (pushed : Pushed module before state activation words after done) {func : Func}
    {vars : VarTable} {topLevel : Bool}
    (agrees : FrameAgrees func vars topLevel state activation.slots) :
    FrameAgrees func vars topLevel after done.slots :=
  pushed.slots ▸ agrees.moved pushed.locals pushed.result

/-- What is left of the pushed words when some of them are taken off again. -/
theorem Pushed.replace {module : Module} {before : List Event} {state after : RunState Word Event}
    {activation done : Activation} {words : List Word}
    (pushed : Pushed module before state activation words after done) (others : List Word) :
    Pushed module before state activation others after
      ⟨done.slots, others ++ activation.stack, done.store⟩ :=
  ⟨pushed.slots, rfl, pushed.store, pushed.locals, pushed.result⟩

section Leaves

variable {module : Module} {before : List Event} {state : RunState Word Event}
  {activation : Activation} (func : Func) (calling : Calling) (fuel : Nat)

/-- Taking note of a value needs no code. -/
theorem matches_yield {base : RunState Word Event} (first : Evaluation Word Event Word)
    (expr : Expr) (exit : Option Exit)
    (head : Matches module before (fun value => Pushed module before base activation [value])
      NoReturn (first state) exit) :
    Matches module before (fun value => Pushed module before base activation [value]) NoReturn
      ((first >>= Evaluation.yield expr) state) exit := by
  apply matches_map first (Evaluation.yield expr) state _ _ _ exit head
  intro value after done pushed
  exact ⟨value, rfl, pushed.slots, pushed.stack, pushed.store.noted _, pushed.locals,
    pushed.result⟩

theorem matches_const (word : Word) (store : StoreAgrees module before state activation.store) :
    Matches module before (fun value => Pushed module before state activation [value]) NoReturn
      ((pure word : Evaluation Word Event Word) state)
      (Instr.runAll module func calling fuel [.const word] activation) :=
  ⟨word, rfl, rfl, rfl, store, rfl, rfl⟩

theorem matches_load {vars : VarTable} {topLevel : Bool} (name : String) (binding : Binding)
    (found : vars.get? name = some binding)
    (placed : binding.storage = .global → ∃ index, module.globalIndex? name = some index)
    (store : StoreAgrees module before state activation.store)
    (frame : FrameAgrees func vars topLevel state activation.slots) :
    Matches module before (fun value => Pushed module before state activation [value]) NoReturn
      (Evaluation.read name state)
      (Instr.runAll module func calling fuel [vars.load name] activation) := by
  rw [Instr.run_all_singleton]
  by_cases isGlobal : binding.storage = .global
  · obtain ⟨index, cell⟩ := placed isGlobal
    have bound := store.cells name index cell
    have value := store.globals name
    rw [cell, Option.bind_some, Array.getElem?_eq_getElem bound] at value
    have loaded : vars.load name = .globalGet name := by
      simp [VarTable.load, found, isGlobal]
    have answer : Evaluation.read name state = (.ok activation.store.globals[index], state) := by
      simp only [Evaluation.read, Evaluation.bind_apply, Evaluation.get_apply,
        frame.globals name binding found isGlobal, value]
      rfl
    rw [answer, loaded]
    simp only [Instr.run, cell, Activation.readGlobal, Array.getElem?_eq_getElem bound]
    exact ⟨_, rfl, rfl, rfl, store, rfl, rfl⟩
  · obtain ⟨_, slot, value, place, inSlot, inLocals⟩ := frame.own name binding found isGlobal
    have loaded : vars.load name = .localGet name := by
      unfold VarTable.load
      rw [found]
      cases binding with
      | mk ty storage => cases storage <;> first | rfl | exact absurd rfl isGlobal
    have answer : Evaluation.read name state = (.ok value, state) := by
      simp only [Evaluation.read, Evaluation.bind_apply, Evaluation.get_apply, inLocals]
      rfl
    rw [answer, loaded]
    simp only [Instr.run, place, Activation.readSlot, inSlot]
    exact ⟨_, rfl, rfl, rfl, store, rfl, rfl⟩

theorem matches_binary {base : RunState Word Event} {start : Activation} (op : BinaryOp)
    (wordOp : WordOp) (lowered : op.wordOp? = some wordOp) (left right : Word)
    (pushed : Pushed module before base start [right, left] state activation) :
    Matches module before (fun value => Pushed module before base start [value]) NoReturn
      ((liftM (wordModel.binary op left right) : Evaluation Word Event Word) state)
      (Instr.runAll module func calling fuel [.binary wordOp] activation) := by
  rw [Instr.run_all_singleton, Evaluation.lift_apply]
  simp only [wordModel, operate_eq_apply op wordOp lowered, Instr.run, Activation.operate,
    pushed.stack, List.cons_append]
  cases wordOp.apply left right with
  | ok value => exact ⟨value, rfl, pushed.replace [value]⟩
  | error trap => exact ⟨rfl, pushed.store⟩

/-- Operands from left to right, and then the operator. -/
theorem matches_operation (op : BinaryOp) (wordOp : WordOp) (lowered : op.wordOp? = some wordOp)
    (expr : Expr) (left right : Evaluation Word Event Word) (leftCode rightCode : List Instr)
    (head : Matches module before (fun value => Pushed module before state activation [value])
      NoReturn (left state) (Instr.runAll module func calling fuel leftCode activation))
    (tail : ∀ first after done, Pushed module before state activation [first] after done →
      Matches module before (fun value => Pushed module before after done [value]) NoReturn
        (right after) (Instr.runAll module func calling fuel rightCode done)) :
    Matches module before (fun value => Pushed module before state activation [value]) NoReturn
      ((do
        let first ← left
        let second ← right
        let value ← (liftM (wordModel.binary op first second) : Evaluation Word Event Word)
        Evaluation.yield expr value) state)
      (Instr.runAll module func calling fuel (leftCode ++ rightCode ++ [.binary wordOp])
        activation) := by
  rw [List.append_assoc, Instr.run_all_append]
  apply matches_bind _ _ _ _ _ _ _ _ head
  intro first after done pushed
  rw [Instr.run_all_append]
  apply matches_bind _ _ _ _ _ _ _ _ (tail first after done pushed)
  intro second later finished pushedToo
  exact matches_yield _ expr _
    (matches_binary func calling fuel op wordOp lowered first second (pushed.trans pushedToo))

/-- What decides about `None` forgets the operand. -/
theorem run_is_none (word : Word) (value : Word) (stack : List Word)
    (operand : activation.stack = value :: stack) :
    Instr.runAll module func calling fuel [.drop, .const word] activation =
      some (.next ⟨activation.slots, word :: stack, activation.store⟩) := by
  simp only [Instr.runAll, Instr.run, Activation.pop, operand]
  rfl

theorem run_complement (value : Word) (stack : List Word)
    (operand : activation.stack = value :: stack) :
    Instr.runAll module func calling fuel [.const 0, .binary .eq] activation =
      some (.next ⟨activation.slots, Word.ofBool (value == 0) :: stack, activation.store⟩) := by
  simp only [Instr.runAll, Instr.run, Activation.operate, Activation.push, Activation.withStack,
    operand, Exit.andThen]
  rfl

theorem run_negation (value : Word) (stack : List Word)
    (operand : activation.stack = value :: 0 :: stack) :
    Instr.runAll module func calling fuel [.binary .sub] activation =
      some (.next ⟨activation.slots, (0 - value) :: stack, activation.store⟩) := by
  simp only [Instr.runAll, Instr.run, Activation.operate, operand]
  rfl

end Leaves

/-- The code of a statement leaves the stack as it was. Only the top level has a result so far. -/
structure Continued (module : Module) (before : List Event) (func : Func) (vars : VarTable)
    (topLevel : Bool) (state : RunState Word Event) (stack : List Word)
    (after : RunState Word Event) (done : Activation) : Prop where
  stack : done.stack = stack
  store : StoreAgrees module before after done.store
  frame : FrameAgrees func vars topLevel after done.slots
  result : topLevel = false → after.result = state.result

theorem slot_injective (func : Func) (name other : String) (slot : Nat)
    (found : func.slot? name = some slot) (foundOther : func.slot? other = some slot) :
    name = other := by
  have first := last_index_gives_value _ _ _ found
  have second := last_index_gives_value _ _ _ foundOther
  exact Option.some.inj (first.symm.trans second)

theorem global_index_injective (module : Module) (name other : String) (index : Nat)
    (found : module.globalIndex? name = some index)
    (foundOther : module.globalIndex? other = some index) : name = other := by
  have first := last_index_gives_value _ _ _ found
  have second := last_index_gives_value _ _ _ foundOther
  exact Option.some.inj (first.symm.trans second)

/-- Writing a global by name and writing its cell. -/
theorem StoreAgrees.written {module : Module} {before : List Event} {state : RunState Word Event}
    {store : Store} (agrees : StoreAgrees module before state store) (name : String) (index : Nat)
    (cell : module.globalIndex? name = some index) (value : Word)
    (trace : List (Observation Word)) :
    StoreAgrees module before { state with globals := state.globals.insert name value, trace }
      { store with globals := store.globals.setIfInBounds index value } where
  globals other := by
    have bound := agrees.cells name index cell
    rw [Table.get_insert]
    by_cases same : name = other
    · rw [if_pos same, ← same, cell, Option.bind_some, Array.getElem?_setIfInBounds,
        if_pos rfl, if_pos bound]
    · rw [if_neg same, agrees.globals other]
      cases place : module.globalIndex? other with
      | none => rfl
      | some there =>
          have different : index ≠ there := by
            intro equal
            rw [← equal] at place
            exact same (global_index_injective module name other index cell place)
          rw [Option.bind_some, Option.bind_some, Array.getElem?_setIfInBounds, if_neg different]
  cells other there place := by
    rw [Array.size_setIfInBounds]
    exact agrees.cells other there place
  events := agrees.events

theorem FrameAgrees.written {func : Func} {vars : VarTable} {state : RunState Word Event}
    {slots : Array Word} (agrees : FrameAgrees func vars false state slots) (name : String)
    (binding : Binding) (found : vars.get? name = some binding)
    (isOwn : binding.storage ≠ .global) (slot : Nat) (place : func.slot? name = some slot)
    (bound : slot < slots.size) (value : Word) (trace : List (Observation Word)) :
    FrameAgrees func vars false { state with locals := state.locals.insert name value, trace }
      (slots.setIfInBounds slot value) where
  globals other otherBinding foundOther isGlobal := by
    have different : name ≠ other := by
      intro same
      rw [← same, found] at foundOther
      cases foundOther
      exact isOwn isGlobal
    rw [Table.get_insert, if_neg different]
    exact agrees.globals other otherBinding foundOther isGlobal
  own other otherBinding foundOther otherOwn := by
    refine ⟨rfl, ?_⟩
    obtain ⟨_, there, old, otherPlace, inSlot, inLocals⟩ :=
      agrees.own other otherBinding foundOther otherOwn
    by_cases same : name = other
    · refine ⟨slot, value, same ▸ place, ?_, ?_⟩
      · rw [Array.getElem?_setIfInBounds, if_pos rfl, if_pos bound]
      · rw [Table.get_insert, if_pos same]
    · have different : slot ≠ there := by
        intro equal
        rw [← equal] at otherPlace
        exact same (slot_injective func name other slot place otherPlace)
      refine ⟨there, old, otherPlace, ?_, ?_⟩
      · rw [Array.getElem?_setIfInBounds, if_neg different, inSlot]
      · rw [Table.get_insert, if_neg same, inLocals]
  kept impossible := by cases impossible

section Stores

variable {module : Module} {before : List Event} {state : RunState Word Event}
  {activation : Activation} {func : Func} (calling : Calling) (fuel : Nat)

theorem matches_store {vars : VarTable} {topLevel : Bool} (running : Option FuncDef)
    (name : String) (binding : Binding) (found : vars.get? name = some binding)
    (placed : binding.storage = .global → ∃ index, module.globalIndex? name = some index)
    (value : Word) (stack : List Word) (operand : activation.stack = value :: stack)
    (store : StoreAgrees module before state activation.store)
    (frame : FrameAgrees func vars topLevel state activation.slots) :
    Matches module before
      (fun _ => Continued module before func vars topLevel state stack) NoReturn
      (Evaluation.write running name value state)
      (Instr.runAll module func calling fuel [vars.store name] activation) := by
  rw [Instr.run_all_singleton]
  -- The binding decides between a slot and a global of the machine, while the evaluator looks for
  -- the name in its two tables.
  by_cases isGlobal : binding.storage = .global
  · obtain ⟨index, cell⟩ := placed isGlobal
    have bound := store.cells name index cell
    have stored : vars.store name = .globalSet name := by
      simp [VarTable.store, found, isGlobal]
    have notLocal : state.locals.contains name = false := by
      rw [Table.contains, frame.globals name binding found isGlobal]
      rfl
    have present : state.globals.contains name = true := by
      rw [Table.contains, store.globals name, cell, Option.bind_some,
        Array.getElem?_eq_getElem bound]
      rfl
    rw [Evaluation.write_global running name value state notLocal present, stored]
    simp only [Instr.run, cell, Activation.writeGlobal, Activation.pop, operand, ok_bind,
      if_pos bound]
    exact ⟨(), rfl, rfl, store.written name index cell value _, frame.moved rfl rfl, fun _ => rfl⟩
  · obtain ⟨notTop, slot, old, place, inSlot, inLocals⟩ :=
      frame.own name binding found isGlobal
    subst notTop
    have bound : slot < activation.slots.size := (Array.getElem?_eq_some_iff.mp inSlot).1
    have stored : vars.store name = .localSet name := by
      unfold VarTable.store
      rw [found]
      cases binding with
      | mk ty storage => cases storage <;> first | rfl | exact absurd rfl isGlobal
    have present : state.locals.contains name = true := by
      rw [Table.contains, inLocals]
      rfl
    rw [Evaluation.write_local running name value state present, stored]
    simp only [Instr.run, place, Activation.writeSlot, Activation.pop, operand, ok_bind,
      if_pos bound]
    exact ⟨(), rfl, rfl, ⟨store.globals, store.cells, store.events⟩,
      frame.written name binding found isGlobal slot place bound value _, fun _ => rfl⟩

/-- How a statement returns: with its word, and without another result so far inside functions. -/
def StmtReturns (module : Module) (before : List Event) (topLevel : Bool)
    (state : RunState Word Event) (returned : Option Word) (after : RunState Word Event)
    (value : Word) (store : Store) : Prop :=
  returned = some value ∧ StoreAgrees module before after store ∧
    (topLevel = false → after.result = state.result)

def StmtGoesOn (module : Module) (before : List Event) (func : Func) (vars : VarTable)
    (topLevel : Bool) (state : RunState Word Event) (stack : List Word) (returned : Option Word)
    (after : RunState Word Event) (done : Activation) : Prop :=
  returned = none ∧ Continued module before func vars topLevel state stack after done

theorem truth_of_word (value : Word) : wordModel.truth value = .ok (decide (value ≠ 0)) := by
  simp only [wordModel, ne_eq, word_is_zero_iff]

/-- The test of a loop is over when it has left the loop or has found its word not to be zero. -/
theorem run_loop_test (value : Word) (stack : List Word)
    (operand : activation.stack = value :: stack) :
    Instr.runAll module func calling fuel [.const 0, .binary .eq, .branchIf 1] activation =
      if value = 0 then some (.branch 1 ⟨activation.slots, stack, activation.store⟩)
      else some (.next ⟨activation.slots, stack, activation.store⟩) := by
  simp only [Instr.runAll, Instr.run, Activation.operate, Activation.push, Activation.withStack,
    operand, Exit.andThen, WordOp.apply, Activation.settle]
  by_cases zero : value = 0
  · subst zero
    rfl
  · rw [beq_false_of_ne zero, if_neg zero]
    rfl

theorem matches_sequence {vars : VarTable} {topLevel : Bool} {base : RunState Word Event}
    {stack : List Word} (first rest : Evaluation Word Event (Option Word)) (exit : Option Exit)
    (restRun : Activation → Option Exit)
    (head : Matches module before (StmtGoesOn module before func vars topLevel base stack)
      (StmtReturns module before topLevel base) (first state) exit)
    (tail : ∀ after done, Continued module before func vars topLevel base stack after done →
      Matches module before (StmtGoesOn module before func vars topLevel base stack)
        (StmtReturns module before topLevel base) (rest after) (restRun done)) :
    Matches module before (StmtGoesOn module before func vars topLevel base stack)
      (StmtReturns module before topLevel base)
      (Evaluation.unlessReturned first rest state) (Exit.andThen restRun exit) := by
  unfold Evaluation.unlessReturned
  rw [Evaluation.bind_apply]
  -- Only a part that goes on has a second part behind it; every other end is that of the whole.
  cases outcome : first state with
  | mk result after =>
      rw [outcome] at head
      cases exit with
      | none =>
          cases result with
          | ok value => cases head
          | error halt =>
              cases head
              rfl
      | some exit =>
          cases exit with
          | branch depth done => exact head.elim
          | trapped error done =>
              obtain ⟨same, agrees⟩ := head
              cases same
              exact ⟨rfl, agrees⟩
          | returned value done =>
              obtain ⟨_, same, rfl, agrees⟩ := head
              cases same
              exact ⟨some value, rfl, rfl, agrees⟩
          | next done =>
              obtain ⟨_, same, rfl, continued⟩ := head
              cases same
              exact tail after done continued

theorem matches_loop {vars : VarTable} {topLevel : Bool} {base : RunState Word Event}
    {stack : List Word} (test : Evaluation Word Event Word)
    (body : Evaluation Word Event (Option Word)) (testCode bodyCode : List Instr)
    (testMatches : ∀ state activation,
      Continued module before func vars topLevel base stack state activation →
      Matches module before (fun value => Pushed module before state activation [value]) NoReturn
        (test state) (Instr.runAll module func calling fuel testCode activation))
    (bodyMatches : ∀ state activation,
      Continued module before func vars topLevel base stack state activation →
      Matches module before (StmtGoesOn module before func vars topLevel base stack)
        (StmtReturns module before topLevel base) (body state)
        (Instr.runAll module func calling fuel bodyCode activation))
    (count : Nat) (state : RunState Word Event) (activation : Activation)
    (continued : Continued module before func vars topLevel base stack state activation) :
    Matches module before (StmtGoesOn module before func vars topLevel base stack)
      (StmtReturns module before topLevel base)
      (Evaluation.repeatWhile (do wordModel.truth (← test)) body count state)
      ((runLoop (fun again => Instr.runAll module func calling fuel
        (testCode ++ [.const 0, .binary .eq, .branchIf 1] ++ bodyCode ++ [.branch 0]) again)
        count activation).map Exit.outOfBody) := by
  -- The induction is on the rounds that are left. Each one starts where the frame and the store
  -- still agree.
  induction count generalizing state activation with
  | zero => rfl
  | succ count induction =>
      have tested := testMatches state activation continued
      simp only [Evaluation.repeatWhile, runLoop, Evaluation.bind_apply]
      rw [Instr.run_all_append, Instr.run_all_append, Instr.run_all_append]
      cases outcome : test state with
      | mk result after =>
      rw [outcome] at tested
      cases ended : Instr.runAll module func calling fuel testCode activation with
      | none =>
          rw [ended] at tested
          cases result with
          | ok value => cases tested
          | error halt =>
              cases tested
              rfl
      | some exit =>
          rw [ended] at tested
          cases exit with
          | branch depth done => exact tested.elim
          | returned value done => exact tested.elim fun _ impossible => impossible.2.elim
          | trapped error done =>
              obtain ⟨same, agrees⟩ := tested
              cases same
              exact ⟨rfl, agrees⟩
          | next done =>
              obtain ⟨value, same, pushed⟩ := tested
              cases same
              have again : Continued module before func vars topLevel base stack after
                  ⟨done.slots, activation.stack, done.store⟩ :=
                ⟨continued.stack, pushed.store, pushed.frame continued.frame,
                  fun inside => pushed.result.trans (continued.result inside)⟩
              -- A test of zero takes the branch behind the loop, so the code decides like the
              -- evaluator.
              have decided := @run_loop_test module done func calling fuel value
                activation.stack pushed.stack
              by_cases zero : value = 0
              · have answer : wordModel.truth value = .ok false :=
                  (truth_of_word value).trans (by rw [decide_eq_false (not_not.mpr zero)])
                rw [if_pos zero] at decided
                simp only [answer, Evaluation.lift_apply, Exit.andThen, decided]
                exact ⟨none, rfl, rfl, again⟩
              · have answer : wordModel.truth value = .ok true :=
                  (truth_of_word value).trans (by rw [decide_eq_true zero])
                rw [if_neg zero] at decided
                have ran := bodyMatches after _ again
                -- Where the body goes on, the rounds that are left follow it as in a sequence.
                have rounds := matches_sequence body _ _ _ ran induction
                simp only [answer, Evaluation.lift_apply, if_true, Exit.andThen, decided]
                cases bodyEnded : Instr.runAll module func calling fuel bodyCode
                    ⟨done.slots, activation.stack, done.store⟩ with
                | none =>
                    rw [bodyEnded] at rounds
                    exact rounds
                | some exit =>
                    rw [bodyEnded] at rounds ran
                    cases exit with
                    | next finished => exact rounds
                    | branch depth finished => exact ran.elim
                    | returned value done => exact rounds
                    | trapped error done => exact rounds

/-- What a body leaves alone is left alone by the condition or block around it. -/
theorem matches_out_of_body {Result : Type}
    {goesOn : Result → RunState Word Event → Activation → Prop}
    {returns : Result → RunState Word Event → Word → Store → Prop}
    {outcome : Except Halt Result × RunState Word Event} {exit : Option Exit}
    (holds : Matches module before goesOn returns outcome exit) :
    Matches module before goesOn returns outcome (exit.map Exit.outOfBody) := by
  cases exit with
  | none => exact holds
  | some exit =>
      cases exit with
      | next after => exact holds
      | branch depth after => exact holds.elim
      | returned value done => exact holds
      | trapped error done => exact holds

/-- The value of an expression statement of the top level is kept in a slot of its own. -/
theorem matches_keep {vars : VarTable} (value : Word) (stack : List Word)
    (operand : activation.stack = value :: stack)
    (store : StoreAgrees module before state activation.store)
    (frame : FrameAgrees func vars true state activation.slots) :
    ∃ done, Instr.runAll module func calling fuel [.localSet Draft.resultSlot] activation =
        some (.next done) ∧
      Continued module before func vars true state stack { state with result := value } done := by
  obtain ⟨slot, place, inSlot⟩ := frame.kept rfl
  have bound : slot < activation.slots.size := (Array.getElem?_eq_some_iff.mp inSlot).1
  refine ⟨⟨activation.slots.setIfInBounds slot value, stack, activation.store⟩, ?_, rfl,
    ⟨store.globals, store.cells, store.events⟩, ⟨frame.globals, ?_, ?_⟩, fun impossible => ?_⟩
  · rw [Instr.run_all_singleton]
    simp only [Instr.run, place, Activation.writeSlot, Activation.pop, operand, ok_bind,
      if_pos bound]
    rfl
  · intro name binding found isOwn
    cases (frame.own name binding found isOwn).1
  · intro _
    exact ⟨slot, place, by rw [Array.getElem?_setIfInBounds, if_pos rfl, if_pos bound]⟩
  · cases impossible

end Stores

theorem word_complement (value : Word) :
    Word.ofBool (value == 0) = Word.ofBool (value.toInt = 0) := by
  by_cases zero : value = 0
  · simp [zero]
  · rw [beq_false_of_ne zero, decide_eq_false (mt (word_is_zero_iff value).mp zero)]

end ScriptWasm
