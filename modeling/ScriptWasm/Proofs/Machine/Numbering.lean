import ScriptWasm.Code.Generate
import ScriptWasm.Proofs.Machine.Simulation

/-!
The order in which a module declares its globals and functions only numbers them. Two modules that
differ in nothing else have linear code that differs only in these numbers, and machines that run
them stay in step: they fetch alike instructions, print the same events and hold the same value for
every name.
-/

namespace ScriptWasm

set_option autoImplicit false

def SamePlace {Value : Type} (first second : List Value) (index other : Nat) : Prop :=
  ∃ value, first[index]? = some value ∧ second[other]? = some value

section Places

variable {Value Key : Type} {first second : List Value} {index other : Nat}

theorem same_place_unique {index' other' : Nat} (distinct : first.Nodup)
    (permutes : first.Perm second) (same : SamePlace first second index other)
    (same' : SamePlace first second index' other') : index = index' ↔ other = other' := by
  obtain ⟨value, here, there⟩ := same
  obtain ⟨value', here', there'⟩ := same'
  have distinctToo : second.Nodup := permutes.nodup_iff.mp distinct
  constructor
  · rintro rfl
    cases here.symm.trans here'
    exact (List.getElem?_inj (List.getElem?_eq_some_iff.mp there).1 distinctToo).mp
      (there.trans there'.symm)
  · rintro rfl
    cases there.symm.trans there'
    exact (List.getElem?_inj (List.getElem?_eq_some_iff.mp here).1 distinct).mp
      (here.trans here'.symm)

theorem last_index_same_place [DecidableEq Key] (keyOf : Value → Key) (key : Key)
    (distinct : (first.map keyOf).Nodup) (permutes : first.Perm second)
    (found : lastIndex? key (first.map keyOf) = some index)
    (foundToo : lastIndex? key (second.map keyOf) = some other) :
    SamePlace first second index other := by
  have here := last_index_gives_value _ _ _ found
  have there := last_index_gives_value _ _ _ foundToo
  simp only [List.getElem?_map, Option.map_eq_some_iff] at here there
  obtain ⟨value, here, named⟩ := here
  obtain ⟨value', there, named'⟩ := there
  have same : value = value' := List.inj_on_of_nodup_map distinct (List.mem_of_getElem? here)
    (permutes.mem_iff.mpr (List.mem_of_getElem? there)) (named.trans named'.symm)
  exact ⟨value, here, same ▸ there⟩

theorem last_index_found_again [DecidableEq Key] (keyOf : Value → Key) (key : Key)
    (permutes : first.Perm second) (found : lastIndex? key (first.map keyOf) = some index) :
    ∃ other, lastIndex? key (second.map keyOf) = some other :=
  last_index_exists key _
    ((permutes.map keyOf).mem_iff.mp (List.mem_of_getElem? (last_index_gives_value _ _ _ found)))

end Places

/-- Modules with the same globals, the same functions and the same entry. -/
structure Module.Reordered (first second : Module) : Prop where
  globals : first.globals.Perm second.globals
  functions : first.functions.Perm second.functions
  entry : second.entry = first.entry
  names : (first.globals.map Global.name).Nodup
  ids : (first.functions.map Func.id).Nodup

namespace LinearInstr

def Unnumbered : LinearInstr → Prop
  | globalGet _ | globalSet _ | call _ => False
  | _ => True

/-- Instructions that are the same up to the numbers of globals and functions. -/
inductive Alike (first second : Module) : LinearInstr → LinearInstr → Prop where
  | globalGet (index other : Nat) (same : SamePlace first.globals second.globals index other) :
      Alike first second (.globalGet index) (.globalGet other)
  | globalSet (index other : Nat) (same : SamePlace first.globals second.globals index other) :
      Alike first second (.globalSet index) (.globalSet other)
  | call (index other : Nat)
      (same : SamePlace first.allFunctions second.allFunctions index other) :
      Alike first second (.call index) (.call other)
  | unnumbered (instr : LinearInstr) (free : instr.Unnumbered) : Alike first second instr instr

end LinearInstr

structure LinearFunc.Alike (first second : Module) (func other : LinearFunc) : Prop where
  name : other.name = func.name
  params : other.params = func.params
  locals : other.locals = func.locals
  code : List.Forall₂ (LinearInstr.Alike first second) func.code.toList other.code.toList

namespace Module.Reordered

variable {first second : Module} (reordered : first.Reordered second)

include reordered

theorem same_global (name : String) (index other : Nat)
    (found : first.globalIndex? name = some index)
    (foundToo : second.globalIndex? name = some other) :
    SamePlace first.globals second.globals index other :=
  last_index_same_place Global.name name reordered.names reordered.globals found foundToo

theorem same_callee (name : String) (callee : Callee) (found : first.callee? name = some callee) :
    match callee with
    | .function index => ∃ other, second.callee? name = some (.function other) ∧
        SamePlace first.allFunctions second.allFunctions index other
    | .primitive primitive => second.callee? name = some (.primitive primitive) := by
  unfold Module.callee? at found
  cases here : lastIndex? (some name) (first.functions.map Func.id) with
  | some index =>
      rw [here] at found
      cases found
      obtain ⟨other, there⟩ :=
        last_index_found_again Func.id (some name) reordered.functions here
      obtain ⟨func, atIndex, atOther⟩ :=
        last_index_same_place Func.id (some name) reordered.ids reordered.functions here there
      refine ⟨other, by rw [Module.callee?, there], func, ?_, ?_⟩
      · rw [Module.allFunctions, List.getElem?_append_left
          (List.getElem?_eq_some_iff.mp atIndex).1, atIndex]
      · rw [Module.allFunctions, List.getElem?_append_left
          (List.getElem?_eq_some_iff.mp atOther).1, atOther]
  | none =>
      have there : lastIndex? (some name) (second.functions.map Func.id) = none := by
        cases found : lastIndex? (some name) (second.functions.map Func.id) with
        | none => rfl
        | some other =>
            obtain ⟨index, again⟩ :=
              last_index_found_again Func.id (some name) reordered.functions.symm found
            cases here.symm.trans again
      rw [here] at found
      obtain ⟨primitive, named, rfl⟩ := Option.map_eq_some_iff.mp found
      change second.callee? name = _
      rw [Module.callee?, there, named]
      rfl

omit reordered

variable (func : Func)

mutual

theorem linear_alike (reordered : first.Reordered second) (targets : List Nat) (here : Nat)
    (instr : Instr)
    (code other : List LinearInstr) (linearized : first.linear func targets here instr = .ok code)
    (linearizedToo : second.linear func targets here instr = .ok other) :
    List.Forall₂ (LinearInstr.Alike first second) code other := by
  -- Globals and functions are all that is numbered, so other instructions have the same code on
  -- both sides.
  cases instr with
  | const value | binary op | drop | ret | unreachable =>
      cases linearized
      cases linearizedToo
      exact .cons (.unnumbered _ trivial) .nil
  | localGet name | localSet name =>
      simp only [Module.linear, bind_succeeds_iff, pure_succeeds_iff] at linearized linearizedToo
      obtain ⟨slot, found, rfl⟩ := linearized
      obtain ⟨slot', found', rfl⟩ := linearizedToo
      cases found.symm.trans found'
      exact .cons (.unnumbered _ trivial) .nil
  | globalGet name | globalSet name =>
      simp only [Module.linear, bind_succeeds_iff, pure_succeeds_iff,
        Module.global_succeeds_iff] at linearized linearizedToo
      obtain ⟨index, found, rfl⟩ := linearized
      obtain ⟨index', found', rfl⟩ := linearizedToo
      have same := reordered.same_global name index index' found found'
      first
      | exact .cons (.globalGet index index' same) .nil
      | exact .cons (.globalSet index index' same) .nil
  | call name =>
      rw [Module.linear] at linearized linearizedToo
      cases found : first.callee? name with
      | none =>
          rw [found] at linearized
          cases linearized
      | some callee =>
          have found' := reordered.same_callee name callee found
          rw [found] at linearized
          cases callee with
          | function index =>
              obtain ⟨index', found', same⟩ := found'
              rw [found'] at linearizedToo
              cases linearized
              cases linearizedToo
              exact .cons (.call index index' same) .nil
          | primitive primitive =>
              rw [show second.callee? name = some (.primitive primitive) from found']
                at linearizedToo
              cases linearized
              cases linearizedToo
              exact .cons (.unnumbered _ trivial) .nil
  | cond body orelse =>
      simp only [Module.linear, bind_succeeds_iff, pure_succeeds_iff] at linearized linearizedToo
      obtain ⟨bodyCode, bodyDone, elseCode, elseDone, rfl⟩ := linearized
      obtain ⟨bodyCode', bodyDone', elseCode', elseDone', rfl⟩ := linearizedToo
      have bodies := linear_all_alike reordered _ _ body bodyCode bodyCode' bodyDone bodyDone'
      have others := linear_all_alike reordered _ _ orelse elseCode elseCode' elseDone elseDone'
      exact .cons (.unnumbered _ trivial)
        (List.rel_append bodies (.cons (.unnumbered _ trivial) others))
  | block body => exact linear_all_alike reordered _ _ body code other linearized linearizedToo
  | loop body => exact linear_all_alike reordered _ _ body code other linearized linearizedToo
  | branch depth | branchIf depth =>
      simp only [Module.linear, bind_succeeds_iff, pure_succeeds_iff] at linearized linearizedToo
      obtain ⟨target, found, rfl⟩ := linearized
      obtain ⟨target', found', rfl⟩ := linearizedToo
      cases found.symm.trans found'
      exact .cons (.unnumbered _ trivial) .nil
termination_by structural instr

theorem linear_all_alike (reordered : first.Reordered second) (targets : List Nat) (here : Nat)
    (instrs : List Instr)
    (code other : List LinearInstr)
    (linearized : first.linearAll func targets here instrs = .ok code)
    (linearizedToo : second.linearAll func targets here instrs = .ok other) :
    List.Forall₂ (LinearInstr.Alike first second) code other := by
  cases instrs with
  | nil =>
      cases linearized
      cases linearizedToo
      exact .nil
  | cons instr rest =>
      simp only [Module.linearAll, bind_succeeds_iff, pure_succeeds_iff] at linearized linearizedToo
      obtain ⟨headCode, headDone, tailCode, tailDone, rfl⟩ := linearized
      obtain ⟨headCode', headDone', tailCode', tailDone', rfl⟩ := linearizedToo
      exact List.rel_append (linear_alike reordered _ _ instr headCode headCode' headDone headDone')
        (linear_all_alike reordered _ _ rest tailCode tailCode' tailDone tailDone')
termination_by structural instrs

end

theorem linear_func_alike (reordered : first.Reordered second) (linear other : LinearFunc)
    (linearized : first.linearFunc func = .ok linear)
    (linearizedToo : second.linearFunc func = .ok other) : linear.Alike first second other := by
  simp only [Module.linear_func_eq, bind_succeeds_iff, pure_succeeds_iff] at linearized linearizedToo
  obtain ⟨code, done, rfl⟩ := linearized
  obtain ⟨code', done', rfl⟩ := linearizedToo
  have body := linear_all_alike func reordered _ _ _ _ _ done done'
  exact ⟨rfl, rfl, rfl, List.rel_append body (.cons (.unnumbered _ trivial) .nil)⟩

end Module.Reordered

def LinearModule.Alike (first second : Module) (code other : LinearModule) : Prop :=
  ∀ index index', SamePlace first.allFunctions second.allFunctions index index' →
    ∃ func func', code.functions[index]? = some func ∧ other.functions[index']? = some func' ∧
      func.Alike first second func'

theorem Module.Reordered.linearized_alike {first second : Module}
    (reordered : first.Reordered second) (code other : LinearModule)
    (linearized : first.linearize = .ok code) (linearizedToo : second.linearize = .ok other) :
    code.Alike first second other := by
  rintro index index' ⟨func, here, there⟩
  obtain ⟨linear, found, done⟩ := linearized_functions first code linearized index func here
  obtain ⟨linear', found', done'⟩ :=
    linearized_functions second other linearizedToo index' func there
  exact ⟨linear, linear', found, found',
    reordered.linear_func_alike func linear linear' done done'⟩

structure Store.Alike (first second : Module) (store other : Store) : Prop where
  globals : ∀ index index', SamePlace first.globals second.globals index index' →
    ∃ value, store.globals[index]? = some value ∧ other.globals[index']? = some value
  events : other.events = store.events

structure Frame.Alike (first second : Module) (frame other : Frame) : Prop where
  func : frame.func.Alike first second other.func
  position : other.position = frame.position
  slots : other.slots = frame.slots
  stack : other.stack = frame.stack

structure Run.Alike (first second : Module) (run other : Run) : Prop where
  code : run.code.Alike first second other.code
  limit : other.limit = run.limit
  room : other.room = run.room
  store : run.store.Alike first second other.store
  frame : run.frame.Alike first second other.frame
  callers : List.Forall₂ (Frame.Alike first second) run.callers other.callers

inductive Progress.Alike (first second : Module) : Progress → Progress → Prop where
  | running (run other : Run) (alike : run.Alike first second other) :
      Alike first second (.running run) (.running other)
  | finished (outcome : Except RuntimeError Word) (store other : Store)
      (alike : store.Alike first second other) :
      Alike first second (.finished outcome store) (.finished outcome other)

section Steps

variable {first second : Module}

theorem LinearFunc.Alike.fetched {func other : LinearFunc} (alike : func.Alike first second other)
    (position : Nat) :
    Option.Rel (LinearInstr.Alike first second) func.code[position]? other.code[position]? := by
  have each := alike.code
  have same := each.length_eq
  simp only [Array.length_toList] at same
  by_cases bound : position < func.code.size
  · rw [Array.getElem?_eq_getElem bound, Array.getElem?_eq_getElem (same ▸ bound)]
    exact .some (each.get (by simpa using bound) (by simpa using same ▸ bound))
  · rw [Array.getElem?_eq_none (by omega), Array.getElem?_eq_none (by omega)]
    exact .none

namespace Run.Alike

variable {run other : Run} (alike : run.Alike first second other)

include alike

theorem trap (error : RuntimeError) :
    Progress.Alike first second (run.trap error) (other.trap error) :=
  .finished _ _ _ alike.store

theorem with_stack (stack : List Word) :
    Progress.Alike first second (run.withStack stack) (other.withStack stack) :=
  .running _ _ ⟨alike.code, alike.limit, alike.room, alike.store,
    ⟨alike.frame.func, alike.frame.position, alike.frame.slots, rfl⟩, alike.callers⟩

theorem with_jump (target : Nat) (stack : List Word) :
    Progress.Alike first second (run.withJump target stack) (other.withJump target stack) :=
  .running _ _ ⟨alike.code, alike.limit, alike.room, alike.store,
    ⟨alike.frame.func, rfl, alike.frame.slots, rfl⟩, alike.callers⟩

theorem call_host (primitive : HostImport) :
    Progress.Alike first second (run.callHost primitive) (other.callHost primitive) := by
  unfold Run.callHost
  rw [alike.frame.stack, alike.store.events]
  split
  · exact alike.trap _
  · split
    · exact alike.trap _
    · exact .running _ _ ⟨alike.code, alike.limit, alike.room, ⟨alike.store.globals, rfl⟩,
        ⟨alike.frame.func, alike.frame.position, alike.frame.slots, rfl⟩, alike.callers⟩

theorem leave : Progress.Alike first second run.leave other.leave := by
  unfold Run.leave
  rw [alike.frame.stack]
  cases run.frame.stack with
  | nil => exact alike.trap _
  | cons result rest =>
      cases waiting : run.callers with
      | nil =>
          have none := alike.callers
          rw [waiting] at none
          rw [List.forall₂_nil_left_iff.mp none]
          exact .finished _ _ _ alike.store
      | cons caller callers =>
          have some := alike.callers
          rw [waiting] at some
          obtain ⟨caller', callers', sameCaller, sameCallers, found⟩ :=
            List.forall₂_cons_left_iff.mp some
          rw [found]
          refine .running _ _ ⟨alike.code, alike.limit, ?_, alike.store, ?_, sameCallers⟩
          · rw [alike.room]
          · exact ⟨sameCaller.func, sameCaller.position, sameCaller.slots, by
              rw [sameCaller.stack]⟩

end Run.Alike

theorem LinearModule.Alike.enter {code other : LinearModule}
    (alike : code.Alike first second other) (limit room index index' : Nat) (args : List Word)
    (same : SamePlace first.allFunctions second.allFunctions index index') :
    (∃ frame frame', code.enter limit room index args = .ok frame ∧
        other.enter limit room index' args = .ok frame' ∧ frame.Alike first second frame') ∨
      ∃ error, code.enter limit room index args = .error error ∧
        other.enter limit room index' args = .error error := by
  obtain ⟨func, func', found, found', sameFunc⟩ := alike index index' same
  unfold LinearModule.enter
  simp only [found, found', sameFunc.params, sameFunc.name, sameFunc.locals]
  split
  · exact .inr ⟨_, rfl, rfl⟩
  · split
    · exact .inl ⟨_, _, rfl, rfl, sameFunc, rfl, rfl, rfl⟩
    · exact .inr ⟨_, rfl, rfl⟩

namespace Run.Alike

variable {run other : Run} (alike : run.Alike first second other)

include alike

theorem call_function (index index' : Nat)
    (same : SamePlace first.allFunctions second.allFunctions index index') :
    Progress.Alike first second (run.callFunction index) (other.callFunction index') := by
  obtain ⟨func, func', found, found', sameFunc⟩ := alike.code index index' same
  unfold Run.callFunction
  simp only [found, found', sameFunc.params, alike.frame.stack]
  split
  · exact alike.trap _
  · rename_i args stack _
    rw [alike.limit, alike.room]
    rcases alike.code.enter run.limit run.room index index' args same with
      ⟨frame, frame', enters, enters', sameFrame⟩ | ⟨error, fails, fails'⟩
    · rw [enters, enters']
      exact .running _ _ ⟨alike.code, rfl, rfl, alike.store, sameFrame,
        .cons ⟨alike.frame.func, alike.frame.position, alike.frame.slots, rfl⟩ alike.callers⟩
    · rw [fails, fails']
      exact alike.trap _

end Run.Alike

namespace Module.Reordered

variable (reordered : first.Reordered second) {run other : Run}
  (alike : run.Alike first second other)

include reordered alike

/-- Writing a global keeps the values of all globals the same, because a place of one module goes
with only one place of the other. -/
theorem global_set_alike (index index' : Nat)
    (same : SamePlace first.globals second.globals index index') :
    Progress.Alike first second (run.execute (.globalSet index))
      (other.execute (.globalSet index')) := by
  obtain ⟨old, found, found'⟩ := alike.store.globals index index' same
  have bound := (Array.getElem?_eq_some_iff.mp found).1
  have bound' := (Array.getElem?_eq_some_iff.mp found').1
  unfold Run.execute
  rw [alike.frame.stack]
  cases run.frame.stack with
  | nil => exact alike.trap _
  | cons value stack =>
      simp only [if_pos bound, if_pos bound']
      refine .running _ _ ⟨alike.code, alike.limit, alike.room, ⟨?_, alike.store.events⟩,
        ⟨alike.frame.func, alike.frame.position, alike.frame.slots, rfl⟩, alike.callers⟩
      intro position position' here
      have together := same_place_unique (reordered.names.of_map _) reordered.globals same here
      rw [Array.getElem?_setIfInBounds, Array.getElem?_setIfInBounds]
      by_cases written : index = position
      · rw [if_pos written, if_pos (together.mp written), if_pos bound, if_pos bound']
        exact ⟨value, rfl, rfl⟩
      · rw [if_neg written, if_neg fun same => written (together.mpr same)]
        exact alike.store.globals position position' here

theorem execute_alike (instr instr' : LinearInstr) (same : instr.Alike first second instr') :
    Progress.Alike first second (run.execute instr) (other.execute instr') := by
  cases same with
  | globalGet index index' same =>
      obtain ⟨value, found, found'⟩ := alike.store.globals index index' same
      simp only [Run.execute, found, found', alike.frame.stack]
      exact alike.with_stack _
  | globalSet index index' same => exact reordered.global_set_alike alike index index' same
  | call index index' same => exact alike.call_function index index' same
  -- Slots and operands agree, so an instruction without a number does the same in both runs.
  | unnumbered instr free =>
      unfold Run.execute
      rw [alike.frame.stack, alike.frame.slots]
      cases instr with
      | globalGet index | globalSet index | call index => exact free.elim
      | const value => exact alike.with_stack _
      | localGet slot =>
          dsimp only
          split
          · exact alike.trap _
          · exact alike.with_stack _
      | localSet slot =>
          dsimp only
          split
          · exact alike.trap _
          · split
            · exact .running _ _ ⟨alike.code, alike.limit, alike.room, alike.store,
                ⟨alike.frame.func, alike.frame.position, rfl, rfl⟩, alike.callers⟩
            · exact alike.trap _
      | binary op =>
          dsimp only
          split
          · split
            · exact alike.with_stack _
            · exact alike.trap _
          · exact alike.trap _
      | drop =>
          dsimp only
          split
          · exact alike.trap _
          · exact alike.with_stack _
      | jump target => exact alike.with_jump target _
      | jumpIfZero target =>
          dsimp only
          split
          · exact alike.trap _
          · split
            · exact alike.with_jump target _
            · exact alike.with_stack _
      | jumpUnlessZero target =>
          dsimp only
          split
          · exact alike.trap _
          · split
            · exact alike.with_stack _
            · exact alike.with_jump target _
      | callHost primitive => exact alike.call_host primitive
      | ret => exact alike.leave
      | unreachable => exact alike.trap _

/-- One step keeps two runs alike. -/
theorem step_alike : Progress.Alike first second run.step other.step := by
  have fetched := alike.frame.func.fetched run.frame.position
  unfold Run.step
  rw [alike.frame.position]
  cases here : run.frame.func.code[run.frame.position]? with
  | none =>
      rw [here] at fetched
      cases there : other.frame.func.code[run.frame.position]? with
      | none => exact alike.trap _
      | some instr =>
          rw [there] at fetched
          cases fetched
  | some instr =>
      rw [here] at fetched
      cases there : other.frame.func.code[run.frame.position]? with
      | none =>
          rw [there] at fetched
          cases fetched
      | some instr' =>
          rw [there] at fetched
          cases fetched with
          | some same =>
              refine execute_alike reordered ?_ instr instr' same
              exact ⟨alike.code, alike.limit, alike.room, alike.store,
                ⟨alike.frame.func, rfl, alike.frame.slots, alike.frame.stack⟩, alike.callers⟩

omit alike

/-- Runs that are alike stay so for any number of steps, and end at the same one. -/
theorem advance_alike (alike : run.Alike first second other) (steps : Nat) :
    Progress.Alike first second (run.advance steps) (other.advance steps) := by
  induction steps generalizing run other with
  | zero => exact .running _ _ alike
  | succ steps induction =>
      have next := reordered.step_alike alike
      unfold Run.advance
      cases here : run.step with
      | running state =>
          rw [here] at next
          cases there : other.step with
          | running state' =>
              rw [there] at next
              cases next with
              | running _ _ alike => exact induction alike
          | finished outcome store =>
              rw [there] at next
              cases next
      | finished outcome store =>
          rw [here] at next
          cases there : other.step with
          | running state' =>
              rw [there] at next
              cases next
          | finished outcome' store' =>
              rw [there] at next
              exact next

end Module.Reordered

end Steps

namespace Machine

/-- Calls of the entry one after the other, each with its arguments and the number of steps that it
may take. There is no answer if a call takes more. -/
def callEntry (machine : Machine) :
    List (List Word × Nat) → Option (List (Except RuntimeError Word) × Machine)
  | [] => some ([], machine)
  | (args, steps) :: rest => do
      let (outcome, next) ← machine.invoke entryExport args steps
      let (outcomes, last) ← next.callEntry rest
      some (outcome :: outcomes, last)

/-- What can be seen of some calls of the entry: their outcomes, all events so far, and the value of
every global by its name. -/
def observe (machine : Machine) (calls : List (List Word × Nat)) :
    Option (List (Except RuntimeError Word) × Array Event × (String → Option Word)) :=
  (machine.callEntry calls).map fun (outcomes, last) =>
    (outcomes, last.store.events, last.global?)

structure Alike (first second : Module) (machine other : Machine) : Prop where
  code : machine.code.Alike first second other.code
  limit : other.limit = machine.limit
  store : machine.store.Alike first second other.store
  names : machine.code.globals.map Prod.fst = first.globals.map Global.name ∧
    other.code.globals.map Prod.fst = second.globals.map Global.name
  entry : ∃ index index', machine.code.exports.get? entryExport = some index ∧
    other.code.exports.get? entryExport = some index' ∧
    SamePlace first.allFunctions second.allFunctions index index'

def SameAnswer {Outcome : Type} (first second : Module) (answer other : Outcome × Machine) : Prop :=
  other.1 = answer.1 ∧ answer.2.Alike first second other.2

variable {first second : Module} {machine other : Machine}

/-- A call of the entry takes the same number of steps on both machines. It has the same outcome on
both, and leaves them alike. -/
theorem Alike.invoke (alike : machine.Alike first second other)
    (reordered : first.Reordered second) (args : List Word) (steps : Nat) :
    Option.Rel (SameAnswer first second) (machine.invoke entryExport args steps)
      (other.invoke entryExport args steps) := by
  obtain ⟨index, index', exported, exported', same⟩ := alike.entry
  unfold Machine.invoke
  simp only [start, exported, exported', alike.limit]
  rcases alike.code.enter machine.limit machine.limit index index' args same with
    ⟨frame, frame', enters, enters', sameFrame⟩ | ⟨error, fails, fails'⟩
  · simp only [enters, enters', ok_bind]
    have runs : Run.Alike first second
        ⟨machine.code, machine.limit, machine.limit - 1, machine.store, frame, []⟩
        ⟨other.code, machine.limit, machine.limit - 1, other.store, frame', []⟩ :=
      ⟨alike.code, rfl, rfl, alike.store, sameFrame, .nil⟩
    have ends := reordered.advance_alike runs steps
    simp only [pure, Except.pure]
    generalize Run.advance _ steps = after at ends ⊢
    generalize Run.advance _ steps = after' at ends ⊢
    cases ends with
    | running _ _ _ => exact .none
    | finished outcome store store' sameStore =>
        exact .some ⟨rfl, alike.code, rfl, sameStore, alike.names, alike.entry⟩
  · simp only [fails, fails', error_bind]
    exact .some ⟨rfl, alike⟩

theorem global_index_of_nodup (cells : List (String × Word)) (name : String)
    (distinct : (cells.map Prod.fst).Nodup) :
    cells.findIdx? (fun cell => cell.1 = name) = lastIndex? name (cells.map Prod.fst) := by
  cases found : cells.findIdx? fun cell => cell.1 = name with
  | some index =>
      obtain ⟨bound, named, _⟩ := List.findIdx?_eq_some_iff_getElem.mp found
      refine (last_index_of_nodup _ _ distinct index ?_).symm
      rw [List.getElem?_map, List.getElem?_eq_getElem bound]
      exact congrArg some (of_decide_eq_true named)
  | none =>
      refine (last_index_absent _ _ fun member => ?_).symm
      obtain ⟨cell, among, rfl⟩ := List.mem_map.mp member
      have differs := List.findIdx?_eq_none_iff.mp found cell among
      simp at differs

theorem Alike.global (alike : machine.Alike first second other)
    (reordered : first.Reordered second) : other.global? = machine.global? := by
  funext name
  have distinct : (machine.code.globals.map Prod.fst).Nodup := alike.names.1 ▸ reordered.names
  have distinct' : (other.code.globals.map Prod.fst).Nodup :=
    alike.names.2 ▸ (reordered.globals.map Global.name).nodup_iff.mp reordered.names
  unfold global?
  rw [global_index_of_nodup _ name distinct, alike.names.1,
    global_index_of_nodup _ name distinct', alike.names.2]
  cases found : lastIndex? name (first.globals.map Global.name) with
  | some index =>
      obtain ⟨index', found'⟩ :=
        last_index_found_again Global.name name reordered.globals found
      obtain ⟨value, here, there⟩ := alike.store.globals index index'
        (reordered.same_global name index index' found found')
      rw [found']
      exact there.trans here.symm
  | none =>
      cases found' : lastIndex? name (second.globals.map Global.name) with
      | none => rfl
      | some index' =>
          obtain ⟨index, again⟩ :=
            last_index_found_again Global.name name reordered.globals.symm found'
          cases found.symm.trans again

theorem Alike.call_entry (alike : machine.Alike first second other)
    (reordered : first.Reordered second) (calls : List (List Word × Nat)) :
    Option.Rel (SameAnswer first second) (machine.callEntry calls) (other.callEntry calls) := by
  induction calls generalizing machine other with
  | nil => exact .some ⟨rfl, alike⟩
  | cons call rest induction =>
      obtain ⟨args, steps⟩ := call
      have same := alike.invoke reordered args steps
      simp only [Machine.callEntry]
      generalize machine.invoke entryExport args steps = answer at same ⊢
      generalize other.invoke entryExport args steps = answer' at same ⊢
      cases same with
      | none => exact .none
      | @some answer answer' same =>
          obtain ⟨outcome, next⟩ := answer
          obtain ⟨outcome', next'⟩ := answer'
          obtain ⟨rfl, sameNext⟩ := same
          simp only [Option.bind_eq_bind, Option.bind_some]
          have later := induction sameNext
          generalize next.callEntry rest = answers at later ⊢
          generalize next'.callEntry rest = answers' at later ⊢
          cases later with
          | none => exact .none
          | some same => exact .some ⟨congrArg (outcome' :: ·) same.1, same.2⟩

/-- What can be seen of alike machines is the same, whatever calls are made. -/
theorem Alike.observe (alike : machine.Alike first second other)
    (reordered : first.Reordered second) (calls : List (List Word × Nat)) :
    other.observe calls = machine.observe calls := by
  have same := alike.call_entry reordered calls
  unfold Machine.observe
  generalize machine.callEntry calls = answers at same ⊢
  generalize other.callEntry calls = answers' at same ⊢
  cases same with
  | none => rfl
  | @some answer answer' same =>
      obtain ⟨outcomes, last⟩ := answer
      obtain ⟨outcomes', last'⟩ := answer'
      obtain ⟨rfl, sameLast⟩ := same
      have events : last'.store.events = last.store.events := sameLast.store.events
      simp only [Option.map_some, events, sameLast.global reordered]

end Machine

theorem linearized_cells (module : Module) (code : LinearModule)
    (linearized : module.linearize = .ok code) :
    code.globals = module.globals.map fun cell => (cell.name, cell.init) := by
  simp only [Module.linearize, bind_succeeds_iff, pure_succeeds_iff] at linearized
  obtain ⟨_, _, rfl⟩ := linearized
  rfl

theorem Module.Reordered.loaded_alike {first second : Module} (reordered : first.Reordered second)
    (limit : Nat) (machine other : Machine) (loaded : Machine.load first limit = .ok machine)
    (loadedToo : Machine.load second limit = .ok other) (index index' : Nat)
    (exported : machine.code.exports.get? entryExport = some index)
    (exportedToo : other.code.exports.get? entryExport = some index')
    (same : SamePlace first.allFunctions second.allFunctions index index') :
    machine.Alike first second other := by
  simp only [Machine.load, bind_succeeds_iff, pure_succeeds_iff] at loaded loadedToo
  obtain ⟨code, linearized, rfl⟩ := loaded
  obtain ⟨code', linearized', rfl⟩ := loadedToo
  have globals := linearized_cells first code linearized
  have globals' := linearized_cells second code' linearized'
  refine ⟨reordered.linearized_alike code code' linearized linearized', rfl, ⟨?_, rfl⟩, ?_,
    index, index', exported, exportedToo, same⟩
  · rintro position position' ⟨cell, here, there⟩
    exact ⟨cell.init, by simp [globals, here], by simp [globals', there]⟩
  · simp [globals, globals', Function.comp_def]

end ScriptWasm
