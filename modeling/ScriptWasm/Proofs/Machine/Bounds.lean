import Mathlib.Logic.Relator
import ScriptWasm.Proofs.Code.Binary.Contents
import ScriptWasm.Proofs.Machine.Control
import ScriptWasm.Proofs.Typing.Tables

/-!
A module that loads stays inside its tables, whatever its functions do with operands and labels.
Every linear instruction refers to a position, a slot, a global and a function that exist, and the
last one of a function is a return, so no frame runs past the end of its code. Each linear
instruction also comes from one of the source, and only an `unreachable` becomes an `unreachable`.
-/

namespace ScriptWasm

set_option autoImplicit false

/-- What an instruction refers to exists in a function with so many instructions and slots and in
code with so many globals and functions. -/
def LinearInstr.Inside (size slots globals functions : Nat) : LinearInstr → Prop
  | localGet slot | localSet slot => slot < slots
  | globalGet index | globalSet index => index < globals
  | jump target | jumpIfZero target | jumpUnlessZero target => target < size
  | call index => index < functions
  | const _ | binary _ | drop | callHost _ | ret | unreachable => True

namespace Instr

mutual

/-- The instructions that the linear ones come from, in the order of their positions. A condition
becomes two jumps; a block and a loop become nothing beside their bodies. -/
def origins : Instr → List Instr
  | cond body orelse => cond body orelse :: originsAll body ++ cond body orelse :: originsAll orelse
  | block body => originsAll body
  | loop body => originsAll body
  | instr => [instr]

def originsAll : List Instr → List Instr
  | [] => []
  | first :: rest => origins first ++ originsAll rest

end

/-- A linear instruction of a function refers to what exists, and it is an `unreachable` only if it
comes from one. -/
structure Becomes (module : Module) (func : Func) (size : Nat) (origin : Instr)
    (linear : LinearInstr) : Prop where
  inside : linear.Inside size (func.params.length + func.locals.length) module.globals.length
    module.allFunctions.length
  origin : linear = .unreachable → origin = .unreachable

section Translation

variable (module : Module) (func : Func) (size : Nat)

theorem call_becomes (targets : List Nat) (here : Nat) (name : String) (code : List LinearInstr)
    (linear : module.linear func targets here (.call name) = .ok code) :
    List.Forall₂ (Becomes module func size) [.call name] code := by
  rw [Module.linear] at linear
  split at linear
  · rename_i index callee
    cases linear
    obtain ⟨called, there⟩ := module.function_of_callee name index callee
    exact .cons ⟨(List.getElem?_eq_some_iff.mp there).1, by simp⟩ .nil
  · cases linear
    exact .cons ⟨trivial, by simp⟩ .nil
  · cases linear

theorem slot_inside (name : String) (slot : Nat) (found : Module.slotOrError func name = .ok slot) :
    slot < func.params.length + func.locals.length := by
  rw [← List.length_append]
  exact last_index_bound _ _ _ ((Module.slot_succeeds_iff func name slot).mp found)

theorem global_inside (name : String) (index : Nat)
    (found : module.globalOrError name = .ok index) : index < module.globals.length := by
  rw [← List.length_map (f := Global.name)]
  exact last_index_bound _ _ _ ((Module.global_succeeds_iff module name index).mp found)

theorem targets_inside (targets : List Nat) (outward : ∀ target ∈ targets, target < size)
    (next : Nat) (bound : next < size) : ∀ target ∈ next :: targets, target < size :=
  List.forall_mem_cons.mpr ⟨bound, outward⟩

theorem target_inside (targets : List Nat) (outward : ∀ target ∈ targets, target < size)
    (depth target : Nat) (found : Module.targetOrError targets depth = .ok target) :
    target < size :=
  outward target
    (List.mem_of_getElem? ((Module.target_succeeds_iff targets depth target).mp found))

mutual

/-- The jumps of an instruction go to its own positions, or behind it, or where the bodies around it
say. -/
theorem linear_becomes (targets : List Nat) (here : Nat) (instr : Instr) (code : List LinearInstr)
    (outward : ∀ target ∈ targets, target < size) (fits : here + instr.linearSize < size)
    (linear : module.linear func targets here instr = .ok code) :
    List.Forall₂ (Becomes module func size) instr.origins code := by
  -- Targets are positions of the code and not behind its end, because the return of the function
  -- follows.
  cases instr with
  | cond body orelse =>
      simp only [Module.linear, bind_succeeds_iff, pure_succeeds_iff] at linear
      obtain ⟨first, firstDone, second, secondDone, rfl⟩ := linear
      rw [linearSize] at fits
      have otherwise : here + 1 + linearSizes body + 1 < size := by omega
      have stop : here + 1 + linearSizes body + 1 + linearSizes orelse < size := by omega
      have inner := targets_inside size targets outward _ stop
      have bodyBecomes := linear_all_becomes _ _ body first inner (by omega) firstDone
      have orelseBecomes := linear_all_becomes _ _ orelse second inner (by omega) secondDone
      exact List.rel_append (.cons ⟨otherwise, by simp⟩ bodyBecomes)
        (.cons ⟨stop, by simp⟩ orelseBecomes)
  | block body =>
      rw [Module.linear] at linear
      have inner := targets_inside size targets outward _ fits
      exact linear_all_becomes _ _ body code inner fits linear
  | loop body =>
      rw [Module.linear] at linear
      have start : here < size := Nat.lt_of_le_of_lt (Nat.le_add_right _ _) fits
      have inner := targets_inside size targets outward _ start
      exact linear_all_becomes _ _ body code inner fits linear
  | call name => exact call_becomes module func size targets here name code linear
  | localGet name | localSet name =>
      simp only [Module.linear, bind_succeeds_iff, pure_succeeds_iff] at linear
      obtain ⟨slot, found, rfl⟩ := linear
      exact .cons ⟨slot_inside func name slot found, by simp⟩ .nil
  | globalGet name | globalSet name =>
      simp only [Module.linear, bind_succeeds_iff, pure_succeeds_iff] at linear
      obtain ⟨index, found, rfl⟩ := linear
      exact .cons ⟨global_inside module name index found, by simp⟩ .nil
  | branch depth | branchIf depth =>
      simp only [Module.linear, bind_succeeds_iff, pure_succeeds_iff] at linear
      obtain ⟨target, found, rfl⟩ := linear
      exact .cons ⟨target_inside size targets outward depth target found, by simp⟩ .nil
  | const value | binary op | drop | ret =>
      cases linear
      exact .cons ⟨trivial, by simp⟩ .nil
  | unreachable =>
      cases linear
      exact .cons ⟨trivial, fun _ => rfl⟩ .nil
termination_by structural instr

theorem linear_all_becomes (targets : List Nat) (here : Nat) (instrs : List Instr)
    (code : List LinearInstr) (outward : ∀ target ∈ targets, target < size)
    (fits : here + linearSizes instrs < size)
    (linear : module.linearAll func targets here instrs = .ok code) :
    List.Forall₂ (Becomes module func size) (originsAll instrs) code := by
  cases instrs with
  | nil =>
      cases linear
      exact .nil
  | cons first rest =>
      simp only [Module.linearAll, bind_succeeds_iff, pure_succeeds_iff] at linear
      obtain ⟨head, headDone, tail, tailDone, rfl⟩ := linear
      rw [linearSizes] at fits
      exact List.rel_append
        (linear_becomes targets here first head outward (by omega) headDone)
        (linear_all_becomes targets _ rest tail outward (by omega) tailDone)
termination_by structural instrs

end

end Translation

end Instr

/-- The instructions of a function refer to what exists, and the last one is a return. The function
comes from one of the module, and an `unreachable` in it from one at the same place there. -/
structure LinearFunc.Inside (module : Module) (code : LinearModule) (func : LinearFunc) : Prop where
  instrs : ∀ instr ∈ func.code, instr.Inside func.code.size (func.params + func.locals)
    code.globals.length code.functions.size
  last : func.code[func.code.size - 1]? = some .ret
  source : ∃ source ∈ module.allFunctions, module.linearFunc source = .ok func ∧
    ∀ position : Nat, func.code[position]? = some .unreachable →
      (Instr.originsAll source.body)[position]? = some .unreachable

structure LinearModule.Inside (module : Module) (code : LinearModule) : Prop where
  functions : ∀ func ∈ code.functions, func.Inside module code
  exports : ∀ name index, code.exports.get? name = some index → index < code.functions.size

theorem related_at {First Second : Type} {related : First → Second → Prop} {firsts : List First}
    {seconds : List Second} (each : List.Forall₂ related firsts seconds) (index : Nat)
    (second : Second) (found : seconds[index]? = some second) :
    ∃ first, firsts[index]? = some first ∧ related first second := by
  obtain ⟨bound, rfl⟩ := List.getElem?_eq_some_iff.mp found
  have boundToo : index < firsts.length := each.length_eq ▸ bound
  exact ⟨firsts[index], List.getElem?_eq_getElem boundToo, each.get boundToo bound⟩

section Loading

variable {module : Module} {code : LinearModule} (linearized : module.linearize = .ok code)

include linearized

theorem linearized_size : code.functions.size = module.allFunctions.length := by
  simp only [Module.linearize, bind_succeeds_iff, pure_succeeds_iff] at linearized
  obtain ⟨functions, mapped, rfl⟩ := linearized
  exact (map_m_related module.linearFunc module.allFunctions functions mapped).length_eq.symm

/-- Behind the body there is a return, so a jump to the end of the body goes to an instruction. -/
theorem func_inside (source : Func) (member : source ∈ module.allFunctions) (func : LinearFunc)
    (form : module.linearFunc source = .ok func) : func.Inside module code := by
  have formed := form
  simp only [Module.linear_func_eq, bind_succeeds_iff, pure_succeeds_iff] at formed
  obtain ⟨body, done, rfl⟩ := formed
  have length : body.length = Instr.linearSizes source.body :=
    Instr.linear_all_length module source _ _ source.body body done
  have becomes := Instr.linear_all_becomes module source (body.length + 1) _ _ source.body body
    (fun target only => by
      rw [List.mem_singleton.mp only, length]
      exact Nat.lt_succ_self _)
    (by omega) done
  constructor
  · intro instr there
    simp only [List.size_toArray, List.length_append, List.length_singleton,
      linearized_globals module code linearized, linearized_size linearized] at there ⊢
    rcases List.mem_append.mp (List.mem_toArray.mp there) with inBody | last
    · obtain ⟨position, found⟩ := List.getElem?_of_mem inBody
      obtain ⟨_, _, made⟩ := related_at becomes position instr found
      exact made.inside
    · rw [List.mem_singleton.mp last]
      trivial
  · simp
  · refine ⟨source, member, form, fun position found => ?_⟩
    rw [List.getElem?_toArray] at found
    have inBody : body[position]? = some .unreachable := by
      by_cases before : position < body.length
      · rwa [List.getElem?_append_left before] at found
      · rw [List.getElem?_append_right (Nat.le_of_not_lt before)] at found
        cases List.mem_singleton.mp (List.mem_of_getElem? found)
    obtain ⟨origin, there, made⟩ := related_at becomes position _ inBody
    rw [there, made.origin rfl]

theorem inside_of_linearize : code.Inside module := by
  have size := linearized_size linearized
  constructor
  · intro func member
    obtain ⟨index, found⟩ := Array.getElem?_of_mem member
    have bound := (Array.getElem?_eq_some_iff.mp found).1
    have there := List.getElem?_eq_getElem (size ▸ bound)
    obtain ⟨other, present, form⟩ := linearized_functions module code linearized index _ there
    cases present.symm.trans found
    exact func_inside linearized _ (List.getElem_mem _) func form
  · intro name index exported
    have table : code.exports = Table.ofList (exportedFrom 0 module.allFunctions) := by
      simp only [Module.linearize, bind_succeeds_iff, pure_succeeds_iff] at linearized
      obtain ⟨functions, _, rfl⟩ := linearized
      rfl
    rw [table, Table.get_of_list] at exported
    have entered := List.mem_reverse.mp (Table.mem_of_value_in _ _ _ exported)
    obtain ⟨position, func, found, _, rfl⟩ := (exported_iff _ _ _ _).mp entered
    rw [Nat.zero_add, size]
    exact (List.getElem?_eq_some_iff.mp found).1

end Loading

structure Frame.Inside (code : LinearModule) (frame : Frame) : Prop where
  func : frame.func ∈ code.functions
  position : frame.position < frame.func.code.size
  slots : frame.slots.size = frame.func.params + frame.func.locals

theorem Frame.inside_of_call {module : Module} {code : LinearModule} {func : LinearFunc}
    {args : List Word} (closed : code.Inside module) (member : func ∈ code.functions)
    (arity : args.length = func.params) :
    Frame.Inside code ⟨func, 0, (args ++ List.replicate func.locals 0).toArray, []⟩ := by
  have last := (Array.getElem?_eq_some_iff.mp (closed.functions func member).last).1
  refine ⟨member, ?_, ?_⟩
  · change 0 < func.code.size
    omega
  · simp [arity]

structure Run.Inside (run : Run) : Prop where
  globals : run.store.globals.size = run.code.globals.length
  frame : run.frame.Inside run.code
  callers : ∀ caller ∈ run.callers, caller.Inside run.code

/-- Why the next step of a run may trap. -/
inductive Run.MayTrap (module : Module) (run : Run) : RuntimeError → Prop where
  | arithmetic (op : WordOp) (trap : ArithmeticTrap) (fetched : run.fetched = some (.binary op)) :
      MayTrap module run (.arithmetic trap)
  | underflow : MayTrap module run .stackUnderflow
  | exhausted (index : Nat) (fetched : run.fetched = some (.call index)) (full : run.room = 0) :
      MayTrap module run (.callStackExhausted run.limit)
  | unreachable (source : Func) (member : source ∈ module.allFunctions)
      (form : module.linearFunc source = .ok run.frame.func)
      (origin : (Instr.originsAll source.body)[run.frame.position]? = some .unreachable) :
      MayTrap module run .unreachable

/-- A step that stays inside the tables, or ends the run for one of the reasons above. -/
def Progress.Stays (module : Module) (run : Run) : Progress → Prop
  | .running next => next.Inside
  | .finished outcome store =>
      store.globals.size = run.code.globals.length ∧
        ∀ error, outcome = .error error → run.MayTrap module error

namespace Run

variable {module : Module} {run : Run}

theorem trap_stays (inside : run.Inside) (error : RuntimeError) (may : run.MayTrap module error) :
    Progress.Stays module run (.finished (.error error) run.store) :=
  ⟨inside.globals, fun other same => by
    cases same
    exact may⟩

theorem goes_stays (module : Module) (inside : run.Inside) (position : Nat) (state : Activation)
    (bound : position < run.frame.func.code.size)
    (slots : state.slots.size = run.frame.slots.size)
    (globals : state.store.globals.size = run.store.globals.size) :
    Progress.Stays module run (.running (run.place position state)) :=
  ⟨globals.trans inside.globals, ⟨inside.frame.func, bound, slots.trans inside.frame.slots⟩,
    inside.callers⟩

/-- There is an instruction behind every one that is not a return. -/
theorem behind_inside {code : LinearModule} {func : LinearFunc} (inside : func.Inside module code)
    (position : Nat) (instr : LinearInstr) (found : func.code[position]? = some instr)
    (other : instr ≠ .ret) : position + 1 < func.code.size := by
  have bound := (Array.getElem?_eq_some_iff.mp found).1
  by_contra last
  obtain rfl : position = func.code.size - 1 := by omega
  exact other (Option.some.inj (found.symm.trans inside.last))

/-- A call opens a frame of a function that exists, and the frame around it waits behind the
call. -/
theorem call_stays (closed : run.code.Inside module) (inside : run.Inside) (index : Nat)
    (fetched : run.fetched = some (.call index)) (bound : index < run.code.functions.size)
    (behind : run.frame.position + 1 < run.frame.func.code.size) :
    Progress.Stays module run ((run.place (run.frame.position + 1) run.activation).execute (.call index)) := by
  have called := Array.getElem?_eq_getElem bound
  have member := Array.getElem_mem bound
  generalize run.code.functions[index] = callee at called member
  simp only [execute, callFunction, place, activation, called]
  cases taken : takeArgs callee.params run.frame.stack with
  | none => exact trap_stays inside _ .underflow
  | some pair =>
      obtain ⟨args, stack⟩ := pair
      have arity := take_args_length taken
      simp only [LinearModule.enter, called]
      by_cases full : run.room = 0
      · rw [if_pos full]
        exact trap_stays inside _ (.exhausted index fetched full)
      · rw [if_neg full, if_pos arity]
        have waits : Frame.Inside run.code { run.frame with
            position := run.frame.position + 1, stack } :=
          ⟨inside.frame.func, behind, inside.frame.slots⟩
        exact ⟨inside.globals, Frame.inside_of_call closed member arity,
          List.forall_mem_cons.mpr ⟨waits, inside.callers⟩⟩

theorem leave_stays (inside : run.Inside) :
    Progress.Stays module run ((run.place (run.frame.position + 1) run.activation).execute .ret) := by
  simp only [execute, leave, place, activation]
  cases run.frame.stack with
  | nil => exact trap_stays inside _ .underflow
  | cons result stack =>
      cases callers : run.callers with
      | nil => exact ⟨inside.globals, by simp⟩
      | cons caller rest =>
          obtain ⟨waits, others⟩ := List.forall_mem_cons.mp (callers ▸ inside.callers)
          exact ⟨inside.globals, ⟨waits.func, waits.position, waits.slots⟩, others⟩

section Instructions

variable (inside : run.Inside)

include inside

theorem jump_stays (target : Nat) (bound : target < run.frame.func.code.size) :
    Progress.Stays module run
      ((run.place (run.frame.position + 1) run.activation).execute (.jump target)) :=
  goes_stays module inside target run.activation bound rfl rfl

variable (behind : run.frame.position + 1 < run.frame.func.code.size)

include behind

theorem const_stays (value : Word) :
    Progress.Stays module run
      ((run.place (run.frame.position + 1) run.activation).execute (.const value)) :=
  goes_stays module inside _ (run.activation.push value) behind rfl rfl

theorem read_slot_stays (slot : Nat)
    (bound : slot < run.frame.func.params + run.frame.func.locals) :
    Progress.Stays module run
      ((run.place (run.frame.position + 1) run.activation).execute (.localGet slot)) := by
  have found := Array.getElem?_eq_getElem (inside.frame.slots.symm ▸ bound)
  rw [execute_read_slot]
  simp only [activation, Activation.readSlot, found, settle]
  exact goes_stays module inside _ _ behind rfl rfl

theorem read_global_stays (index : Nat) (bound : index < run.code.globals.length) :
    Progress.Stays module run
      ((run.place (run.frame.position + 1) run.activation).execute (.globalGet index)) := by
  have found := Array.getElem?_eq_getElem (inside.globals.symm ▸ bound)
  rw [execute_read_global]
  simp only [activation, Activation.readGlobal, found, settle]
  exact goes_stays module inside _ _ behind rfl rfl

theorem write_slot_stays (slot : Nat)
    (bound : slot < run.frame.func.params + run.frame.func.locals) :
    Progress.Stays module run
      ((run.place (run.frame.position + 1) run.activation).execute (.localSet slot)) := by
  have there : slot < run.frame.slots.size := inside.frame.slots.symm ▸ bound
  rw [execute_write_slot, activation]
  simp only [Activation.writeSlot, Activation.pop]
  cases run.frame.stack with
  | nil => exact trap_stays inside _ .underflow
  | cons value stack =>
      simp only [ok_bind, if_pos there]
      exact goes_stays module inside _ ⟨_, stack, _⟩ behind (Array.size_setIfInBounds ..) rfl

theorem write_global_stays (index : Nat) (bound : index < run.code.globals.length) :
    Progress.Stays module run
      ((run.place (run.frame.position + 1) run.activation).execute (.globalSet index)) := by
  have there : index < run.store.globals.size := inside.globals.symm ▸ bound
  rw [execute_write_global, activation]
  simp only [Activation.writeGlobal, Activation.pop]
  cases run.frame.stack with
  | nil => exact trap_stays inside _ .underflow
  | cons value stack =>
      simp only [ok_bind, if_pos there]
      exact goes_stays module inside _ ⟨_, stack, ⟨_, _⟩⟩ behind rfl (Array.size_setIfInBounds ..)

theorem binary_stays (op : WordOp) (fetched : run.fetched = some (.binary op)) :
    Progress.Stays module run
      ((run.place (run.frame.position + 1) run.activation).execute (.binary op)) := by
  rw [execute_binary]
  simp only [activation, Activation.operate]
  split
  · rename_i right left stack _
    cases op.apply left right with
    | ok value => exact goes_stays module inside _ ⟨_, value :: stack, _⟩ behind rfl rfl
    | error trap => exact trap_stays inside _ (.arithmetic op trap fetched)
  · exact trap_stays inside _ .underflow

theorem drop_stays :
    Progress.Stays module run
      ((run.place (run.frame.position + 1) run.activation).execute .drop) := by
  rw [execute_drop]
  simp only [activation, Activation.pop]
  cases run.frame.stack with
  | nil => exact trap_stays inside _ .underflow
  | cons value stack => exact goes_stays module inside _ ⟨_, stack, _⟩ behind rfl rfl

theorem jump_if_zero_stays (target : Nat) (bound : target < run.frame.func.code.size) :
    Progress.Stays module run
      ((run.place (run.frame.position + 1) run.activation).execute (.jumpIfZero target)) := by
  rw [execute_jump_if_zero]
  simp only [activation]
  cases run.frame.stack with
  | nil => exact trap_stays inside _ .underflow
  | cons test stack =>
      simp only
      split
      · exact goes_stays module inside _ ⟨_, stack, _⟩ bound rfl rfl
      · exact goes_stays module inside _ ⟨_, stack, _⟩ behind rfl rfl

theorem jump_unless_zero_stays (target : Nat) (bound : target < run.frame.func.code.size) :
    Progress.Stays module run
      ((run.place (run.frame.position + 1) run.activation).execute (.jumpUnlessZero target)) := by
  rw [execute_jump_unless_zero]
  simp only [activation]
  cases run.frame.stack with
  | nil => exact trap_stays inside _ .underflow
  | cons test stack =>
      simp only
      split
      · exact goes_stays module inside _ ⟨_, stack, _⟩ behind rfl rfl
      · exact goes_stays module inside _ ⟨_, stack, _⟩ bound rfl rfl

theorem call_host_stays (primitive : HostImport) :
    Progress.Stays module run
      ((run.place (run.frame.position + 1) run.activation).execute (.callHost primitive)) := by
  rw [execute_call_host]
  simp only [activation, Activation.callHost]
  cases taken : takeArgs primitive.arity run.frame.stack with
  | none => exact trap_stays inside _ .underflow
  | some pair =>
      obtain ⟨answer, events, answered⟩ := primitive_answers primitive pair.1 run.store.events
        (take_args_length taken)
      simp only [answered, ok_bind]
      exact goes_stays module inside _ ⟨_, answer :: pair.2, _⟩ behind rfl rfl

end Instructions

/-- A step stays inside the tables, or it traps for one of few reasons. -/
theorem step_stays (closed : run.code.Inside module) (inside : run.Inside) :
    Progress.Stays module run run.step := by
  obtain ⟨instr, fetched⟩ : ∃ instr, run.fetched = some instr :=
    ⟨_, Array.getElem?_eq_getElem inside.frame.position⟩
  have func := closed.functions _ inside.frame.func
  have refers := func.instrs instr (Array.mem_of_getElem? fetched)
  have behind := behind_inside func _ instr fetched
  rw [run.step_executes instr fetched]
  cases instr with
  | const value => exact const_stays inside (behind (by simp)) value
  | jump target => exact jump_stays inside target refers
  | localGet slot => exact read_slot_stays inside (behind (by simp)) slot refers
  | globalGet index => exact read_global_stays inside (behind (by simp)) index refers
  | localSet slot => exact write_slot_stays inside (behind (by simp)) slot refers
  | globalSet index => exact write_global_stays inside (behind (by simp)) index refers
  | binary op => exact binary_stays inside (behind (by simp)) op fetched
  | drop => exact drop_stays inside (behind (by simp))
  | jumpIfZero target => exact jump_if_zero_stays inside (behind (by simp)) target refers
  | jumpUnlessZero target => exact jump_unless_zero_stays inside (behind (by simp)) target refers
  | call index => exact call_stays closed inside index fetched refers (behind (by simp))
  | callHost primitive => exact call_host_stays inside (behind (by simp)) primitive
  | ret => exact leave_stays inside
  | unreachable =>
      obtain ⟨source, member, form, origin⟩ := func.source
      exact trap_stays inside _ (.unreachable source member form (origin _ fetched))

/-- A run stays inside the tables through all of its steps. -/
theorem advance_inside (closed : run.code.Inside module) (inside : run.Inside) (steps : Nat)
    (state : Run) (advanced : run.advance steps = .running state) :
    state.Inside ∧ state.code = run.code ∧ state.limit = run.limit := by
  refine advance_induction (fun state => state.Inside ∧ state.code = run.code ∧
    state.limit = run.limit) ⟨inside, rfl, rfl⟩ ?_ steps state advanced
  rintro before earlier later - stepped ⟨insideEarlier, sameCode, sameLimit⟩
  have stays := step_stays (sameCode ▸ closed) insideEarlier
  have continues := earlier.step_continues
  rw [stepped] at stays continues
  exact ⟨stays, continues.1.trans sameCode, continues.2.1.trans sameLimit⟩

end Run

/-- A module that loads stays inside its tables. Its linear code refers to nothing that does not
exist. Whatever limit there is and whatever the globals hold, a call of an export with the right
number of arguments is refused only if no frame may be open, and at every time of its run there is
an instruction to execute, the slots and globals of which exist. It traps for one of few reasons,
and in an `unreachable` only where the source has one. -/
theorem loaded_modules_stay_inside (module : Module) (usual : Nat) (loaded : Machine)
    (loads : Machine.load module usual = .ok loaded) :
    loaded.code.Inside module ∧ loaded.store.globals.size = loaded.code.globals.length ∧
      ∀ (limit : Nat) (store : Store) (name : String) (index : Nat) (func : Func)
        (args : List Word), store.globals.size = loaded.code.globals.length →
        loaded.code.exports.get? name = some index → module.allFunctions[index]? = some func →
        args.length = func.params.length →
        (∀ error, Machine.start ⟨loaded.code, limit, store⟩ name args = .error error →
          limit = 0 ∧ error = .callStackExhausted limit) ∧
        ∀ (run state : Run) (steps : Nat),
          Machine.start ⟨loaded.code, limit, store⟩ name args = .ok run →
          run.advance steps = .running state →
          state.code = loaded.code ∧ state.limit = limit ∧ state.Inside ∧
            ∀ outcome after, state.step = .finished outcome after →
              after.globals.size = loaded.code.globals.length ∧
                ∀ error, outcome = .error error → state.MayTrap module error := by
  simp only [Machine.load, bind_succeeds_iff, pure_succeeds_iff] at loads
  obtain ⟨code, linearized, rfl⟩ := loads
  have closed := inside_of_linearize linearized
  refine ⟨closed, by simp, fun limit store name index func args globals exported found arity => ?_⟩
  dsimp only at exported globals ⊢
  obtain ⟨linear, present, form⟩ := linearized_functions module code linearized index func found
  obtain ⟨_, _, _, params, _, _⟩ := linear_func_succeeds module func linear form
  have count : args.length = linear.params := arity.trans params.symm
  -- The number of arguments is right, so that only the limit can refuse the call.
  have start : Machine.start ⟨code, limit, store⟩ name args =
      if limit = 0 then .error (.callStackExhausted limit)
      else .ok (linear.begin code limit store args) :=
    Machine.start_of_export exported present count
  rw [start]
  constructor
  · intro error refused
    split at refused
    · rename_i closedDown
      cases refused
      exact ⟨closedDown, rfl⟩
    · cases refused
  · intro run state steps starts advanced
    split at starts
    · cases starts
    · cases starts
      have member := Array.mem_of_getElem? present
      have inside : (linear.begin code limit store args).Inside :=
        ⟨globals, Frame.inside_of_call closed member count, List.forall_mem_nil _⟩
      obtain ⟨insideState, sameCode, sameLimit⟩ :
          state.Inside ∧ state.code = code ∧ state.limit = limit :=
        Run.advance_inside closed inside steps state advanced
      refine ⟨sameCode, sameLimit, insideState, fun outcome after ends => ?_⟩
      have stays := Run.step_stays (sameCode ▸ closed) insideState
      rw [ends] at stays
      exact ⟨sameCode ▸ stays.1, stays.2⟩

/-- A module whose only function leaves two blocks when its argument is not zero, and must not go on
otherwise. -/
def guardedModule : Module :=
  ⟨[], [],
    ⟨none, some "guard", ["n"], [],
      [.block [.block [.localGet "n", .branchIf 1, .unreachable]], .const 1]⟩⟩

theorem guard_stops_where_the_source_does :
    ∃ loaded run state, Machine.load guardedModule 1 = .ok loaded ∧
      loaded.start "guard" [0] = .ok run ∧ run.advance 2 = .running state ∧
      state.step = .finished (.error .unreachable) state.store ∧
      state.MayTrap guardedModule .unreachable := by
  have loads : Machine.load guardedModule 1 = .ok _ := rfl
  obtain ⟨_, globals, calls⟩ := loaded_modules_stay_inside guardedModule 1 _ loads
  obtain ⟨_, runs⟩ := calls 1 _ "guard" 0 guardedModule.entry [0] globals rfl rfl rfl
  obtain ⟨_, _, _, ends⟩ := runs _ _ 2 rfl rfl
  exact ⟨_, _, _, loads, rfl, rfl, rfl, (ends _ _ rfl).2 _ rfl⟩

end ScriptWasm
