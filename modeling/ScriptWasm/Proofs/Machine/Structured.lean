import ScriptWasm.Code.Names
import ScriptWasm.Machine.Step

/-!
The meaning of structured code, without positions and jumps. A condition runs one of its bodies, a
branch leaves the bodies around it or starts a loop again, and a call runs the body of the function.
Loops and calls take fuel, so that every run has an end; a run that has no answer for any fuel goes
on forever.
-/

namespace ScriptWasm

set_option autoImplicit false

/-- What the code of one call works on: its slots, its operands with the top one first, and the
store of the machine. -/
structure Activation where
  slots : Array Word
  stack : List Word
  store : Store

/-- How a piece of code ends, with what it leaves. -/
inductive Exit where
  | next (state : Activation)
  | branch (depth : Nat) (state : Activation)
  | returned (value : Word) (state : Activation)
  | trapped (error : RuntimeError) (state : Activation)

abbrev CallOutcome : Type :=
  Except RuntimeError Word × Store

namespace Activation

def withStack (state : Activation) (stack : List Word) : Activation :=
  { state with stack }

def pop (state : Activation) : Except RuntimeError (Word × Activation) :=
  match state.stack with
  | [] => .error .stackUnderflow
  | value :: stack => .ok (value, state.withStack stack)

def push (state : Activation) (value : Word) : Activation :=
  state.withStack (value :: state.stack)

def readSlot (state : Activation) (slot : Nat) : Except RuntimeError Activation :=
  match state.slots[slot]? with
  | none => .error (.unknownVariable ("local " ++ decimal slot))
  | some value => .ok (state.push value)

def writeSlot (state : Activation) (slot : Nat) : Except RuntimeError Activation := do
  let (value, after) ← state.pop
  if slot < state.slots.size then
    return { after with slots := state.slots.setIfInBounds slot value }
  else .error (.unknownVariable ("local " ++ decimal slot))

def readGlobal (state : Activation) (index : Nat) : Except RuntimeError Activation :=
  match state.store.globals[index]? with
  | none => .error (.unknownVariable ("global " ++ decimal index))
  | some value => .ok (state.push value)

def writeGlobal (state : Activation) (index : Nat) : Except RuntimeError Activation := do
  let (value, after) ← state.pop
  if index < state.store.globals.size then
    return { after with
      store := { state.store with globals := state.store.globals.setIfInBounds index value } }
  else .error (.unknownVariable ("global " ++ decimal index))

def operate (state : Activation) (op : WordOp) : Except RuntimeError Activation :=
  match state.stack with
  | right :: left :: stack =>
      match op.apply left right with
      | .ok value => .ok (state.withStack (value :: stack))
      | .error trap => .error (.arithmetic trap)
  | _ => .error .stackUnderflow

def callHost (state : Activation) (primitive : HostImport) : Except RuntimeError Activation :=
  match Run.takeArgs primitive.arity state.stack with
  | none => .error .stackUnderflow
  | some (args, stack) => do
      let (answer, events) ← primitive.call args state.store.events
      return { state with stack := answer :: stack, store := { state.store with events } }

/-- Goes on after an operation, or traps where it would have begun. -/
def settle (state : Activation) : Except RuntimeError Activation → Exit
  | .ok after => .next after
  | .error error => .trapped error state

def leave (state : Activation) : Exit :=
  match state.stack with
  | [] => .trapped .stackUnderflow state
  | value :: _ => .returned value state

def resume (state : Activation) (stack : List Word) : CallOutcome → Exit
  | (.ok value, store) => .next { state with stack := value :: stack, store }
  | (.error error, store) => .trapped error { state with stack, store }

end Activation

namespace Exit

/-- The end of a body of which a branch to depth zero leaves just that body. -/
def outOfBody : Exit → Exit
  | branch 0 state => next state
  | branch (depth + 1) state => branch depth state
  | exit => exit

/-- The outcome of the body of a function. Its end, or a branch out of it, returns the word on top
of the stack. -/
def outcome : Exit → CallOutcome
  | returned value state => (.ok value, state.store)
  | trapped error state => (.error error, state.store)
  | next state | branch _ state => (state.pop.map Prod.fst, state.store)

def andThen (rest : Activation → Option Exit) : Option Exit → Option Exit
  | some (next after) => rest after
  | other => other

end Exit

/-- Runs a loop body until it is left by something else than a branch back to its start. -/
def runLoop (body : Activation → Option Exit) : Nat → Activation → Option Exit
  | 0, _ => none
  | count + 1, state =>
      match body state with
      | some (.branch 0 again) => runLoop body count again
      | other => other.map Exit.outOfBody

abbrev Calling : Type :=
  Nat → List Word → Store → Option CallOutcome

namespace Instr

section Run

variable (module : Module) (func : Func) (call : Calling) (fuel : Nat)

def runCall (name : String) (state : Activation) : Option Exit :=
  match module.callee? name with
  | none => some (.trapped (.unknownFunction name) state)
  | some (.primitive primitive) => some (state.settle (state.callHost primitive))
  | some (.function index) =>
      match module.allFunctions[index]? with
      | none => some (.trapped (.unknownFunction (decimal index)) state)
      | some callee =>
          match Run.takeArgs callee.params.length state.stack with
          | none => some (.trapped .stackUnderflow state)
          | some (args, stack) => (call index args state.store).map (state.resume stack)

mutual

@[simp] def run : Instr → Activation → Option Exit
  | const value, state => some (.next (state.push value))
  | localGet name, state =>
      match func.slot? name with
      | none => some (.trapped (.unknownVariable name) state)
      | some slot => some (state.settle (state.readSlot slot))
  | localSet name, state =>
      match func.slot? name with
      | none => some (.trapped (.unknownVariable name) state)
      | some slot => some (state.settle (state.writeSlot slot))
  | globalGet name, state =>
      match module.globalIndex? name with
      | none => some (.trapped (.unknownVariable name) state)
      | some index => some (state.settle (state.readGlobal index))
  | globalSet name, state =>
      match module.globalIndex? name with
      | none => some (.trapped (.unknownVariable name) state)
      | some index => some (state.settle (state.writeGlobal index))
  | Instr.call name, state => runCall module call name state
  | binary op, state => some (state.settle (state.operate op))
  | drop, state => some (state.settle (state.pop.map Prod.snd))
  | ret, state => some state.leave
  | unreachable, state => some (.trapped .unreachable state)
  | cond body orelse, state =>
      match state.stack with
      | [] => some (.trapped .stackUnderflow state)
      | test :: stack =>
          if test = 0 then (runAll orelse (state.withStack stack)).map Exit.outOfBody
          else (runAll body (state.withStack stack)).map Exit.outOfBody
  | block body, state => (runAll body state).map Exit.outOfBody
  | loop body, state => runLoop (fun again => runAll body again) fuel state
  | branch depth, state => some (.branch depth state)
  | branchIf depth, state =>
      match state.stack with
      | [] => some (.trapped .stackUnderflow state)
      | test :: stack =>
          if test = 0 then some (.next (state.withStack stack))
          else some (.branch depth (state.withStack stack))

/-- Runs instructions one after the other, until one of them ends in another way than by going
on. -/
@[simp] def runAll : List Instr → Activation → Option Exit
  | [], state => some (.next state)
  | first :: rest, state => Exit.andThen (fun after => runAll rest after) (run first state)

end

end Run

end Instr

namespace Module

/-- Runs a function of a module, where `room` more calls may be open at once. -/
def invoke (module : Module) (limit : Nat) : Nat → Nat → Calling
  | 0, _, _, _, _ => none
  | fuel + 1, room, index, args, store =>
      if room = 0 then some (.error (.callStackExhausted limit), store)
      else
        match module.allFunctions[index]? with
        | none => some (.error (.unknownFunction (decimal index)), store)
        | some func =>
            if args.length = func.params.length then
              (Instr.runAll module func (module.invoke limit fuel (room - 1)) fuel func.body
                ⟨(args ++ List.replicate func.locals.length 0).toArray, [], store⟩).map Exit.outcome
            else
              some (.error (.wrongArguments ((func.id.or func.exportName).getD "")
                func.params.length args.length), store)

end Module

end ScriptWasm
