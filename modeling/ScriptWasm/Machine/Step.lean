import ScriptWasm.Machine.Host
import ScriptWasm.Machine.Linear

/-!
The machine runs linear code one instruction at a time. Every call in progress has a frame with its
own slots and operand stack; globals and events belong to the machine and outlive the run.
-/

namespace ScriptWasm

set_option autoImplicit false

structure Frame where
  func : LinearFunc
  /-- The position of the next instruction. -/
  position : Nat
  slots : Array Word
  /-- The operands, the top one first. -/
  stack : List Word

structure Store where
  globals : Array Word
  /-- What was printed so far, the first event first. -/
  events : Array Event

structure Run where
  code : LinearModule
  /-- How many frames may be open at once. -/
  limit : Nat
  /-- How many more frames may be opened. -/
  room : Nat
  store : Store
  frame : Frame
  /-- The frames that wait for a result, from the inside out. -/
  callers : List Frame

inductive Progress where
  | running (run : Run)
  | finished (outcome : Except RuntimeError Word) (store : Store)

/-- The frame of a call. Slots that are not parameters start at zero. -/
def LinearModule.enter (code : LinearModule) (limit room index : Nat) (args : List Word) :
    Except RuntimeError Frame :=
  if room = 0 then .error (.callStackExhausted limit)
  else
    match code.functions[index]? with
    | none => .error (.unknownFunction (decimal index))
    | some func =>
        if args.length = func.params then
          .ok ⟨func, 0, (args ++ List.replicate func.locals 0).toArray, []⟩
        else .error (.wrongArguments func.name func.params args.length)

namespace Run

def trap (run : Run) (error : RuntimeError) : Progress :=
  .finished (.error error) run.store

def withStack (run : Run) (stack : List Word) : Progress :=
  .running { run with frame := { run.frame with stack } }

def withJump (run : Run) (target : Nat) (stack : List Word) : Progress :=
  .running { run with frame := { run.frame with position := target, stack } }

def takeArgs (count : Nat) (stack : List Word) : Option (List Word × List Word) :=
  if count ≤ stack.length then some ((stack.take count).reverse, stack.drop count) else none

def callFunction (run : Run) (index : Nat) : Progress :=
  match run.code.functions[index]? with
  | none => run.trap (.unknownFunction (decimal index))
  | some func =>
      match takeArgs func.params run.frame.stack with
      | none => run.trap .stackUnderflow
      | some (args, stack) =>
          match run.code.enter run.limit run.room index args with
          | .error error => run.trap error
          | .ok frame =>
              .running { run with
                room := run.room - 1
                frame
                callers := { run.frame with stack } :: run.callers }

def callHost (run : Run) (primitive : HostImport) : Progress :=
  match takeArgs primitive.arity run.frame.stack with
  | none => run.trap .stackUnderflow
  | some (args, stack) =>
      match primitive.call args run.store.events with
      | .error error => run.trap error
      | .ok (answer, events) =>
          .running { run with
            store := { run.store with events }
            frame := { run.frame with stack := answer :: stack } }

/-- Leaves the current frame and hands its top operand to the caller. -/
def leave (run : Run) : Progress :=
  match run.frame.stack with
  | [] => run.trap .stackUnderflow
  | result :: _ =>
      match run.callers with
      | [] => .finished (.ok result) run.store
      | caller :: callers =>
          .running { run with
            room := run.room + 1
            frame := { caller with stack := result :: caller.stack }
            callers }

/-- Runs one instruction, with the position of the frame already behind it. -/
@[simp] def execute (run : Run) : LinearInstr → Progress
  | .const value => run.withStack (value :: run.frame.stack)
  | .localGet slot =>
      match run.frame.slots[slot]? with
      | none => run.trap (.unknownVariable ("local " ++ decimal slot))
      | some value => run.withStack (value :: run.frame.stack)
  | .localSet slot =>
      match run.frame.stack with
      | [] => run.trap .stackUnderflow
      | value :: stack =>
          if slot < run.frame.slots.size then
            .running { run with
              frame := { run.frame with slots := run.frame.slots.setIfInBounds slot value, stack } }
          else run.trap (.unknownVariable ("local " ++ decimal slot))
  | .globalGet index =>
      match run.store.globals[index]? with
      | none => run.trap (.unknownVariable ("global " ++ decimal index))
      | some value => run.withStack (value :: run.frame.stack)
  | .globalSet index =>
      match run.frame.stack with
      | [] => run.trap .stackUnderflow
      | value :: stack =>
          if index < run.store.globals.size then
            .running { run with
              store := { run.store with globals := run.store.globals.setIfInBounds index value }
              frame := { run.frame with stack } }
          else run.trap (.unknownVariable ("global " ++ decimal index))
  | .binary op =>
      match run.frame.stack with
      | right :: left :: stack =>
          match op.apply left right with
          | .ok value => run.withStack (value :: stack)
          | .error trap => run.trap (.arithmetic trap)
      | _ => run.trap .stackUnderflow
  | .drop =>
      match run.frame.stack with
      | [] => run.trap .stackUnderflow
      | _ :: stack => run.withStack stack
  | .jump target => run.withJump target run.frame.stack
  | .jumpIfZero target =>
      match run.frame.stack with
      | [] => run.trap .stackUnderflow
      | test :: stack => if test = 0 then run.withJump target stack else run.withStack stack
  | .jumpUnlessZero target =>
      match run.frame.stack with
      | [] => run.trap .stackUnderflow
      | test :: stack => if test = 0 then run.withStack stack else run.withJump target stack
  | .call index => run.callFunction index
  | .callHost primitive => run.callHost primitive
  | .ret => run.leave
  | .unreachable => run.trap .unreachable

/-- Fetches and runs the next instruction. There is nothing to run past the end of the code. -/
def step (run : Run) : Progress :=
  match run.frame.func.code[run.frame.position]? with
  | none => run.trap .unreachable
  | some instr =>
      { run with frame := { run.frame with position := run.frame.position + 1 } }.execute instr

def advance (run : Run) : Nat → Progress
  | 0 => .running run
  | steps + 1 =>
      match run.step with
      | .running next => next.advance steps
      | finished => finished

end Run

end ScriptWasm
