import ScriptWasm.Machine.Step

/-!
A machine holds a loaded module and its store. Its exports can be called any number of times;
globals keep their values and events stay recorded from one call to the next, also after a trap.
-/

namespace ScriptWasm

set_option autoImplicit false

structure Machine where
  code : LinearModule
  limit : Nat
  store : Store

namespace Machine

def defaultLimit : Nat :=
  10000

def load (module : Module) (limit : Nat) : Except RuntimeError Machine := do
  let code ← module.linearize
  return ⟨code, limit, ⟨(code.globals.map Prod.snd).toArray, #[]⟩⟩

def global? (machine : Machine) (name : String) : Option Word :=
  match machine.code.globals.findIdx? fun cell => cell.1 = name with
  | some index => machine.store.globals[index]?
  | none => none

def start (machine : Machine) (name : String) (args : List Word) : Except RuntimeError Run :=
  match machine.code.exports.get? name with
  | none => .error (.unknownExport name)
  | some index => do
      let frame ← machine.code.enter machine.limit machine.limit index args
      return ⟨machine.code, machine.limit, machine.limit - 1, machine.store, frame, []⟩

/-- Calls an export, and gives the outcome and the machine afterwards. There is no answer if the
call takes more than the given number of steps. -/
def invoke (machine : Machine) (name : String) (args : List Word) (steps : Nat) :
    Option (Except RuntimeError Word × Machine) :=
  match machine.start name args with
  | .error error => some (.error error, machine)
  | .ok run =>
      match run.advance steps with
      | .running _ => none
      | .finished outcome store => some (outcome, { machine with store })

end Machine

end ScriptWasm
