import ScriptWasm.Host
import ScriptWasm.Machine.Error

/-!
What the primitives of the host do. Printing answers zero and leaves an event; the others compute a
word and leave nothing.
-/

namespace ScriptWasm

set_option autoImplicit false

structure Event where
  primitive : HostImport
  value : Word
deriving DecidableEq, Repr

def Event.line (event : Event) : String :=
  match event.primitive with
  | .printBool => if event.value = 0 then "False" else "True"
  | .printNone => "None"
  | _ => event.value.render

namespace HostImport

/-- The answer of a primitive. Arguments beyond those it takes do not matter. A power with a
negative exponent is zero. -/
def eval : HostImport → List Word → Except RuntimeError Word
  | abs, value :: _ => .ok value.magnitude
  | max, first :: second :: _ => .ok (if first < second then second else first)
  | min, first :: second :: _ => .ok (if first < second then first else second)
  | pow, base :: exponent :: _ =>
      .ok (if exponent < 0 then 0 else Word.power base exponent.toInt.toNat)
  | print, _ :: _ => .ok 0
  | printBool, _ :: _ => .ok 0
  | printNone, _ :: _ => .ok 0
  | primitive, args => .error (.wrongArguments primitive.name primitive.arity args.length)

def event? (primitive : HostImport) (args : List Word) : Option Event :=
  if primitive.prints then args.head?.map (Event.mk primitive) else none

def call (primitive : HostImport) (args : List Word) (events : Array Event) :
    Except RuntimeError (Word × Array Event) := do
  let answer ← primitive.eval args
  return (answer, events ++ (primitive.event? args).toArray)

end HostImport

end ScriptWasm
