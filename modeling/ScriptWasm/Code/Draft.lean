import ScriptWasm.Code.Error
import ScriptWasm.Code.Instr
import ScriptWasm.Typing.Scope

/-!
A draft is a function while its body is being written: the slots declared so far and the open frames
of instructions. The body of a block or a condition is written into a frame of its own, and becomes
one instruction of the frame around it when it is closed. There is always an innermost frame.
-/

namespace ScriptWasm

set_option autoImplicit false

structure Draft where
  vars : VarTable
  params : List String
  locals : List String
  /-- The innermost frame, in the order of writing. -/
  inner : List Instr
  /-- The frames around it, from the inside out. -/
  outer : List (List Instr)
  /-- Whether the value of an expression statement is kept as the result so far. -/
  topLevel : Bool

namespace Draft

def resultSlot : String :=
  "ret"

def ofFunction (vars : VarTable) : Draft :=
  ⟨vars, vars.paramNames, [], [], [], false⟩

/-- The entry function, which has no variables but the globals. -/
def ofEntry (globals : VarTable) : Draft :=
  ⟨globals, [], [resultSlot], [], [], true⟩

def frameCount (draft : Draft) : Nat :=
  draft.outer.length + 1

/-- Declares a local slot. A slot that is declared already is not declared again. -/
def declareLocal (draft : Draft) (name : String) : Draft :=
  if draft.locals.contains name then draft
  else { draft with locals := draft.locals ++ [name] }

def storage (draft : Draft) (name : String) : Except CodeError Storage :=
  match draft.vars.get? name with
  | some binding => .ok binding.storage
  | none => .error (.unboundVariable name)

def emit (draft : Draft) (instr : Instr) : Draft :=
  { draft with inner := draft.inner ++ [instr] }

def pushFrame (draft : Draft) : Draft :=
  { draft with inner := [], outer := draft.inner :: draft.outer }

/-- Closes the innermost frame. The outermost frame is the body of the function and stays open. -/
def popFrame (draft : Draft) : Except CodeError (List Instr × Draft) :=
  match draft.outer with
  | [] => .error (.unbalancedFrames 1)
  | frame :: rest => .ok (draft.inner, { draft with inner := frame, outer := rest })

/-- The finished function. Its body has to be the only open frame. -/
def build (draft : Draft) (id exportName : Option String) : Except CodeError Func :=
  match draft.outer with
  | [] => .ok ⟨id, exportName, draft.params, draft.locals, draft.inner⟩
  | _ :: _ => .error (.unbalancedFrames draft.frameCount)

def emitLoad (draft : Draft) (name : String) : Except CodeError Draft := do
  match ← draft.storage name with
  | .global => return draft.emit (.globalGet name)
  | _ => return draft.emit (.localGet name)

def emitStore (draft : Draft) (name : String) : Except CodeError Draft := do
  match ← draft.storage name with
  | .global => return draft.emit (.globalSet name)
  | _ => return draft.emit (.localSet name)

end Draft

end ScriptWasm
