import ScriptWasm.Code.Names
import ScriptWasm.Machine.Error
import ScriptWasm.Table

/-!
Linear code is what the machine runs: names are replaced by slots and indices, and conditions,
blocks and loops by jumps to positions in the code of their function. Code is written in one pass.
A jump out of a body is written before the end of the body is known, so it goes to no particular
place at first and is pointed at the end when the body is closed.
-/

namespace ScriptWasm

set_option autoImplicit false

inductive LinearInstr where
  | const (value : Word)
  | localGet (slot : Nat)
  | localSet (slot : Nat)
  | globalGet (index : Nat)
  | globalSet (index : Nat)
  | binary (op : WordOp)
  | drop
  | jump (target : Nat)
  /-- Takes a word, and jumps if it is zero. -/
  | jumpIfZero (target : Nat)
  /-- Takes a word, and jumps if it is not zero. -/
  | jumpUnlessZero (target : Nat)
  | call (index : Nat)
  | callHost (primitive : HostImport)
  | ret
  | unreachable
deriving DecidableEq, Repr

/-- Points a jump at a position. Other instructions stay as they are. -/
def LinearInstr.retarget (target : Nat) : LinearInstr → LinearInstr
  | jump _ => jump target
  | jumpIfZero _ => jumpIfZero target
  | jumpUnlessZero _ => jumpUnlessZero target
  | instr => instr

structure LinearFunc where
  name : String
  /-- The number of parameters, which take the first slots. -/
  params : Nat
  /-- The number of further slots. -/
  locals : Nat
  code : Array LinearInstr
deriving DecidableEq, Repr

structure LinearModule where
  functions : Array LinearFunc
  globals : List (String × Word)
  exports : Table Nat

/-- Where the branches to a body go: past its end, which the jumps at the listed positions wait for,
or back to its start. -/
inductive Label where
  | forward (patches : List Nat)
  | loop (start : Nat)

/-- A function in translation: the code so far, and the labels of the open bodies from the inside
out. -/
structure Translation where
  code : Array LinearInstr
  labels : List Label

namespace Translation

def here (translation : Translation) : Nat :=
  translation.code.size

def emit (translation : Translation) (instr : LinearInstr) : Translation :=
  { translation with code := translation.code.push instr }

def retarget (translation : Translation) (position target : Nat) : Translation :=
  { translation with code := translation.code.modify position (.retarget target) }

def openLabel (translation : Translation) (label : Label) : Translation :=
  { translation with labels := label :: translation.labels }

def dropLabel (translation : Translation) : Translation :=
  match translation.labels with
  | _ :: outer => { translation with labels := outer }
  | [] => translation

/-- Closes the innermost body, and points the jumps that wait for its end behind the code so far. -/
def closeLabel (translation : Translation) : Translation :=
  match translation.labels with
  | .forward patches :: _ =>
      let stop := translation.here
      patches.foldl (fun closed position => closed.retarget position stop) translation.dropLabel
  | _ => translation.dropLabel

/-- Aims the jump at a position at the label that many levels out. -/
def aim (translation : Translation) (depth position : Nat) : Except RuntimeError Translation :=
  match translation.labels[depth]? with
  | none => .error (.invalidBranch depth)
  | some (.loop start) => .ok (translation.retarget position start)
  | some (.forward patches) =>
      .ok { translation with
        labels := translation.labels.set depth (.forward (patches ++ [position])) }

end Translation

namespace Module

def slotOrError (func : Func) (name : String) : Except RuntimeError Nat :=
  match func.slot? name with
  | some slot => .ok slot
  | none => .error (.unknownVariable name)

def globalOrError (module : Module) (name : String) : Except RuntimeError Nat :=
  match module.globalIndex? name with
  | some index => .ok index
  | none => .error (.unknownVariable name)

def callOrError (module : Module) (name : String) : Except RuntimeError LinearInstr :=
  match module.callee? name with
  | some (.function index) => .ok (.call index)
  | some (.primitive primitive) => .ok (.callHost primitive)
  | none => .error (.unknownFunction name)

mutual

@[simp] def translate (module : Module) (func : Func) (translation : Translation) :
    Instr → Except RuntimeError Translation
  | .const value => return translation.emit (.const value)
  | .localGet name => return translation.emit (.localGet (← slotOrError func name))
  | .localSet name => return translation.emit (.localSet (← slotOrError func name))
  | .globalGet name => return translation.emit (.globalGet (← module.globalOrError name))
  | .globalSet name => return translation.emit (.globalSet (← module.globalOrError name))
  | .call name => return translation.emit (← module.callOrError name)
  | .binary op => return translation.emit (.binary op)
  | .drop => return translation.emit .drop
  | .ret => return translation.emit .ret
  | .unreachable => return translation.emit .unreachable
  | .cond body orelse => do
      let skipBody := translation.here
      let translation := (translation.emit (.jumpIfZero 0)).openLabel (.forward [])
      let translation ← translateAll module func translation body
      let skipElse := translation.here
      let translation := translation.emit (.jump 0)
      let translation := translation.retarget skipBody translation.here
      let translation ← translateAll module func translation orelse
      let translation ← translation.aim 0 skipElse
      return translation.closeLabel
  | .block body => do
      let translation ← translateAll module func (translation.openLabel (.forward [])) body
      return translation.closeLabel
  | .loop body => do
      let translation ←
        translateAll module func (translation.openLabel (.loop translation.here)) body
      return translation.dropLabel
  | .branch depth => (translation.emit (.jump 0)).aim depth translation.here
  | .branchIf depth => (translation.emit (.jumpUnlessZero 0)).aim depth translation.here

@[simp] def translateAll (module : Module) (func : Func) (translation : Translation) :
    List Instr → Except RuntimeError Translation
  | [] => return translation
  | first :: rest => do
      let translation ← translate module func translation first
      translateAll module func translation rest

end

/-- The linear form of a function. The body is a label as well: leaving it by a branch or at its end
returns the word on top of the stack. -/
def linearFunc (module : Module) (func : Func) : Except RuntimeError LinearFunc := do
  let body ← module.translateAll func ⟨#[], [.forward []]⟩ func.body
  return {
    name := (func.id.or func.exportName).getD ""
    params := func.params.length
    locals := func.locals.length
    code := (body.closeLabel.emit .ret).code }

/-- The indices of the exported functions. The later of two exports of one name counts. -/
def exportTable (module : Module) : Table Nat :=
  Table.ofList (module.allFunctions.zipIdx.filterMap fun (func, index) =>
    func.exportName.map fun name => (name, index))

def linearize (module : Module) : Except RuntimeError LinearModule := do
  let functions ← module.allFunctions.mapM module.linearFunc
  return {
    functions := functions.toArray
    globals := module.globals.map fun cell => (cell.name, cell.init)
    exports := module.exportTable }

end Module

end ScriptWasm
