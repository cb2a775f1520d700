import ScriptWasm.Proofs.Code.Indexed

/-!
Validation of the binary form. All values are words, so the operands that an instruction takes and
leaves are described by their number. Code behind an instruction that never goes on may take any
operands. What validation leaves open is where the operands stand: code is clean when every
structured body begins and ends, and every branch is made, without operands of the function.
-/

namespace ScriptWasm

set_option autoImplicit false

structure Surroundings where
  /-- The number of parameters and further locals. -/
  slots : Nat
  /-- The number of globals, all of which can be written. -/
  globals : Nat
  /-- The number of parameters of every function, the primitives first. -/
  arities : List Nat

structure Operands where
  count : Nat
  /-- Whether an instruction before never goes on. There are then as many further operands below as
  are needed. -/
  dead : Bool
deriving DecidableEq, Repr

namespace Operands

def empty : Operands :=
  ⟨0, false⟩

/-- The operands behind an instruction that never goes on. -/
def unreached : Operands :=
  ⟨0, true⟩

def push (operands : Operands) (given : Nat) : Operands :=
  { operands with count := operands.count + given }

def pop (operands : Operands) (wanted : Nat) : Option Operands :=
  if wanted ≤ operands.count ∨ operands.dead then
    some { operands with count := operands.count - wanted }
  else none

/-- Whether a body with so many results may end with these operands. -/
def closes (results : Nat) (operands : Operands) : Bool :=
  (operands.pop results).any fun rest => rest.count = 0

/-- Whether there are no operands here, if this place can be reached. -/
def isBare (operands : Operands) : Bool :=
  operands.dead || operands.count = 0

@[simp] theorem push_count (operands : Operands) (given : Nat) :
    (operands.push given).count = operands.count + given :=
  rfl

@[simp] theorem push_push (operands : Operands) (first second : Nat) :
    (operands.push first).push second = operands.push (first + second) := by
  simp [push, Nat.add_assoc]

@[simp] theorem pop_of_push (operands : Operands) (count : Nat) :
    (operands.push count).pop count = some operands := by
  simp [push, pop]

/-- In code that can be reached a pop takes operands that were pushed. -/
theorem pop_alive (operands rest : Operands) (wanted : Nat) (alive : operands.dead = false)
    (popped : operands.pop wanted = some rest) :
    rest.dead = false ∧ operands.count = rest.count + wanted := by
  unfold pop at popped
  split at popped
  · rename_i enough
    cases popped
    have bound : wanted ≤ operands.count := by simpa [alive] using enough
    exact ⟨alive, (Nat.sub_add_cancel bound).symm⟩
  · cases popped

end Operands

namespace Indexed

section Rules

variable (around : Surroundings)

mutual

/-- The operands behind an instruction that is valid where the given operands are on the stack. The
bodies around it are listed from the inside out, each with the number of operands that a branch to
it takes. A structured body has no results, and a branch to it takes nothing. -/
@[simp] def validate (labels : List Nat) (operands : Operands) : Indexed → Option Operands
  | const _ => some (operands.push 1)
  | localGet index => if index < around.slots then some (operands.push 1) else none
  | localSet index => if index < around.slots then operands.pop 1 else none
  | globalGet index => if index < around.globals then some (operands.push 1) else none
  | globalSet index => if index < around.globals then operands.pop 1 else none
  | call index =>
      match around.arities[index]? with
      | some arity => (operands.pop arity).map fun rest => rest.push 1
      | none => none
  | binary _ => (operands.pop 2).map fun rest => rest.push 1
  | drop => operands.pop 1
  | ret => (operands.pop 1).map fun _ => .unreached
  | unreachable => some .unreached
  | cond body orelse =>
      match operands.pop 1 with
      | some rest =>
          if (validateAll (0 :: labels) .empty body).any (Operands.closes 0) ∧
              (validateAll (0 :: labels) .empty orelse).any (Operands.closes 0) then some rest
          else none
      | none => none
  | block body | loop body =>
      if (validateAll (0 :: labels) .empty body).any (Operands.closes 0) then some operands
      else none
  | branch depth =>
      match labels[depth]? with
      | some taken => (operands.pop taken).map fun _ => .unreached
      | none => none
  | branchIf depth =>
      match labels[depth]?, operands.pop 1 with
      | some taken, some rest => (rest.pop taken).map fun below => below.push taken
      | _, _ => none

@[simp] def validateAll (labels : List Nat) (operands : Operands) : List Indexed → Option Operands
  | [] => some operands
  | first :: rest =>
      match validate labels operands first with
      | some after => validateAll labels after rest
      | none => none

end

def validFunction (body : List Indexed) : Bool :=
  (validateAll around [1] .empty body).any (Operands.closes 1)

mutual

/-- An instruction that is clean where the given operands are on the stack. Where it can be reached,
a structured body is entered and a branch is made without operands, apart from the word that is
tested, the body ends without them, and a return takes the only one. A body that is entered without
operands sees all operands of its function. -/
def Clean (labels : List Nat) (operands : Operands) : Indexed → Prop
  | cond body orelse =>
      operands.dead = false → operands.count = 1 ∧
        (CleanAll (0 :: labels) .empty body ∧
          (validateAll around (0 :: labels) .empty body).all Operands.isBare) ∧
        CleanAll (0 :: labels) .empty orelse ∧
          (validateAll around (0 :: labels) .empty orelse).all Operands.isBare
  | block body | loop body =>
      operands.dead = false → operands.count = 0 ∧ CleanAll (0 :: labels) .empty body ∧
        (validateAll around (0 :: labels) .empty body).all Operands.isBare
  | branch _ => operands.dead = false → operands.count = 0
  | branchIf _ | ret => operands.dead = false → operands.count = 1
  | _ => True

def CleanAll (labels : List Nat) (operands : Operands) : List Indexed → Prop
  | [] => True
  | first :: rest =>
      Clean labels operands first ∧
        ∀ after, validate around labels operands first = some after → CleanAll labels after rest

end

def Sound (labels : List Nat) (operands : Operands) (code : List Indexed) (after : Operands) :
    Prop :=
  validateAll around labels operands code = some after ∧ CleanAll around labels operands code

variable {around : Surroundings} {labels : List Nat} {operands middle after : Operands}

theorem sound_nil : Sound around labels operands [] operands :=
  ⟨rfl, trivial⟩

theorem sound_cons (first : Indexed) (rest : List Indexed)
    (valid : validate around labels operands first = some middle)
    (clean : Clean around labels operands first) (tail : Sound around labels middle rest after) :
    Sound around labels operands (first :: rest) after := by
  constructor
  · simp only [validateAll, valid]
    exact tail.1
  · refine ⟨clean, fun other same => ?_⟩
    rw [valid] at same
    cases same
    exact tail.2

theorem sound_append (first second : List Indexed)
    (head : Sound around labels operands first middle)
    (tail : Sound around labels middle second after) :
    Sound around labels operands (first ++ second) after := by
  induction first generalizing operands with
  | nil =>
      cases head.1
      exact tail
  | cons instr rest induction =>
      obtain ⟨valid, clean⟩ := head
      simp only [validateAll] at valid
      split at valid
      · rename_i between same
        exact sound_cons instr (rest ++ second) same clean.1
          (induction ⟨valid, clean.2 between same⟩)
      · cases valid

theorem sound_single (instr : Indexed) (valid : validate around labels operands instr = some after)
    (clean : Clean around labels operands instr) : Sound around labels operands [instr] after :=
  sound_cons instr [] valid clean sound_nil

theorem sound_body (body : List Indexed) (ends : after.count = 0)
    (sound : Sound around (0 :: labels) .empty body after) :
    (validateAll around (0 :: labels) .empty body).any (Operands.closes 0) = true ∧
      CleanAll around (0 :: labels) .empty body ∧
        (validateAll around (0 :: labels) .empty body).all Operands.isBare = true := by
  refine ⟨?_, sound.2, ?_⟩
  · simp [sound.1, Operands.closes, Operands.pop, ends]
  · simp [sound.1, Operands.isBare, ends]

end Rules

end Indexed

namespace Module

def arities (module : Module) : List Nat :=
  HostImport.all.map HostImport.arity ++ module.allFunctions.map fun func => func.params.length

def surroundings (module : Module) (func : Func) : Surroundings :=
  ⟨func.params.length + func.locals.length, module.globals.length, module.arities⟩

end Module

namespace Func

def Valid (func : Func) (module : Module) : Prop :=
  Indexed.validFunction (module.surroundings func) (func.indexed module) = true

def Clean (func : Func) (module : Module) : Prop :=
  Indexed.CleanAll (module.surroundings func) [1] .empty (func.indexed module)

end Func

end ScriptWasm
