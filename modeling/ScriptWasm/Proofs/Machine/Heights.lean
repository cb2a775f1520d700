import ScriptWasm.Proofs.Code.Validation
import ScriptWasm.Proofs.Machine.Simulation

/-!
How many operands there are at every position of linear code. In valid and clean code the number is
known from the structured code, because a jump always goes from a place without operands to a place
without operands. An instruction then finds the operands that it takes, and what it leaves is right
for every position where it may go.
-/

namespace ScriptWasm

set_option autoImplicit false

/-- An instruction finds its operands where there are `height` of them, and the positions behind it
are known with the operands that it leaves there. -/
def LinearInstr.Fits (code : LinearModule) (func : LinearFunc) (heights : Nat → Nat → Prop)
    (position height : Nat) : LinearInstr → Prop
  | const _ => heights (position + 1) (height + 1)
  | localGet slot => slot < func.params + func.locals ∧ heights (position + 1) (height + 1)
  | localSet slot =>
      slot < func.params + func.locals ∧
        ∃ rest, height = rest + 1 ∧ heights (position + 1) rest
  | globalGet index => index < code.globals.length ∧ heights (position + 1) (height + 1)
  | globalSet index =>
      index < code.globals.length ∧ ∃ rest, height = rest + 1 ∧ heights (position + 1) rest
  | binary _ => ∃ rest, height = rest + 2 ∧ heights (position + 1) (rest + 1)
  | drop => ∃ rest, height = rest + 1 ∧ heights (position + 1) rest
  | jump target => heights target height
  | jumpIfZero target | jumpUnlessZero target =>
      ∃ rest, height = rest + 1 ∧ heights target rest ∧ heights (position + 1) rest
  | call index =>
      ∃ callee, code.functions[index]? = some callee ∧
        ∃ rest, height = rest + callee.params ∧ heights (position + 1) (rest + 1)
  | callHost primitive =>
      ∃ rest, height = rest + primitive.arity ∧ heights (position + 1) (rest + 1)
  | ret => height = 1
  | unreachable => True

/-- The operands at the positions of a function: there are none at its start, and at every position
that is known there is an instruction that fits. -/
structure LinearFunc.Measured (code : LinearModule) (func : LinearFunc)
    (heights : Nat → Nat → Prop) : Prop where
  starts : heights 0 0
  fits : ∀ position height, heights position height →
    ∃ instr, func.code[position]? = some instr ∧ instr.Fits code func heights position height

namespace Instr

section Positions

variable (module : Module) (func : Func)

/-- The position behind a body with the operands there, if it can be reached through the body. -/
def BodyEnds (labels : List Nat) (body : List Instr) (stop position height : Nat) : Prop :=
  position = stop ∧ ∃ after,
    Indexed.validateAll (module.surroundings func) labels .empty (allIndexed module func body) =
      some after ∧ after.dead = false ∧ height = after.count

mutual

/-- The positions in the linear code of an instruction that can be reached, each with the number of
operands there. -/
def At (labels : List Nat) (operands : Operands) (here position height : Nat) : Instr → Prop
  | cond body orelse =>
      operands.dead = false ∧
        ((position = here ∧ height = operands.count) ∨
          AtAll (0 :: labels) .empty (here + 1) position height body ∨
          BodyEnds module func (0 :: labels) body (here + 1 + linearSizes body) position height ∨
          AtAll (0 :: labels) .empty (here + 1 + linearSizes body + 1) position height orelse)
  | block body | loop body =>
      operands.dead = false ∧ AtAll (0 :: labels) .empty here position height body
  | _ => operands.dead = false ∧ position = here ∧ height = operands.count

def AtAll (labels : List Nat) (operands : Operands) (here position height : Nat) :
    List Instr → Prop
  | [] => False
  | first :: rest =>
      At labels operands here position height first ∨
        ∃ middle, Indexed.validate (module.surroundings func) labels operands
            (first.indexed module func) = some middle ∧
          AtAll labels middle (here + first.linearSize) position height rest

end

end Positions

end Instr

/-- The positions of a function that can be reached. The last one holds the return behind the
body. -/
def Func.At (module : Module) (func : Func) (position height : Nat) : Prop :=
  Instr.AtAll module func [1] .empty 0 position height func.body ∨
    Instr.BodyEnds module func [1] func.body (Instr.linearSizes func.body) position height

namespace Instr

section Pieces

variable {module : Module} {func : Func} {heights : Nat → Nat → Prop}

def Goes (heights : Nat → Nat → Prop) (after : Operands) (stop : Nat) : Prop :=
  after.dead = false → heights stop after.count

def Targeted (heights : Nat → Nat → Prop) (labels targets : List Nat) : Prop :=
  ∀ depth target : Nat, targets[depth]? = some target → labels[depth]? = some 0 → heights target 0

theorem targeted_inside {labels targets : List Nat} (stop : Nat) (here : heights stop 0)
    (outside : Targeted heights labels targets) :
    Targeted heights (0 :: labels) (stop :: targets) := by
  intro depth target found label
  cases depth with
  | zero =>
      cases found
      exact here
  | succ depth => exact outside depth target found label

theorem ends_bare (after : Option Operands) (valid : after.any (Operands.closes 0) = true) :
    ∃ operands, after = some operands ∧ operands.count = 0 := by
  obtain ⟨operands, done, closes⟩ := (Option.any_eq_true _ _).mp valid
  refine ⟨operands, done, ?_⟩
  simpa [Operands.closes, Operands.pop] using closes

theorem body_ends_bare {around : Surroundings} {labels : List Nat} {operands after : Operands}
    (body : List Indexed)
    (valid : Indexed.validate around labels operands (.block body) = some after) :
    after = operands ∧ ∃ inner,
      Indexed.validateAll around (0 :: labels) .empty body = some inner ∧ inner.count = 0 := by
  simp only [Indexed.validate] at valid
  split at valid
  · rename_i closes
    exact ⟨(Option.some.inj valid).symm, ends_bare _ closes⟩
  · cases valid

mutual

theorem at_start (labels : List Nat) (operands after : Operands) (here : Nat) (instr : Instr)
    (valid : Indexed.validate (module.surroundings func) labels operands
      (instr.indexed module func) = some after)
    (clean : Indexed.Clean (module.surroundings func) labels operands (instr.indexed module func))
    (inside : ∀ position height, At module func labels operands here position height instr →
      heights position height)
    (ends : Goes heights after (here + instr.linearSize)) : Goes heights operands here := by
  intro alive
  cases instr with
  | block body | loop body =>
      obtain ⟨bare, cleanBody, _⟩ := clean alive
      obtain ⟨rfl, inner, done, none⟩ := body_ends_bare (allIndexed module func body) valid
      have start := at_start_all (0 :: labels) .empty inner here body done cleanBody
        (fun position height at_ => inside position height ⟨alive, at_⟩)
        (fun _ => by rw [none, ← bare]; exact ends alive) rfl
      rw [bare]
      exact start
  | cond body orelse => exact inside here operands.count ⟨alive, Or.inl ⟨rfl, rfl⟩⟩
  | const _ | localGet _ | localSet _ | globalGet _ | globalSet _ | call _ | binary _ | drop | ret
    | unreachable | branch _ | branchIf _ =>
      exact inside here operands.count ⟨alive, rfl, rfl⟩
termination_by structural instr

theorem at_start_all (labels : List Nat) (operands after : Operands) (here : Nat)
    (instrs : List Instr)
    (valid : Indexed.validateAll (module.surroundings func) labels operands
      (allIndexed module func instrs) = some after)
    (clean : Indexed.CleanAll (module.surroundings func) labels operands
      (allIndexed module func instrs))
    (inside : ∀ position height, AtAll module func labels operands here position height instrs →
      heights position height)
    (ends : Goes heights after (here + linearSizes instrs)) : Goes heights operands here := by
  cases instrs with
  | nil =>
      cases valid
      exact ends
  | cons first rest =>
      simp only [allIndexed, Indexed.validateAll] at valid
      split at valid
      · rename_i middle done
        apply at_start labels operands middle here first done clean.1
          (fun position height at_ => inside position height (Or.inl at_))
        apply at_start_all labels middle after (here + first.linearSize) rest valid
          (clean.2 middle done)
          (fun position height at_ => inside position height (Or.inr ⟨middle, done, at_⟩))
        rw [Nat.add_assoc]
        exact ends
      · cases valid
termination_by structural instrs

end

def IsLeaf : Instr → Prop
  | cond _ _ | block _ | loop _ => False
  | _ => True

section Leaves

variable {code : LinearModule} {linear : LinearFunc} {labels targets : List Nat}
  {operands after : Operands} {here : Nat}

theorem arity_of_function (linearized : module.linearize = .ok code) (index arity : Nat)
    (found : module.arities[Binary.calleeIndex (.function index)]? = some arity) :
    ∃ callee, code.functions[index]? = some callee ∧ callee.params = arity := by
  rw [Module.arities, Binary.calleeIndex, List.getElem?_append_right (by simp), List.length_map,
    Nat.add_sub_cancel_left, List.getElem?_map, Option.map_eq_some_iff] at found
  obtain ⟨called, there, same⟩ := found
  obtain ⟨callee, present, form⟩ := linearized_functions module code linearized index called there
  obtain ⟨_, _, _, params, _, _⟩ := linear_func_succeeds module called callee form
  exact ⟨callee, present, params.trans same⟩

theorem arity_of_primitive (primitive : HostImport) (arity : Nat)
    (found : module.arities[Binary.calleeIndex (.primitive primitive)]? = some arity) :
    primitive.arity = arity := by
  cases primitive <;> exact Option.some.inj found

theorem local_get_fits (slots : linear.params + linear.locals = (module.surroundings func).slots)
    (alive : operands.dead = false) (ends : Goes heights after (here + 1)) (name : String)
    (piece : List LinearInstr)
    (lowered : module.linear func targets here (.localGet name) = .ok piece)
    (valid : Indexed.validate (module.surroundings func) labels operands
      ((localGet name).indexed module func) = some after) :
    ∃ found, piece = [found] ∧ found.Fits code linear heights here operands.count := by
  simp only [Module.linear, bind_succeeds_iff, Module.slot_succeeds_iff, pure_succeeds_iff]
    at lowered
  obtain ⟨slot, found, rfl⟩ := lowered
  simp only [indexed, found, Indexed.validate] at valid
  split at valid
  · rename_i bound
    cases valid
    exact ⟨_, rfl, slots ▸ bound, ends alive⟩
  · cases valid

theorem local_set_fits (slots : linear.params + linear.locals = (module.surroundings func).slots)
    (alive : operands.dead = false) (ends : Goes heights after (here + 1)) (name : String)
    (piece : List LinearInstr)
    (lowered : module.linear func targets here (.localSet name) = .ok piece)
    (valid : Indexed.validate (module.surroundings func) labels operands
      ((localSet name).indexed module func) = some after) :
    ∃ found, piece = [found] ∧ found.Fits code linear heights here operands.count := by
  simp only [Module.linear, bind_succeeds_iff, Module.slot_succeeds_iff, pure_succeeds_iff]
    at lowered
  obtain ⟨slot, found, rfl⟩ := lowered
  simp only [indexed, found, Indexed.validate] at valid
  split at valid
  · rename_i bound
    obtain ⟨aliveAfter, count⟩ := Operands.pop_alive _ _ _ alive valid
    exact ⟨_, rfl, slots ▸ bound, after.count, count, ends aliveAfter⟩
  · cases valid

theorem global_get_fits (globals : code.globals.length = (module.surroundings func).globals)
    (alive : operands.dead = false) (ends : Goes heights after (here + 1)) (name : String)
    (piece : List LinearInstr)
    (lowered : module.linear func targets here (.globalGet name) = .ok piece)
    (valid : Indexed.validate (module.surroundings func) labels operands
      ((globalGet name).indexed module func) = some after) :
    ∃ found, piece = [found] ∧ found.Fits code linear heights here operands.count := by
  simp only [Module.linear, bind_succeeds_iff, Module.global_succeeds_iff, pure_succeeds_iff]
    at lowered
  obtain ⟨index, found, rfl⟩ := lowered
  simp only [indexed, found, Indexed.validate] at valid
  split at valid
  · rename_i bound
    cases valid
    exact ⟨_, rfl, globals ▸ bound, ends alive⟩
  · cases valid

theorem global_set_fits (globals : code.globals.length = (module.surroundings func).globals)
    (alive : operands.dead = false) (ends : Goes heights after (here + 1)) (name : String)
    (piece : List LinearInstr)
    (lowered : module.linear func targets here (.globalSet name) = .ok piece)
    (valid : Indexed.validate (module.surroundings func) labels operands
      ((globalSet name).indexed module func) = some after) :
    ∃ found, piece = [found] ∧ found.Fits code linear heights here operands.count := by
  simp only [Module.linear, bind_succeeds_iff, Module.global_succeeds_iff, pure_succeeds_iff]
    at lowered
  obtain ⟨index, found, rfl⟩ := lowered
  simp only [indexed, found, Indexed.validate] at valid
  split at valid
  · rename_i bound
    obtain ⟨aliveAfter, count⟩ := Operands.pop_alive _ _ _ alive valid
    exact ⟨_, rfl, globals ▸ bound, after.count, count, ends aliveAfter⟩
  · cases valid

theorem call_fits (linearized : module.linearize = .ok code) (alive : operands.dead = false)
    (ends : Goes heights after (here + 1)) (name : String) (piece : List LinearInstr)
    (lowered : module.linear func targets here (.call name) = .ok piece)
    (valid : Indexed.validate (module.surroundings func) labels operands
      ((call name).indexed module func) = some after) :
    ∃ found, piece = [found] ∧ found.Fits code linear heights here operands.count := by
  simp only [Module.linear] at lowered
  simp only [indexed, Indexed.validate] at valid
  split at valid
  · rename_i arity known
    obtain ⟨rest, popped, rfl⟩ := Option.map_eq_some_iff.mp valid
    obtain ⟨aliveAfter, count⟩ := Operands.pop_alive _ _ _ alive popped
    split at lowered
    · rename_i index reached
      cases lowered
      rw [reached] at known
      obtain ⟨callee, present, params⟩ := arity_of_function linearized index arity known
      exact ⟨_, rfl, callee, present, rest.count, by rw [params]; exact count, ends aliveAfter⟩
    · rename_i primitive reached
      cases lowered
      rw [reached] at known
      have same := arity_of_primitive primitive arity known
      exact ⟨_, rfl, rest.count, by rw [same]; exact count, ends aliveAfter⟩
    · cases lowered
  · cases valid

theorem branch_fits (alive : operands.dead = false) (targeted : Targeted heights labels targets)
    (depth target : Nat) (found : targets[depth]? = some target)
    (valid : Indexed.validate (module.surroundings func) labels operands (.branch depth) =
      some after)
    (bare : operands.count = 0) : heights target operands.count := by
  simp only [Indexed.validate] at valid
  split at valid
  · rename_i taken label
    obtain ⟨rest, popped, _⟩ := Option.map_eq_some_iff.mp valid
    obtain ⟨_, count⟩ := Operands.pop_alive _ _ _ alive popped
    have nothing : taken = 0 := by omega
    rw [bare]
    exact targeted depth target found (nothing ▸ label)
  · cases valid

theorem branch_if_fits (alive : operands.dead = false) (ends : Goes heights after (here + 1))
    (targeted : Targeted heights labels targets) (depth target : Nat)
    (found : targets[depth]? = some target)
    (valid : Indexed.validate (module.surroundings func) labels operands (.branchIf depth) =
      some after)
    (tested : operands.count = 1) : heights target 0 ∧ heights (here + 1) 0 := by
  simp only [Indexed.validate] at valid
  split at valid
  · rename_i taken rest label popped
    obtain ⟨below, poppedToo, rfl⟩ := Option.map_eq_some_iff.mp valid
    obtain ⟨aliveRest, count⟩ := Operands.pop_alive _ _ _ alive popped
    obtain ⟨aliveBelow, countBelow⟩ := Operands.pop_alive _ _ _ aliveRest poppedToo
    have nothing : taken = 0 := by omega
    have bare : (below.push taken).count = 0 := by
      rw [Operands.push_count]
      omega
    have behind := ends aliveBelow
    rw [bare] at behind
    exact ⟨targeted depth target found (nothing ▸ label), behind⟩
  · cases valid

theorem leaf_fits (linearized : module.linearize = .ok code)
    (slots : linear.params + linear.locals = (module.surroundings func).slots)
    (globals : code.globals.length = (module.surroundings func).globals)
    (alive : operands.dead = false) (ends : Goes heights after (here + 1))
    (targeted : Targeted heights labels targets) (instr : Instr) (leaf : instr.IsLeaf)
    (piece : List LinearInstr) (lowered : module.linear func targets here instr = .ok piece)
    (valid : Indexed.validate (module.surroundings func) labels operands
      (instr.indexed module func) = some after)
    (clean : Indexed.Clean (module.surroundings func) labels operands
      (instr.indexed module func)) :
    ∃ found, piece = [found] ∧ found.Fits code linear heights here operands.count := by
  -- A leaf is lowered to one instruction, which needs what the validation takes off the operands.
  cases instr with
  | cond _ _ | block _ | loop _ => cases leaf
  | const value =>
      cases lowered
      cases valid
      exact ⟨_, rfl, ends alive⟩
  | localGet name => exact local_get_fits slots alive ends name piece lowered valid
  | localSet name => exact local_set_fits slots alive ends name piece lowered valid
  | globalGet name => exact global_get_fits globals alive ends name piece lowered valid
  | globalSet name => exact global_set_fits globals alive ends name piece lowered valid
  | call name => exact call_fits linearized alive ends name piece lowered valid
  | binary op =>
      cases lowered
      obtain ⟨rest, popped, rfl⟩ := Option.map_eq_some_iff.mp valid
      obtain ⟨aliveAfter, count⟩ := Operands.pop_alive _ _ _ alive popped
      exact ⟨_, rfl, rest.count, count, ends aliveAfter⟩
  | drop =>
      cases lowered
      obtain ⟨aliveAfter, count⟩ := Operands.pop_alive _ _ _ alive valid
      exact ⟨_, rfl, after.count, count, ends aliveAfter⟩
  | ret =>
      cases lowered
      exact ⟨_, rfl, clean alive⟩
  | unreachable =>
      cases lowered
      exact ⟨_, rfl, trivial⟩
  | branch depth =>
      simp only [Module.linear, bind_succeeds_iff, Module.target_succeeds_iff, pure_succeeds_iff]
        at lowered
      obtain ⟨target, found, rfl⟩ := lowered
      exact ⟨_, rfl, branch_fits alive targeted depth target found valid (clean alive)⟩
  | branchIf depth =>
      simp only [Module.linear, bind_succeeds_iff, Module.target_succeeds_iff, pure_succeeds_iff]
        at lowered
      obtain ⟨target, found, rfl⟩ := lowered
      exact ⟨_, rfl, 0, clean alive,
        branch_if_fits alive ends targeted depth target found valid (clean alive)⟩

end Leaves

variable (code : LinearModule) (linear : LinearFunc)

/-- At every position in the linear code of an instruction that is valid and clean there is one that
fits. -/
def LinearFits (module : Module) (func : Func) (heights : Nat → Nat → Prop) (instr : Instr) :
    Prop :=
  ∀ (labels targets : List Nat) (operands after : Operands) (here : Nat)
    (piece : List LinearInstr),
    module.linear func targets here instr = .ok piece → linear.Holds here piece →
    Indexed.validate (module.surroundings func) labels operands (instr.indexed module func) =
      some after →
    Indexed.Clean (module.surroundings func) labels operands (instr.indexed module func) →
    (∀ position height, At module func labels operands here position height instr →
      heights position height) →
    Goes heights after (here + instr.linearSize) → Targeted heights labels targets →
    ∀ position height, At module func labels operands here position height instr →
      ∃ found, linear.code[position]? = some found ∧
        found.Fits code linear heights position height

def AllLinearFit (module : Module) (func : Func) (heights : Nat → Nat → Prop)
    (instrs : List Instr) : Prop :=
  ∀ (labels targets : List Nat) (operands after : Operands) (here : Nat)
    (piece : List LinearInstr),
    module.linearAll func targets here instrs = .ok piece → linear.Holds here piece →
    Indexed.validateAll (module.surroundings func) labels operands
      (allIndexed module func instrs) = some after →
    Indexed.CleanAll (module.surroundings func) labels operands (allIndexed module func instrs) →
    (∀ position height, AtAll module func labels operands here position height instrs →
      heights position height) →
    Goes heights after (here + linearSizes instrs) → Targeted heights labels targets →
    ∀ position height, AtAll module func labels operands here position height instrs →
      ∃ found, linear.code[position]? = some found ∧
        found.Fits code linear heights position height

variable {code linear}

theorem block_fits (body : List Instr) (inBody : AllLinearFit code linear module func heights body) :
    (block body).LinearFits code linear module func heights := by
  intro labels targets operands after here piece lowered holds valid clean inside ends targeted
    position height there
  obtain ⟨alive, there⟩ := there
  obtain ⟨bare, cleanBody, _⟩ := clean alive
  obtain ⟨rfl, inner, done, none⟩ := body_ends_bare (allIndexed module func body) valid
  have stop : heights (here + linearSizes body) 0 := by
    rw [← bare]
    exact ends alive
  exact inBody (0 :: labels) _ .empty inner here piece lowered holds done cleanBody
    (fun _ _ at_ => inside _ _ ⟨alive, at_⟩) (fun _ => by rw [none]; exact stop)
    (targeted_inside _ stop targeted) position height there

theorem loop_fits (body : List Instr) (inBody : AllLinearFit code linear module func heights body) :
    (loop body).LinearFits code linear module func heights := by
  intro labels targets operands after here piece lowered holds valid clean inside ends targeted
    position height there
  obtain ⟨alive, there⟩ := there
  obtain ⟨bare, cleanBody, _⟩ := clean alive
  have start := at_start labels operands after here (.loop body) valid clean inside ends alive
  rw [bare] at start
  obtain ⟨rfl, inner, done, none⟩ := body_ends_bare (allIndexed module func body) valid
  exact inBody (0 :: labels) _ .empty inner here piece lowered holds done cleanBody
    (fun _ _ at_ => inside _ _ ⟨alive, at_⟩) (fun _ => by rw [none, ← bare]; exact ends alive)
    (targeted_inside _ start targeted) position height there

/-- A condition takes its test, both arms start and end without operands, and so does the jump
between them. -/
theorem cond_fits (body orelse : List Instr)
    (inBody : AllLinearFit code linear module func heights body)
    (inElse : AllLinearFit code linear module func heights orelse) :
    (cond body orelse).LinearFits code linear module func heights := by
  intro labels targets operands after here piece lowered holds valid clean inside ends targeted
    position height there
  obtain ⟨alive, there⟩ := there
  obtain ⟨tested, ⟨cleanBody, _⟩, cleanElse, _⟩ := clean alive
  simp only [Module.linear, bind_succeeds_iff, pure_succeeds_iff] at lowered
  obtain ⟨first, firstDone, second, secondDone, rfl⟩ := lowered
  rw [List.cons_append, LinearFunc.holds_cons, LinearFunc.holds_append, LinearFunc.holds_cons,
    linear_all_length module func _ _ body first firstDone] at holds
  obtain ⟨fetched, holdsFirst, jumps, holdsSecond⟩ := holds
  simp only [indexed, Indexed.validate] at valid
  split at valid
  · rename_i rest popped
    split at valid
    · rename_i closes
      cases valid
      obtain ⟨inner, done, none⟩ := ends_bare _ closes.1
      obtain ⟨other, otherDone, otherNone⟩ := ends_bare _ closes.2
      obtain ⟨aliveAfter, count⟩ := Operands.pop_alive _ _ _ alive popped
      have size : here + (cond body orelse).linearSize =
          here + 1 + linearSizes body + 1 + linearSizes orelse := by
        simp only [linearSize]
        omega
      have stop : heights (here + 1 + linearSizes body + 1 + linearSizes orelse) 0 := by
        have behind := ends aliveAfter
        rwa [size, show after.count = 0 by omega] at behind
      have inFirst := fun position height at_ =>
        inside position height ⟨alive, Or.inr (Or.inl at_)⟩
      have inSecond := fun position height at_ =>
        inside position height ⟨alive, Or.inr (Or.inr (Or.inr at_))⟩
      have firstEnds : Goes heights inner (here + 1 + linearSizes body) := fun aliveInner =>
        inside _ _ ⟨alive, Or.inr (Or.inr (Or.inl ⟨rfl, inner, done, aliveInner, rfl⟩))⟩
      have secondEnds : Goes heights other
          (here + 1 + linearSizes body + 1 + linearSizes orelse) := fun _ => by
        rw [otherNone]
        exact stop
      have within := targeted_inside _ stop targeted
      -- The position is that of the test, in the first arm, of the jump between the arms, or in the
      -- second arm.
      rcases there with ⟨rfl, rfl⟩ | there | ⟨rfl, last, lastDone, _, rfl⟩ | there
      · exact ⟨_, fetched, 0, tested,
          at_start_all _ _ other _ orelse otherDone cleanElse inSecond secondEnds rfl,
          at_start_all _ _ inner _ body done cleanBody inFirst firstEnds rfl⟩
      · exact inBody _ _ _ inner _ first firstDone holdsFirst done cleanBody inFirst firstEnds
          within position height there
      · rw [done] at lastDone
        cases lastDone
        refine ⟨_, jumps, ?_⟩
        rw [none]
        exact stop
      · exact inElse _ _ _ other _ second secondDone holdsSecond otherDone cleanElse inSecond
          secondEnds within position height there
    · cases valid
  · cases valid

theorem sequence_fits (first : Instr) (rest : List Instr)
    (inFirst : first.LinearFits code linear module func heights)
    (inRest : AllLinearFit code linear module func heights rest) :
    AllLinearFit code linear module func heights (first :: rest) := by
  intro labels targets operands after here piece lowered holds valid clean inside ends targeted
    position height there
  simp only [Module.linearAll, bind_succeeds_iff, pure_succeeds_iff] at lowered
  obtain ⟨head, headDone, tail, tailDone, rfl⟩ := lowered
  rw [LinearFunc.holds_append, linear_length module func _ _ first head headDone] at holds
  simp only [allIndexed, Indexed.validateAll] at valid
  split at valid
  · rename_i middle done
    have further := fun position height at_ =>
      inside position height (Or.inr ⟨middle, done, at_⟩)
    have stop : here + linearSizes (first :: rest) =
        here + first.linearSize + linearSizes rest := by
      rw [Nat.add_assoc]
      rfl
    rw [stop] at ends
    rcases there with there | ⟨other, doneToo, there⟩
    · exact inFirst labels targets operands middle here head headDone holds.1 done clean.1
        (fun _ _ at_ => inside _ _ (Or.inl at_))
        (at_start_all labels middle after _ rest valid (clean.2 middle done) further ends)
        targeted position height there
    · rw [done] at doneToo
      cases doneToo
      exact inRest labels targets middle after _ tail tailDone holds.2 valid
        (clean.2 middle done) further ends targeted position height there
  · cases valid

mutual

theorem at_fits (linearized : module.linearize = .ok code)
    (slots : linear.params + linear.locals = (module.surroundings func).slots)
    (globals : code.globals.length = (module.surroundings func).globals) (instr : Instr) :
    instr.LinearFits code linear module func heights := by
  cases instr with
  | const _ | localGet _ | localSet _ | globalGet _ | globalSet _ | call _ | binary _ | drop | ret
    | unreachable | branch _ | branchIf _ =>
      intro labels targets operands after here piece lowered holds valid clean inside ends
        targeted position height there
      obtain ⟨alive, rfl, rfl⟩ := there
      obtain ⟨found, rfl, fits⟩ := leaf_fits linearized slots globals alive ends targeted _
        (by trivial) piece lowered valid clean
      exact ⟨found, holds.fetched, fits⟩
  | block body => exact block_fits body (at_all_fits linearized slots globals body)
  | loop body => exact loop_fits body (at_all_fits linearized slots globals body)
  | cond body orelse =>
      exact cond_fits body orelse (at_all_fits linearized slots globals body)
        (at_all_fits linearized slots globals orelse)
termination_by structural instr

theorem at_all_fits (linearized : module.linearize = .ok code)
    (slots : linear.params + linear.locals = (module.surroundings func).slots)
    (globals : code.globals.length = (module.surroundings func).globals) (instrs : List Instr) :
    AllLinearFit code linear module func heights instrs := by
  cases instrs with
  | nil =>
      intro labels targets operands after here piece lowered holds valid clean inside ends
        targeted position height there
      cases there
  | cons first rest =>
      exact sequence_fits first rest (at_fits linearized slots globals first)
        (at_all_fits linearized slots globals rest)
termination_by structural instrs

end

end Pieces

end Instr

theorem linearized_globals (module : Module) (code : LinearModule)
    (linearized : module.linearize = .ok code) : code.globals.length = module.globals.length := by
  simp only [Module.linearize, bind_succeeds_iff, pure_succeeds_iff] at linearized
  obtain ⟨_, _, rfl⟩ := linearized
  exact List.length_map _

/-- The operands at every position of a valid and clean function are known. The body leaves its
result at the return behind it. -/
theorem measured_of_valid (module : Module) (code : LinearModule)
    (linearized : module.linearize = .ok code) (func : Func) (linear : LinearFunc)
    (form : module.linearFunc func = .ok linear) (valid : func.Valid module)
    (clean : func.Clean module) : linear.Measured code (func.At module) := by
  obtain ⟨piece, lowered, _, params, locals, holds⟩ :=
    linear_func_succeeds module func linear form
  rw [LinearFunc.holds_append, Nat.zero_add, LinearFunc.holds_cons,
    Instr.linear_all_length module func _ _ func.body piece lowered] at holds
  obtain ⟨after, done, closes⟩ : ∃ after, Indexed.validateAll (module.surroundings func) [1] .empty
      (func.indexed module) = some after ∧ after.closes 1 = true :=
    (Option.any_eq_true _ _).mp valid
  have ends : Instr.Goes (func.At module) after (0 + Instr.linearSizes func.body) := fun alive =>
    Or.inr ⟨Nat.zero_add _, after, done, alive, rfl⟩
  constructor
  · exact Instr.at_start_all [1] .empty after 0 func.body done clean (fun _ _ => Or.inl) ends rfl
  · intro position height there
    rcases there with inBody | ⟨rfl, last, lastDone, alive, rfl⟩
    · apply Instr.at_all_fits linearized (by rw [params, locals]; rfl)
        (linearized_globals module code linearized) func.body [1] _ .empty after 0 piece lowered
        holds.1 done clean (fun _ _ => Or.inl) ends ?_ position height inBody
      intro depth target _ label
      cases depth <;> cases label
    · have same : after = last := Option.some.inj (done.symm.trans lastDone)
      obtain ⟨rest, popped, none⟩ := (Option.any_eq_true _ _).mp closes
      obtain ⟨_, count⟩ := Operands.pop_alive _ _ _ (same ▸ alive) popped
      have single : last.count = 1 := by
        rw [← same, count, of_decide_eq_true none]
      exact ⟨.ret, holds.2.1, single⟩

end ScriptWasm
