import ScriptWasm.Proofs.Code.Binary.Contents
import ScriptWasm.Proofs.Code.Discards
import ScriptWasm.Proofs.Code.Execution
import ScriptWasm.Proofs.Machine.Heights
import ScriptWasm.Proofs.Typing.Decision

/-!
Structured code leaves the operands on the stack that a branch discards. They end up below the
operands that the binary form has, and tidy code does not see them there: it runs in the same way
whatever lies below its operands, and a branch that discards something goes to where the function
has no operands at all. What else the two may differ in is that only one of them bounds the calls.
-/

namespace ScriptWasm

set_option autoImplicit false

namespace Activation

def onto (state : Activation) (below : List Word) : Activation :=
  state.withStack (state.stack ++ below)

variable (state : Activation) (below : List Word)

theorem read_slot_onto (slot : Nat) :
    (state.onto below).readSlot slot = (state.readSlot slot).map fun after => after.onto below := by
  have slots : (state.onto below).slots = state.slots := rfl
  unfold readSlot
  rw [slots]
  cases state.slots[slot]? with
  | none => rfl
  | some value => rfl

theorem read_global_onto (index : Nat) :
    (state.onto below).readGlobal index =
      (state.readGlobal index).map fun after => after.onto below := by
  have store : (state.onto below).store = state.store := rfl
  unfold readGlobal
  rw [store]
  cases state.store.globals[index]? with
  | none => rfl
  | some value => rfl

variable {state}

theorem pop_top {value : Word} {rest : List Word} (stack : state.stack = value :: rest) :
    state.pop = .ok (value, state.withStack rest) := by
  simp only [pop, stack]

theorem pop_onto {value : Word} {rest : List Word} (stack : state.stack = value :: rest) :
    (state.onto below).pop = .ok (value, (state.withStack rest).onto below) := by
  simp only [pop, onto, withStack, stack, List.cons_append]

theorem write_slot_onto (slot : Nat) {value : Word} {rest : List Word}
    (stack : state.stack = value :: rest) :
    (state.onto below).writeSlot slot =
      (state.writeSlot slot).map fun after => after.onto below := by
  unfold writeSlot
  rw [pop_onto below stack, pop_top stack, ok_bind, ok_bind]
  change (if slot < state.slots.size then _ else _) = _
  dsimp only
  split <;> rfl

theorem write_global_onto (index : Nat) {value : Word} {rest : List Word}
    (stack : state.stack = value :: rest) :
    (state.onto below).writeGlobal index =
      (state.writeGlobal index).map fun after => after.onto below := by
  unfold writeGlobal
  rw [pop_onto below stack, pop_top stack, ok_bind, ok_bind]
  change (if index < state.store.globals.size then _ else _) = _
  dsimp only
  split <;> rfl

theorem operate_onto (op : WordOp) {right left : Word} {rest : List Word}
    (stack : state.stack = right :: left :: rest) :
    (state.onto below).operate op = (state.operate op).map fun after => after.onto below := by
  simp only [operate, onto, withStack, stack, List.cons_append]
  cases op.apply left right <;> rfl

theorem take_args_onto (count : Nat) (stack : List Word) (enough : count ≤ stack.length) :
    Run.takeArgs count stack = some ((stack.take count).reverse, stack.drop count) ∧
      Run.takeArgs count (stack ++ below) =
        some ((stack.take count).reverse, stack.drop count ++ below) := by
  unfold Run.takeArgs
  rw [if_pos enough, if_pos (by rw [List.length_append]; omega),
    List.take_append_of_le_length enough, List.drop_append_of_le_length enough]
  exact ⟨rfl, rfl⟩

theorem call_host_onto (primitive : HostImport) (enough : primitive.arity ≤ state.stack.length) :
    (state.onto below).callHost primitive =
      (state.callHost primitive).map fun after => after.onto below := by
  obtain ⟨alone, atop⟩ := take_args_onto below primitive.arity state.stack enough
  simp only [callHost, onto, withStack, alone, atop]
  cases primitive.call _ state.store.events <;> rfl

theorem drop_onto {value : Word} {rest : List Word} (stack : state.stack = value :: rest) :
    (state.onto below).pop.map Prod.snd =
      (state.pop.map Prod.snd).map fun after => after.onto below := by
  rw [pop_onto below stack, pop_top stack]
  rfl

theorem call_host_count (primitive : HostImport) (enough : primitive.arity ≤ state.stack.length)
    (next : Activation) (done : state.callHost primitive = .ok next) :
    next.stack.length = state.stack.length - primitive.arity + 1 := by
  simp only [callHost, (take_args_onto [] primitive.arity state.stack enough).1,
    bind_succeeds_iff, Prod.exists, pure_succeeds_iff] at done
  obtain ⟨answer, events, _, rfl⟩ := done
  simp only [List.length_cons, List.length_drop]

end Activation

section Counts

variable {state next : Activation}

theorem count_after_read_slot (slot : Nat) (done : state.readSlot slot = .ok next) :
    next.stack.length = state.stack.length + 1 := by
  unfold Activation.readSlot at done
  split at done <;> cases done
  rfl

theorem count_after_read_global (index : Nat) (done : state.readGlobal index = .ok next) :
    next.stack.length = state.stack.length + 1 := by
  unfold Activation.readGlobal at done
  split at done <;> cases done
  rfl

theorem stack_after_write_slot (slot : Nat) {value : Word} {rest : List Word}
    (stack : state.stack = value :: rest) (done : state.writeSlot slot = .ok next) :
    next.stack = rest := by
  unfold Activation.writeSlot at done
  rw [Activation.pop_top stack, ok_bind] at done
  dsimp only at done
  split at done <;> cases done
  rfl

theorem stack_after_write_global (index : Nat) {value : Word} {rest : List Word}
    (stack : state.stack = value :: rest) (done : state.writeGlobal index = .ok next) :
    next.stack = rest := by
  unfold Activation.writeGlobal at done
  rw [Activation.pop_top stack, ok_bind] at done
  dsimp only at done
  split at done <;> cases done
  rfl

theorem count_after_operation (op : WordOp) {right left : Word} {rest : List Word}
    (stack : state.stack = right :: left :: rest) (done : state.operate op = .ok next) :
    next.stack.length = rest.length + 1 := by
  simp only [Activation.operate, stack] at done
  split at done <;> cases done
  rfl

end Counts

/-- A structured body that is open: how many operands a branch to it takes along, how many operands
the function has below it, and what the machine has there. -/
structure OpenBody where
  arity : Nat
  height : Nat
  below : List Word

/-- What the machine may have below the operands of a body: anything if the function has no operands
there, and else just what was there when the body was entered. -/
def OpenBody.Keeps (body : OpenBody) (below : List Word) : Prop :=
  body.height ≠ 0 → below = body.below

/-- A body inside others. Where it was entered with as many operands as one of them, nothing was put
on the stack between. -/
def OpenBody.Inside (body : OpenBody) (outer : List OpenBody) : Prop :=
  ∀ other ∈ outer, other.height ≤ body.height ∧
    (other.height = body.height → body.Keeps other.below)

def OpenBody.entered (body : OpenBody) (operands below : List Word) : OpenBody :=
  ⟨0, body.height + operands.length, operands ++ below⟩

theorem OpenBody.Inside.entered {body : OpenBody} {outer : List OpenBody}
    (inside : body.Inside outer) (operands below : List Word) (keeps : body.Keeps below) :
    (body.entered operands below).Inside (body :: outer) := by
  have emptied : body.height = body.height + operands.length → operands = [] := fun same =>
    List.length_eq_zero_iff.mp (by omega)
  refine List.forall_mem_cons.mpr ⟨⟨Nat.le_add_right _ _, fun same occupied => ?_⟩,
    fun other member => ?_⟩
  · change body.height = body.height + operands.length at same
    rw [emptied same] at occupied ⊢
    exact (keeps occupied).symm
  · obtain ⟨lower, level⟩ := inside other member
    refine ⟨Nat.le_trans lower (Nat.le_add_right _ _), fun same occupied => ?_⟩
    change other.height = body.height + operands.length at same
    have here : body.height = body.height + operands.length := by omega
    rw [emptied here] at occupied ⊢
    exact (level (by omega) occupied).trans (keeps occupied).symm

/-- Structured code and its binary form end in the same way, unless there are too many calls open.
What the machine has below the operands does not matter where the function has none. -/
inductive EndsAlike (limit : Nat) (body : OpenBody) (outer : List OpenBody) (after : Operands) :
    Option Exit → Option Exit → Prop where
  | unanswered : EndsAlike limit body outer after none none
  | next (state : Activation) (below : List Word) (alive : after.dead = false)
      (count : state.stack.length = after.count) (keeps : body.Keeps below) :
      EndsAlike limit body outer after (some (.next (state.onto below))) (some (.next state))
  | branch (depth : Nat) (state : Activation) (below : List Word) (target : OpenBody)
      (found : (body :: outer)[depth]? = some target) (taken : target.arity ≤ state.stack.length)
      (keeps : target.Keeps (state.stack ++ below)) :
      EndsAlike limit body outer after (some (.branch depth (state.onto below)))
        (some (.branch depth state))
  | returned (value : Word) (state other : Activation) (store : other.store = state.store) :
      EndsAlike limit body outer after (some (.returned value other)) (some (.returned value state))
  | trapped (error : RuntimeError) (state other : Activation) (store : other.store = state.store) :
      EndsAlike limit body outer after (some (.trapped error other)) (some (.trapped error state))
  | exhausted (state : Activation) (exit : Option Exit) :
      EndsAlike limit body outer after (some (.trapped (.callStackExhausted limit) state)) exit

/-- Operands above a body that was entered are those above the body around it, as long as the
machine keeps what was there. -/
theorem OpenBody.Keeps.of_entered {body : OpenBody} {operands below stack : List Word}
    (keeps : body.Keeps below) (inner : (body.entered operands below).Keeps stack) :
    ∃ rest, stack = operands ++ rest ∧ body.Keeps rest := by
  by_cases none : body.height + operands.length = 0
  · have empty : operands = [] := List.length_eq_zero_iff.mp (by omega)
    exact ⟨stack, by rw [empty, List.nil_append], fun occupied => absurd (by omega) occupied⟩
  · exact ⟨below, inner none, keeps⟩

section Exits

variable {limit : Nat} {body : OpenBody} {outer : List OpenBody} {middle after : Operands}

theorem alike_settle (state : Activation) (below : List Word)
    (operation : Except RuntimeError Activation) (alive : after.dead = false)
    (count : ∀ next, operation = .ok next → next.stack.length = after.count)
    (keeps : body.Keeps below) :
    EndsAlike limit body outer after
      (some ((state.onto below).settle (operation.map fun next => next.onto below)))
      (some (state.settle operation)) := by
  cases operation with
  | ok next => exact .next next below alive (count next rfl) keeps
  | error error => exact .trapped error state _ rfl

theorem alike_then (first second : Option Exit) (rest other : Activation → Option Exit)
    (alike : EndsAlike limit body outer middle first second)
    (later : ∀ state below, middle.dead = false → state.stack.length = middle.count →
      body.Keeps below → EndsAlike limit body outer after (rest (state.onto below)) (other state)) :
    EndsAlike limit body outer after (Exit.andThen rest first) (Exit.andThen other second) := by
  cases alike with
  | unanswered => exact .unanswered
  | next state below alive count keeps => exact later state below alive count keeps
  | branch depth state below target found taken keeps =>
      exact .branch depth state below target found taken keeps
  | returned value state other store => exact .returned value state other store
  | trapped error state other store => exact .trapped error state other store
  | exhausted state exit => exact .exhausted state _

/-- A body that ends without operands, or is left by a branch, leaves those that were there when it
was entered. -/
theorem alike_above (operands below : List Word) (first second : Option Exit)
    (keeps : body.Keeps below) (alive : after.dead = false) (count : operands.length = after.count)
    (bare : middle.dead = false → middle.count = 0)
    (alike : EndsAlike limit (body.entered operands below) (body :: outer) middle first second) :
    EndsAlike limit body outer after (first.map Exit.outOfBody)
      (second.map (Exit.above operands)) := by
  cases alike with
  | unanswered => exact .unanswered
  | next state rest alive' count' keeps' =>
      have empty : state.stack = [] := List.length_eq_zero_iff.mp (count'.trans (bare alive'))
      obtain ⟨kept, rfl, keepsToo⟩ := keeps.of_entered keeps'
      have same : state.onto (operands ++ kept) =
          (state.withStack (state.stack ++ operands)).onto kept := by
        simp [Activation.onto, Activation.withStack]
      change EndsAlike limit body outer after (some (.next (state.onto (operands ++ kept))))
        (some (.next (state.withStack (state.stack ++ operands))))
      rw [same]
      exact .next _ kept alive (by simp [Activation.withStack, empty, count]) keepsToo
  | branch depth state rest target found taken keeps' =>
      cases depth with
      | zero =>
          cases found
          obtain ⟨kept, same, keepsToo⟩ := keeps.of_entered keeps'
          have there : state.onto rest = (state.withStack operands).onto kept := by
            simp [Activation.onto, Activation.withStack, same]
          rw [Option.map_some, Exit.outOfBody, there]
          exact .next _ kept alive count keepsToo
      | succ depth => exact .branch depth state rest target found taken keeps'
  | returned value state other store => exact .returned value state other store
  | trapped error state other store => exact .trapped error state other store
  | exhausted state exit => exact .exhausted state _

/-- A loop whose body ends alike ends alike: a branch to its start finds the operands that were
there when it was entered, or the machine has some more of them where the function has none. -/
theorem alike_loop (operands below : List Word) (inside other : Activation → Option Exit)
    (keeps : body.Keeps below) (alive : after.dead = false) (count : operands.length = after.count)
    (bare : middle.dead = false → middle.count = 0)
    (alike : ∀ (state : Activation) (rest : List Word), state.stack = [] →
      (body.entered operands below).Keeps rest →
      EndsAlike limit (body.entered operands below) (body :: outer) middle
        (inside (state.onto rest)) (other state))
    (fuel : Nat) (state : Activation) (rest : List Word)
    (here : (body.entered operands below).Keeps rest) :
    EndsAlike limit body outer after (runLoop inside fuel ((state.withStack []).onto rest))
      (repeatBody other operands fuel state) := by
  induction fuel generalizing state rest with
  | zero => exact .unanswered
  | succ fuel induction =>
      have round := alike (state.withStack []) rest rfl here
      unfold runLoop repeatBody
      generalize inside ((state.withStack []).onto rest) = first at round ⊢
      generalize other (state.withStack []) = second at round ⊢
      have ends := alike_above operands below first second keeps alive count bare round
      cases round with
      | branch depth again rest' target found taken keeps' =>
          cases depth with
          | zero =>
              cases found
              exact induction again (again.stack ++ rest') keeps'
          | succ depth => exact ends
      | unanswered => exact ends
      | next state below alive count keeps => exact ends
      | returned value state other store => exact ends
      | trapped error state other store => exact ends
      | exhausted state exit => exact .exhausted state _

/-- A branch that goes to where the function has no operands, or discards none, lands alike. -/
theorem alike_branch (body : OpenBody) (outer : List OpenBody) (inside : body.Inside outer)
    (after : Operands) (depth taken : Nat)
    (found : ((body :: outer).map OpenBody.arity)[depth]? = some taken) (state : Activation)
    (below : List Word) (enough : taken ≤ state.stack.length) (keeps : body.Keeps below)
    (lands : ∀ height, ((body :: outer).map OpenBody.height)[depth]? = some height →
      height = 0 ∨ body.height + state.stack.length = height) :
    EndsAlike limit body outer after (some (.branch depth (state.onto below)))
      (some (.branch depth state)) := by
  rw [List.getElem?_map, Option.map_eq_some_iff] at found
  obtain ⟨target, there, rfl⟩ := found
  refine .branch depth state below target there enough fun occupied => ?_
  have level : body.height + state.stack.length = target.height :=
    (lands target.height (by rw [List.getElem?_map, there]; rfl)).resolve_left occupied
  rcases List.mem_cons.mp (List.mem_of_getElem? there) with rfl | member
  · have empty : state.stack = [] := List.length_eq_zero_iff.mp (by omega)
    rw [empty]
    exact keeps occupied
  · obtain ⟨lower, same⟩ := inside target member
    have empty : state.stack = [] := List.length_eq_zero_iff.mp (by omega)
    have equal : target.height = body.height := by omega
    rw [empty]
    exact (keeps (equal ▸ occupied)).trans (same equal (equal ▸ occupied)).symm

end Exits

/-- A call with the arguments that its function takes has the same outcome by both ways of running
code, unless there are too many open. -/
def Calling.Alike (module : Module) (limit : Nat) (call other : Calling) : Prop :=
  ∀ index func args store, module.allFunctions[index]? = some func →
    args.length = func.params.length → call index args store = other index args store ∨
      ∃ last, call index args store = some (.error (.callStackExhausted limit), last)

section Runs

variable (module : Module) (func : Func)

theorem import_of_primitive (primitive : HostImport) :
    module.indexed.imports[primitive.index]? =
      some ⟨HostImport.moduleName, primitive.name, primitive.arity, 1⟩ := by
  cases primitive <;> rfl

theorem function_of_index (index : Nat) (callee : Func)
    (found : module.allFunctions[index]? = some callee) :
    module.indexed.functions[index]? =
      some ⟨callee.params.length, 1, callee.locals.length, callee.indexed module⟩ := by
  simp only [Module.indexed, List.getElem?_map, found, Option.map_some]

theorem function_of_arity (index arity : Nat)
    (known : module.arities[Binary.calleeIndex (.function index)]? = some arity) :
    ∃ callee, module.allFunctions[index]? = some callee ∧ callee.params.length = arity := by
  rw [Module.arities, Binary.calleeIndex, List.getElem?_append_right (by simp), List.length_map,
    Nat.add_sub_cancel_left, List.getElem?_map, Option.map_eq_some_iff] at known
  exact known

/-- Where a word can be popped there is one. -/
theorem stack_of_pop (state : Activation) (operands rest : Operands) (wanted : Nat)
    (alive : operands.dead = false) (popped : operands.pop (wanted + 1) = some rest)
    (count : state.stack.length = operands.count) :
    ∃ value stack, state.stack = value :: stack ∧ stack.length = rest.count + wanted ∧
      rest.dead = false := by
  obtain ⟨aliveAfter, enough⟩ := Operands.pop_alive _ _ _ alive popped
  obtain ⟨value, stack, same⟩ := List.exists_cons_of_length_eq_add_one
    (show state.stack.length = rest.count + wanted + 1 by omega)
  refine ⟨value, stack, same, ?_, aliveAfter⟩
  rw [same, List.length_cons] at count
  omega

variable (limit : Nat) (call other : Calling) (fuel : Nat) (body : OpenBody) (outer : List OpenBody)

namespace Instr

/-- Inside the given bodies an instruction runs alike in both forms where it is valid and tidy,
whatever the machine has below its operands. -/
def RunsAlike (instr : Instr) : Prop :=
  ∀ operands after : Operands, operands.dead = false →
    Indexed.validate (module.surroundings func) ((body :: outer).map OpenBody.arity) operands
      (instr.indexed module func) = some after →
    Indexed.Tidy (module.surroundings func) ((body :: outer).map OpenBody.arity)
      ((body :: outer).map OpenBody.height) operands (instr.indexed module func) →
    ∀ (state : Activation) (below : List Word), state.stack.length = operands.count →
      body.Keeps below →
      EndsAlike limit body outer after (instr.run module func call fuel (state.onto below))
        ((instr.indexed module func).run module.indexed other fuel state)

def AllRunAlike (instrs : List Instr) : Prop :=
  ∀ operands after : Operands, operands.dead = false →
    Indexed.validateAll (module.surroundings func) ((body :: outer).map OpenBody.arity) operands
      (allIndexed module func instrs) = some after →
    Indexed.TidyAll (module.surroundings func) ((body :: outer).map OpenBody.arity)
      ((body :: outer).map OpenBody.height) operands (allIndexed module func instrs) →
    ∀ (state : Activation) (below : List Word), state.stack.length = operands.count →
      body.Keeps below →
      EndsAlike limit body outer after (runAll module func call fuel instrs (state.onto below))
        (Indexed.runAll module.indexed other fuel (allIndexed module func instrs) state)

theorem const_alike (value : Word) :
    (const value).RunsAlike module func limit call other fuel body outer := by
  intro operands after alive valid _ state below count keeps
  cases valid
  exact .next (state.push value) below alive (congrArg (· + 1) count) keeps

theorem local_get_alike (name : String) (named : (localGet name).Named module func) :
    (localGet name).RunsAlike module func limit call other fuel body outer := by
  intro operands after alive valid _ state below count keeps
  obtain ⟨slot, found⟩ := named
  simp only [Instr.indexed, found, Option.getD_some, Indexed.validate] at valid ⊢
  simp only [Instr.run, found, Indexed.run, Activation.read_slot_onto]
  split at valid <;> cases valid
  refine alike_settle state below _ alive (fun next done => ?_) keeps
  rw [count_after_read_slot slot done, count, Operands.push_count]

theorem global_get_alike (name : String) (named : (globalGet name).Named module func) :
    (globalGet name).RunsAlike module func limit call other fuel body outer := by
  intro operands after alive valid _ state below count keeps
  obtain ⟨index, found⟩ := named
  simp only [Instr.indexed, found, Option.getD_some, Indexed.validate] at valid ⊢
  simp only [Instr.run, found, Indexed.run, Activation.read_global_onto]
  split at valid <;> cases valid
  refine alike_settle state below _ alive (fun next done => ?_) keeps
  rw [count_after_read_global index done, count, Operands.push_count]

theorem local_set_alike (name : String) (named : (localSet name).Named module func) :
    (localSet name).RunsAlike module func limit call other fuel body outer := by
  intro operands after alive valid _ state below count keeps
  obtain ⟨slot, found⟩ := named
  simp only [Instr.indexed, found, Option.getD_some, Indexed.validate] at valid ⊢
  split at valid
  · obtain ⟨value, stack, top, left, aliveAfter⟩ :=
      stack_of_pop state operands after 0 alive valid count
    simp only [Instr.run, found, Indexed.run, Activation.write_slot_onto below slot top]
    refine alike_settle state below _ aliveAfter (fun next done => ?_) keeps
    rw [stack_after_write_slot slot top done, left]
    rfl
  · cases valid

theorem global_set_alike (name : String) (named : (globalSet name).Named module func) :
    (globalSet name).RunsAlike module func limit call other fuel body outer := by
  intro operands after alive valid _ state below count keeps
  obtain ⟨index, found⟩ := named
  simp only [Instr.indexed, found, Option.getD_some, Indexed.validate] at valid ⊢
  split at valid
  · obtain ⟨value, stack, top, left, aliveAfter⟩ :=
      stack_of_pop state operands after 0 alive valid count
    simp only [Instr.run, found, Indexed.run, Activation.write_global_onto below index top]
    refine alike_settle state below _ aliveAfter (fun next done => ?_) keeps
    rw [stack_after_write_global index top done, left]
    rfl
  · cases valid

/-- A call takes its arguments off the operands, and does not see what lies below them. -/
theorem call_alike (calls : Calling.Alike module limit call other) (name : String)
    (named : (Instr.call name).Named module func) :
    (Instr.call name).RunsAlike module func limit call other fuel body outer := by
  intro operands after alive valid _ state below count keeps
  obtain ⟨callee, found⟩ := named
  simp only [Instr.indexed, found, Option.map_some, Option.getD_some, Indexed.validate] at valid ⊢
  simp only [Instr.run]
  split at valid
  · rename_i arity known
    obtain ⟨rest, popped, rfl⟩ := Option.map_eq_some_iff.mp valid
    obtain ⟨aliveAfter, enough⟩ := Operands.pop_alive _ _ _ alive popped
    cases callee with
    | primitive primitive =>
        have takes : primitive.arity = arity := Instr.arity_of_primitive primitive arity known
        have named : HostImport.ofName? primitive.name = some primitive :=
          (primitive_of_name_iff _ _).mpr rfl
        simp only [Instr.runCall, found, Indexed.run, Indexed.runCall, Binary.calleeIndex,
          import_of_primitive, named]
        rw [Activation.call_host_onto below primitive (by omega)]
        refine alike_settle state below _ aliveAfter (fun next done => ?_) keeps
        rw [Activation.call_host_count primitive (by omega) next done, Operands.push_count]
        omega
    | function index =>
        obtain ⟨target, there, takes⟩ := function_of_arity module index arity known
        have beyond : module.indexed.imports[HostImport.all.length + index]? = none := by
          rw [List.getElem?_eq_none_iff]
          simp [Module.indexed]
        have position : HostImport.all.length + index - module.indexed.imports.length = index := by
          simp [Module.indexed]
        simp only [Instr.runCall, found, there, Indexed.run, Indexed.runCall, Binary.calleeIndex,
          beyond, position, function_of_index module index target there]
        obtain ⟨alone, atop⟩ := Activation.take_args_onto below target.params.length state.stack
          (by omega)
        rw [alone, show (state.onto below).stack = state.stack ++ below from rfl, atop]
        dsimp only
        rcases calls index target (state.stack.take target.params.length).reverse state.store there
          (by rw [List.length_reverse, List.length_take]; omega) with same | ⟨last, full⟩
        · rw [show (state.onto below).store = state.store from rfl, same]
          cases other index _ state.store with
          | none => exact .unanswered
          | some outcome =>
              obtain ⟨result, store⟩ := outcome
              cases result with
              | ok value =>
                  refine .next { state with stack := value :: state.stack.drop _, store } below
                    aliveAfter ?_ keeps
                  simp only [List.length_cons, List.length_drop, Operands.push_count]
                  omega
              | error error => exact .trapped error _ _ rfl
        · rw [show (state.onto below).store = state.store from rfl, full]
          exact .exhausted _ _
  · cases valid

theorem binary_alike (op : WordOp) :
    (binary op).RunsAlike module func limit call other fuel body outer := by
  intro operands after alive valid _ state below count keeps
  obtain ⟨rest, popped, rfl⟩ := Option.map_eq_some_iff.mp valid
  obtain ⟨right, stack, top, leftCount, aliveAfter⟩ :=
    stack_of_pop state operands rest 1 alive popped count
  obtain ⟨left, others, rfl⟩ := List.exists_cons_of_length_eq_add_one leftCount
  simp only [Instr.run, Instr.indexed, Indexed.run, Activation.operate_onto below op top]
  refine alike_settle state below _ aliveAfter (fun next done => ?_) keeps
  rw [count_after_operation op top done, Operands.push_count, ← leftCount, List.length_cons]

theorem drop_alike : drop.RunsAlike module func limit call other fuel body outer := by
  intro operands after alive valid _ state below count keeps
  obtain ⟨value, stack, top, left, aliveAfter⟩ :=
    stack_of_pop state operands after 0 alive valid count
  simp only [Instr.run, Instr.indexed, Indexed.run, Activation.drop_onto below top]
  refine alike_settle state below _ aliveAfter (fun next done => ?_) keeps
  rw [Activation.pop_top top] at done
  cases done
  exact left

theorem ret_alike : ret.RunsAlike module func limit call other fuel body outer := by
  intro operands after alive valid _ state below count keeps
  obtain ⟨rest, popped, rfl⟩ := Option.map_eq_some_iff.mp valid
  obtain ⟨value, stack, top, _, _⟩ := stack_of_pop state operands rest 0 alive popped count
  simp only [Instr.run, Instr.indexed, Indexed.run, Activation.leave, Activation.onto,
    Activation.withStack, top, List.cons_append]
  exact .returned value state _ rfl

theorem unreachable_alike :
    unreachable.RunsAlike module func limit call other fuel body outer := by
  intro operands after alive valid _ state below count keeps
  exact .trapped .unreachable state _ rfl

/-- The body of a structured instruction is entered above the operands that are there, and starts
without any of its own. -/
theorem body_alike (inside : body.Inside outer) (instrs : List Instr)
    (runs : ∀ body outer, body.Inside outer →
      AllRunAlike module func limit call other fuel body outer instrs)
    (state : Activation) (below : List Word) (keeps : body.Keeps below) (after ends : Operands)
    (alive : after.dead = false) (count : state.stack.length = after.count)
    (valid : Indexed.validateAll (module.surroundings func)
      (0 :: (body :: outer).map OpenBody.arity) .empty (allIndexed module func instrs) = some ends)
    (closes : ends.closes 0 = true)
    (tidy : Indexed.TidyAll (module.surroundings func) (0 :: (body :: outer).map OpenBody.arity)
      ((body.height + state.stack.length) :: (body :: outer).map OpenBody.height) .empty
      (allIndexed module func instrs)) :
    EndsAlike limit body outer after
      ((runAll module func call fuel instrs (state.onto below)).map Exit.outOfBody)
      ((Indexed.runAll module.indexed other fuel (allIndexed module func instrs)
        (state.withStack [])).map (Exit.above state.stack)) := by
  have entered := inside.entered state.stack below keeps
  have bare := Operands.count_of_closes ends 0 closes
  apply alike_above state.stack below _ _ keeps alive count bare
  exact runs (body.entered state.stack below) (body :: outer) entered .empty ends rfl valid tidy
    (state.withStack []) (state.stack ++ below) rfl fun _ => rfl

theorem cond_alike (inside : body.Inside outer) (instrs orelse : List Instr)
    (inBody : ∀ body outer, body.Inside outer →
      AllRunAlike module func limit call other fuel body outer instrs)
    (inElse : ∀ body outer, body.Inside outer →
      AllRunAlike module func limit call other fuel body outer orelse) :
    (cond instrs orelse).RunsAlike module func limit call other fuel body outer := by
  intro operands after alive valid tidy state below count keeps
  simp only [Instr.indexed, Indexed.validate] at valid
  split at valid
  · rename_i rest popped
    split at valid
    · rename_i arms
      cases valid
      obtain ⟨test, stack, top, left, aliveAfter⟩ :=
        stack_of_pop state operands after 0 alive popped count
      obtain ⟨tidyBody, tidyElse⟩ := tidy alive
      have entered : operands.count - 1 = stack.length := by
        rw [← count, top, List.length_cons, Nat.add_sub_cancel]
      rw [entered] at tidyBody tidyElse
      obtain ⟨bodyEnd, validBody, bodyCloses⟩ := Operands.closed arms.1
      obtain ⟨elseEnd, validElse, elseCloses⟩ := Operands.closed arms.2
      simp only [Instr.run, Instr.indexed, Indexed.run, top, Activation.onto,
        Activation.withStack, List.cons_append]
      split
      · exact body_alike module func limit call other fuel body outer inside orelse inElse
          (state.withStack stack) below keeps after elseEnd aliveAfter left validElse elseCloses
          tidyElse
      · exact body_alike module func limit call other fuel body outer inside instrs inBody
          (state.withStack stack) below keeps after bodyEnd aliveAfter left validBody bodyCloses
          tidyBody
    · cases valid
  · cases valid

theorem block_alike (inside : body.Inside outer) (instrs : List Instr)
    (inBody : ∀ body outer, body.Inside outer →
      AllRunAlike module func limit call other fuel body outer instrs) :
    (block instrs).RunsAlike module func limit call other fuel body outer := by
  intro operands after alive valid tidy state below count keeps
  simp only [Instr.indexed, Indexed.validate] at valid
  split at valid
  · rename_i closed
    cases valid
    obtain ⟨ends, validBody, closes⟩ := Operands.closed closed
    have tidyBody := tidy alive
    rw [← count] at tidyBody
    exact body_alike module func limit call other fuel body outer inside instrs inBody state below
      keeps operands ends alive count validBody closes tidyBody
  · cases valid

theorem loop_alike (inside : body.Inside outer) (instrs : List Instr)
    (inBody : ∀ body outer, body.Inside outer →
      AllRunAlike module func limit call other fuel body outer instrs) :
    (loop instrs).RunsAlike module func limit call other fuel body outer := by
  intro operands after alive valid tidy state below count keeps
  simp only [Instr.indexed, Indexed.validate] at valid
  split at valid
  · rename_i closed
    cases valid
    obtain ⟨ends, validBody, closes⟩ := Operands.closed closed
    have tidyBody := tidy alive
    rw [← count] at tidyBody
    have bare := Operands.count_of_closes ends 0 closes
    refine alike_loop state.stack below _ _ keeps alive count bare (fun again rest empty here => ?_)
      fuel state (state.stack ++ below) fun _ => rfl
    exact inBody (body.entered state.stack below) (body :: outer)
      (inside.entered state.stack below keeps) .empty ends rfl validBody tidyBody again rest
      (by rw [empty]; rfl) here
  · cases valid

theorem branch_alike (inside : body.Inside outer) (depth : Nat) :
    (branch depth).RunsAlike module func limit call other fuel body outer := by
  intro operands after alive valid tidy state below count keeps
  simp only [Instr.indexed, Indexed.validate] at valid
  split at valid
  · rename_i taken found
    obtain ⟨rest, popped, rfl⟩ := Option.map_eq_some_iff.mp valid
    obtain ⟨_, enough⟩ := Operands.pop_alive _ _ _ alive popped
    exact alike_branch body outer inside _ depth taken found state below (by omega) keeps
      fun height there => count ▸ tidy alive height there
  · cases valid

theorem branch_if_alike (inside : body.Inside outer) (depth : Nat) :
    (branchIf depth).RunsAlike module func limit call other fuel body outer := by
  intro operands after alive valid tidy state below count keeps
  simp only [Instr.indexed, Indexed.validate] at valid
  split at valid
  · rename_i taken rest found popped
    obtain ⟨lower, poppedToo, rfl⟩ := Option.map_eq_some_iff.mp valid
    obtain ⟨test, stack, top, left, aliveRest⟩ :=
      stack_of_pop state operands rest 0 alive popped count
    obtain ⟨aliveAfter, enough⟩ := Operands.pop_alive _ _ _ aliveRest poppedToo
    simp only [Instr.run, Instr.indexed, Indexed.run, top, Activation.onto,
      Activation.withStack, List.cons_append]
    split
    · exact .next (state.withStack stack) below aliveAfter
        (by rw [Operands.push_count, ← enough]; exact left) keeps
    · have lands := tidy alive
      rw [show operands.count - 1 = stack.length by
        rw [← count, top, List.length_cons, Nat.add_sub_cancel]] at lands
      exact alike_branch body outer inside _ depth taken found (state.withStack stack) below
        (by change taken ≤ stack.length; omega) keeps lands
  · cases valid

theorem none_alike : AllRunAlike module func limit call other fuel body outer [] := by
  intro operands after alive valid _ state below count keeps
  cases valid
  exact .next _ below alive count keeps

theorem sequence_alike (first : Instr) (rest : List Instr)
    (inFirst : first.RunsAlike module func limit call other fuel body outer)
    (inRest : AllRunAlike module func limit call other fuel body outer rest) :
    AllRunAlike module func limit call other fuel body outer (first :: rest) := by
  intro operands after alive valid tidy state below count keeps
  simp only [Instr.allIndexed, Indexed.validateAll] at valid
  split at valid
  · rename_i middle validFirst
    apply alike_then _ _ _ _
      (inFirst operands middle alive validFirst tidy.1 state below count keeps)
    intro next belowNext aliveNext countNext keepsNext
    exact inRest middle after aliveNext valid (tidy.2 middle validFirst) next belowNext countNext
      keepsNext
  · cases valid

mutual

theorem run_alike (calls : Calling.Alike module limit call other) (body : OpenBody)
    (outer : List OpenBody) (inside : body.Inside outer) (instr : Instr)
    (named : instr.Named module func) :
    instr.RunsAlike module func limit call other fuel body outer := by
  cases instr with
  | const value => exact const_alike module func limit call other fuel body outer value
  | localGet name => exact local_get_alike module func limit call other fuel body outer name named
  | globalGet name => exact global_get_alike module func limit call other fuel body outer name named
  | localSet name => exact local_set_alike module func limit call other fuel body outer name named
  | globalSet name => exact global_set_alike module func limit call other fuel body outer name named
  | call name => exact call_alike module func limit call other fuel body outer calls name named
  | binary op => exact binary_alike module func limit call other fuel body outer op
  | drop => exact drop_alike module func limit call other fuel body outer
  | ret => exact ret_alike module func limit call other fuel body outer
  | unreachable => exact unreachable_alike module func limit call other fuel body outer
  | cond instrs orelse =>
      apply cond_alike module func limit call other fuel body outer inside instrs orelse
      · intro body outer inside
        exact run_all_alike calls body outer inside instrs named.1
      · intro body outer inside
        exact run_all_alike calls body outer inside orelse named.2
  | block instrs =>
      apply block_alike module func limit call other fuel body outer inside instrs
      intro body outer inside
      exact run_all_alike calls body outer inside instrs named
  | loop instrs =>
      apply loop_alike module func limit call other fuel body outer inside instrs
      intro body outer inside
      exact run_all_alike calls body outer inside instrs named
  | branch depth => exact branch_alike module func limit call other fuel body outer inside depth
  | branchIf depth =>
      exact branch_if_alike module func limit call other fuel body outer inside depth
termination_by structural instr

/-- Valid and tidy code runs alike in both forms. -/
theorem run_all_alike (calls : Calling.Alike module limit call other) (body : OpenBody)
    (outer : List OpenBody) (inside : body.Inside outer) (instrs : List Instr)
    (named : AllNamed module func instrs) :
    AllRunAlike module func limit call other fuel body outer instrs := by
  cases instrs with
  | nil => exact none_alike module func limit call other fuel body outer
  | cons first rest =>
      apply sequence_alike module func limit call other fuel body outer first rest
      · exact run_alike calls body outer inside first named.1
      · exact run_all_alike calls body outer inside rest named.2
termination_by structural instrs

end

end Instr

end Runs

end ScriptWasm
