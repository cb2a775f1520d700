import ScriptWasm.Machine.Error
import ScriptWasm.Proofs.Typing.Tables

/-!
A direct evaluator of programs. Expressions are evaluated from left to right, every call gets fresh
parameters and locals, and names that are not among them are globals. What a value is, what the
operators and builtins do with values, and what is printed are left open, so that programs can be
run on machine words as well as on values that know their type. Loops and calls take fuel, and a
run that is cut off when the fuel is spent keeps what it has done so far.
-/

namespace ScriptWasm

set_option autoImplicit false

inductive Fault where
  | unboundName (name : String)
  | unknownFunction (name : String)
  | wrongArity (func : String)
  | wrongOperand
  | notEvaluated
deriving DecidableEq, Repr

/-- Why an evaluation ends without a value. -/
inductive Halt where
  | trap (error : RuntimeError)
  | stuck (fault : Fault)
  | outOfFuel
deriving DecidableEq, Repr

/-- Values, and what operators and builtins do with them. The type that an operand was annotated
with is there for values that do not know their own. -/
structure ValueModel (Value Output : Type) where
  literal : Literal → Value
  binary : BinaryOp → Value → Value → Except Halt Value
  isNone : Option Ty → Value → Value
  negate : Value → Except Halt Value
  complement : Value → Except Halt Value
  truth : Value → Except Halt Bool
  builtin : Builtin → Option Ty → List Value → Except Halt (Value × List Output)

/-- What can be seen of a run: the value that an expression yields, and all variables in reach
whenever one of them has changed, with the function that is running. -/
inductive Observation (Value : Type) where
  | value (expr : Expr) (value : Value)
  | variables (func : Option FuncDef) (globals locals : Table Value)

structure RunState (Value Output : Type) where
  globals : Table Value
  /-- The parameters and locals of the function that is running. -/
  locals : Table Value
  /-- The value of the last expression statement of the top level. -/
  result : Value
  output : List Output
  trace : List (Observation Value)

abbrev Evaluation (Value Output Result : Type) : Type :=
  ExceptT Halt (StateM (RunState Value Output)) Result

namespace Evaluation

variable {Value Output : Type}

def yield (expr : Expr) (value : Value) : Evaluation Value Output Value := do
  modify fun state => { state with trace := state.trace ++ [.value expr value] }
  return value

def recordVariables (func : Option FuncDef) : Evaluation Value Output Unit :=
  modify fun state =>
    { state with trace := state.trace ++ [.variables func state.globals state.locals] }

def print (lines : List Output) : Evaluation Value Output Unit :=
  modify fun state => { state with output := state.output ++ lines }

def keep (value : Value) : Evaluation Value Output Unit :=
  modify fun state => { state with result := value }

def read (name : String) : Evaluation Value Output Value := do
  let state ← get
  match state.locals.get? name with
  | some value => return value
  | none =>
      match state.globals.get? name with
      | some value => return value
      | none => throw (.stuck (.unboundName name))

def write (func : Option FuncDef) (name : String) (value : Value) :
    Evaluation Value Output Unit := do
  let state ← get
  if state.locals.contains name then
    set { state with locals := state.locals.insert name value }
  else if state.globals.contains name then
    set { state with globals := state.globals.insert name value }
  else throw (.stuck (.unboundName name))
  recordVariables func

def withLocals {Result : Type} (locals : Table Value) (body : Evaluation Value Output Result) :
    Evaluation Value Output Result := do
  let before ← get
  set { before with locals }
  let result ← body
  modify fun state => { state with locals := before.locals }
  return result

def unlessReturned {Result : Type} (first rest : Evaluation Value Output (Option Result)) :
    Evaluation Value Output (Option Result) := do
  match ← first with
  | some value => return some value
  | none => rest

/-- Repeats a body as long as a test holds, and stops early when the body returns a value. -/
def repeatWhile {Result : Type} (test : Evaluation Value Output Bool)
    (body : Evaluation Value Output (Option Result)) :
    Nat → Evaluation Value Output (Option Result)
  | 0 => throw .outOfFuel
  | count + 1 => do
      if ← test then unlessReturned body (repeatWhile test body count) else return none

section Apply

variable {Result Next : Type}

theorem bind_apply (first : Evaluation Value Output Result)
    (next : Result → Evaluation Value Output Next) (state : RunState Value Output) :
    (first >>= next) state =
      match first state with
      | (.ok value, after) => next value after
      | (.error halt, after) => (.error halt, after) := by
  change ExceptT.bindCont next (first state).1 (first state).2 = _
  cases first state with
  | mk outcome after => cases outcome <;> rfl

theorem lift_apply (computation : Except Halt Result) (state : RunState Value Output) :
    (liftM computation : Evaluation Value Output Result) state = (computation, state) :=
  rfl

theorem get_apply (state : RunState Value Output) :
    (get : Evaluation Value Output (RunState Value Output)) state = (.ok state, state) :=
  rfl

theorem modify_apply (change : RunState Value Output → RunState Value Output)
    (state : RunState Value Output) :
    (modify change : Evaluation Value Output Unit) state = (.ok (), change state) :=
  rfl

theorem set_apply (state after : RunState Value Output) :
    (set after : Evaluation Value Output Unit) state = (.ok (), after) :=
  rfl

end Apply

theorem write_local (func : Option FuncDef) (name : String) (value : Value)
    (state : RunState Value Output) (isLocal : state.locals.contains name = true) :
    write func name value state = (.ok (), { state with
      locals := state.locals.insert name value
      trace := state.trace ++
        [.variables func state.globals (state.locals.insert name value)] }) := by
  simp only [write, bind_apply, get_apply, isLocal]
  rfl

theorem write_global (func : Option FuncDef) (name : String) (value : Value)
    (state : RunState Value Output) (notLocal : state.locals.contains name = false)
    (isGlobal : state.globals.contains name = true) :
    write func name value state = (.ok (), { state with
      globals := state.globals.insert name value
      trace := state.trace ++
        [.variables func (state.globals.insert name value) state.locals] }) := by
  simp only [write, bind_apply, get_apply, notLocal, isGlobal]
  rfl

end Evaluation

namespace Program

def function? (program : Program) (name : String) : Option FuncDef :=
  program.funcs.find? fun func => func.name = name

end Program

section Rules

variable {Value Output : Type} (model : ValueModel Value Output) (program : Program)
  (call : FuncDef → List Value → Evaluation Value Output Value)

def applyCallee (func : String) (args : List Expr) (values : List Value) :
    Evaluation Value Output Value := do
  match Builtin.ofName? func with
  | some builtin => do
      let (answer, lines) ← model.builtin builtin (args.head?.bind Expr.ty?) values
      Evaluation.print lines
      return answer
  | none =>
      match program.function? func with
      | some definition =>
          if values.length = definition.params.length then call definition values
          else throw (.stuck (.wrongArity func))
      | none => throw (.stuck (.unknownFunction func))

namespace Expr

mutual

@[simp] def eval : Expr → Evaluation Value Output Value
  | lit note value => Evaluation.yield (lit note value) (model.literal value)
  | name note word => do
      let value ← Evaluation.read word
      Evaluation.yield (name note word) value
  | Expr.call note func args => do
      let values ← evalAll args
      let value ← applyCallee model program call func args values
      Evaluation.yield (Expr.call note func args) value
  | binary note op left right => do
      let first ← left.eval
      if op = .is then
        if right.isNone then
          Evaluation.yield (binary note op left right) (model.isNone left.ty? first)
        else throw (.stuck .notEvaluated)
      else do
        let second ← right.eval
        let value ← model.binary op first second
        Evaluation.yield (binary note op left right) value
  | unary note .neg operand => do
      let value ← model.negate (← operand.eval)
      Evaluation.yield (unary note .neg operand) value
  | unary note .not operand => do
      let value ← model.complement (← operand.eval)
      Evaluation.yield (unary note .not operand) value
  | paren note inner => do
      let value ← inner.eval
      Evaluation.yield (paren note inner) value
  | attr _ _ _ => throw (.stuck .notEvaluated)
  | construct _ _ => throw (.stuck .notEvaluated)

@[simp] def evalAll : List Expr → Evaluation Value Output (List Value)
  | [] => return []
  | first :: rest => do
      let value ← first.eval
      return value :: (← evalAll rest)

end

def evalTest (test : Expr) : Evaluation Value Output Bool := do
  model.truth (← test.eval model program call)

end Expr

namespace Stmt

variable (func : Option FuncDef) (fuel : Nat)

mutual

/-- Runs a statement, and gives the value that it returns if it does. Outside of functions the value
of an expression statement is kept. -/
@[simp] def eval : Stmt → Evaluation Value Output (Option Value)
  | assign _ target value => do
      let value ← value.eval model program call
      Evaluation.write func target value
      return none
  | expr _ value => do
      let value ← value.eval model program call
      if func.isNone then Evaluation.keep value
      return none
  | pass _ => return none
  | fieldAssign _ _ _ _ => throw (.stuck .notEvaluated)
  | ret _ value => do
      let value ← value.eval model program call
      return some value
  | cond _ test body orelse => do
      if ← test.evalTest model program call then evalAll body else evalAll orelse
  | loop _ test body =>
      Evaluation.repeatWhile (test.evalTest model program call) (evalAll body) fuel

@[simp] def evalAll : List Stmt → Evaluation Value Output (Option Value)
  | [] => return none
  | first :: rest => Evaluation.unlessReturned first.eval (evalAll rest)

end

end Stmt

end Rules

section Runs

variable {Value Output : Type} (model : ValueModel Value Output)

/-- The variables that a call starts with: the parameters hold the arguments, and the locals their
initial values. -/
def FuncDef.frame (func : FuncDef) (values : List Value) : Table Value :=
  Table.ofList ((func.params.map Param.name).zip values ++
    func.locals.map fun var => (var.name, model.literal var.init))

/-- Runs the body of a function, where `room` more calls may be open at once. A body that is left
without a return does not go on from there. -/
def Program.call (program : Program) (limit : Nat) :
    Nat → Nat → FuncDef → List Value → Evaluation Value Output Value
  | 0, _, _, _ => throw .outOfFuel
  | fuel + 1, room, func, values =>
      if room = 0 then throw (.trap (.callStackExhausted limit))
      else Evaluation.withLocals (func.frame model values) do
        Evaluation.recordVariables (some func)
        let returned ← Stmt.evalAll model program (program.call limit fuel (room - 1)) (some func)
          fuel func.body
        match returned with
        | some value => return value
        | none => throw (.trap .unreachable)

/-- Runs the statements of the top level. The result is the value that they return, or else that of
the last expression statement that ran. -/
def Program.topLevel (program : Program) (limit : Nat) : Nat → Evaluation Value Output Value
  | 0 => throw .outOfFuel
  | fuel + 1 =>
      if limit = 0 then throw (.trap (.callStackExhausted limit))
      else do
        Evaluation.recordVariables none
        let returned ← Stmt.evalAll model program (program.call model limit fuel (limit - 1)) none
          fuel program.stmts
        match returned with
        | some value => return value
        | none => return (← get).result

def FuncDef.entered (func : FuncDef) (values : List Value) (state : RunState Value Output) :
    RunState Value Output :=
  { state with
    locals := func.frame model values
    trace := state.trace ++ [.variables (some func) state.globals (func.frame model values)] }

def ofBody (locals : Table Value) :
    Except Halt (Option Value) × RunState Value Output → Except Halt Value × RunState Value Output
  | (.ok (some value), after) => (.ok value, { after with locals })
  | (.ok none, after) => (.error (.trap .unreachable), after)
  | (.error halt, after) => (.error halt, after)

def ofTopLevel :
    Except Halt (Option Value) × RunState Value Output → Except Halt Value × RunState Value Output
  | (.ok (some value), after) => (.ok value, after)
  | (.ok none, after) => (.ok after.result, after)
  | (.error halt, after) => (.error halt, after)

theorem call_apply (program : Program) (limit fuel room : Nat) (func : FuncDef)
    (values : List Value) (state : RunState Value Output) (enough : room ≠ 0) :
    program.call model limit (fuel + 1) room func values state =
      ofBody state.locals (Stmt.evalAll model program
        (program.call model limit fuel (room - 1)) (some func) fuel func.body
        (func.entered model values state)) := by
  simp only [Program.call, if_neg enough, Evaluation.withLocals, Evaluation.bind_apply,
    Evaluation.get_apply, Evaluation.set_apply, Evaluation.recordVariables,
    Evaluation.modify_apply, FuncDef.entered]
  generalize Stmt.evalAll model program (program.call model limit fuel (room - 1)) (some func) fuel
    func.body _ = ran
  obtain ⟨outcome, after⟩ := ran
  cases outcome with
  | error halt => rfl
  | ok returned => cases returned <;> rfl

theorem top_level_apply (program : Program) (limit fuel : Nat) (state : RunState Value Output)
    (enough : limit ≠ 0) :
    program.topLevel model limit (fuel + 1) state =
      ofTopLevel (Stmt.evalAll model program (program.call model limit fuel (limit - 1)) none fuel
        program.stmts { state with
          trace := state.trace ++ [.variables none state.globals state.locals] }) := by
  simp only [Program.topLevel, if_neg enough, Evaluation.bind_apply, Evaluation.recordVariables,
    Evaluation.modify_apply]
  generalize Stmt.evalAll model program (program.call model limit fuel (limit - 1)) none fuel
    program.stmts _ = ran
  obtain ⟨outcome, after⟩ := ran
  cases outcome with
  | error halt => rfl
  | ok returned => cases returned <;> rfl

def Program.run (program : Program) (limit fuel : Nat) (globals : Table Value) :
    Except Halt Value × RunState Value Output :=
  program.topLevel model limit fuel ⟨globals, .empty, model.literal (.int 0), [], []⟩

end Runs

end ScriptWasm
