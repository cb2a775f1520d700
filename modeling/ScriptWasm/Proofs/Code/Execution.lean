import ScriptWasm.Proofs.Code.Binary.Reader
import ScriptWasm.Proofs.Machine.Structured

/-!
The meaning of the binary form by the rules of WebAssembly. Every structured body has a label and
operands of its own: it starts without any, and when a branch leaves it or starts it again the
operands that it has put on the stack are gone. The operands below it are not touched. Nothing
bounds how many calls may be open.
-/

namespace ScriptWasm

set_option autoImplicit false

/-- The end of a structured body that was entered above the given operands. Its label takes no
operands along. -/
def Exit.above (below : List Word) : Exit → Exit
  | next state => next (state.withStack (state.stack ++ below))
  | branch 0 state => next (state.withStack below)
  | branch (depth + 1) state => branch depth state
  | exit => exit

/-- Runs a loop that was entered above the given operands. A branch to its label starts the body
again, without operands. -/
def repeatBody (body : Activation → Option Exit) (below : List Word) :
    Nat → Activation → Option Exit
  | 0, _ => none
  | count + 1, state =>
      match body (state.withStack []) with
      | some (.branch 0 again) => repeatBody body below count again
      | other => other.map (Exit.above below)

namespace Indexed

section Run

variable (module : BinaryModule) (call : Calling) (fuel : Nat)

/-- Calls a function. The imports come first in the count of functions. -/
def runCall (index : Nat) (state : Activation) : Option Exit :=
  match module.imports[index]? with
  | some imported =>
      match HostImport.ofName? imported.name with
      | some primitive => some (state.settle (state.callHost primitive))
      | none => some (.trapped (.unknownFunction imported.name) state)
  | none =>
      let position := index - module.imports.length
      match module.functions[position]? with
      | none => some (.trapped (.unknownFunction (decimal position)) state)
      | some callee =>
          match Run.takeArgs callee.params state.stack with
          | none => some (.trapped .stackUnderflow state)
          | some (args, stack) => (call position args state.store).map (state.resume stack)

mutual

@[simp] def run : Indexed → Activation → Option Exit
  | const value, state => some (.next (state.push value))
  | localGet index, state => some (state.settle (state.readSlot index))
  | localSet index, state => some (state.settle (state.writeSlot index))
  | globalGet index, state => some (state.settle (state.readGlobal index))
  | globalSet index, state => some (state.settle (state.writeGlobal index))
  | Indexed.call index, state => runCall module call index state
  | binary op, state => some (state.settle (state.operate op))
  | drop, state => some (state.settle (state.pop.map Prod.snd))
  | ret, state => some state.leave
  | unreachable, state => some (.trapped .unreachable state)
  | cond body orelse, state =>
      match state.stack with
      | [] => some (.trapped .stackUnderflow state)
      | test :: below =>
          if test = 0 then (runAll orelse (state.withStack [])).map (Exit.above below)
          else (runAll body (state.withStack [])).map (Exit.above below)
  | block body, state => (runAll body (state.withStack [])).map (Exit.above state.stack)
  | loop body, state => repeatBody (fun again => runAll body again) state.stack fuel state
  | branch depth, state => some (.branch depth state)
  | branchIf depth, state =>
      match state.stack with
      | [] => some (.trapped .stackUnderflow state)
      | test :: stack =>
          if test = 0 then some (.next (state.withStack stack))
          else some (.branch depth (state.withStack stack))

@[simp] def runAll : List Indexed → Activation → Option Exit
  | [], state => some (.next state)
  | first :: rest, state => Exit.andThen (fun after => runAll rest after) (run first state)

end

end Run

end Indexed

/-- Runs a function of a module by its position behind the imports. The end of its body, or a branch
out of it, returns the word on top of the operands. -/
def BinaryModule.invoke (module : BinaryModule) : Nat → Calling
  | 0, _, _, _ => none
  | fuel + 1, index, args, store =>
      match module.functions[index]? with
      | none => some (.error (.unknownFunction (decimal index)), store)
      | some func =>
          (Indexed.runAll module (module.invoke fuel) fuel func.body
            ⟨(args ++ List.replicate func.locals 0).toArray, [], store⟩).map Exit.outcome

end ScriptWasm
