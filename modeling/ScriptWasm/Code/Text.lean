import ScriptWasm.Code.Instr
import ScriptWasm.Host

/-!
The text form of modules. Every instruction stands in parentheses on a line of its own, and the
bodies of blocks, loops and conditions are folded into theirs.
-/

namespace ScriptWasm

set_option autoImplicit false

/-- A line of module text at a depth of folding, two spaces for each level. -/
def folded (depth : Nat) (text : String) : String :=
  String.ofList (List.replicate (2 * depth) ' ') ++ text

def WordOp.mnemonic : WordOp → String
  | add => "i32.add"
  | sub => "i32.sub"
  | mul => "i32.mul"
  | divS => "i32.div_s"
  | remS => "i32.rem_s"
  | eq => "i32.eq"
  | ne => "i32.ne"
  | leS => "i32.le_s"
  | geS => "i32.ge_s"
  | ltS => "i32.lt_s"
  | gtS => "i32.gt_s"

namespace Instr

mutual

def lines (depth : Nat) : Instr → List String
  | const value => [folded depth ("(i32.const " ++ value.render ++ ")")]
  | localGet name => [folded depth ("(local.get $" ++ name ++ ")")]
  | localSet name => [folded depth ("(local.set $" ++ name ++ ")")]
  | globalGet name => [folded depth ("(global.get $" ++ name ++ ")")]
  | globalSet name => [folded depth ("(global.set $" ++ name ++ ")")]
  | call name => [folded depth ("(call $" ++ name ++ ")")]
  | binary op => [folded depth ("(" ++ op.mnemonic ++ ")")]
  | drop => [folded depth "(drop)"]
  | ret => [folded depth "(return)"]
  | unreachable => [folded depth "(unreachable)"]
  | cond body orelse =>
      [folded depth "(if", folded (depth + 1) "(then"] ++ allLines (depth + 2) body ++
        [folded (depth + 1) ")", folded (depth + 1) "(else"] ++ allLines (depth + 2) orelse ++
        [folded (depth + 1) "))"]
  | block body => folded depth "(block" :: allLines (depth + 1) body ++ [folded depth ")"]
  | loop body => folded depth "(loop" :: allLines (depth + 1) body ++ [folded depth ")"]
  | branch target => [folded depth ("(br " ++ decimal target ++ ")")]
  | branchIf target => [folded depth ("(br_if " ++ decimal target ++ ")")]

def allLines (depth : Nat) : List Instr → List String
  | [] => []
  | first :: rest => lines depth first ++ allLines depth rest

end

end Instr

def HostImport.line (primitive : HostImport) : String :=
  "(func $" ++ primitive.name ++ " (import \x22" ++ HostImport.moduleName ++ "\x22 \x22" ++
    primitive.name ++ "\x22) (param" ++ String.join (List.replicate primitive.arity " i32") ++
    ") (result i32))"

def Global.line (cell : Global) : String :=
  "(global $" ++ cell.name ++ " (mut i32) (i32.const " ++ cell.init.render ++ "))"

def Func.header (func : Func) : String :=
  "(func" ++ ((func.id.map (" $" ++ ·)).getD "") ++
    ((func.exportName.map fun name => " (export \x22" ++ name ++ "\x22)").getD "") ++
    String.join (func.params.map fun param => " (param $" ++ param ++ " i32)") ++ " (result i32)"

def Func.lines (depth : Nat) (func : Func) : List String :=
  folded depth func.header ::
    func.locals.map (fun slot => folded (depth + 1) ("(local $" ++ slot ++ " i32)")) ++
    Instr.allLines (depth + 1) func.body ++ [folded depth ")"]

def Module.lines (module : Module) : List String :=
  "(module" :: HostImport.all.map (fun primitive => folded 1 primitive.line) ++
    module.globals.map (fun cell => folded 1 cell.line) ++
    module.allFunctions.flatMap (Func.lines 1) ++ [")"]

def Func.render (func : Func) : String :=
  String.join ((func.lines 0).map (· ++ "\n"))

def Module.render (module : Module) : String :=
  String.join (module.lines.map (· ++ "\n"))

end ScriptWasm
