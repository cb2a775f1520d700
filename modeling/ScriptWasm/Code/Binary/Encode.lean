import ScriptWasm.Code.Binary.Leb128
import ScriptWasm.Code.Error
import ScriptWasm.Code.Names
import ScriptWasm.Table

/-!
The binary form of modules. Names become indices: the primitives are the first functions, the
functions of the module follow in order, and the entry is the last. A module is a header and six
sections, and a section is written even when it is empty.
-/

namespace ScriptWasm

set_option autoImplicit false

namespace Binary

def counted (items : List (List Byte)) : List Byte :=
  Leb128.unsigned items.length ++ items.flatten

def sized (bytes : List Byte) : List Byte :=
  Leb128.unsigned bytes.length ++ bytes

def name (text : String) : List Byte :=
  sized text.toUTF8.data.toList

def sectionOf (id : Byte) (items : List (List Byte)) : List Byte :=
  id :: sized (counted items)

def wordType : Byte :=
  0x7f

def functionType (arity : Nat) : List Byte :=
  0x60 :: counted (List.replicate arity [wordType]) ++ counted [[wordType]]

def opcode : WordOp → Byte
  | .eq => 0x46
  | .ne => 0x47
  | .ltS => 0x48
  | .gtS => 0x4a
  | .leS => 0x4c
  | .geS => 0x4e
  | .add => 0x6a
  | .sub => 0x6b
  | .mul => 0x6c
  | .divS => 0x6d
  | .remS => 0x6f

/-- The type of a body that takes and leaves nothing. -/
def emptyType : Byte :=
  0x40

def endMark : Byte :=
  0x0b

def variableIndex (index? : String → Option Nat) (word : String) : Except CodeError (List Byte) :=
  match index? word with
  | some index => .ok (Leb128.unsigned index)
  | none => .error (.unboundVariable word)

/-- The indices of functions by name. The primitives are entered first, and a function of the module
takes the place of what already has its name. -/
def functionTable (module : Module) : Table Nat :=
  Table.ofList ((HostImport.all.map fun primitive => (primitive.name, primitive.index)) ++
    (module.functions.zipIdx HostImport.all.length).filterMap fun (func, index) =>
      func.id.map fun name => (name, index))

mutual

def instr (module : Module) (func : Func) : Instr → Except CodeError (List Byte)
  | .const value => return 0x41 :: Leb128.signed value.toInt
  | .localGet word => return 0x20 :: (← variableIndex func.slot? word)
  | .localSet word => return 0x21 :: (← variableIndex func.slot? word)
  | .globalGet word => return 0x23 :: (← variableIndex module.globalIndex? word)
  | .globalSet word => return 0x24 :: (← variableIndex module.globalIndex? word)
  | .call word =>
      match (functionTable module).get? word with
      | some index => return 0x10 :: Leb128.unsigned index
      | none => .error (.unknownFunction word)
  | .binary op => return [opcode op]
  | .drop => return [0x1a]
  | .ret => return [0x0f]
  | .unreachable => return [0x00]
  | .cond body orelse => do
      let body ← instrs module func body
      match orelse with
      | [] => return 0x04 :: emptyType :: body ++ [endMark]
      | first :: rest => do
          let first ← instr module func first
          let rest ← instrs module func rest
          return 0x04 :: emptyType :: body ++ 0x05 :: first ++ rest ++ [endMark]
  | .block body => return 0x02 :: emptyType :: (← instrs module func body) ++ [endMark]
  | .loop body => return 0x03 :: emptyType :: (← instrs module func body) ++ [endMark]
  | .branch depth => return 0x0c :: Leb128.unsigned depth
  | .branchIf depth => return 0x0d :: Leb128.unsigned depth

def instrs (module : Module) (func : Func) : List Instr → Except CodeError (List Byte)
  | [] => return []
  | first :: rest => do
      let first ← instr module func first
      return first ++ (← instrs module func rest)

end

def localRuns (func : Func) : List (List Byte) :=
  if func.locals.isEmpty then [] else [Leb128.unsigned func.locals.length ++ [wordType]]

def body (module : Module) (func : Func) : Except CodeError (List Byte) := do
  let code ← instrs module func func.body
  return sized (counted (localRuns func) ++ code ++ [endMark])

/-- The numbers of parameters in the order of their first use, one type for each. -/
def arities (module : Module) : List Nat :=
  (HostImport.all.map HostImport.arity ++
    module.allFunctions.map fun func => func.params.length).eraseDups

def typeIndex (module : Module) (arity : Nat) : List Byte :=
  Leb128.unsigned ((arities module).idxOf arity)

def importEntry (module : Module) (primitive : HostImport) : List Byte :=
  name HostImport.moduleName ++ name primitive.name ++ 0x00 :: typeIndex module primitive.arity

def global (cell : Global) : List Byte :=
  [wordType, 0x01, 0x41] ++ Leb128.signed cell.init.toInt ++ [endMark]

def exports (index : Nat) : List Func → List (List Byte)
  | [] => []
  | first :: rest =>
      match first.exportName with
      | some exportName =>
          (name exportName ++ 0x00 :: Leb128.unsigned index) :: exports (index + 1) rest
      | none => exports (index + 1) rest

def header : List Byte :=
  [0x00, 0x61, 0x73, 0x6d, 0x01, 0x00, 0x00, 0x00]

end Binary

def Module.encode (module : Module) : Except CodeError (List Byte) := do
  let functions := module.allFunctions
  let bodies ← functions.mapM (Binary.body module)
  return Binary.header ++
    Binary.sectionOf 1 ((Binary.arities module).map Binary.functionType) ++
    Binary.sectionOf 2 (HostImport.all.map (Binary.importEntry module)) ++
    Binary.sectionOf 3 (functions.map fun func => Binary.typeIndex module func.params.length) ++
    Binary.sectionOf 6 (module.globals.map Binary.global) ++
    Binary.sectionOf 7 (Binary.exports HostImport.all.length functions) ++
    Binary.sectionOf 10 bodies

end ScriptWasm
