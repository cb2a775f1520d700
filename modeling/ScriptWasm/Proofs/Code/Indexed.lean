import ScriptWasm.Code.Binary.Encode

/-!
The instructions of the binary form, in which names are indices. Their bytes are those that the
encoder writes; a condition whose second body is empty is written without it.
-/

namespace ScriptWasm

set_option autoImplicit false

inductive Indexed where
  | const (value : Word)
  | localGet (index : Nat)
  | localSet (index : Nat)
  | globalGet (index : Nat)
  | globalSet (index : Nat)
  | call (index : Nat)
  | binary (op : WordOp)
  | drop
  | ret
  | unreachable
  | cond (body orelse : List Indexed)
  | block (body : List Indexed)
  | loop (body : List Indexed)
  | branch (depth : Nat)
  | branchIf (depth : Nat)

namespace Indexed

mutual

def bytes : Indexed → List Byte
  | const value => 0x41 :: Leb128.signed value.toInt
  | localGet index => 0x20 :: Leb128.unsigned index
  | localSet index => 0x21 :: Leb128.unsigned index
  | globalGet index => 0x23 :: Leb128.unsigned index
  | globalSet index => 0x24 :: Leb128.unsigned index
  | call index => 0x10 :: Leb128.unsigned index
  | binary op => [Binary.opcode op]
  | drop => [0x1a]
  | ret => [0x0f]
  | unreachable => [0x00]
  | cond body orelse =>
      0x04 :: Binary.emptyType :: bytesOfAll body ++
        (if orelse.isEmpty then [] else 0x05 :: bytesOfAll orelse) ++ [Binary.endMark]
  | block body => 0x02 :: Binary.emptyType :: bytesOfAll body ++ [Binary.endMark]
  | loop body => 0x03 :: Binary.emptyType :: bytesOfAll body ++ [Binary.endMark]
  | branch depth => 0x0c :: Leb128.unsigned depth
  | branchIf depth => 0x0d :: Leb128.unsigned depth

def bytesOfAll : List Indexed → List Byte
  | [] => []
  | first :: rest => bytes first ++ bytesOfAll rest

end

end Indexed

def Binary.calleeIndex : Callee → Nat
  | .primitive primitive => primitive.index
  | .function index => HostImport.all.length + index

namespace Instr

mutual

/-- An instruction with the indices of its names. What has no index is not encoded at all, so the
index given to it does not matter. -/
@[simp] def indexed (module : Module) (func : Func) : Instr → Indexed
  | const value => .const value
  | localGet name => .localGet ((func.slot? name).getD 0)
  | localSet name => .localSet ((func.slot? name).getD 0)
  | globalGet name => .globalGet ((module.globalIndex? name).getD 0)
  | globalSet name => .globalSet ((module.globalIndex? name).getD 0)
  | call name => .call (((module.callee? name).map Binary.calleeIndex).getD 0)
  | binary op => .binary op
  | drop => .drop
  | ret => .ret
  | unreachable => .unreachable
  | cond body orelse => .cond (allIndexed module func body) (allIndexed module func orelse)
  | block body => .block (allIndexed module func body)
  | loop body => .loop (allIndexed module func body)
  | branch depth => .branch depth
  | branchIf depth => .branchIf depth

def allIndexed (module : Module) (func : Func) : List Instr → List Indexed
  | [] => []
  | first :: rest => indexed module func first :: allIndexed module func rest

end

theorem all_indexed_append (module : Module) (func : Func) (first second : List Instr) :
    allIndexed module func (first ++ second) =
      allIndexed module func first ++ allIndexed module func second := by
  induction first with
  | nil => rfl
  | cons head tail induction => rw [List.cons_append, allIndexed, allIndexed, induction]; rfl

end Instr

def Func.indexed (func : Func) (module : Module) : List Indexed :=
  Instr.allIndexed module func func.body

end ScriptWasm
