import ScriptWasm.Program.OfTree.Expr

/-!
The parts of definitions that hold no statements: types, variables, parameters and classes. The
parts of a node are taken in order by a walk.
-/

namespace ScriptWasm

set_option autoImplicit false

abbrev Reading (Result : Type) : Type :=
  StateT Walk (Except SyntaxError) Result

namespace Reading

def parts {Result : Type} (source : List Char) (tree : Tree) (reading : Reading Result) :
    Except SyntaxError Result := do
  let (result, walk) ← reading.run (.start tree)
  Tree.expectEnd source walk.peek?.toList
  return result

variable (source : List Char)

def next : Reading Tree := do
  let walk ← get
  match walk.next with
  | (some part, after) => do
      set after
      return part
  | (none, _) => walk.current.reject source .missingPart

def nextOf (kind : NodeKind) : Reading Tree := do
  let part ← next source
  part.expectKind source kind
  return part

def nextText (text : String) : Reading Tree := do
  let part ← next source
  part.expectText source text
  return part

end Reading

variable (source : List Char)

def Ty.ofTree (tree : Tree) : Except SyntaxError (Ty × Span) :=
  Reading.parts source tree do
    let _ ← Reading.next source
    let name ← Reading.next source
    let named := name.kind = .variableName || name.kind = .noneWord
    match if named then Ty.ofName? (name.text source) else .none with
    | .some ty => return (ty, name.span)
    | .none => name.reject source .unknownType

/-- A literal, or an integer with a minus sign in front. -/
def Expr.literal? : Expr → Option Literal
  | .lit _ value => some value
  | .unary _ .neg (.lit _ (.int value)) => some (.int (-value))
  | _ => none

def VarDef.ofTree (tree : Tree) : Except SyntaxError VarDef := do
  let (name, (ty, tySpan), value, init) ← Reading.parts source tree do
    let name ← Reading.nextOf source .variableName
    let declared ← Reading.next source
    if declared.kind ≠ .typeDef then declared.reject source .missingType
    let ty ← Ty.ofTree source declared
    let _ ← Reading.nextOf source .assignOp
    let value ← Reading.next source
    return (name, ty, value, ← Expr.ofTree source value)
  match init.literal? with
  | some literal => return ⟨name.text source, ty, tySpan, literal, init.span, tree.span⟩
  | none => value.reject source .initialValueNotLiteral

def Param.allOfParts (before : Tree) : List Tree → Except SyntaxError (List Param)
  | [] => before.reject source .missingPart
  | item :: tail =>
      if item.text source = ")" then do
        Tree.expectEnd source tail
        return []
      else do
        item.expectKind source .variableName
        match tail with
        | [] => item.reject source .missingPart
        | declared :: tail => do
            declared.expectKind source .typeDef
            let (ty, tySpan) ← Ty.ofTree source declared
            let param : Param := ⟨item.text source, ty, item.span.through tySpan⟩
            match tail with
            | [] => declared.reject source .missingPart
            | separator :: rest =>
                if separator.text source = "," then
                  return param :: (← Param.allOfParts separator rest)
                else if separator.text source = ")" then do
                  Tree.expectEnd source rest
                  return [param]
                else separator.reject source .wrongSeparator

def Param.allOfTree (tree : Tree) : Except SyntaxError (List Param) :=
  match tree.children with
  | [] => tree.reject source .missingPart
  | opening :: parts => do
      opening.expectText source "("
      Param.allOfParts source opening parts

/-- The fields of a class body, in which `pass` says nothing. -/
def ClassDef.fieldsOfParts : List Tree → Except SyntaxError (List VarDef)
  | [] => return []
  | member :: rest =>
      match member.kind with
      | .passStatement => ClassDef.fieldsOfParts rest
      | .assignStatement => do
          return (← VarDef.ofTree source member) :: (← ClassDef.fieldsOfParts rest)
      | _ => member.reject source .notAField

def ClassDef.ofTree (tree : Tree) : Except SyntaxError ClassDef := do
  let (name, body) ← Reading.parts source tree do
    let _ ← Reading.next source
    let name ← Reading.nextOf source .variableName
    let part ← Reading.next source
    let body ← if part.kind = .argList then Reading.next source else pure part
    body.expectKind source .body
    return (name, body)
  match body.children with
  | [] => body.reject source .missingPart
  | _ :: members => return ⟨name.text source, ← ClassDef.fieldsOfParts source members, tree.span⟩

end ScriptWasm
