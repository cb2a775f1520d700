import ScriptWasm.Program.Basic

/-!
Why a program with its tables cannot be turned into code. A program that passed the type rules gives
no occasion for any of these.
-/

namespace ScriptWasm

set_option autoImplicit false

inductive Unsupported where
  | fieldAssignment
  | fieldLookup
  | construction
deriving DecidableEq, Repr

def Unsupported.label : Unsupported → String
  | fieldAssignment => "field assignment"
  | fieldLookup => "field lookup"
  | construction => "object construction"

inductive CodeError where
  | unboundVariable (name : String)
  | missingType (span : Span)
  | unsupported (part : Unsupported)
  | noWord (ty : Ty)
  | unknownFunction (name : String)
  | unbalancedFrames (count : Nat)
deriving DecidableEq, Repr

def CodeError.message : CodeError → String
  | unboundVariable name => "internal: variable \x27" ++ name ++ "\x27 has no storage"
  | missingType span => "internal: expression at " ++ span.render ++ " was not annotated"
  | unsupported part => "internal: " ++ part.label ++ " cannot be compiled"
  | noWord ty => "internal: type " ++ ty.render ++ " has no runtime representation"
  | unknownFunction name => "internal: call to unknown function \x27" ++ name ++ "\x27"
  | unbalancedFrames count =>
      "internal: " ++ decimal count ++ " instruction frames open when one was expected"

end ScriptWasm
