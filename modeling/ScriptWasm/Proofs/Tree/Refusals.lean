import ScriptWasm.Proofs.Tree.Steps

/-!
Where parsers refuse. A parser that fails blames the lexeme it came to, which then stands at the span
of the error. What it says of an error lexeme depends on the text of that lexeme alone.
-/

namespace ScriptWasm

set_option autoImplicit false

def ParseFault.Fits (lexeme : Lexeme) : ParseFault → Prop
  | .expected _ found => lexeme.kind = found ∧ found ≠ .error
  | .unmatchedUnindent => lexeme.kind = .error ∧ lexeme.text.toList.all isBlank = true
  | .invalidToken text =>
      lexeme.kind = .error ∧ lexeme.text = text ∧ text.toList.all isBlank = false
  | .notWithoutIn => True
  | .missingBlock => True

structure ParseError.Blames (error : ParseError) (lexeme : Lexeme) : Prop where
  span : error.span = lexeme.span
  fits : error.fault.Fits lexeme

namespace Parser

def refusal (what : Expected) (lexeme : Lexeme) : ParseError :=
  if lexeme.kind = .error then
    if lexeme.text.toList.all isBlank then ⟨.unmatchedUnindent, lexeme.span⟩
    else ⟨.invalidToken lexeme.text, lexeme.span⟩
  else ⟨.expected what lexeme.kind, lexeme.span⟩

theorem unexpected_run {Result : Type} (what : Expected) (stream : TokenStream) :
    (unexpected what : Parser Result).run stream = .error (refusal what stream.next) := by
  rw [unexpected, StateT.run_bind, peek_run, ok_bind, refusal]
  split
  · split <;> rfl
  · rfl

theorem refusal_blames (what : Expected) (lexeme : Lexeme) :
    (refusal what lexeme).Blames lexeme := by
  unfold refusal
  by_cases isError : lexeme.kind = .error
  · rw [if_pos isError]
    cases blank : lexeme.text.toList.all isBlank with
    | true => exact ⟨rfl, isError, blank⟩
    | false => exact ⟨rfl, isError, rfl, blank⟩
  · rw [if_neg isError]
    exact ⟨rfl, rfl, isError⟩

end Parser

end ScriptWasm
