import ScriptWasm.Proofs.Token.Errors
import ScriptWasm.Proofs.Tree.Progress

/-!
What is reported as an unindent. The parser says that an unindent matches no outer level at error
tokens of blank text only. Those are the errors that the layout adds at lines of no open block, and
the characters of the source that are blank but belong to no token.
-/

namespace ScriptWasm

set_option autoImplicit false

/-- Only one fault is described as an unindent. -/
theorem fault_of_detail (fault : ParseFault)
    (described : fault.detail = "unindent does not match any outer indentation level") :
    fault = .unmatchedUnindent := by
  have first : fault.detail.toList.head? = some 'u' := by
    rw [described]
    rfl
  cases fault with
  | unmatchedUnindent => rfl
  | expected what found =>
      change ("expected " ++ what.label ++ ", found " ++ found.label).toList.head? = _ at first
      rw [String.toList_append, String.toList_append, String.toList_append] at first
      have first : some 'e' = some 'u' := first
      exact absurd first (by decide)
  | invalidToken text =>
      change ("invalid token " ++ quoted text).toList.head? = _ at first
      rw [String.toList_append] at first
      have first : some 'i' = some 'u' := first
      exact absurd first (by decide)
  | notWithoutIn => exact absurd first (by decide)
  | missingBlock => exact absurd first (by decide)

theorem source_refused_at (source : List Char) (error : ParseError)
    (failed : Tree.ofSource source = .error error) :
    ∃ taken stop, (TokenStream.mk ((layoutTokens source).map (·.lexeme source)) ⟨0, 0⟩).Reads
      taken stop ∧ error.Blames stop.next := by
  obtain ⟨opened, ends, alike⟩ := script_agrees (byteLength source) _ _ _
    (streams_alike source (layoutTokens source) _ rfl) rfl (Nat.lt_succ_self _)
  have moves := alike.moves_on
  rw [Tree.ofSource, Tree.ofTokens, StateT.run'_eq] at failed
  cases ran : (Parser.script (byteLength source)).run
      ⟨(layoutTokens source).map (·.lexeme source), ⟨0, 0⟩⟩ with
  | error found =>
      rw [ran] at failed moves
      cases failed
      exact moves
  | ok answer =>
      rw [ran] at failed
      cases failed

/-- An unindent is reported at an error token of blank text. -/
theorem unindent_at_error (source : List Char) (error : ParseError)
    (failed : Tree.ofSource source = .error error) (fault : error.fault = .unmatchedUnindent) :
    ∃ token ∈ layoutTokens source, token.kind = .error ∧ token.span = error.span ∧
      (token.span.textIn source).toList.all isBlank = true := by
  obtain ⟨taken, stop, reached, span, fits⟩ := source_refused_at source error failed
  rw [fault] at fits
  obtain ⟨isError, blank⟩ := fits
  have member := reached.next_mem (by rw [isError]; decide)
  obtain ⟨token, there, same⟩ := List.mem_map.mp member
  rw [← same] at isError blank span
  exact ⟨token, there, isError, span.symm, blank⟩

/-- Where a source is refused because of an unindent, a line comes back to the column of no open
block, or a blank character stands there that belongs to no token. -/
theorem unindents_are_misplaced_lines (source : List Char) (error : ParseError)
    (failed : Tree.ofSource source = .error error)
    (described : error.fault.detail = "unindent does not match any outer indentation level") :
    (∃ given state newline left, Layout.Unmatched source given state newline left ∧
      error.span = newline.span) ∨ BlankError source error.span := by
  obtain ⟨token, member, isError, span, blank⟩ :=
    unindent_at_error source error failed (fault_of_detail error.fault described)
  rw [← span]
  rcases Layout.layout_errors _ .start token member isError with raw | unmatched
  · exact .inr (blank_error source token raw isError blank)
  · exact .inl unmatched

/-- A block whose second line comes back halfway to the margin. -/
def halfDedentedSource : List Char :=
  "if x:\n    pass\n  pass\n".toList

theorem half_dedent_is_reported : ∃ error,
    Tree.ofSource halfDedentedSource = .error error ∧
      error.fault.detail = "unindent does not match any outer indentation level" ∧
      ∃ given state newline left, Layout.Unmatched halfDedentedSource given state newline left ∧
        error.span = newline.span := by
  have failed : Tree.ofSource halfDedentedSource = .error ⟨.unmatchedUnindent, ⟨14, 15⟩⟩ :=
    (failure_eq_some_iff _ _).mp (by decide +kernel)
  refine ⟨_, failed, rfl, ?_⟩
  rcases unindents_are_misplaced_lines halfDedentedSource _ failed rfl with unmatched | blank
  · exact unmatched
  · have sound : ∀ token ∈ rawTokens halfDedentedSource, token.kind ≠ .error := by decide +kernel
    exact absurd rfl (sound _ blank.raw)

def splitLineSource : List Char :=
  "x\ry\n".toList

/-- A carriage return without a newline is an error of the source, no line comes back to anywhere
there, and it is reported as an unindent. -/
theorem carriage_return_is_reported :
    Tree.ofSource splitLineSource = .error ⟨.unmatchedUnindent, ⟨1, 2⟩⟩ ∧
      ⟨.error, ⟨1, 2⟩⟩ ∈ rawTokens splitLineSource ∧
      ∀ given state newline left, Layout.Unmatched splitLineSource given state newline left →
        newline.span ≠ ⟨1, 2⟩ := by
  have raw : rawTokens splitLineSource =
      [⟨.name, 0, 1⟩, ⟨.error, 1, 2⟩, ⟨.name, 2, 3⟩, ⟨.newline, 3, 4⟩] := by decide +kernel
  refine ⟨(failure_eq_some_iff _ _).mp (by decide +kernel), by rw [raw]; decide, ?_⟩
  intro given state newline left unmatched span
  have inside : newline ∈ Layout.contents splitLineSource :=
    unmatched.reached.left_suffix.subset List.mem_cons_self
  have member : newline ∈ rawTokens splitLineSource := List.mem_of_mem_filter inside
  have others : ∀ token ∈ rawTokens splitLineSource, token.kind = .newline →
      token.span ≠ ⟨1, 2⟩ := by
    rw [raw]
    decide
  exact others newline member unmatched.isNewline span

end ScriptWasm
