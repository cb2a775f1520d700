import ScriptWasm.Proofs.Token.Stack
import ScriptWasm.Proofs.Token.Tiling
import ScriptWasm.Text.Blank

/-!
Where the error tokens of a layout come from. Some are tokens of the source: a character that starts
no token, or a string that is not closed. All others are added where the line after a newline comes
back to a column at which no block is open.
-/

namespace ScriptWasm

set_option autoImplicit false

namespace Layout

/-- A point of a layout at a newline that ends a line, where the next line that is not blank starts
at the column of no open block. An error follows the newline and the dedents there. -/
structure Unmatched (source : List Char) (given : List Token) (state : State) (newline : Token)
    (left : List Token) : Prop where
  reached : Reached source given state (some (newline :: left))
  isNewline : newline.kind = .newline
  noParens : state.parens = 0
  inLine : state.lineEnded = false
  noBlock : ∃ next, (left.dropWhile (·.kind = .newline)).head? = some next ∧
    columnOf source next.span.start ∉ state.blocks ++ [0]
  queued : ∃ closed later : List Token, layoutTokens source =
    given ++ newline :: (closed ++ ⟨.error, newline.span⟩ :: later) ∧
      ∀ token ∈ closed, token = ⟨.dedent, newline.span⟩

section Changes

variable (blocks : List Nat) (column : Nat)

/-- A change of blocks with an error in it closes blocks and comes to none of the column. -/
theorem shift_missed (falling : Falling blocks) (missed : .error ∈ (shift blocks column).2) :
    column ∉ blocks ++ [0] ∧
      ∃ closed : List Nat, (shift blocks column).2 = closed.map (fun _ => .dedent) ++ [.error] := by
  by_cases deeper : innermost blocks < column
  · rw [shift, if_pos deeper] at missed
    simp at missed
  · rw [shift, if_neg deeper] at missed ⊢
    by_cases reached : innermost (blocks.dropWhile (column < ·)) = column
    · simp [reached] at missed
    · refine ⟨?_, _, congrArg (_ ++ ·) (if_neg reached)⟩
      -- The blocks that are not deeper than the column start with the column, if it is there.
      intro member
      apply reached
      have parts := List.takeWhile_append_dropWhile (p := (column < ·)) (l := blocks)
      have notClosed : column ∉ blocks.takeWhile (column < ·) := fun inside => by
        simpa using List.mem_takeWhile_imp inside
      rw [← parts, List.append_assoc, List.mem_append] at member
      have left := member.resolve_left notClosed
      have fallingLeft : Falling (blocks.dropWhile (column < ·)) := by
        rw [Falling, ← parts, List.append_assoc] at falling
        exact (List.pairwise_append.mp falling).2.1
      have atMost := fallingLeft.below_innermost column left
      have atLeast : innermost (blocks.dropWhile (column < ·)) ≤ column := by
        have stopped := List.head?_dropWhile_not (column < ·) blocks
        cases rest : blocks.dropWhile (column < ·) with
        | nil => exact Nat.zero_le _
        | cons head tail =>
            rw [rest, List.head?_cons] at stopped
            simpa [innermost] using stopped
      exact Nat.le_antisymm atLeast atMost

end Changes

variable {source : List Char}

theorem next_of_column (tokens : List Token) (columns : List Nat)
    (other : nextColumn source tokens ∉ columns ++ [0]) :
    ∃ next, (tokens.dropWhile (·.kind = .newline)).head? = some next ∧
      columnOf source next.span.start ∉ columns ++ [0] := by
  rw [nextColumn] at other
  split at other
  · simp at other
  · rename_i next rest same
    exact ⟨next, by rw [same, List.head?_cons], other⟩

/-- The change of blocks at a newline adds an error only where the next line is unmatched. -/
theorem unmatched_of_shift {given : List Token} {state : State} {newline : Token} {left : List Token}
    (reached : Reached source given state (some (newline :: left))) (isNewline : newline.kind = .newline)
    (noParens : state.parens = 0) (inLine : state.lineEnded = false)
    (missed : .error ∈ (shift state.blocks (nextColumn source left)).2) :
    Unmatched source given state newline left := by
  obtain ⟨noBlock, closed, changes⟩ := shift_missed _ _ reached.falling missed
  refine ⟨reached, isNewline, noParens, inLine, next_of_column left _ noBlock, ?_⟩
  obtain ⟨_, quiet, _⟩ | ⟨_, _, _, same⟩ | ⟨solid, _⟩ := step_cases source state newline left
  · simp [noParens, inLine] at quiet
  · have stream := reached.stream
    rw [Option.map_some, Option.getD_some, tokens_from_step, same, changes] at stream
    refine ⟨closed.map fun _ => ⟨.dedent, newline.span⟩,
      tokensFrom source ⟨(shift state.blocks (nextColumn source left)).1, 0, true⟩ left, ?_, ?_⟩
    · rw [stream, List.map_append, List.map_map, List.cons_append, List.append_assoc]
      rfl
    · intro token member
      obtain ⟨_, _, rfl⟩ := List.mem_map.mp member
      rfl
  · exact absurd isNewline solid

/-- An error token of a layout is a token of the source, or one of an unmatched line. -/
theorem layout_errors (left : List Token) {given : List Token} {state : State}
    (reached : Reached source given state (some left)) (token : Token)
    (member : token ∈ tokensFrom source state left) (isError : token.kind = .error) :
    token ∈ rawTokens source ∨ ∃ given state newline rest,
      Unmatched source given state newline rest ∧ token.span = newline.span := by
  -- The state that was reached is kept along the induction, since the error is explained by it.
  induction left generalizing given state with
  | nil =>
      rw [tokens_from_end, closing] at member
      rcases List.mem_append.mp member with closes | ends
      · obtain ⟨_, _, rfl⟩ := List.mem_map.mp closes
        cases isError
      · rw [List.mem_singleton.mp ends] at isError
        cases isError
  | cons first rest induction =>
      rw [tokens_from_step] at member
      rcases List.mem_append.mp member with here | later
      · obtain ⟨_, _, same⟩ | ⟨newline, noParens, inLine, same⟩ | ⟨_, same⟩ :=
          step_cases source state first rest
        · rw [same] at here
          cases here
        · rw [same] at here
          rcases List.mem_cons.mp here with rfl | change
          · rw [newline] at isError
            cases isError
          · obtain ⟨kind, missed, rfl⟩ := List.mem_map.mp change
            cases isError
            exact .inr ⟨given, state, first, rest,
              unmatched_of_shift reached newline noParens inLine missed, rfl⟩
        · rw [same] at here
          rw [List.mem_singleton.mp here]
          have inside : first ∈ contents source := reached.left_suffix.subset List.mem_cons_self
          exact .inl (List.mem_of_mem_filter inside)
      · exact induction reached.read later

end Layout

/-- An error at a single blank character that is neither skipped nor a newline. -/
structure BlankError (source : List Char) (span : Span) : Prop where
  raw : ⟨.error, span⟩ ∈ rawTokens source
  stands : ∃ before char after, source = before ++ char :: after ∧
    span = ⟨byteLength before, byteLength (before ++ [char])⟩ ∧ isBlank char = true ∧
    char ∉ [' ', '\t', '\x0c', '\n']

theorem unmatched_is_foreign (char : Char) (after : List Char)
    (noMatch : NoMatch (char :: after) [char]) : char ∉ [' ', '\t', '\x0c', '\n'] := by
  have starts : [char] <+: char :: after := ⟨after, rfl⟩
  intro member
  have known : Lexer.isSkipped char = true ∨ char = '\n' := by
    simpa [Lexer.isSkipped, or_assoc] using member
  rcases known with skipped | rfl
  · apply noMatch.noBlanks [char] _ starts
    refine (Pattern.mem_repeated_one_iff _ [char]).mpr ⟨List.cons_ne_nil _ _, ?_⟩
    simpa using (skipped_iff char).mp skipped
  · exact noMatch.unmatched .newline ['\n'] ((Pattern.mem_line_end_iff _).mpr (.inl rfl)) starts

theorem blank_error (source : List Char) (token : Token) (member : token ∈ rawTokens source)
    (isError : token.kind = .error)
    (blank : (token.span.textIn source).toList.all isBlank = true) : BlankError source token.span := by
  have raw : (⟨.error, token.span⟩ : Token) ∈ rawTokens source := by
    rwa [← isError]
  obtain ⟨before, taken, after, rfl, covers⟩ := tile_covers (tokens_from_tile [] source) token member
  rw [List.nil_append] at covers
  rw [covers.span, text_in_middle, String.toList_ofList, List.all_eq_true] at blank
  have noMatch := covers.unmatched isError
  obtain ⟨char, rfl, _⟩ | ⟨quote, isQuote, opened⟩ := noMatch.extent
  · refine ⟨raw, before, char, after, by simp, covers.span, blank char (by simp), ?_⟩
    exact unmatched_is_foreign char after noMatch
  · obtain ⟨body, rfl, _⟩ := (Pattern.mem_opened_iff quote taken).mp opened.inside
    have noBlank := blank quote List.mem_cons_self
    rcases isQuote with rfl | rfl
    · exact absurd noBlank (by decide)
    · exact absurd noBlank (by decide)

end ScriptWasm
