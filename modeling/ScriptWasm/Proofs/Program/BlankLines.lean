import ScriptWasm.Proofs.Tree.MirroredStatements

/-!
Blank lines and comment lines say nothing. A source whose first line is not indented denotes the
same program, but for its spans, with a blank line at the start of any of its lines, and any source
does with a newline at its end. A first line that is indented opens no block, but behind a blank
line it does.
-/

namespace ScriptWasm

set_option autoImplicit false

section Sources

variable (source edited : List Char)

theorem tree_of_run (members : List Tree) (after : TokenStream)
    (run : (Parser.statementsUntil Parser.statement [.endOfFile]).run
      ⟨(layoutTokens source).map (·.lexeme source), ⟨0, 0⟩⟩ = .ok (members, after)) :
    Tree.ofSource source = .ok (.node .script ⟨0, byteLength source⟩ members) := by
  have script : (Parser.script (byteLength source)).run
      ⟨(layoutTokens source).map (·.lexeme source), ⟨0, 0⟩⟩ =
        .ok (.node .script ⟨0, byteLength source⟩ members, after) := by
    rw [Parser.script, StateT.run_bind, run, ok_bind]
    rfl
  exact congrArg (Except.map Prod.fst) script

theorem program_of_alike
    (alike : Respaced source edited (firstLexemes source) (firstLexemes edited)) :
    Echoes (SameBy Program.withoutSpans) (Program.ofSource source) (Program.ofSource edited) := by
  intro program denoted
  cases parsed : Tree.ofSource source with
  | error error =>
      rw [Program.ofSource, parsed] at denoted
      cases denoted
  | ok tree =>
      obtain ⟨members, after, run, rfl⟩ := tree_of_source_run source tree parsed
      obtain ⟨⟨copies, stop⟩, answered, retold, _⟩ :=
        Parser.statements_until_mirror _ _ Parser.statement_mirrors Parser.statement_takes
          [.endOfFile] ⟨_, ⟨0, 0⟩⟩ ⟨_, ⟨0, 0⟩⟩ alike _ run
      rw [Program.ofSource, parsed] at denoted
      rw [Program.ofSource, tree_of_run edited copies stop answered]
      exact echoes_checked _ _ _ _ (fun _ => rfl) (fun _ => program_retold members copies retold)
        program denoted

theorem source_without_errors (program : Program)
    (denoted : Program.ofSource source = .ok program) :
    ∀ token ∈ rawTokens source, token.kind ≠ .error := by
  cases parsed : Tree.ofSource source with
  | error error =>
      rw [Program.ofSource, parsed] at denoted
      cases denoted
  | ok tree => exact fun token member => (script_covers source tree parsed).1 token (Or.inl member)

theorem Parser.statement_refuses_indent (before after : TokenStream) (tree : Tree)
    (isIndent : before.next.kind = .indent) : statement.run before ≠ .ok (tree, after) := by
  intro run
  have noExpression : ∀ value stop, expression.run before ≠ .ok (value, stop) := by
    intro value stop ran
    obtain ⟨taken, split, whole⟩ := expression_takes before stop value ran
    obtain ⟨first, more, rfl, starts⟩ := grammar_starts _ _ _ _ whole
    have next : before.next = first := by
      rw [TokenStream.next, split]
      rfl
    rw [next] at isIndent
    simp [Layer.Starts, Lexeme.IsWord, isIndent] at starts
  rw [statement, StateT.run_bind, remaining_run, ok_bind] at run
  generalize before.rest.length = depth at run
  cases depth with
  | zero => exact unexpected_fails _ before after tree run
  | succ depth =>
      rw [statementUpTo, statementOf, StateT.run_bind, peek_run, ok_bind, isIndent] at run
      obtain ⟨value, stop, ran, _⟩ := (run_bind_succeeds_iff _ _ _ _ _).mp run
      exact noExpression value stop ran

theorem indented_source_denotes_nothing (indent : Lexeme) (rest : List Lexeme)
    (first : firstLexemes source = indent :: rest) (isIndent : indent.kind = .indent)
    (program : Program) : Program.ofSource source ≠ .ok program := by
  intro denoted
  cases parsed : Tree.ofSource source with
  | error error =>
      rw [Program.ofSource, parsed] at denoted
      cases denoted
  | ok tree =>
      obtain ⟨members, after, run, rfl⟩ := tree_of_source_run source tree parsed
      obtain ⟨last, skipped⟩ := Parser.skip_newlines_rest
        ⟨(layoutTokens source).map (·.lexeme source), ⟨0, 0⟩⟩
      rw [Parser.statementsUntil, StateT.run_bind, skipped, ok_bind] at run
      change (Parser.repeated _).run ⟨firstLexemes source, last⟩ = _ at run
      rw [first, Parser.repeated, StateT.run_bind, Parser.remaining_run, ok_bind,
        Parser.repeatUpTo] at run
      obtain ⟨_, middle, ran, _⟩ := (run_bind_succeeds_iff _ _ _ _ _).mp run
      have going : [TokenKind.endOfFile].contains TokenKind.indent = false := rfl
      rw [StateT.run_bind, Parser.peek_run, ok_bind, TokenStream.next_cons, isIndent, going] at ran
      obtain ⟨statement, stop, impossible, _⟩ := (run_bind_succeeds_iff _ _ _ _ _).mp ran
      exact Parser.statement_refuses_indent ⟨indent :: rest, last⟩ stop statement isIndent
        impossible

end Sources

/-- Behind a blank line an indented first line is refused. -/
theorem blank_line_refuses_indented_source (line source : List Char) (blank : IsBlankLine line)
    (indented : ¬StartsAtMargin source) (program : Program) :
    Program.ofSource (line ++ ['\n'] ++ source) ≠ .ok program := by
  obtain ⟨extra, single, isNewline⟩ := sights_of_blank_line line blank
  have whole : sights (line ++ ['\n'] ++ source) = extra :: sights source := by
    rw [sights_append _ _ (Or.inr ⟨line, rfl⟩), single, List.singleton_append]
  obtain ⟨indent, rest, isIndent, first⟩ :=
    indent_of_first_line source _ extra isNewline whole indented
  exact indented_source_denotes_nothing _ indent rest first isIndent program

/-- A blank line or a comment line at the start of any line changes nothing but spans, where it does
not come before an indented first line. Neither does a newline at the end. -/
theorem blank_lines_say_nothing (source : List Char) (program : Program)
    (denoted : Program.ofSource source = .ok program) :
    (∀ before line after, source = before ++ after → LineStart before → IsBlankLine line →
      (before = [] → StartsAtMargin source) →
      ∃ same, Program.ofSource (before ++ (line ++ ['\n']) ++ after) = .ok same ∧
        same.withoutSpans = program.withoutSpans) ∧
    ∃ same, Program.ofSource (source ++ ['\n']) = .ok same ∧
      same.withoutSpans = program.withoutSpans := by
  constructor
  · -- The trees differ in where their leaves stand, and what they denote in spans.
    rintro before line after rfl starts blank margin
    refine program_of_alike _ _ ?_ program denoted
    refine blank_line_leaves_lexemes before line after starts blank fun isFirst => ?_
    simpa [isFirst] using margin isFirst
  · have sound := source_without_errors source program denoted
    exact program_of_alike _ _ (line_end_leaves_lexemes source sound) program denoted

def openedCall : List Char :=
  "while x:\n  f(a,\n".toList

def closedCall : List Char :=
  "    b)\npass".toList

def remark : List Char :=
  "\t# b".toList

theorem remark_among_arguments_says_nothing : ∃ program same again,
    Program.ofSource (openedCall ++ closedCall) = .ok program ∧
    LineStart openedCall ∧ IsBlankLine remark ∧
    Program.ofSource (openedCall ++ (remark ++ ['\n']) ++ closedCall) = .ok same ∧
    same.withoutSpans = program.withoutSpans ∧
    Program.ofSource (openedCall ++ closedCall ++ ['\n']) = .ok again ∧
    again.withoutSpans = program.withoutSpans := by
  have starts : LineStart openedCall := Or.inr ⟨"while x:\n  f(a,".toList, by decide⟩
  have filled : openedCall ≠ [] := by decide
  have blank : IsBlankLine remark :=
    ⟨['\t'], "# b".toList, rfl, by simp [Lexer.isSkipped],
      Or.inr ⟨" b".toList, rfl, by decide⟩⟩
  obtain ⟨program, denoted⟩ :=
    (is_ok_iff (Program.ofSource (openedCall ++ closedCall))).mp (by decide +kernel)
  obtain ⟨inside, again, ended, sameEnd⟩ :=
    blank_lines_say_nothing (openedCall ++ closedCall) program denoted
  obtain ⟨same, remarked, sameInside⟩ :=
    inside openedCall remark closedCall rfl starts blank fun isFirst => absurd isFirst filled
  exact ⟨program, same, again, denoted, starts, blank, remarked, sameInside, ended, sameEnd⟩

theorem empty_line_moves_indented_line :
    (∃ program, Program.ofSource ([] ++ "  pass".toList) = .ok program) ∧
      LineStart [] ∧ IsBlankLine [] ∧
      ∀ same, Program.ofSource ([] ++ ([] ++ ['\n']) ++ "  pass".toList) ≠ .ok same := by
  refine ⟨(is_ok_iff _).mp (by decide +kernel), Or.inl rfl, ⟨[], [], rfl, by simp, Or.inl rfl⟩, ?_⟩
  intro same denoted
  have refused : (Program.ofSource ([] ++ ([] ++ ['\n']) ++ "  pass".toList)).isOk = false := by
    decide +kernel
  rw [denoted] at refused
  cases refused

end ScriptWasm
