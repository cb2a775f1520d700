import ScriptWasm.Proofs.Tree.AgreedExpressions

/-!
Progress of the parser. Every statement takes a lexeme and stops in front of an end of file, so a
script is read to its end whatever its tokens are, and nothing after the first end of file matters.
-/

namespace ScriptWasm

set_option autoImplicit false

open ScriptWasm.Parser

variable {bound : Nat}

section Simple

theorem parameter_items_eq (calls : Calls) :
    Unbounded.parameterItems calls = (do
      if (← peek.ended).kind = .rightParen then return []
      let parts ← (do
        let name ← expectName
        return name :: (← typeIf .colon) : Parser (List Tree)).ended
      match ← (takeIf .comma .punctuation).ended with
      | none => return parts
      | some comma => return parts ++ comma :: (← calls.parameterItems)) := by
  simp only [ended_bind, bind_assoc]
  rfl

theorem parameters_agree : Agrees bound (fun _ => 1) Unbounded.parameters parameters := by
  apply parenthesized_agrees (·.parameterItems) parameter_items_eq
  intro lexeme
  apply steady_bind (steady_expect_name lexeme)
  intro name lexeme
  apply steady_bind (steady_type_if _ (by decide) lexeme)
  intro declared lexeme
  exact steady_pure _ _ rfl

theorem assigned_values_eq (calls : Calls) :
    Unbounded.assignedValues calls = (do
      match ← (takeIf .assign .assignOp).ended with
      | none => return none
      | some sign => return some [sign, ← calls.layer .disjunction]) >>= fun answer =>
        match answer with
        | none => pure []
        | some items => do return items ++ (← calls.assignedValues) := by
  rw [Unbounded.assignedValues, bind_assoc]
  congr 1
  funext sign
  cases sign <;> simp only [bind_assoc, pure_bind]

theorem expression_or_assignment_agrees :
    Agrees bound (fun _ => 1) Unbounded.expressionOrAssignment expressionOrAssignment := by
  intro lexeme
  apply agrees_at_bind (expression_agrees lexeme)
  intro target lexeme
  apply agrees_at_bind (steady_type_if _ (by decide) lexeme)
  intro declared lexeme
  apply agrees_at_bind
  · apply repeated_agrees (·.assignedValues) assigned_values_eq
    intro lexeme
    apply agrees_at_bind (steady_take_if _ _ (by decide) lexeme)
    intro sign lexeme
    cases sign with
    | none => exact agrees_pure _ _ rfl
    | some sign =>
        apply agrees_at_bind ((expression_agrees lexeme).fewer fun _ => Nat.zero_le _)
        intro value lexeme
        exact agrees_pure _ _ rfl
  · intro values lexeme
    apply agrees_at_bind (steady_end_of_statement lexeme)
    intro _ lexeme
    exact agrees_pure _ _ rfl

theorem return_statement_agrees {lexeme : Lexeme} (going : lexeme.kind ≠ .endOfFile) :
    AgreesAt lexeme bound (fun _ => 1) Unbounded.returnStatement returnStatement := by
  apply agrees_at_bind (steady_at_take going _)
  intro keyword lexeme
  have ends (bound : Nat) (value : List Tree) : Agrees bound (fun _ => 0)
      (fun _ => do
        endOfStatement.ended
        return Tree.branch .returnStatement (keyword :: value))
      (do
        endOfStatement
        return Tree.branch .returnStatement (keyword :: value)) := by
    intro lexeme
    apply agrees_at_bind (steady_end_of_statement lexeme)
    intro _ lexeme
    exact agrees_pure _ _ rfl
  apply agrees_seeing
  cases lexeme.kind
  case newline | dedent | endOfFile => exact ends _ [] lexeme
  all_goals
    apply agrees_at_bind ((expression_agrees lexeme).fewer fun _ => Nat.zero_le _)
    intro value lexeme
    exact ends _ [value] lexeme

omit bound in
/-- Newlines are skipped one by one. -/
theorem skip_newlines_eq :
    skipNewlines = (do
      if (← peek).kind = .newline then
        advance
        skipNewlines
      else return) := by
  funext stream
  obtain ⟨rest, last⟩ := stream
  change skipNewlines.run _ = StateT.run _ _
  rw [StateT.run_bind, peek_run, ok_bind]
  cases rest with
  | nil => rfl
  | cons lexeme rest =>
      by_cases isNewline : lexeme.kind = .newline
      · rw [TokenStream.next_cons, if_pos isNewline, StateT.run_bind, advance_run, ok_bind,
          TokenStream.past_cons]
        change Except.ok _ = Except.ok _
        simp [isNewline, List.getLast?_cons]
      · rw [TokenStream.next_cons, if_neg isNewline]
        change Except.ok _ = Except.ok _
        simp [isNewline]

theorem skip_newlines_agrees :
    Agrees bound (fun _ => 0) (·.skipNewlines) skipNewlines := by
  induction bound with
  | zero => exact agrees_nowhere _ _ _
  | succ bound induction =>
      intro lexeme
      rw [skip_newlines_eq]
      refine AgreesAt.called ?_ fun calls => (rfl : _ = Unbounded.skipNewlines calls)
      apply agrees_seeing
      split
      · rename_i here
        apply agrees_at_bind (steady_at_advance (by rw [here]; decide))
        intro _ lexeme
        exact induction lexeme
      · exact agrees_pure _ _ rfl

end Simple

theorem statements_eq (ends : List TokenKind) (calls : Calls) :
    Unbounded.statements calls ends = (do
      if ends.contains (← peek.ended).kind then return none
      let statement ← calls.statement
      calls.skipNewlines
      return some [statement]) >>= fun answer =>
        match answer with
        | none => pure []
        | some items => do return items ++ (← calls.statements ends) := by
  rw [Unbounded.statements, bind_assoc]
  congr 1
  funext next
  split <;> simp only [bind_assoc, pure_bind]

section Statements

variable {parse : Parser Tree}

theorem statements_agree (ends : List TokenKind)
    (parses : Agrees bound (fun _ => 1) (·.statement) parse) :
    Agrees bound (fun _ => 0) (Unbounded.statementsUntil · ends) (statementsUntil parse ends) := by
  intro lexeme
  apply agrees_at_bind (skip_newlines_agrees lexeme)
  intro _
  apply repeated_agrees (·.statements ends) (statements_eq ends)
  intro lexeme
  apply agrees_seeing
  split
  · exact agrees_pure _ _ rfl
  · apply agrees_at_bind (parses.within (Nat.sub_le _ _) lexeme)
    intro statement lexeme
    apply agrees_at_bind (skip_newlines_agrees lexeme)
    intro _ lexeme
    exact agrees_pure _ _ rfl

variable (parses : Agrees (bound - 1) (fun _ => 1) (·.statement) parse)

include parses

theorem block_agrees : Agrees bound (fun _ => 1) Unbounded.block (block parse) := by
  intro lexeme
  apply agrees_at_bind (steady_expect _ _ (by decide) lexeme)
  intro colon lexeme
  have inner (bound' : Nat) (less : bound' ≤ bound - 1) (lexeme : Lexeme)
      (going : lexeme.kind ≠ .endOfFile) : AgreesAt lexeme bound' (fun _ => 0)
      (fun calls => do
        advance.ended
        let statements ← Unbounded.statementsUntil calls [.dedent, .endOfFile]
        if (← peek.ended).kind = .dedent then advance.ended
        return Tree.branch .body (colon :: statements))
      (do
        advance
        let statements ← statementsUntil parse [.dedent, .endOfFile]
        if (← peek).kind = .dedent then advance
        return Tree.branch .body (colon :: statements)) := by
    apply agrees_at_bind (steady_at_advance going)
    intro _ lexeme
    apply agrees_at_bind
    · exact statements_agree _ (parses.within ((Nat.sub_le _ _).trans less)) lexeme
    intro statements lexeme
    apply agrees_seeing
    split
    · rename_i here
      apply agrees_at_bind (steady_at_advance (by rw [here]; decide))
      intro _ lexeme
      exact agrees_pure _ _ rfl
    · exact agrees_pure _ _ rfl
  -- After the colon the newline and the indent are taken, then the statements, then the dedent if
  -- there is one.
  have indented (lexeme : Lexeme) (isNewline : lexeme.kind = .newline) :
      AgreesAt lexeme (bound - 1) (fun _ => 0)
      (fun calls => do
        advance.ended
        if (← peek.ended).kind ≠ .indent then (fail .missingBlock (← peek.ended).span).ended
        advance.ended
        let statements ← Unbounded.statementsUntil calls [.dedent, .endOfFile]
        if (← peek.ended).kind = .dedent then advance.ended
        return Tree.branch .body (colon :: statements))
      (do
        advance
        if (← peek).kind ≠ .indent then fail .missingBlock (← peek).span
        advance
        let statements ← statementsUntil parse [.dedent, .endOfFile]
        if (← peek).kind = .dedent then advance
        return Tree.branch .body (colon :: statements)) := by
    apply agrees_at_bind (steady_at_advance (by rw [isNewline]; decide))
    intro _ lexeme
    apply agrees_seeing
    split
    · apply agrees_seeing
      apply agrees_after_refusal _ ⟨.missingBlock, lexeme.span⟩
      · exact fun _ _ => rfl
      · exact ⟨rfl, trivial⟩
    · rename_i isIndent
      exact inner _ (Nat.sub_le _ _) lexeme (by rw [not_not.mp isIndent]; decide)
  apply agrees_seeing
  split
  · apply agrees_after_refusal _ (refusal .blockNewline lexeme)
    · exact unexpected_at .blockNewline
    · exact refusal_blames .blockNewline lexeme
  · rename_i isNewline
    exact indented lexeme (not_not.mp isNewline)

theorem guarded_agrees : Agrees bound (fun _ => 1) Unbounded.guarded (guarded parse) := by
  intro lexeme
  apply agrees_at_bind (expression_agrees lexeme)
  intro test lexeme
  have blocks := (block_agrees parses).within (Nat.sub_le bound 1)
  apply agrees_at_bind ((blocks lexeme).fewer fun _ => Nat.zero_le _)
  intro body lexeme
  exact agrees_pure _ _ rfl

omit parses in
theorem elif_arms_eq (calls : Calls) :
    Unbounded.elifArms calls = (do
      match ← (takeIf .elifWord .keyword).ended with
      | none => return none
      | some elif => return some (elif :: (← Unbounded.guarded calls))) >>= fun answer =>
        match answer with
        | none => pure []
        | some items => do return items ++ (← calls.elifArms) := by
  rw [Unbounded.elifArms, bind_assoc]
  congr 1
  funext sign
  cases sign <;> simp only [bind_assoc, pure_bind]

theorem if_statement_agrees {lexeme : Lexeme} (going : lexeme.kind ≠ .endOfFile) :
    AgreesAt lexeme bound (fun _ => 1) Unbounded.ifStatement (ifStatement parse) := by
  have blocks := block_agrees parses
  have arms := guarded_agrees parses
  apply agrees_at_bind (steady_at_take going _)
  intro keyword lexeme
  apply agrees_at_bind (arms.inside (Nat.sub_le _ _) lexeme)
  intro first lexeme
  apply agrees_at_bind
  · apply repeated_agrees (·.elifArms) elif_arms_eq
    intro lexeme
    apply agrees_at_bind (steady_take_if _ _ (by decide) lexeme)
    intro elif lexeme
    cases elif with
    | none => exact agrees_pure _ _ rfl
    | some elif =>
        apply agrees_at_bind (arms.inside (by omega) lexeme)
        intro arm lexeme
        exact agrees_pure _ _ rfl
  intro others lexeme
  apply agrees_at_bind (steady_take_if _ _ (by decide) lexeme)
  intro otherwise lexeme
  cases otherwise with
  | none => exact agrees_pure _ _ rfl
  | some otherwise =>
      apply agrees_at_bind (blocks.inside (by omega) lexeme)
      intro body lexeme
      exact agrees_pure _ _ rfl

theorem while_statement_agrees {lexeme : Lexeme} (going : lexeme.kind ≠ .endOfFile) :
    AgreesAt lexeme bound (fun _ => 1) Unbounded.whileStatement (whileStatement parse) := by
  apply agrees_at_bind (steady_at_take going _)
  intro keyword lexeme
  apply agrees_at_bind ((guarded_agrees parses).inside (Nat.sub_le _ _) lexeme)
  intro arm lexeme
  exact agrees_pure _ _ rfl

theorem function_definition_agrees {lexeme : Lexeme} (going : lexeme.kind ≠ .endOfFile) :
    AgreesAt lexeme bound (fun _ => 1) Unbounded.functionDefinition
      (functionDefinition parse) := by
  apply agrees_at_bind (steady_at_take going _)
  intro keyword lexeme
  apply agrees_at_bind (steady_expect_name.inside (le_refl _) lexeme)
  intro name lexeme
  apply agrees_at_bind (parameters_agree.inside (le_refl _) lexeme)
  intro params lexeme
  apply agrees_at_bind (steady_type_if _ (by decide) lexeme)
  intro result lexeme
  apply agrees_at_bind ((block_agrees parses).inside (by omega) lexeme)
  intro body lexeme
  exact agrees_pure _ _ rfl

theorem class_definition_agrees {lexeme : Lexeme} (going : lexeme.kind ≠ .endOfFile) :
    AgreesAt lexeme bound (fun _ => 1) Unbounded.classDefinition (classDefinition parse) := by
  apply agrees_at_bind (steady_at_take going _)
  intro keyword lexeme
  apply agrees_at_bind (steady_expect_name.inside (le_refl _) lexeme)
  intro name lexeme
  have ends (bases : List Tree) (smaller : Nat) (less : smaller ≤ bound) :
      Agrees smaller (fun _ => 0)
        (fun calls => do
          let body ← Unbounded.block calls
          return Tree.branch .classDefinition (keyword :: name :: bases ++ [body]))
        (do
          let body ← block parse
          return Tree.branch .classDefinition (keyword :: name :: bases ++ [body])) := by
    intro lexeme
    apply agrees_at_bind ((block_agrees parses).inside less lexeme)
    intro body lexeme
    exact agrees_pure _ _ rfl
  apply agrees_seeing
  split
  · refine agrees_remaining ?_ lexeme
    intro smaller count less enough lexeme
    have lists : Agrees smaller (fun _ => 1) Unbounded.arguments (arguments (expressionUpTo count)) :=
      arguments_agree (levels_agree count ((Nat.sub_le _ _).trans enough))
    apply agrees_at_bind (lists.inside (le_refl _) lexeme)
    intro list lexeme
    exact ends [list] _ (by omega) lexeme
  · exact ends [] _ (by omega) lexeme

theorem statement_agrees : Agrees bound (fun _ => 1) (·.statement) (statementOf parse) := by
  intro lexeme
  refine AgreesAt.called ?_ fun calls => (rfl : _ = Unbounded.statement calls)
  apply agrees_seeing
  cases here : lexeme.kind
  case defWord => exact function_definition_agrees parses (by rw [here]; decide)
  case classWord => exact class_definition_agrees parses (by rw [here]; decide)
  case ifWord => exact if_statement_agrees parses (by rw [here]; decide)
  case whileWord => exact while_statement_agrees parses (by rw [here]; decide)
  case returnWord => exact return_statement_agrees (by rw [here]; decide)
  case passWord => exact steady_keyword_statement _ (by rw [here]; decide)
  case breakWord => exact steady_keyword_statement _ (by rw [here]; decide)
  case continueWord => exact steady_keyword_statement _ (by rw [here]; decide)
  all_goals exact expression_or_assignment_agrees lexeme

end Statements

theorem statement_refuses_end (parse : Parser Tree) (stream : TokenStream)
    (atEnd : stream.next.kind = .endOfFile) :
    (statementOf parse).run stream = .error (refusal .expression stream.next) := by
  have expressions : expression.run stream = .error (refusal .expression stream.next) := by
    rw [expression, StateT.run_bind, remaining_run, ok_bind]
    cases stream.rest.length with
    | zero => exact unexpected_run .expression stream
    | succ depth => exact layer_refuses_end (expressionUpTo depth) stream atEnd .disjunction
  rw [statementOf, StateT.run_bind, peek_run, ok_bind, atEnd]
  exact bind_refuses expressions _

theorem statement_up_to_agrees (depth : Nat) (enough : bound ≤ depth + 1) :
    Agrees bound (fun _ => 1) (·.statement) (statementUpTo depth) := by
  induction depth generalizing bound with
  | zero =>
      have least : Agrees 1 (fun _ => 1) (·.statement) (statementOf (statementUpTo 0)) :=
        statement_agrees (agrees_nowhere _ _ _)
      have refuses : Agrees 1 (fun _ => 1) (·.statement) (unexpected .expression) := by
        apply agrees_at_end least
        intro stream atEnd
        rw [statement_refuses_end _ stream atEnd, unexpected_run]
      exact refuses.within enough
  | succ depth induction => exact statement_agrees (induction (Nat.sub_le_of_le_add enough))

theorem closed_statement_agrees : Agrees bound (fun _ => 1) (·.statement) statement := by
  apply agrees_remaining
  intro smaller count _ enough
  exact statement_up_to_agrees count enough

theorem script_agrees (length : Nat) :
    Agrees bound (fun _ => 0) (Unbounded.script · length) (script length) := by
  intro lexeme
  apply agrees_at_bind (statements_agree _ closed_statement_agrees lexeme)
  intro statements lexeme
  exact agrees_pure _ _ rfl

/-! ### Every parser of trees -/

inductive Routine where
  | expression
  | layer (operands : Layer)
  | arguments
  | parameters
  | annotation
  | resultType
  | expressionOrAssignment
  | returnStatement
  | keywordStatement (kind : NodeKind)
  | ifStatement
  | whileStatement
  | functionDefinition
  | classDefinition
  | block
  | statement

namespace Routine

/-- With that many returns to a looser layer and blocks inside each other. -/
def parser (depth : Nat) : Routine → Parser Tree
  | expression => expressionUpTo depth .expression
  | layer operands => operands.parser (expressionUpTo depth)
  | arguments => Parser.arguments (expressionUpTo depth)
  | parameters => Parser.parameters
  | annotation => typeAfter .colon
  | resultType => typeAfter .arrow
  | expressionOrAssignment => Parser.expressionOrAssignment
  | returnStatement => Parser.returnStatement
  | keywordStatement kind => Parser.keywordStatement kind
  | ifStatement => Parser.ifStatement (statementUpTo depth)
  | whileStatement => Parser.whileStatement (statementUpTo depth)
  | functionDefinition => Parser.functionDefinition (statementUpTo depth)
  | classDefinition => Parser.classDefinition (statementUpTo depth)
  | block => Parser.block (statementUpTo depth)
  | statement => statementUpTo depth

def unbounded (calls : Calls) : Routine → OpenParser Tree
  | expression => calls.layer .disjunction
  | layer operands => calls.layer operands
  | arguments => Unbounded.arguments calls
  | parameters => Unbounded.parameters calls
  | annotation => (typeAfter .colon).ended
  | resultType => (typeAfter .arrow).ended
  | expressionOrAssignment => Unbounded.expressionOrAssignment calls
  | returnStatement => Unbounded.returnStatement calls
  | keywordStatement kind => (Parser.keywordStatement kind).ended
  | ifStatement => Unbounded.ifStatement calls
  | whileStatement => Unbounded.whileStatement calls
  | functionDefinition => Unbounded.functionDefinition calls
  | classDefinition => Unbounded.classDefinition calls
  | block => Unbounded.block calls
  | statement => calls.statement

/-- Where a part starts with a keyword, it is parsed at that keyword only. -/
def StartsAt (lexeme : Lexeme) : Routine → Prop
  | returnStatement => lexeme.kind = .returnWord
  | keywordStatement _ => lexeme.kind ∈ [.passWord, .breakWord, .continueWord]
  | ifStatement => lexeme.kind = .ifWord
  | whileStatement => lexeme.kind = .whileWord
  | functionDefinition => lexeme.kind = .defWord
  | classDefinition => lexeme.kind = .classWord
  | _ => True

/-- A depth of as many returns and blocks as there are lexemes ahead is enough for every part. -/
theorem agrees (routine : Routine) (depth : Nat) (enough : bound ≤ depth + 1) {lexeme : Lexeme}
    (starts : routine.StartsAt lexeme) :
    AgreesAt lexeme bound (fun _ => 1) (routine.unbounded ·) (routine.parser depth) := by
  have goesBack (level : Level) : Agrees (bound - 1) (fun _ => 1) (·.layer level.layer)
      (expressionUpTo depth level) :=
    levels_agree depth ((Nat.sub_le _ _).trans enough) level
  have parses : Agrees (bound - 1) (fun _ => 1) (·.statement) (statementUpTo depth) :=
    statement_up_to_agrees depth ((Nat.sub_le _ _).trans enough)
  cases routine with
  | expression => exact levels_agree depth enough .expression lexeme
  | layer operands => exact layer_agrees goesBack operands lexeme
  | arguments => exact arguments_agree goesBack lexeme
  | parameters => exact parameters_agree lexeme
  | annotation => exact steady_type_after _ (by decide) lexeme
  | resultType => exact steady_type_after _ (by decide) lexeme
  | expressionOrAssignment => exact expression_or_assignment_agrees lexeme
  | returnStatement => exact return_statement_agrees (by rw [starts]; decide)
  | keywordStatement kind =>
      apply steady_keyword_statement
      intro isEnd
      rw [StartsAt, isEnd] at starts
      exact absurd starts (by decide)
  | ifStatement => exact if_statement_agrees parses (by rw [starts]; decide)
  | whileStatement => exact while_statement_agrees parses (by rw [starts]; decide)
  | functionDefinition => exact function_definition_agrees parses (by rw [starts]; decide)
  | classDefinition => exact class_definition_agrees parses (by rw [starts]; decide)
  | block => exact block_agrees parses lexeme
  | statement => exact statement_up_to_agrees depth enough lexeme

end Routine

theorem streams_alike (source : List Char) (tokens others : List Token)
    (same : throughFirst (·.kind = .endOfFile) tokens =
      throughFirst (·.kind = .endOfFile) others) :
    (TokenStream.mk (tokens.map (·.lexeme source)) ⟨0, 0⟩).Alike
      ⟨others.map (·.lexeme source), ⟨0, 0⟩⟩ := by
  have mapped (list : List Token) :
      throughFirst Lexeme.isEnd (list.map (·.lexeme source)) =
        (throughFirst (·.kind = .endOfFile) list).map (·.lexeme source) := by
    induction list with
    | nil => rfl
    | cons token rest induction =>
        rw [List.map_cons, throughFirst, throughFirst, induction]
        change (if decide (token.kind = .endOfFile) = true then _ else _) = _
        split <;> rfl
  refine ⟨rfl, ?_⟩
  rw [mapped, mapped, same]

/-- The parser makes progress whatever the tokens are. The parser of every part comes to an end
without bounds, and to the same end with a depth of as many lexemes as there are. If it succeeds it
has taken a lexeme, and it never takes an end of file. A script comes to an end as well, and what it
comes to depends on the tokens up to the first end of file only. -/
theorem parsing_makes_progress :
    (∀ (routine : Routine) (depth : Nat) (before : TokenStream), before.rest.length ≤ depth →
      routine.StartsAt before.next →
        EndsIn (routine.unbounded ·) before ((routine.parser depth).run before) ∧
          MovesOn 1 before ((routine.parser depth).run before)) ∧
    ∀ (source : List Char) (tokens : List Token),
      (let before : TokenStream := ⟨tokens.map (·.lexeme source), ⟨0, 0⟩⟩
      let outcome := (script (byteLength source)).run before
      EndsIn (Unbounded.script · (byteLength source)) before outcome ∧
        MovesOn 0 before outcome ∧
        Tree.ofTokens source tokens = outcome.map Prod.fst) ∧
      ∀ others : List Token, throughFirst (·.kind = .endOfFile) tokens =
          throughFirst (·.kind = .endOfFile) others →
        Tree.ofTokens source tokens = Tree.ofTokens source others := by
  constructor
  · intro routine depth before enough starts
    have agrees : AgreesAt before.next (before.ahead + 1) (fun _ => 1) (routine.unbounded ·)
        (routine.parser depth) :=
      routine.agrees depth (Nat.succ_le_succ (before.ahead_le.trans enough)) starts
    obtain ⟨opened, ends, alike⟩ :=
      agrees before before (.refl before) rfl (Nat.lt_succ_self _)
    exact ⟨alike.same ▸ ends, alike.moves_on⟩
  · intro source tokens
    -- A script is parsed without a bound on the tokens that follow the first end of file, which are
    -- never seen.
    have scripts (others : List Token) (same : throughFirst (·.kind = .endOfFile) tokens =
        throughFirst (·.kind = .endOfFile) others) :=
      script_agrees (byteLength source) _ _ _ (streams_alike source tokens others same) rfl
        (Nat.lt_succ_self _)
    obtain ⟨opened, ends, alike⟩ := scripts tokens rfl
    refine ⟨⟨alike.same ▸ ends, alike.moves_on, ?_⟩, ?_⟩
    · rw [Tree.ofTokens, StateT.run'_eq]
      rfl
    · intro others same
      obtain ⟨opened', ends', alike'⟩ := scripts others same
      rw [Tree.ofTokens, Tree.ofTokens, StateT.run'_eq, StateT.run'_eq]
      change Except.map Prod.fst _ = Except.map Prod.fst _
      rw [← alike.same_answer, ← alike'.same_answer, ends.unique ends']

def strayTokens : List Token :=
  [⟨.colon, 0, 1⟩, ⟨.newline, 9, 2⟩, ⟨.indent, 0, 0⟩, ⟨.passWord, 0, 4⟩, ⟨.endOfFile, 3, 3⟩,
    ⟨.dedent, 7, 7⟩, ⟨.dedent, 8, 8⟩]

/-- The block is read up to the end of file, and nothing of what follows matters. -/
theorem stray_tokens_are_read :
    (EndsIn Unbounded.block ⟨strayTokens.map (·.lexeme []), ⟨0, 0⟩⟩
        ((block (statementUpTo 7)).run ⟨strayTokens.map (·.lexeme []), ⟨0, 0⟩⟩) ∧
      MovesOn 1 ⟨strayTokens.map (·.lexeme []), ⟨0, 0⟩⟩
        ((block (statementUpTo 7)).run ⟨strayTokens.map (·.lexeme []), ⟨0, 0⟩⟩)) ∧
      Tree.ofTokens [] strayTokens = Tree.ofTokens [] (strayTokens.take 5) :=
  ⟨parsing_makes_progress.1 .block 7 _ (by decide) trivial,
    (parsing_makes_progress.2 [] strayTokens).2 (strayTokens.take 5) rfl⟩

end ScriptWasm
