import ScriptWasm.Proofs.Tree.Lines

/-!
Blocks are accepted with all their members, and so are the statements and definitions that own them.
The induction is on the statement; a block is at least as deep as each of its members.
-/

namespace ScriptWasm

set_option autoImplicit false

def Member.Readable : Member → Prop
  | «class» definition => definition.Readable
  | var definition => definition.Readable
  | func definition => definition.Readable
  | stmt statement => statement.Readable

/-- A line starts with a token that ends neither a block nor a condition. -/
def StartsLine (shapes : List Shape) : Prop :=
  ∃ kind text more, shapes = (kind, text) :: more ∧
    kind ∉ [TokenKind.newline, .elifWord, .elseWord, .dedent, .endOfFile]

theorem starts_line_of_expr (kind : TokenKind) (starts : kind.startsExpr = true) :
    kind ∉ [TokenKind.newline, .elifWord, .elseWord, .dedent, .endOfFile] := by
  intro member
  simp only [List.mem_cons, List.not_mem_nil, or_false] at member
  rcases member with rfl | rfl | rfl | rfl | rfl <;> cases starts

theorem Stmt.starts_line (stmt : Stmt) (readable : stmt.Readable) : StartsLine stmt.shapes := by
  cases stmt with
  | assign span target value => exact ⟨.name, target, _, rfl, by decide⟩
  | expr span value =>
      obtain ⟨kind, text, rest, shape, starts, _⟩ := value.first_shape readable.2
      exact ⟨kind, text, _, by rw [shapes, shape, List.cons_append], starts_line_of_expr kind starts⟩
  | pass span => exact ⟨.passWord, _, _, rfl, by decide⟩
  | fieldAssign span object field value => exact readable.elim
  | ret span value => exact ⟨.returnWord, _, _, rfl, by decide⟩
  | cond span test body orelse => exact ⟨.ifWord, "if", _, rfl, by decide⟩
  | loop span test body => exact ⟨.whileWord, "while", _, rfl, by decide⟩

theorem Member.starts_line (member : Member) (readable : member.Readable) :
    StartsLine member.shapes := by
  cases member with
  | «class» definition => exact ⟨.classWord, _, _, rfl, by decide⟩
  | var definition => exact ⟨.name, _, _, rfl, by decide⟩
  | func definition => exact ⟨.defWord, _, _, rfl, by decide⟩
  | stmt statement => exact statement.starts_line readable

theorem length_le_flat_map (members : List Member) (member : Member) (among : member ∈ members) :
    member.shapes.length ≤ (members.flatMap Member.shapes).length := by
  induction members with
  | nil => cases among
  | cons first rest induction =>
      rw [List.flatMap_cons, List.length_append]
      rcases List.mem_cons.mp among with rfl | later
      · omega
      · have := induction later
        omega

theorem count_le_flat_map (members : List Member)
    (starts : ∀ member ∈ members, StartsLine member.shapes) :
    members.length ≤ (members.flatMap Member.shapes).length := by
  induction members with
  | nil => exact Nat.le_refl 0
  | cons first rest induction =>
      obtain ⟨kind, text, more, shape, _⟩ := starts first (by simp)
      have later := induction fun member among => starts member (by simp [among])
      rw [List.flatMap_cons, List.length_append, shape, List.length_cons, List.length_cons]
      omega

theorem head_of_members (source : List Char) (members : List Member)
    (starts : ∀ member ∈ members, StartsLine member.shapes) (lexemes rest : List Lexeme)
    (spell : Spell source lexemes (members.flatMap Member.shapes)) :
    members = [] ∧ headKind (lexemes ++ rest) = headKind rest ∨
      headKind (lexemes ++ rest) ∉
        [TokenKind.newline, .elifWord, .elseWord, .dedent, .endOfFile] := by
  cases members with
  | nil =>
      rw [spell_nil source lexemes spell]
      exact Or.inl ⟨rfl, rfl⟩
  | cons first others =>
      obtain ⟨kind, text, more, shape, free⟩ := starts first (by simp)
      rw [List.flatMap_cons, shape, List.cons_append] at spell
      obtain ⟨lexeme, _, rfl, isKind, _⟩ := spell_cons source lexemes kind text _ spell
      refine Or.inr ?_
      rw [List.cons_append, headKind, isKind]
      exact free

namespace Parser

variable (source : List Char)

theorem skip_newlines_stops (rest : List Lexeme) (last : Span) (noBlank : headKind rest ≠ .newline) :
    skipNewlines.run ⟨rest, last⟩ = .ok ((), ⟨rest, last⟩) := by
  cases rest with
  | nil => rfl
  | cons first others =>
      have stops : decide (first.kind = .newline) = false := decide_eq_false noBlank
      change Except.ok ((), TokenStream.mk
        ((first :: others).dropWhile (·.kind = .newline))
        ((((first :: others).takeWhile (·.kind = .newline)).getLast?.map (·.span)).getD last)) = _
      rw [List.dropWhile_cons_of_neg (by simpa using stops),
        List.takeWhile_cons_of_neg (by simpa using stops)]
      rfl

section Members

variable (parse : Parser Tree)

def memberStep (ends : List TokenKind) : Parser (Option (List Tree)) := do
  if ends.contains (← peek).kind then return none
  let statement ← parse
  skipNewlines
  return some [statement]

theorem statements_until_eq (ends : List TokenKind) :
    statementsUntil parse ends = (do skipNewlines; repeated (memberStep parse ends)) :=
  rfl

variable (ends : List TokenKind) (closes : ∀ kind ∈ ends, kind = .dedent ∨ kind = .endOfFile)
variable (members : List Member)
variable (accepts : ∀ member ∈ members, Accepts source parse member.shapes StatementFollows
  (member.DenotedBy source))
variable (starts : ∀ member ∈ members, StartsLine member.shapes)

include closes accepts starts

theorem members_accepts (count : Nat) (enough : members.length ≤ count) :
    Accepts source (repeatUpTo (memberStep parse ends) count) (members.flatMap Member.shapes)
      (headKind · ∈ ends) (List.Forall₂ (Member.DenotedBy source) members) := by
  induction members generalizing count with
  | nil =>
      intro lexemes rest last spell follows
      rw [spell_nil source lexemes spell, List.nil_append]
      refine ⟨[], last, repeat_up_to_stops _ count ⟨rest, last⟩ ?_, .nil⟩
      rw [memberStep, StateT.run_bind, peek_run, ok_bind, next_kind,
        if_pos (List.contains_iff_mem.mpr follows)]
      rfl
  | cons first others induction =>
      intro lexemes rest last spell follows
      obtain ⟨count, rfl⟩ : ∃ smaller, count = smaller + 1 := by
        rw [List.length_cons] at enough
        exact ⟨count - 1, by omega⟩
      rw [List.flatMap_cons] at spell
      obtain ⟨before, after, rfl, spellFirst, spellOthers⟩ := spell_append source lexemes _ _ spell
      have startsOthers : ∀ member ∈ others, StartsLine member.shapes :=
        fun member among => starts member (by simp [among])
      have next := head_of_members source others startsOthers after rest spellOthers
      -- What comes behind a member is the next one or the end of the block, and neither goes on
      -- with the member.
      have fresh : StatementFollows (after ++ rest) := by
        rcases next with ⟨_, same⟩ | free
        · rcases closes _ follows with isEnd | isEnd <;>
            exact ⟨by rw [same, isEnd]; decide, by rw [same, isEnd]; decide,
              by rw [same, isEnd]; decide⟩
        · simp only [List.mem_cons, List.not_mem_nil, or_false, not_or] at free
          exact ⟨free.1, free.2.1, free.2.2.1⟩
      obtain ⟨tree, place, run, denoted⟩ := accepts first (by simp) before (after ++ rest) last
        spellFirst fresh
      obtain ⟨trees, final, runOthers, denotedOthers⟩ := induction
        (fun member among => accepts member (by simp [among])) startsOthers count
        (by simpa using enough) after rest place spellOthers follows
      refine ⟨[tree] ++ trees, final, ?_, .cons denoted denotedOthers⟩
      apply repeat_up_to_steps _ count _ ⟨after ++ rest, place⟩ ⟨rest, final⟩ [tree] trees
      · obtain ⟨kind, text, more, shape, free⟩ := starts first (by simp)
        rw [shape] at spellFirst
        obtain ⟨lexeme, _, rfl, isKind, _⟩ := spell_cons source before kind text more spellFirst
        have going : lexeme.kind ∉ ends := by
          rw [isKind]
          intro among
          rcases closes kind among with rfl | rfl <;> exact free (by decide)
        rw [List.append_assoc, memberStep, StateT.run_bind, peek_run, ok_bind, List.cons_append,
          TokenStream.next_cons, if_neg (by simpa using going)]
        rw [List.cons_append] at run
        simp only [StateT.run_bind, run, ok_bind, skip_newlines_stops _ place fresh.noBlank]
        rfl
      · exact runOthers

theorem statements_accepts :
    Accepts source (statementsUntil parse ends) (members.flatMap Member.shapes) (headKind · ∈ ends)
      (List.Forall₂ (Member.DenotedBy source) members) := by
  intro lexemes rest last spell follows
  have noBlank : headKind (lexemes ++ rest) ≠ .newline := by
    rcases head_of_members source members starts lexemes rest spell with ⟨_, same⟩ | free
    · rw [same]
      rcases closes _ follows with isEnd | isEnd <;> rw [isEnd] <;> decide
    · intro isBlank
      rw [isBlank] at free
      exact free (by decide)
  have enough : members.length ≤ (lexemes ++ rest).length + 1 := by
    have counted := count_le_flat_map members starts
    rw [← spell_length source lexemes _ spell] at counted
    rw [List.length_append]
    omega
  rw [statements_until_eq, StateT.run_bind, skip_newlines_stops _ last noBlank, ok_bind, repeated,
    StateT.run_bind, remaining_run, ok_bind]
  exact members_accepts source parse ends closes members accepts starts _ enough lexemes rest last
    spell follows

omit closes in
theorem block_accepts : Accepts source (block parse) (blockShapes (members.flatMap Member.shapes))
    (fun _ => True) fun tree => tree.Encloses source members := by
  intro lexemes rest last spell _
  rw [blockShapes] at spell
  simp only [List.cons_append] at spell
  obtain ⟨colon, line, rfl, isColon, colonText, soundColon, spellLine⟩ :=
    spell_cons source lexemes .colon ":" _ spell
  obtain ⟨newline, deeper, rfl, isNewline, _, _, spellDeeper⟩ :=
    spell_cons source line .newline "\n" _ spellLine
  obtain ⟨indent, inside, rfl, isIndent, _, _, spellInside⟩ :=
    spell_cons source deeper .indent "\n" _ spellDeeper
  obtain ⟨middle, ends, rfl, spellMiddle, spellEnds⟩ := spell_append source inside _ _ spellInside
  obtain ⟨dedent, none_, rfl, isDedent, _, _, spellNone⟩ :=
    spell_cons source ends .dedent "\n" [] spellEnds
  rw [spell_nil source none_ spellNone]
  obtain ⟨trees, after, run, denoted⟩ := statements_accepts source parse [.dedent, .endOfFile]
    (by simp) members accepts starts middle (dedent :: rest) indent.span spellMiddle
    (by change dedent.kind ∈ _; rw [isDedent]; decide)
  refine ⟨.branch .body (.leaf .punctuation colon.span :: trees), dedent.span, ?_, rfl,
    .leaf .punctuation colon.span, trees, rfl, mark_of_lexeme source colon ":" soundColon colonText,
    denoted⟩
  simp only [List.cons_append, List.append_assoc, List.nil_append]
  rw [block, StateT.run_bind, expect_run _ _ _ _ _ isColon, ok_bind, StateT.run_bind, peek_run,
    ok_bind, TokenStream.next_cons, if_neg (by simp [isNewline]), StateT.run_bind, advance_run,
    ok_bind, TokenStream.past_cons, StateT.run_bind, peek_run, ok_bind, TokenStream.next_cons,
    if_neg (by simp [isIndent]), StateT.run_bind, advance_run, ok_bind, TokenStream.past_cons,
    StateT.run_bind, run, ok_bind, StateT.run_bind, peek_run, ok_bind, TokenStream.next_cons,
    if_pos isDedent, StateT.run_bind, advance_run, ok_bind]
  rfl

end Members

section Statements

variable (parse : Parser Tree)

/-- A line that starts with a token of an expression is an expression or an assignment. -/
theorem statement_of_expression (stream : TokenStream) (starts : stream.next.kind.startsExpr = true) :
    (statementOf parse).run stream = expressionOrAssignment.run stream := by
  rw [statementOf, StateT.run_bind, peek_run, ok_bind]
  split
  all_goals first
    | rfl
    | (rename_i isWord
       rw [isWord] at starts
       cases starts)

theorem pass_accepts (span : Span) :
    Accepts source (statementOf parse) (Stmt.pass span).shapes StatementFollows
      ((Stmt.pass span).DenotedBy source) := by
  intro lexemes rest last spell _
  obtain ⟨keyword, line, rfl, isPass, _, _, spellLine⟩ :=
    spell_cons source lexemes .passWord "pass" _ spell
  obtain ⟨newline, none_, rfl, isNewline, _, _, spellNone⟩ :=
    spell_cons source line .newline "\n" [] spellLine
  rw [spell_nil source none_ spellNone]
  refine ⟨_, newline.span, ?_, pass_denoted source span (.leaf .keyword keyword.span)⟩
  simp only [List.cons_append, List.nil_append]
  rw [statementOf, StateT.run_bind, peek_run, ok_bind, TokenStream.next_cons, isPass]
  simp only [keywordStatement, StateT.run_bind, take_run, ok_bind, TokenStream.past_cons,
    TokenStream.next_cons, end_of_line_run newline rest keyword.span isNewline]
  rfl

theorem return_accepts (span : Span) (value : Expr) (whole : value.Whole) :
    Accepts source (statementOf parse) (Stmt.ret span value).shapes StatementFollows
      ((Stmt.ret span value).DenotedBy source) := by
  intro lexemes rest last spell _
  rw [Stmt.shapes, List.cons_append] at spell
  obtain ⟨keyword, line, rfl, isReturn, _, _, spellLine⟩ :=
    spell_cons source lexemes .returnWord "return" _ spell
  obtain ⟨middle, ends, rfl, spellMiddle, spellEnds⟩ := spell_append source line _ _ spellLine
  obtain ⟨newline, none_, rfl, isNewline, _, _, spellNone⟩ :=
    spell_cons source ends .newline "\n" [] spellEnds
  rw [spell_nil source none_ spellNone]
  have endsLine : headKind (newline :: rest) = .newline := isNewline
  obtain ⟨tree, after, run, denoted⟩ := expression_accepts source value whole middle
    (newline :: rest) keyword.span spellMiddle (by rw [Follows, endsLine]; decide)
  have starts : (headKind (middle ++ newline :: rest)).startsExpr = true := by
    obtain ⟨kind, text, more, shape, startsExpr, _⟩ := value.first_shape whole.2
    rw [shape] at spellMiddle
    obtain ⟨first, _, rfl, isKind, _⟩ := spell_cons source middle kind text more spellMiddle
    rw [List.cons_append, headKind, isKind]
    exact startsExpr
  refine ⟨_, newline.span, ?_, return_denoted source span value (.leaf .keyword keyword.span) tree
    denoted⟩
  simp only [List.cons_append, List.append_assoc, List.nil_append]
  rw [statementOf, StateT.run_bind, peek_run, ok_bind, TokenStream.next_cons, isReturn]
  change returnStatement.run _ = _
  rw [returnStatement, StateT.run_bind, take_run, ok_bind, TokenStream.past_cons,
    TokenStream.next_cons, StateT.run_bind, peek_run, ok_bind]
  split
  · rename_i isBlank
    rw [next_kind] at isBlank
    rw [isBlank] at starts
    cases starts
  · rename_i isDedent
    rw [next_kind] at isDedent
    rw [isDedent] at starts
    cases starts
  · rename_i isEnd
    rw [next_kind] at isEnd
    rw [isEnd] at starts
    cases starts
  · simp only [StateT.run_bind, StateT.run_pure, run, ok_bind, pure_bind,
      end_of_line_run newline rest after isNewline]
    rfl

theorem expression_line_accepts (shapes : List Shape) (good : Tree → Prop) (kind : TokenKind)
    (text : String) (more : List Shape) (shape : shapes = (kind, text) :: more)
    (starts : kind.startsExpr = true)
    (accepts : Accepts source expressionOrAssignment shapes (fun _ => True) good) :
    Accepts source (statementOf parse) shapes StatementFollows good := by
  intro lexemes rest last spell _
  obtain ⟨tree, after, run, found⟩ := accepts lexemes rest last spell trivial
  refine ⟨tree, after, ?_, found⟩
  rw [shape] at spell
  obtain ⟨first, others, rfl, isKind, _⟩ := spell_cons source lexemes kind text more spell
  rw [statement_of_expression parse _ (by rw [List.cons_append, TokenStream.next_cons, isKind, starts]),
    run]

def branchStep : Parser (Option (List Tree)) := do
  match ← takeIf .elifWord .keyword with
  | none => return none
  | some elif => return some (elif :: (← guarded parse))

theorem if_statement_eq : ifStatement parse = (do
    let keyword ← take .keyword
    let first ← guarded parse
    let others ← repeated (branchStep parse)
    let last ← match ← takeIf .elseWord .keyword with
      | none => pure []
      | some otherwise => do pure [otherwise, ← block parse]
    return .branch .ifStatement (keyword :: first ++ others ++ last)) :=
  rfl

/-- The written form has no branches between the first and the last. -/
theorem no_branches_run (rest : List Lexeme) (last : Span) (noElif : headKind rest ≠ .elifWord) :
    (repeated (branchStep parse)).run ⟨rest, last⟩ = .ok ([], ⟨rest, last⟩) := by
  rw [repeated, StateT.run_bind, remaining_run, ok_bind]
  apply repeat_up_to_stops
  rw [branchStep, StateT.run_bind, take_if_run, if_neg (by rw [next_kind]; exact noElif)]
  rfl

section Guarded

variable (test : Expr) (whole : test.Whole) (body : List Stmt)
variable (blocks : Accepts source (block parse) (blockShapes (Stmt.allShapes body)) (fun _ => True)
  fun tree => tree.Encloses source (body.map .stmt))

include whole blocks

theorem guarded_accepts : Accepts source (guarded parse)
    (test.shapes ++ blockShapes (Stmt.allShapes body)) (fun _ => True)
    fun parts => ∃ part block, parts = [part, block] ∧ test.DenotedBy source part ∧
      block.Encloses source (body.map .stmt) := by
  intro lexemes rest last spell _
  obtain ⟨middle, inside, rfl, spellTest, spellBlock⟩ := spell_append source lexemes _ _ spell
  have colon : headKind (inside ++ rest) = .colon := by
    obtain ⟨mark, _, rfl, isMark, _⟩ := spell_cons source inside .colon ":" _ spellBlock
    exact isMark
  obtain ⟨part, after, run, denoted⟩ := expression_accepts source test whole middle (inside ++ rest)
    last spellTest (by rw [Follows, colon]; decide)
  obtain ⟨tree, final, runBlock, encloses⟩ := blocks inside rest after spellBlock trivial
  refine ⟨[part, tree], final, ?_, part, tree, rfl, denoted, encloses⟩
  rw [List.append_assoc, guarded, StateT.run_bind, run, ok_bind]
  simp only [StateT.run_bind, runBlock, ok_bind]
  rfl

theorem loop_accepts (span : Span) :
    Accepts source (statementOf parse) (Stmt.loop span test body).shapes StatementFollows
      ((Stmt.loop span test body).DenotedBy source) := by
  intro lexemes rest last spell _
  rw [Stmt.shapes, List.cons_append] at spell
  obtain ⟨keyword, inside, rfl, isWhile, _, _, spellInside⟩ :=
    spell_cons source lexemes .whileWord "while" _ spell
  obtain ⟨parts, after, run, part, tree, rfl, denoted, encloses⟩ := guarded_accepts source parse test
    whole body blocks inside rest keyword.span spellInside trivial
  refine ⟨_, after, ?_, loop_denoted source span test body (.leaf .keyword keyword.span) part tree
    denoted encloses⟩
  rw [List.cons_append, statementOf, StateT.run_bind, peek_run, ok_bind, TokenStream.next_cons,
    isWhile]
  simp only [whileStatement, StateT.run_bind, take_run, ok_bind, TokenStream.past_cons,
    TokenStream.next_cons, run]
  rfl

theorem cond_accepts (span : Span) (orelse : List Stmt)
    (others : orelse ≠ [] → Accepts source (block parse) (blockShapes (Stmt.allShapes orelse))
      (fun _ => True) fun tree => tree.Encloses source (orelse.map .stmt)) :
    Accepts source (statementOf parse) (Stmt.cond span test body orelse).shapes StatementFollows
      ((Stmt.cond span test body orelse).DenotedBy source) := by
  intro lexemes rest last spell follows
  rw [Stmt.shapes, List.cons_append, List.cons_append] at spell
  obtain ⟨keyword, inside, rfl, isIf, ifText, soundIf, spellInside⟩ :=
    spell_cons source lexemes .ifWord "if" _ spell
  obtain ⟨first, final, rfl, spellFirst, spellFinal⟩ := spell_append source inside _ _ spellInside
  have word : (Tree.leaf .keyword keyword.span).text source = "if" ∧
      (Tree.leaf .keyword keyword.span).children = [] :=
    ⟨by rw [text_of_leaf source .keyword keyword soundIf, ifText], rfl⟩
  obtain ⟨parts, after, run, part, tree, rfl, denoted, encloses⟩ := guarded_accepts source parse test
    whole body blocks first (final ++ rest) keyword.span spellFirst trivial
  rw [List.cons_append, List.append_assoc, statementOf, StateT.run_bind, peek_run, ok_bind,
    TokenStream.next_cons, isIf]
  change ∃ result after, (ifStatement parse).run _ = _ ∧ _
  -- The text has an else exactly when there is a second body.
  cases empty : orelse.isEmpty with
  | true =>
      rw [empty, if_pos rfl] at spellFinal
      rw [spell_nil source final spellFinal] at run ⊢
      rw [List.nil_append] at run ⊢
      have nothing : Otherwise source orelse [] := .nothing (List.isEmpty_iff.mp empty)
      refine ⟨_, after, ?_, cond_denoted source span test body orelse _ part tree [] word denoted
        encloses nothing⟩
      simp only [if_statement_eq, StateT.run_bind, take_run, ok_bind, TokenStream.past_cons,
        TokenStream.next_cons, run, no_branches_run parse rest after follows.noElif]
      rw [take_if_run, if_neg (by rw [next_kind]; exact follows.noElse)]
      rfl
  | false =>
      rw [empty, if_neg (by decide)] at spellFinal
      obtain ⟨otherwise, later, rfl, isElse, elseText, soundElse, spellLater⟩ :=
        spell_cons source final .elseWord "else" _ spellFinal
      have filled : orelse ≠ [] := by
        intro isNil
        rw [isNil] at empty
        cases empty
      obtain ⟨other, place, runOther, enclosesOther⟩ := others filled later rest otherwise.span
        spellLater trivial
      have block : Otherwise source orelse [_, other] := .block (.leaf .keyword otherwise.span) other
        (by rw [text_of_leaf source .keyword otherwise soundElse, elseText]) enclosesOther
      refine ⟨_, place, ?_, cond_denoted source span test body orelse _ part tree _ word denoted
        encloses block⟩
      have noElif : headKind (otherwise :: later ++ rest) ≠ .elifWord := by
        rw [List.cons_append, headKind, isElse]
        decide
      simp only [if_statement_eq, StateT.run_bind, take_run, ok_bind, TokenStream.past_cons,
        TokenStream.next_cons, run, no_branches_run parse _ after noElif]
      rw [take_if_run, if_pos (by rw [List.cons_append, TokenStream.next_cons, isElse]), ok_bind]
      simp only [List.cons_append, TokenStream.past_cons, TokenStream.next_cons, StateT.run_bind,
        runOther, ok_bind]
      rfl

end Guarded

end Statements

end Parser

end ScriptWasm
