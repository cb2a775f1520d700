import ScriptWasm.Proofs.Tree.Nodes

/-!
The written forms of statements and definitions are accepted. Every line ends with a newline, every
block with a dedent, and what follows a statement is the next one or the end of its block.
-/

namespace ScriptWasm

set_option autoImplicit false

structure StatementFollows (rest : List Lexeme) : Prop where
  noBlank : headKind rest ≠ .newline
  noElif : headKind rest ≠ .elifWord
  noElse : headKind rest ≠ .elseWord

namespace Parser

variable (source : List Char)

theorem end_of_line_run (lexeme : Lexeme) (rest : List Lexeme) (last : Span)
    (ends : lexeme.kind = .newline) :
    endOfStatement.run ⟨lexeme :: rest, last⟩ = .ok ((), ⟨rest, lexeme.span⟩) := by
  rw [endOfStatement, StateT.run_bind, peek_run, ok_bind, TokenStream.next_cons, ends]
  exact advance_run _

theorem type_after_accepts (mark : TokenKind) (ty : Ty) (plain : ty.Plain) :
    Accepts source (typeAfter mark) [mark.shape, ty.shape] (fun _ => True) (ty.DenotedBy source) := by
  intro lexemes rest last spell _
  obtain ⟨sign, others, rfl, isMark, _, _, spellName⟩ := spell_cons source lexemes mark _ _ spell
  have named : ∀ (name : Lexeme) (kind : NodeKind), name.text = ty.render →
      name.Sound source → kind = .variableName ∨ kind = .noneWord → Ty.ofName? ty.render = some ty →
      ∀ node, ty.DenotedBy source
        (.branch .typeDef [.leaf node sign.span, .leaf kind name.span]) := by
    intro name kind text sound isName known node
    refine ⟨rfl, name.span, (Ty.of_tree_succeeds_iff source _ ty name.span).mpr
      ⟨_, _, rfl, isName, ?_, rfl⟩⟩
    rw [text_of_leaf source kind name sound, text]
    exact known
  have spelled : ∀ kind : TokenKind, kind = .name ∨ kind = .noneWord →
      ty.shape = (kind, ty.render) → Ty.ofName? ty.render = some ty →
      ∃ tree after, (typeAfter mark).run ⟨sign :: others ++ rest, last⟩ =
        .ok (tree, ⟨rest, after⟩) ∧ ty.DenotedBy source tree := by
    intro kind isName shape known
    rw [shape] at spellName
    obtain ⟨name, empty, rfl, isKind, text, sound, spellEmpty⟩ :=
      spell_cons source others kind ty.render [] spellName
    rw [spell_nil source empty spellEmpty]
    rcases isName with rfl | rfl
    · refine ⟨_, name.span, ?_, named name .variableName text sound (Or.inl rfl) known
        (if mark = .arrow then .operator else .punctuation)⟩
      rw [List.cons_append, typeAfter, StateT.run_bind, expect_run _ _ _ _ _ isMark, ok_bind,
        StateT.run_bind, peek_run, ok_bind]
      simp only [TokenStream.past_cons, List.cons_append, List.nil_append, TokenStream.next_cons,
        isKind, StateT.run_bind, take_run, ok_bind]
      rfl
    · refine ⟨_, name.span, ?_, named name .noneWord text sound (Or.inr rfl) known
        (if mark = .arrow then .operator else .punctuation)⟩
      rw [List.cons_append, typeAfter, StateT.run_bind, expect_run _ _ _ _ _ isMark, ok_bind,
        StateT.run_bind, peek_run, ok_bind]
      simp only [TokenStream.past_cons, List.cons_append, List.nil_append, TokenStream.next_cons,
        isKind, StateT.run_bind, take_run, ok_bind]
      rfl
  cases ty with
  | int => exact spelled .name (Or.inl rfl) rfl (by decide)
  | bool => exact spelled .name (Or.inl rfl) rfl (by decide)
  | none => exact spelled .noneWord (Or.inr rfl) rfl (by decide)
  | object className => exact absurd rfl (plain className)

theorem type_if_accepts (mark : TokenKind) (ty : Ty) (plain : ty.Plain) :
    Accepts source (typeIf mark) [mark.shape, ty.shape] (fun _ => True)
      fun trees => ∃ tree, trees = [tree] ∧ ty.DenotedBy source tree := by
  intro lexemes rest last spell follows
  obtain ⟨tree, after, run, denoted⟩ := type_after_accepts source mark ty plain lexemes rest last
    spell follows
  refine ⟨[tree], after, ?_, tree, rfl, denoted⟩
  obtain ⟨sign, others, rfl, isMark, _⟩ := spell_cons source lexemes mark _ _ spell
  rw [typeIf, StateT.run_bind, peek_run, ok_bind,
    if_pos (by rw [List.cons_append, TokenStream.next_cons, isMark]), StateT.run_bind, run]
  rfl

theorem type_if_stops (mark : TokenKind) (rest : List Lexeme) (last : Span)
    (other : headKind rest ≠ mark) :
    (typeIf mark).run ⟨rest, last⟩ = .ok ([], ⟨rest, last⟩) := by
  rw [typeIf, StateT.run_bind, peek_run, ok_bind, if_neg (by rw [next_kind]; exact other)]
  rfl

theorem repeat_up_to_stops (step : Parser (Option (List Tree))) (count : Nat)
    (stream : TokenStream) (stops : step.run stream = .ok (none, stream)) :
    (repeatUpTo step count).run stream = .ok ([], stream) := by
  cases count with
  | zero => rfl
  | succ count =>
      rw [repeatUpTo, StateT.run_bind, stops]
      rfl

theorem repeat_up_to_steps (step : Parser (Option (List Tree))) (count : Nat)
    (stream middle after : TokenStream) (items others : List Tree)
    (first : step.run stream = .ok (some items, middle))
    (later : (repeatUpTo step count).run middle = .ok (others, after)) :
    (repeatUpTo step (count + 1)).run stream = .ok (items ++ others, after) := by
  rw [repeatUpTo, StateT.run_bind, first, ok_bind]
  simp only [StateT.run_bind, later, ok_bind]
  rfl

def valueStep : Parser (Option (List Tree)) := do
  match ← takeIf .assign .assignOp with
  | none => return none
  | some sign => return some [sign, ← expression]

theorem expression_or_assignment_eq : expressionOrAssignment = (do
    let target ← expression
    let declared ← typeIf .colon
    let values ← repeated valueStep
    endOfStatement
    let parts := target :: declared ++ values
    return .branch (if parts.length = 1 then .expressionStatement else .assignStatement) parts) :=
  rfl

theorem values_accepts (value : Expr) (whole : value.Whole) :
    Accepts source (repeated valueStep) (TokenKind.assign.shape :: value.shapes)
      (headKind · = .newline) fun parts => ∃ sign part, parts = [sign, part] ∧
        sign.kind = .assignOp ∧ value.DenotedBy source part := by
  intro lexemes rest last spell follows
  obtain ⟨sign, others, rfl, isAssign, _, _, spellValue⟩ :=
    spell_cons source lexemes .assign "=" _ spell
  obtain ⟨part, after, run, denoted⟩ := expression_accepts source value whole others rest sign.span
    spellValue (by rw [Follows, follows]; decide)
  refine ⟨[.leaf .assignOp sign.span, part], after, ?_, _, part, rfl, rfl, denoted⟩
  rw [List.cons_append, repeated, StateT.run_bind, remaining_run, ok_bind]
  apply repeat_up_to_steps valueStep _ _ ⟨rest, after⟩ _ [.leaf .assignOp sign.span, part] []
  · rw [valueStep, StateT.run_bind, take_if_run,
      if_pos (by rw [TokenStream.next_cons, isAssign]), ok_bind]
    simp only [TokenStream.past_cons, TokenStream.next_cons, StateT.run_bind, run, ok_bind]
    rfl
  · apply repeat_up_to_stops
    rw [valueStep, StateT.run_bind, take_if_run, if_neg (by rw [next_kind, follows]; decide)]
    rfl

theorem values_stop (rest : List Lexeme) (last : Span) (follows : headKind rest = .newline) :
    (repeated valueStep).run ⟨rest, last⟩ = .ok ([], ⟨rest, last⟩) := by
  rw [repeated, StateT.run_bind, remaining_run, ok_bind]
  apply repeat_up_to_stops
  rw [valueStep, StateT.run_bind, take_if_run, if_neg (by rw [next_kind, follows]; decide)]
  rfl

theorem name_expression_run (word : String) (isName : IsName word) (notNot : word ≠ "not")
    (lexeme : Lexeme) (rest : List Lexeme) (last : Span) (kind : lexeme.kind = .name)
    (text : lexeme.text = word) (sound : lexeme.Sound source) (follows : Follows 1 rest) :
    ∃ tree after, expression.run ⟨lexeme :: rest, last⟩ = .ok (tree, ⟨rest, after⟩) ∧
      tree.kind = .variableName ∧ tree.text source = word := by
  have whole : (Expr.name ⟨nowhere, none⟩ word).Whole := ⟨decide_eq_false notNot, isName⟩
  have spell : Spell source [lexeme] (Expr.name ⟨nowhere, none⟩ word).shapes := by
    refine ⟨?_, fun other member => ?_⟩
    · rw [Expr.shapes, List.map_singleton, Lexeme.shape, kind, text]
    · rw [List.mem_singleton.mp member]
      exact sound
  obtain ⟨tree, after, run, denoted⟩ := expression_accepts source _ whole [lexeme] rest last spell
    follows
  exact ⟨tree, after, run, name_of_denoted source _ word tree denoted⟩

theorem assign_accepts (span : Span) (target : String) (value : Expr)
    (readable : (Stmt.assign span target value).Readable) :
    Accepts source expressionOrAssignment (Stmt.assign span target value).shapes (fun _ => True)
      ((Stmt.assign span target value).DenotedBy source) := by
  obtain ⟨isName, notNot, whole⟩ := readable
  intro lexemes rest last spell _
  rw [Stmt.shapes] at spell
  simp only [List.cons_append] at spell
  obtain ⟨name, others, rfl, isKind, isText, sound, spellValues⟩ :=
    spell_cons source lexemes .name target _ spell
  rw [← List.cons_append] at spellValues
  obtain ⟨middle, ends, rfl, spellMiddle, spellEnds⟩ := spell_append source others _ _ spellValues
  obtain ⟨newline, none_, rfl, isNewline, _, _, spellNone⟩ :=
    spell_cons source ends .newline "\n" [] spellEnds
  rw [spell_nil source none_ spellNone]
  have assigns : headKind (middle ++ newline :: rest) = .assign := by
    obtain ⟨sign, _, rfl, isSign, _⟩ := spell_cons source middle .assign "=" _ spellMiddle
    exact isSign
  obtain ⟨tree, after, run, named, text⟩ := name_expression_run source target isName notNot name
    (middle ++ newline :: rest) last isKind isText sound (by rw [Follows, assigns]; decide)
  obtain ⟨parts, final, runValues, sign, part, rfl, isAssign, denoted⟩ := values_accepts source value
    whole middle (newline :: rest) after spellMiddle isNewline
  refine ⟨_, newline.span, ?_, assign_denoted source span target value tree sign part named text
    isAssign denoted⟩
  rw [List.cons_append, List.append_assoc, List.singleton_append, expression_or_assignment_eq,
    StateT.run_bind, run, ok_bind]
  simp only [StateT.run_bind, type_if_stops .colon _ after (by rw [assigns]; decide), ok_bind,
    runValues, end_of_line_run newline rest final isNewline]
  rfl

theorem expr_accepts (span : Span) (value : Expr) (whole : value.Whole) :
    Accepts source expressionOrAssignment (Stmt.expr span value).shapes (fun _ => True)
      ((Stmt.expr span value).DenotedBy source) := by
  intro lexemes rest last spell _
  obtain ⟨middle, ends, rfl, spellMiddle, spellEnds⟩ := spell_append source lexemes _ _ spell
  obtain ⟨newline, none_, rfl, isNewline, _, _, spellNone⟩ :=
    spell_cons source ends .newline "\n" [] spellEnds
  rw [spell_nil source none_ spellNone]
  have ends : headKind (newline :: rest) = .newline := isNewline
  obtain ⟨tree, after, run, denoted⟩ := expression_accepts source value whole middle
    (newline :: rest) last spellMiddle (by rw [Follows, ends]; decide)
  refine ⟨_, newline.span, ?_, expr_denoted source span value tree denoted⟩
  rw [List.append_assoc, List.singleton_append, expression_or_assignment_eq, StateT.run_bind, run,
    ok_bind]
  simp only [StateT.run_bind, type_if_stops .colon _ after (by rw [ends]; decide), ok_bind,
    values_stop _ after ends, end_of_line_run newline rest after isNewline]
  rfl

/-- Every negative integer but the least has a positive counterpart. -/
theorem word_negated (word : Word) (negative : word < 0) (notLeast : word ≠ Int32.minValue) :
    word.toInt < 0 ∧ (-word).toInt = -word.toInt := by
  have below := Int32.lt_iff_toInt_lt.mp negative
  rw [Int32.toInt_zero] at below
  have least := Int32.le_toInt word
  have larger : word.toInt ≠ -2 ^ 31 := by
    intro same
    apply notLeast
    rw [← Int32.toInt_inj, same]
    decide
  refine ⟨below, ?_⟩
  rw [Int32.toInt_neg, Int.bmod_def]
  split <;> omega

theorem Literal.as_expr_whole (value : Literal)
    (writable : ∀ word, value = .int word → word ≠ Int32.minValue) : value.asExpr.Whole := by
  cases value with
  | int word =>
      rw [Literal.asExpr]
      split
      · rename_i negative
        refine ⟨rfl, (by decide : 7 ≤ 9), ?_⟩
        change 0 ≤ (-word).toInt
        obtain ⟨below, opposite⟩ := word_negated word negative (writable word rfl)
        rw [opposite]
        omega
      · rename_i notNegative
        refine ⟨rfl, ?_⟩
        change 0 ≤ word.toInt
        have known := Int32.not_lt.mp notNegative
        rw [Int32.le_iff_toInt_le, Int32.toInt_zero] at known
        exact known
  | bool truth => exact ⟨rfl, trivial⟩
  | none => exact ⟨rfl, trivial⟩

theorem var_accepts (var : VarDef) (readable : var.Readable) :
    Accepts source expressionOrAssignment var.shapes (fun _ => True) (var.DenotedBy source) := by
  intro lexemes rest last spell _
  rw [VarDef.shapes] at spell
  simp only [List.cons_append] at spell
  obtain ⟨name, others, rfl, isKind, isText, sound, spellType⟩ :=
    spell_cons source lexemes .name var.name _ spell
  obtain ⟨declared, values, rfl, spellDeclared, spellValues⟩ :=
    spell_append source others [TokenKind.colon.shape, var.ty.shape] _ spellType
  rw [← List.cons_append] at spellValues
  obtain ⟨middle, ends, rfl, spellMiddle, spellEnds⟩ := spell_append source values _ _ spellValues
  obtain ⟨newline, none_, rfl, isNewline, _, _, spellNone⟩ :=
    spell_cons source ends .newline "\n" [] spellEnds
  rw [spell_nil source none_ spellNone]
  have colon : headKind (declared ++ (middle ++ newline :: rest)) = .colon := by
    obtain ⟨sign, _, rfl, isSign, _⟩ := spell_cons source declared .colon ":" _ spellDeclared
    exact isSign
  obtain ⟨tree, after, run, named, text⟩ := name_expression_run source var.name readable.name
    readable.notNot name _ last isKind isText sound (by rw [Follows, colon]; decide)
  obtain ⟨types, typed, runType, type, rfl, denotedTy⟩ := type_if_accepts source .colon var.ty
    readable.ty declared (middle ++ newline :: rest) after spellDeclared trivial
  obtain ⟨parts, final, runValues, sign, part, rfl, isAssign, denoted⟩ := values_accepts source
    var.init.asExpr (Literal.as_expr_whole var.init readable.init) middle (newline :: rest) typed
    spellMiddle isNewline
  refine ⟨_, newline.span, ?_, var_denoted source var tree type sign part named text denotedTy
    isAssign denoted⟩
  rw [List.cons_append, List.append_assoc, List.append_assoc, List.singleton_append,
    expression_or_assignment_eq, StateT.run_bind, run, ok_bind]
  simp only [StateT.run_bind, runType, ok_bind, runValues,
    end_of_line_run newline rest final isNewline]
  rfl

end Parser

end ScriptWasm
