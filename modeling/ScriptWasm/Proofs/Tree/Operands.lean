import ScriptWasm.Proofs.Text.Decimals
import ScriptWasm.Proofs.Tree.Lists

/-!
Every expression that can be written is read back from its written form, up to notes. The induction
is on the expression, and an expression is reached at its own level, so that looser levels follow.
-/

namespace ScriptWasm

set_option autoImplicit false

theorem denoted_is_no_mark (source : List Char) (expr : Expr) (tree : Tree)
    (denoted : expr.DenotedBy source tree) : tree.kind ≠ .punctuation := by
  intro isMark
  obtain ⟨found, built, _⟩ := denoted.built
  rcases tree with ⟨kind, span, children⟩
  cases isMark
  cases built

theorem args_of_listed (source : List Char) (args : List Expr) (before closing : Tree)
    (parts : List Tree) (close : closing.Mark source ")")
    (listed : Listed source (fun arg items => ∃ tree, items = [tree] ∧ arg.DenotedBy source tree)
      args parts) :
    ∃ found, Expr.argsOfParts source before (parts ++ [closing]) = .ok found ∧
      Expr.mapAllNotes Note.blank found = Expr.mapAllNotes Note.blank args := by
  have notClosing : ∀ arg : Expr, ∀ tree, arg.DenotedBy source tree →
      tree.isToken source .punctuation ")" ≠ true := by
    intro arg tree denoted isToken
    rw [Tree.isToken, Bool.and_eq_true, decide_eq_true_eq] at isToken
    exact denoted_is_no_mark source arg tree denoted isToken.1
  induction listed generalizing before with
  | nil =>
      refine ⟨[], ?_, rfl⟩
      rw [List.nil_append, Expr.argsOfParts, if_pos]
      · rfl
      · rw [Tree.isToken, close.kind, close.text]
        decide
  | one arg items item =>
      obtain ⟨tree, rfl, denoted⟩ := item
      obtain ⟨found, built, same⟩ := denoted.built
      refine ⟨[found], ?_, by rw [Expr.mapAllNotes, same]; rfl⟩
      rw [List.singleton_append, Expr.argsOfParts, if_neg (notClosing arg tree denoted), built, ok_bind]
      simp only [close.text]
      rw [if_neg (by decide), if_pos trivial]
      rfl
  | more arg next args items others comma item mark rest induction =>
      obtain ⟨tree, rfl, denoted⟩ := item
      obtain ⟨found, built, same⟩ := denoted.built
      obtain ⟨later, builtLater, sameLater⟩ := induction comma
      refine ⟨found :: later, ?_, by rw [Expr.mapAllNotes, same, sameLater]; rfl⟩
      rw [List.singleton_append, List.cons_append, List.cons_append, Expr.argsOfParts,
        if_neg (notClosing arg tree denoted), built, ok_bind]
      simp only [mark.text]
      rw [if_pos trivial, builtLater]
      rfl

namespace Parser

section Atoms

variable (source : List Char) (parse : Level → Parser Tree)

/-- A primary expression that no call or member follows. -/
theorem postfixed_of_primary (stream : TokenStream) (rest : List Lexeme) (after : Span) (tree : Tree)
    (run : (primary parse).run stream = .ok (tree, ⟨rest, after⟩)) (follows : Follows 9 rest) :
    (postfixed parse).run stream = .ok (tree, ⟨rest, after⟩) := by
  rw [postfixed, StateT.run_bind, run, ok_bind, extended, StateT.run_bind, remaining_run, ok_bind,
    extendUpTo, StateT.run_bind, StateT.run_bind, peek_run, ok_bind, next_kind]
  split
  · rename_i isOpening
    rw [Follows, isOpening] at follows
    exact absurd follows (by decide)
  · rename_i isDot
    rw [Follows, isDot] at follows
    exact absurd follows (by decide)
  · rfl

theorem leaf_accepted (expr : Expr) (kind : TokenKind) (text : String) (node : NodeKind)
    (shape : expr.shapes = [(kind, text)])
    (taken : ∀ stream, stream.next.kind = kind → (primary parse).run stream = (take node).run stream)
    (denoted : ∀ lexeme : Lexeme, lexeme.kind = kind → lexeme.text = text → lexeme.Sound source →
      expr.DenotedBy source (.leaf node lexeme.span)) : Accepted source parse 9 expr := by
  intro lexemes rest last spell follows
  rw [shape] at spell
  obtain ⟨lexeme, others, rfl, isKind, isText, sound, spellOthers⟩ :=
    spell_cons source lexemes kind text [] spell
  rw [spell_nil source others spellOthers]
  refine ⟨.leaf node lexeme.span, lexeme.span, ?_, denoted lexeme isKind isText sound⟩
  apply postfixed_of_primary parse ⟨lexeme :: rest, last⟩ rest lexeme.span _ ?_ follows
  rw [taken ⟨lexeme :: rest, last⟩ isKind, take_run]
  rfl

theorem name_accepted (note : Note) (word : String) :
    Accepted source parse 9 (.name note word) := by
  apply leaf_accepted source parse _ .name word .variableName rfl
  · intro stream isKind
    rw [primary, StateT.run_bind, peek_run, ok_bind, isKind]
  · intro lexeme _ isText sound
    refine ⟨⟨_, of_named_tree source (.leaf .variableName lexeme.span) rfl, ?_⟩, fun _ _ _ => rfl⟩
    rw [text_of_leaf source .variableName lexeme sound, isText]
    rfl

theorem word_reads_back (tree : Tree) (value : Word) (notNegative : 0 ≤ value.toInt)
    (text : tree.text source = value.render) : Expr.wordOfTree source tree = .ok value := by
  obtain ⟨magnitude, same⟩ : ∃ magnitude : Nat, value.toInt = magnitude :=
    ⟨value.toInt.toNat, by omega⟩
  have chars : (tree.text source).toList = decimalChars magnitude := by
    rw [text, Word.render, same]
    exact String.toList_ofList
  have limit : (magnitude : Int) ≤ Int32.maxValue.toInt := by
    rw [← same]
    exact Int32.toInt_le value
  have small : magnitude < 2 ^ 31 := by
    have known : Int32.maxValue.toInt = 2 ^ 31 - 1 := by decide
    omega
  have word : Int32.ofNat magnitude = value := by
    rw [← Int32.toInt_inj, Int32.toInt_ofNat_of_lt small, same]
  obtain ⟨first, rest, digits, _⟩ := decimal_chars_start magnitude
  rw [Expr.wordOfTree]
  simp only [chars]
  rw [if_pos (List.all_eq_true.mpr (decimal_chars_are_digits magnitude)), if_neg]
  · rw [read_decimal_of_chars, word]
  · rw [read_decimal_of_chars, digits]
    simp only [List.isEmpty_cons, Bool.false_or, decide_eq_true_eq]
    omega

theorem literal_accepted (note : Note) (value : Literal) (readable : (Expr.lit note value).Readable) :
    Accepted source parse 9 (.lit note value) := by
  have boolean : ∀ (truth : Bool) (kind : TokenKind) (text : String),
      (Expr.lit note (.bool truth)).shapes = [(kind, text)] →
      (kind = .trueWord ∨ kind = .falseWord) → decide (text = "True") = truth →
      Accepted source parse 9 (.lit note (.bool truth)) := by
    intro truth kind text shape isWord means
    apply leaf_accepted source parse _ kind text .boolean shape
    · intro stream isKind
      rw [primary, StateT.run_bind, peek_run, ok_bind, isKind]
      rcases isWord with rfl | rfl <;> rfl
    · intro lexeme _ isText sound
      refine ⟨⟨.lit ⟨lexeme.span, none⟩ (.bool truth), ?_, rfl⟩, nofun⟩
      have shown := text_of_leaf source .boolean lexeme sound
      change Except.ok (Expr.lit ⟨lexeme.span, none⟩ (.bool (decide
        ((Tree.leaf .boolean lexeme.span).text source = "True")))) = _
      rw [shown, isText, means]
  cases value with
  | int value =>
      apply leaf_accepted source parse _ .number value.render .number rfl
      · intro stream isKind
        rw [primary, StateT.run_bind, peek_run, ok_bind, isKind]
      · intro lexeme _ isText sound
        have word := word_reads_back source (.leaf .number lexeme.span) value readable
          (by rw [text_of_leaf source .number lexeme sound, isText])
        refine ⟨⟨.lit ⟨lexeme.span, none⟩ (.int value), ?_, rfl⟩, nofun⟩
        change (Expr.wordOfTree source (.leaf .number lexeme.span) >>= fun found =>
          pure (Expr.lit ⟨lexeme.span, none⟩ (.int found))) = _
        rw [word]
        rfl
  | bool truth =>
      cases truth with
      | false => exact boolean false .falseWord "False" rfl (Or.inr rfl) (by decide)
      | true => exact boolean true .trueWord "True" rfl (Or.inl rfl) (by decide)
  | none =>
      apply leaf_accepted source parse _ .noneWord "None" .noneWord rfl
      · intro stream isKind
        rw [primary, StateT.run_bind, peek_run, ok_bind, isKind]
      · intro lexeme _ _ _
        exact ⟨⟨.lit ⟨lexeme.span, none⟩ .none, rfl, rfl⟩, nofun⟩

theorem paren_accepted (note : Note) (inner : Expr)
    (accepts : Accepts source (parse .expression) inner.shapes (Follows 1)
      (inner.DenotedBy source)) : Accepted source parse 9 (.paren note inner) := by
  intro lexemes rest last spell follows
  rw [Expr.shapes, List.cons_append] at spell
  obtain ⟨opening, inside, rfl, isOpening, openText, soundOpening, spellInside⟩ :=
    spell_cons source lexemes .leftParen "(" _ spell
  obtain ⟨middle, ends, rfl, spellMiddle, spellEnds⟩ := spell_append source inside _ _ spellInside
  obtain ⟨closing, others, rfl, isClosing, closeText, soundClosing, spellOthers⟩ :=
    spell_cons source ends .rightParen ")" [] spellEnds
  rw [spell_nil source others spellOthers]
  obtain ⟨tree, after, run, ⟨found, built, same⟩, _⟩ := accepts middle (closing :: rest) opening.span
    spellMiddle (by rw [Follows, headKind, isClosing]; decide)
  refine ⟨_, closing.span, postfixed_of_primary parse _ rest closing.span
    (.branch .parenthesizedExpression
      [.leaf .punctuation opening.span, tree, .leaf .punctuation closing.span]) ?_ follows, ?_⟩
  · rw [List.cons_append, List.append_assoc, List.singleton_append, primary, StateT.run_bind,
      peek_run, ok_bind, TokenStream.next_cons, isOpening]
    simp only [StateT.run_bind, take_run, ok_bind, TokenStream.past_cons, TokenStream.next_cons, run]
    rw [expect_run _ _ _ _ _ isClosing]
    rfl
  · have opens : (Tree.leaf .punctuation opening.span).expectText source "(" = .ok () := by
      rw [expect_text_succeeds_iff, text_of_leaf source .punctuation opening soundOpening]
      exact ⟨openText, rfl⟩
    have closes : (Tree.leaf .punctuation closing.span).expectText source ")" = .ok () := by
      rw [expect_text_succeeds_iff, text_of_leaf source .punctuation closing soundClosing]
      exact ⟨closeText, rfl⟩
    refine ⟨⟨_, (of_paren_succeeds_iff source _ _ _ _).mpr ⟨found, opens, built, closes, rfl⟩, ?_⟩,
      fun _ _ impossible => by cases impossible⟩
    rw [Expr.mapNotes, Expr.mapNotes, same]
    rfl

/-- The arguments of a call are read back in order. -/
theorem arguments_accepts (args : List Expr)
    (accepts : ∀ arg ∈ args, Accepts source (parse .expression) arg.shapes (Follows 1)
      (arg.DenotedBy source))
    (starts : ∀ arg ∈ args, ItemStarts arg.shapes) :
    Accepts source (arguments parse)
      (TokenKind.leftParen.shape :: separated (args.map Expr.shapes) ++ [TokenKind.rightParen.shape])
      (fun _ => True) fun tree => tree.kind = .argList ∧ ∃ found,
        Expr.argsOfTree source tree = .ok found ∧
          Expr.mapAllNotes Note.blank found = Expr.mapAllNotes Note.blank args := by
  have items : ∀ arg ∈ args, Accepts source (do return [← parse .expression] : Parser (List Tree))
      arg.shapes ItemFollows fun parts => ∃ tree, parts = [tree] ∧ arg.DenotedBy source tree := by
    intro arg member lexemes rest last spell follows
    have ends : Follows 1 rest := by
      rcases follows with isComma | isClosing
      · rw [Follows, isComma]
        decide
      · rw [Follows, isClosing]
        decide
    obtain ⟨tree, after, run, denoted⟩ := accepts arg member lexemes rest last spell ends
    refine ⟨[tree], after, ?_, tree, rfl, denoted⟩
    rw [StateT.run_bind, run]
    rfl
  intro lexemes rest last spell follows
  obtain ⟨tree, after, run, opening, parts, closing, rfl, opens, closes, listed⟩ :=
    parenthesized_accepts .argList args items starts lexemes rest last spell follows
  obtain ⟨found, built, same⟩ := args_of_listed source args opening closing parts closes listed
  refine ⟨_, after, run, rfl, found, ?_, same⟩
  unfold Tree.branch
  rw [List.cons_append, Expr.argsOfTree]
  rw [((expect_text_succeeds_iff source "(" opening ()).mpr ⟨opens.text, opens.alone⟩), ok_bind,
    built]

theorem call_accepted (note : Note) (func : String) (args : List Expr)
    (accepts : ∀ arg ∈ args, Accepts source (parse .expression) arg.shapes (Follows 1)
      (arg.DenotedBy source))
    (starts : ∀ arg ∈ args, ItemStarts arg.shapes) :
    Accepted source parse 9 (.call note func args) := by
  intro lexemes rest last spell follows
  rw [Expr.shapes, Expr.shapes_of_all_eq, List.cons_append] at spell
  obtain ⟨callee, inside, rfl, isName, nameText, soundName, spellInside⟩ :=
    spell_cons source lexemes .name func _ spell
  obtain ⟨list, after, run, isList, found, built, sameArgs⟩ :=
    arguments_accepts source parse args accepts starts inside rest callee.span spellInside trivial
  have opening : headKind (inside ++ rest) = .leftParen := by
    obtain ⟨first, others, rfl, isOpening, _⟩ := spell_cons source inside .leftParen "(" _ spellInside
    exact isOpening
  refine ⟨.branch .callExpression [.leaf .variableName callee.span, list], after, ?_, ?_⟩
  · obtain ⟨count, enough⟩ : ∃ count, (inside ++ rest).length = count + 1 := by
      obtain ⟨first, others, rfl, _⟩ := spell_cons source inside .leftParen "(" _ spellInside
      exact ⟨(others ++ rest).length, rfl⟩
    -- The name is read as a primary, and the parenthesis behind it makes a call of it.
    have named : (primary parse).run ⟨callee :: (inside ++ rest), last⟩ =
        .ok (.leaf .variableName callee.span, ⟨inside ++ rest, callee.span⟩) := by
      rw [primary, StateT.run_bind, peek_run, ok_bind, TokenStream.next_cons, isName]
      exact take_run .variableName _
    change (postfixed parse).run _ = _
    rw [List.cons_append, postfixed, StateT.run_bind, named, ok_bind, extended, StateT.run_bind,
      remaining_run, ok_bind, enough, extendUpTo, StateT.run_bind, StateT.run_bind, peek_run, ok_bind,
      next_kind, opening]
    simp only [StateT.run_bind, run, ok_bind]
    rw [StateT.run_pure]
    simp only [pure_bind]
    rw [extendUpTo, StateT.run_bind, StateT.run_bind, peek_run, ok_bind, next_kind]
    split
    · rename_i isOpening
      rw [Follows, isOpening] at follows
      exact absurd follows (by decide)
    · rename_i isDot
      rw [Follows, isDot] at follows
      exact absurd follows (by decide)
    · rfl
  · refine ⟨⟨_, (of_call_succeeds_iff source _ _ _).mpr ⟨found, rfl, isList, built, rfl⟩, ?_⟩,
      fun _ _ impossible => by cases impossible⟩
    rw [Expr.mapNotes, Expr.mapNotes, text_of_leaf source .variableName callee soundName, nameText,
      sameArgs]
    rfl

theorem negative_accepted (note : Note) (operand : Expr)
    (accepts : Accepts source (parse .signed) operand.shapes (Follows 7)
      (operand.DenotedBy source)) : Accepted source parse 7 (.unary note .neg operand) := by
  intro lexemes rest last spell follows
  obtain ⟨sign, others, rfl, isMinus, isText, sound, spellOperand⟩ :=
    spell_cons source lexemes .minus "-" _ spell
  obtain ⟨tree, after, run, ⟨found, built, same⟩, _⟩ :=
    accepts others rest sign.span spellOperand follows
  refine ⟨.branch .unaryExpression [.leaf .operator sign.span, tree], after, ?_, ?_⟩
  · change (signed parse).run _ = _
    rw [List.cons_append, signed, StateT.run_bind, operator_among_run,
      if_pos (by rw [TokenStream.next_cons, isMinus]; decide), ok_bind]
    simp only [StateT.run_bind, TokenStream.past_cons, TokenStream.next_cons, run, ok_bind]
    rfl
  · have builtOp : Expr.unaryOpOfTree source (.leaf .operator sign.span) = .ok .neg := by
      rw [unary_op_of_tree_succeeds_iff, text_of_leaf source .operator sign sound, isText]
      exact ⟨rfl, by decide⟩
    refine ⟨⟨_, (of_unary_succeeds_iff source _ _ _).mpr ⟨.neg, found, builtOp, built, rfl⟩, ?_⟩,
      fun _ _ impossible => by cases impossible⟩
    rw [Expr.mapNotes, Expr.mapNotes, same]
    rfl

theorem not_accepted (note : Note) (operand : Expr)
    (accepts : Accepts source (parse .negation) operand.shapes (Follows 3)
      (operand.DenotedBy source)) : Accepted source parse 3 (.unary note .not operand) := by
  intro lexemes rest last spell follows
  obtain ⟨sign, others, rfl, isName, isText, sound, spellOperand⟩ :=
    spell_cons source lexemes .name "not" _ spell
  obtain ⟨tree, after, run, ⟨found, built, same⟩, _⟩ :=
    accepts others rest sign.span spellOperand follows
  refine ⟨.branch .unaryExpression [.leaf .operator sign.span, tree], after, ?_, ?_⟩
  · change (negation parse).run _ = _
    rw [List.cons_append, negation, StateT.run_bind, operator_word_run,
      if_pos ⟨by rw [TokenStream.next_cons, isName], by rw [TokenStream.next_cons, isText]⟩, ok_bind]
    simp only [StateT.run_bind, TokenStream.past_cons, TokenStream.next_cons, run, ok_bind]
    rfl
  · have builtOp : Expr.unaryOpOfTree source (.leaf .operator sign.span) = .ok .not := by
      rw [unary_op_of_tree_succeeds_iff, text_of_leaf source .operator sign sound, isText]
      exact ⟨rfl, by decide⟩
    refine ⟨⟨_, (of_unary_succeeds_iff source _ _ _).mpr ⟨.not, found, builtOp, built, rfl⟩, ?_⟩,
      fun _ _ impossible => by cases impossible⟩
    rw [Expr.mapNotes, Expr.mapNotes, same]
    rfl

end Atoms

variable (source : List Char)

/-- Where a level goes back to a looser one, enough depth is left. -/
theorem accepts_going_back (expr : Expr) (readable : expr.Readable) (depth : Nat) (level : Level)
    (fits : expr.shapes.length ≤ depth) (below : level.number ≤ expr.level)
    (whole : level.number ≤ 3 → expr.leadingNot = false)
    (reached : ∀ shorter, expr.shapes.length ≤ shorter + 1 →
      Reached source (expressionUpTo shorter) expr) :
    Accepts source (expressionUpTo depth level) expr.shapes (Follows level.number)
      (expr.DenotedBy source) := by
  cases depth with
  | zero =>
      obtain ⟨_, _, _, shape, _⟩ := expr.first_shape readable
      rw [shape] at fits
      cases fits
  | succ depth =>
      have accepted := (reached depth fits).accepted_at readable level.number
        (by cases level <;> decide) below whole
      cases level <;> exact accepted

theorem item_starts_of_readable (expr : Expr) (readable : expr.Readable) :
    ItemStarts expr.shapes := by
  obtain ⟨kind, text, rest, shape, starts, _⟩ := expr.first_shape readable
  refine ⟨kind, text, rest, shape, ?_⟩
  rintro rfl
  cases starts

theorem level_positive (expr : Expr) : 1 ≤ expr.level := by
  have := level_cases expr
  omega

mutual

theorem expression_reached (expr : Expr) (readable : expr.Readable) (depth : Nat)
    (fits : expr.shapes.length ≤ depth + 1) : Reached source (expressionUpTo depth) expr := by
  -- Every form but a binary operation is read as a whole, at the level of its own.
  have alone : ∀ accepted : Accepted source (expressionUpTo depth) expr.level expr,
      ¬joins expr.level → Reached source (expressionUpTo depth) expr :=
    fun accepted single => ⟨fun joined => absurd joined single, fun _ => accepted⟩
  cases expr with
  | lit note value =>
      exact alone (literal_accepted source _ note value readable) (by simp [Expr.level, joins])
  | name note word =>
      exact alone (name_accepted source _ note word) (by simp [Expr.level, joins])
  | call note func args =>
      have whole := (Expr.all_whole_iff args).mp readable.2
      apply alone _ (by simp [Expr.level, joins])
      apply call_accepted
      · intro arg member
        obtain ⟨leading, readableArg⟩ := whole arg member
        apply accepts_going_back source arg readableArg depth .expression
        · have short := length_le_separated (args.map Expr.shapes) arg.shapes
            (List.mem_map_of_mem member)
          rw [Expr.shapes, Expr.shapes_of_all_eq, List.cons_append, List.length_cons,
            List.length_append, List.length_cons] at fits
          omega
        · exact level_positive arg
        · exact fun _ => leading
        · exact fun shorter short => expressions_reached args readable.2 arg member shorter short
      · exact fun arg member => item_starts_of_readable arg (whole arg member).2
  | binary note op left right =>
      obtain ⟨below, above, single, readableLeft, readableRight⟩ := readable
      obtain ⟨joined, tight, _⟩ := op_joins op
      rw [Expr.shapes, List.length_append, List.length_cons] at fits
      -- Both operands have fewer tokens than the whole, so the depth is enough for each.
      have reachedLeft := expression_reached left readableLeft depth (by omega)
      have reachedRight := expression_reached right readableRight depth (by omega)
      refine ⟨fun _ => ?_, fun apart => absurd joined apart⟩
      apply binary_continued
      · exact reachedLeft.continued_at readableLeft op.level joined tight below
      · exact reachedRight.accepted_at readableRight (op.level + 1) (by omega) above (by omega)
      · intro isOp lexemes rest spell
        exact not_is_not_first source right readableRight (by omega) (single isOp) lexemes rest spell
  | unary note op operand =>
      rw [Expr.shapes, List.length_cons] at fits
      cases op with
      | neg =>
          apply alone _ (by simp [Expr.level, joins])
          apply negative_accepted
          apply accepts_going_back source operand readable.2 depth .signed (by omega) readable.1
          · intro impossible
            exact absurd impossible (by decide)
          · exact fun shorter short => expression_reached operand readable.2 shorter short
      | not =>
          apply alone _ (by simp [Expr.level, joins])
          apply not_accepted
          apply accepts_going_back source operand readable.2.2 depth .negation (by omega) readable.1
          · exact fun _ => readable.2.1
          · exact fun shorter short => expression_reached operand readable.2.2 shorter short
  | paren note inner =>
      rw [Expr.shapes, List.cons_append, List.length_cons, List.length_append] at fits
      apply alone _ (by simp [Expr.level, joins])
      apply paren_accepted
      apply accepts_going_back source inner readable.2 depth .expression (by omega)
        (level_positive inner)
      · exact fun _ => readable.1
      · exact fun shorter short => expression_reached inner readable.2 shorter short
  | attr note value member => exact readable.elim
  | construct note className => exact readable.elim
termination_by structural expr

theorem expressions_reached (args : List Expr) (whole : Expr.AllWhole args) (arg : Expr)
    (member : arg ∈ args) (depth : Nat) (fits : arg.shapes.length ≤ depth + 1) :
    Reached source (expressionUpTo depth) arg := by
  cases args with
  | nil => cases member
  | cons first rest =>
      rcases List.mem_cons.mp member with same | later
      · rw [same] at fits ⊢
        exact expression_reached first whole.1.2 depth fits
      · exact expressions_reached rest whole.2 arg later depth fits
termination_by structural args

end

/-- An expression that stands on its own is read back where no operator or name follows it. -/
theorem expression_accepts (expr : Expr) (whole : expr.Whole) :
    Accepts source expression expr.shapes (Follows 1) (expr.DenotedBy source) := by
  intro lexemes rest last spell follows
  rw [expression, StateT.run_bind, remaining_run, ok_bind]
  have long : expr.shapes.length ≤ (lexemes ++ rest).length := by
    rw [List.length_append, spell_length source lexemes _ spell]
    omega
  exact accepts_going_back source expr whole.2 _ .expression long (level_positive expr)
    (fun _ => whole.1) (fun shorter short => expression_reached source expr whole.2 shorter short)
    lexemes rest last spell follows

end Parser

end ScriptWasm
