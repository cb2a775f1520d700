import ScriptWasm.Program.Printer
import ScriptWasm.Proofs.Program.Shapes
import ScriptWasm.Proofs.Token.Pieces

/-!
The texts of expressions are cut into the tokens of expressions, wherever no letter, digit or point
follows them.
-/

namespace ScriptWasm

set_option autoImplicit false

theorem BinaryOp.lexes (op : BinaryOp) :
    Lexes (' ' :: op.symbol.toList ++ [' ']) [op.shape] Anything := by
  apply lexes_between
  have found : ∀ (first : Char) (more : List Char) (kind : TokenKind),
      Lexer.isSkipped first = false →
      (∀ others, Lexer.tokenAt first (more ++ ' ' :: others) = (kind, more.length)) →
      Lexes (first :: more) [(kind, String.ofList (first :: more))] (StartsWith ' ') := by
    intro first more kind solid known
    apply lexes_token first more kind _ solid
    intro rest starts
    cases rest with
    | nil => cases starts
    | cons char others =>
        cases starts
        exact known others
  cases op with
  | add => exact found '+' [] .plus (by decide) fun _ => rfl
  | sub => exact found '-' [] .minus (by decide) fun _ => rfl
  | mul => exact found '*' [] .star (by decide) fun _ => rfl
  | floorDivide => exact found '/' ['/'] .floorDivide (by decide) fun _ => rfl
  | modulo => exact found '%' [] .percent (by decide) fun _ => rfl
  | equal => exact found '=' ['='] .equal (by decide) fun _ => rfl
  | notEqual => exact found '!' ['='] .notEqual (by decide) fun _ => rfl
  | lessEqual => exact found '<' ['='] .lessEqual (by decide) fun _ => rfl
  | greaterEqual => exact found '>' ['='] .greaterEqual (by decide) fun _ => rfl
  | less => exact found '<' [] .less (by decide) fun _ => rfl
  | greater => exact found '>' [] .greater (by decide) fun _ => rfl
  | is =>
      exact lexes_weaken _ _ EndsWord _ (lexes_word "is" 'i' ['s'] rfl (by decide) (by decide))
        ends_word_of_space

theorem starts_token_of_name (word : String) (isName : IsName word) : StartsToken word.toList := by
  obtain ⟨first, rest, chars, starts, _⟩ := isName.letters
  refine ⟨first, rest, chars, ?_, ?_⟩
  · rw [Lexer.isSkipped, Bool.or_eq_false_iff, Bool.or_eq_false_iff]
    refine ⟨⟨?_, ?_⟩, ?_⟩ <;>
      (rw [decide_eq_false_iff_not]; rintro rfl; exact absurd starts (by decide))
  · rintro rfl
    exact absurd starts (by decide)

theorem render_of_not_negative (value : Word) (notNegative : 0 ≤ value.toInt) :
    ∃ number, value.render = decimal number := by
  rw [Word.render]
  cases magnitude : value.toInt with
  | ofNat number => exact ⟨number, rfl⟩
  | negSucc number =>
      rw [magnitude] at notNegative
      exact absurd notNegative (Int.negSucc_not_nonneg number).mp

theorem Expr.starts_token (expr : Expr) (readable : expr.Readable) :
    StartsToken expr.render.toList := by
  cases expr with
  | lit note value =>
      cases value with
      | int value =>
          obtain ⟨number, same⟩ := render_of_not_negative value readable
          obtain ⟨first, rest, digits, starts, _⟩ := decimal_chars_start number
          refine ⟨first, rest, ?_, (digit_facts first starts).2.2.2, ?_⟩
          · rw [render, Literal.render, same, decimal, String.toList_ofList, digits]
          · rintro rfl
            exact absurd starts (by decide)
      | bool truth =>
          rw [render]
          cases truth with
          | false => exact ⟨'F', ['a', 'l', 's', 'e'], rfl, by decide, by decide⟩
          | true => exact ⟨'T', ['r', 'u', 'e'], rfl, by decide, by decide⟩
      | none =>
          rw [render]
          exact ⟨'N', ['o', 'n', 'e'], rfl, by decide, by decide⟩
  | name note word => exact starts_token_of_name word readable
  | call note func args =>
      rw [render]
      simp only [String.toList_append, List.append_assoc]
      exact starts_token_append _ _ (starts_token_of_name func readable.1)
  | binary note op left right =>
      rw [render]
      simp only [String.toList_append, List.append_assoc]
      exact starts_token_append _ _ (Expr.starts_token left readable.2.2.2.1)
  | unary note op operand =>
      cases op with
      | neg =>
          rw [render, String.toList_append]
          exact ⟨'-', _, rfl, by decide, by decide⟩
      | not =>
          rw [render, String.toList_append]
          exact ⟨'n', _, rfl, by decide, by decide⟩
  | paren note inner =>
      rw [render, String.toList_append, String.toList_append]
      exact ⟨'(', _, rfl, by decide, by decide⟩
  | attr note value member => exact readable.elim
  | construct note className => exact readable.elim
termination_by structural expr

theorem lexes_comma_space : Lexes [',', ' '] [TokenKind.comma.shape] Anything :=
  lexes_append [','] [' '] _ [] Anything Anything lexes_comma lexes_space fun _ _ => trivial

theorem lexes_separated_cons (text : String) (shapes : List Shape) (texts : List String)
    (others : List (List Shape)) (alike : texts.length = others.length)
    (lexes : Lexes text.toList shapes EndsWord)
    (later : Lexes (String.intercalate ", " texts).toList (separated others) EndsWord) :
    Lexes (String.intercalate ", " (text :: texts)).toList (separated (shapes :: others))
      EndsWord := by
  cases others with
  | nil =>
      rw [List.length_eq_zero_iff.mp alike, String.intercalate_singleton]
      exact lexes
  | cons next items =>
      cases texts with
      | nil => cases alike
      | cons following rest =>
          rw [String.intercalate_cons_cons, separated]
          simp only [String.toList_append, List.append_assoc]
          apply lexes_append text.toList _ shapes _ EndsWord EndsWord lexes
          · exact lexes_append [',', ' '] _ [TokenKind.comma.shape] _ Anything EndsWord
              lexes_comma_space later fun _ _ => trivial
          · exact fun rest _ => ends_word_cons ',' _ (by decide)

theorem Expr.texts_of_all_length (args : List Expr) :
    (Expr.renderAll args).length = (Expr.shapesOfAll args).length := by
  induction args with
  | nil => rfl
  | cons first rest induction =>
      rw [Expr.renderAll, Expr.shapesOfAll, List.length_cons, List.length_cons, induction]

mutual

/-- The text of an expression is cut into its tokens. -/
theorem Expr.lexes (expr : Expr) (readable : expr.Readable) :
    Lexes expr.render.toList expr.shapes EndsWord := by
  -- The text of a form is put together from the texts of its parts, and the tokens follow piece by
  -- piece.
  cases expr with
  | lit note value =>
      cases value with
      | int value =>
          obtain ⟨number, same⟩ := render_of_not_negative value readable
          rw [render, shapes, Literal.shape, Literal.render, same, decimal, String.toList_ofList]
          exact lexes_number number
      | bool truth =>
          cases truth with
          | false =>
              exact lexes_reserved .falseWord "False" rfl ⟨'F', _, rfl, by decide, by decide⟩
          | true => exact lexes_reserved .trueWord "True" rfl ⟨'T', _, rfl, by decide, by decide⟩
      | none => exact lexes_reserved .noneWord "None" rfl ⟨'N', _, rfl, by decide, by decide⟩
  | name note word => exact lexes_name word readable
  | call note func args =>
      rw [render, shapes]
      simp only [String.toList_append, List.append_assoc]
      apply lexes_append func.toList _ [(.name, func)] _ EndsWord EndsWord (lexes_name func readable.1)
      · apply lexes_append ['('] _ [TokenKind.leftParen.shape] _ Anything EndsWord lexes_open
        · apply lexes_append _ [')'] _ [TokenKind.rightParen.shape] EndsWord EndsWord
            (Expr.all_lexes args readable.2)
          · exact lexes_weaken _ _ Anything EndsWord lexes_close fun _ _ => trivial
          · exact fun rest _ => ends_word_cons ')' rest (by decide)
        · exact fun _ _ => trivial
      · exact fun rest _ => ends_word_cons '(' _ (by decide)
  | binary note op left right =>
      rw [render, shapes]
      have parts : (left.render ++ " " ++ op.symbol ++ " " ++ right.render).toList =
          left.render.toList ++ ((' ' :: op.symbol.toList ++ [' ']) ++ right.render.toList) := by
        simp only [String.toList_append, List.append_assoc]
        rfl
      rw [parts]
      apply lexes_append left.render.toList _ left.shapes _ EndsWord EndsWord
        (Expr.lexes left readable.2.2.2.1)
      · apply lexes_append _ right.render.toList [op.shape] right.shapes Anything EndsWord op.lexes
          (Expr.lexes right readable.2.2.2.2)
        exact fun _ _ => trivial
      · exact fun rest _ => ends_word_cons ' ' _ (by decide)
  | unary note op operand =>
      cases op with
      | neg =>
          rw [render, shapes, String.toList_append]
          apply lexes_append ['-'] operand.render.toList [TokenKind.minus.shape] operand.shapes _
            EndsWord lexes_minus (Expr.lexes operand readable.2)
          -- A minus before `>` would be cut as an arrow, but no expression starts with that sign.
          intro rest _
          obtain ⟨first, more, chars, _, notArrow⟩ := operand.starts_token readable.2
          rw [chars, List.cons_append, List.head?_cons]
          exact fun same => notArrow (Option.some.inj same)
      | not =>
          rw [render, shapes, String.toList_append]
          have word : Lexes ("not ".toList) [(.name, "not")] Anything :=
            lexes_append ['n', 'o', 't'] [' '] [(.name, "not")] [] EndsWord Anything
              (lexes_reserved .name "not" rfl ⟨'n', _, rfl, by decide, by decide⟩) lexes_space
              fun rest _ => ends_word_cons ' ' rest (by decide)
          exact lexes_append _ operand.render.toList [(.name, "not")] operand.shapes Anything EndsWord
            word (Expr.lexes operand readable.2.2) fun _ _ => trivial
  | paren note inner =>
      rw [render, shapes]
      simp only [String.toList_append, List.append_assoc]
      apply lexes_append ['('] _ [TokenKind.leftParen.shape] _ Anything EndsWord lexes_open
      · apply lexes_append _ [')'] inner.shapes [TokenKind.rightParen.shape] EndsWord EndsWord
          (Expr.lexes inner readable.2)
        · exact lexes_weaken _ _ Anything EndsWord lexes_close fun _ _ => trivial
        · exact fun rest _ => ends_word_cons ')' rest (by decide)
      · exact fun _ _ => trivial
  | attr note value member => exact readable.elim
  | construct note className => exact readable.elim
termination_by structural expr

theorem Expr.all_lexes (args : List Expr) (whole : Expr.AllWhole args) :
    Lexes (String.intercalate ", " (Expr.renderAll args)).toList (separated (Expr.shapesOfAll args))
      EndsWord := by
  cases args with
  | nil => exact lexes_nil EndsWord
  | cons first rest =>
      rw [Expr.renderAll, Expr.shapesOfAll]
      exact lexes_separated_cons first.render first.shapes (Expr.renderAll rest)
        (Expr.shapesOfAll rest) (Expr.texts_of_all_length rest) (Expr.lexes first whole.1.2)
        (Expr.all_lexes rest whole.2)
termination_by structural args

end

end ScriptWasm
