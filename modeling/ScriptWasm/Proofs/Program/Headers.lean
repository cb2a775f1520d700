import ScriptWasm.Proofs.Program.Texts
import ScriptWasm.Proofs.Token.Rows
import ScriptWasm.Proofs.Tree.Lines

/-!
The lines of programs, cut into tokens. A line says an expression between a head and perhaps a
colon, declares a variable, or is the header of a function or a class. A type that is shown stands
in a comment, so it adds nothing to the tokens of its line.
-/

namespace ScriptWasm

set_option autoImplicit false

theorem ends_word_of_line_end (rest : List Char) (starts : StartsWith '\n' rest) :
    EndsWord rest := by
  cases rest with
  | nil => cases starts
  | cons char others =>
      cases starts
      exact ends_word_cons '\n' others (by decide)

/-- A name that stands for a type is a word or `None`. -/
theorem Ty.lexes (ty : Ty) (plain : ty.Plain) : Lexes ty.render.toList [ty.shape] EndsWord := by
  cases ty with
  | int => exact lexes_reserved .name "int" (by decide) ⟨'i', _, rfl, by decide, by decide⟩
  | bool => exact lexes_reserved .name "bool" (by decide) ⟨'b', _, rfl, by decide, by decide⟩
  | none => exact lexes_reserved .noneWord "None" (by decide) ⟨'N', _, rfl, by decide, by decide⟩
  | object className => exact absurd rfl (plain className)

theorem Ty.shape_inline (ty : Ty) : Inline [ty.shape] := by
  cases ty with
  | none => exact inline_single .noneWord _ (by decide)
  | int => exact inline_single .name _ (by decide)
  | bool => exact inline_single .name _ (by decide)
  | object className => exact inline_single .name className (by decide)

/-- A negative integer is written as its magnitude after a minus. -/
theorem Literal.as_expr_render (value : Literal)
    (writable : ∀ word, value = .int word → word ≠ Int32.minValue) :
    value.asExpr.render = value.render := by
  cases value with
  | bool truth => rfl
  | none => rfl
  | int word =>
      rw [asExpr]
      split
      · rename_i negative
        obtain ⟨below, opposite⟩ := Parser.word_negated word negative (writable word rfl)
        rw [Expr.render, Expr.render, render, render, Word.render, Word.render, opposite]
        cases number : word.toInt with
        | ofNat magnitude =>
            rw [number] at below
            exact absurd below (Int.not_lt.mpr (Int.natCast_nonneg magnitude))
        | negSucc predecessor =>
            rw [Int.neg_negSucc]
            rfl
      · rfl

section Remarks

def remarkText (ty : Ty) : String :=
  "  # " ++ ty.render

theorem remark_lexes (ty : Ty) (plain : ty.Plain) :
    ∃ remark, Lexes (remarkText ty).toList remark (StartsWith '\n') ∧
      ∀ shape ∈ remark, shape.1 = .comment := by
  have comment : ∀ more : List Char, more.all (· ≠ '\n') = true →
      Lexes (' ' :: ' ' :: '#' :: more) [(.comment, String.ofList ('#' :: more))]
        (StartsWith '\n') := by
    intro more oneLine
    have found : Lexes ('#' :: more) [(.comment, String.ofList ('#' :: more))]
        (StartsWith '\n') := by
      apply lexes_token '#' more .comment _ (by decide)
      intro rest starts
      have taken : (more ++ rest).takeWhile (· ≠ '\n') = more := by
        rw [List.takeWhile_append_of_pos (List.all_eq_true.mp oneLine)]
        cases rest with
        | nil => cases starts
        | cons char others =>
            cases starts
            rw [List.takeWhile_cons_of_neg (by simp), List.append_nil]
      rw [Lexer.tokenAt, if_neg (by decide), if_neg (by simp), if_neg (by decide),
        if_neg (by decide), if_neg (by decide), if_pos rfl, taken]
    exact lexes_append [' '] _ [] _ Anything _ lexes_space
      (lexes_append [' '] _ [] _ Anything _ lexes_space found fun _ _ => trivial)
      fun _ _ => trivial
  have known : ∀ more : List Char, (remarkText ty).toList = ' ' :: ' ' :: '#' :: more →
      more.all (· ≠ '\n') = true → ∃ remark,
        Lexes (remarkText ty).toList remark (StartsWith '\n') ∧
          ∀ shape ∈ remark, shape.1 = .comment := by
    intro more same oneLine
    refine ⟨_, by rw [same]; exact comment more oneLine, ?_⟩
    intro shape member
    rw [List.mem_singleton.mp member]
  cases ty with
  | int => exact known [' ', 'i', 'n', 't'] rfl (by decide)
  | bool => exact known [' ', 'b', 'o', 'o', 'l'] rfl (by decide)
  | none => exact known [' ', 'N', 'o', 'n', 'e'] rfl (by decide)
  | object className => exact absurd rfl (plain className)

end Remarks

/-- A text that is cut into its tokens and perhaps a comment, where its line ends. -/
structure LineOf (text : String) (shapes : List Shape) : Prop where
  starts : StartsToken text.toList
  lexes : ∃ remark, Lexes text.toList (shapes ++ remark) (StartsWith '\n') ∧
    ∀ shape ∈ remark, shape.1 = .comment
  filled : shapes ≠ []
  inside : Inline shapes

theorem LineOf.fits {text : String} {shapes : List Shape} (line : LineOf text shapes)
    (depth : Nat) : Row.Fits ⟨depth, text, shapes⟩ :=
  ⟨line.starts, line.lexes, line.filled, line.inside⟩

theorem line_of_lexes (text : String) (shapes : List Shape) (starts : StartsToken text.toList)
    (lexes : Lexes text.toList shapes (StartsWith '\n')) (filled : shapes ≠ [])
    (inside : Inline shapes) : LineOf text shapes :=
  ⟨starts, ⟨[], by rwa [List.append_nil], nofun⟩, filled, inside⟩

structure Heads (before : String) (shapes : List Shape) : Prop where
  starts : before = "" ∨ StartsToken before.toList
  lexes : Lexes before.toList shapes Anything
  inside : Inline shapes

theorem heads_nothing : Heads "" [] :=
  ⟨Or.inl rfl, lexes_nil Anything, inline_nil⟩

theorem heads_word (kind : TokenKind) (word : String)
    (lexes : Lexes word.toList [(kind, word)] EndsWord) (starts : StartsToken word.toList)
    (plain : kind ∉ [.newline, .comment, .leftParen, .rightParen]) :
    Heads (word ++ " ") [(kind, word)] where
  starts := by
    rw [String.toList_append]
    exact Or.inr (starts_token_append _ _ starts)
  lexes := by
    rw [String.toList_append]
    exact lexes_append word.toList [' '] [(kind, word)] [] EndsWord Anything lexes lexes_space
      fun rest _ => ends_word_cons ' ' rest (by decide)
  inside := inline_single kind word plain

theorem lexes_assign : Lexes [' ', '=', ' '] [TokenKind.assign.shape] Anything :=
  lexes_between ['='] TokenKind.assign.shape
    (lexes_mark '=' .assign (StartsWith ' ') (by decide) fun rest starts => by
      cases rest with
      | nil => cases starts
      | cons char others =>
          cases starts
          rfl)

theorem heads_assign (target : String) (isName : IsName target) :
    Heads (target ++ " = ") [(.name, target), TokenKind.assign.shape] where
  starts := by
    rw [String.toList_append]
    exact Or.inr (starts_token_append _ _ (starts_token_of_name target isName))
  lexes := by
    rw [String.toList_append]
    exact lexes_append target.toList [' ', '=', ' '] [(.name, target)] _ EndsWord Anything
      (lexes_name target isName) lexes_assign fun rest _ => ends_word_cons ' ' _ (by decide)
  inside := inline_cons .name target _ (by decide) (inline_single .assign _ (by decide))

inductive Tails : String → List Shape → Prop where
  | nothing : Tails "" []
  | colon : Tails ":" [TokenKind.colon.shape]

theorem Tails.lexes {after : String} {shapes : List Shape} (tails : Tails after shapes) :
    Lexes after.toList shapes EndsWord ∧ Inline shapes ∧
      ∀ rest, EndsWord rest → EndsWord (after.toList ++ rest) := by
  cases tails with
  | nothing => exact ⟨lexes_nil EndsWord, inline_nil, fun _ ends => ends⟩
  | colon =>
      exact ⟨lexes_weaken _ _ Anything EndsWord lexes_colon fun _ _ => trivial,
        inline_single .colon _ (by decide), fun rest _ => ends_word_cons ':' rest (by decide)⟩

theorem expr_line_of (showTypes : Bool) (before : String) (head : List Shape) (expr : Expr)
    (after : String) (tail : List Shape) (heads : Heads before head) (readable : expr.Readable)
    (tails : Tails after tail) (noted : showTypes = true → expr.note.Plain) :
    ∃ text, (∀ depth, Stmt.exprLine showTypes depth before expr after = indented depth text) ∧
      LineOf text (head ++ expr.shapes ++ tail) := by
  obtain ⟨lexesTail, inlineTail, endsTail⟩ := tails.lexes
  have body : Lexes (before ++ expr.render ++ after).toList (head ++ expr.shapes ++ tail)
      EndsWord := by
    simp only [String.toList_append, List.append_assoc]
    apply lexes_append before.toList _ head _ Anything EndsWord heads.lexes
    · exact lexes_append expr.render.toList after.toList expr.shapes tail EndsWord EndsWord
        (expr.lexes readable) lexesTail endsTail
    · exact fun _ _ => trivial
  have starts : StartsToken (before ++ expr.render ++ after).toList := by
    rw [String.toList_append]
    apply starts_token_append
    rcases heads.starts with rfl | starts
    · rw [String.toList_append]
      exact expr.starts_token readable
    · rw [String.toList_append]
      exact starts_token_append _ _ starts
  have filled : head ++ expr.shapes ++ tail ≠ [] := by
    obtain ⟨kind, text, rest, shapes, _⟩ := expr.first_shape readable
    rw [shapes]
    simp
  have inside : Inline (head ++ expr.shapes ++ tail) :=
    inline_append _ _ (inline_append _ _ heads.inside expr.shapes_inline) inlineTail
  have bare : (∀ depth, Stmt.exprLine showTypes depth before expr after =
      indented depth (before ++ expr.render ++ after ++ "")) →
      ∃ text, (∀ depth, Stmt.exprLine showTypes depth before expr after = indented depth text) ∧
        LineOf text (head ++ expr.shapes ++ tail) := by
    intro same
    refine ⟨before ++ expr.render ++ after, fun depth => by rw [same, String.append_empty], ?_⟩
    exact line_of_lexes _ _ starts (lexes_weaken _ _ EndsWord _ body ends_word_of_line_end) filled
      inside
  cases showTypes with
  | false => exact bare fun _ => rfl
  | true =>
      cases annotated : expr.ty? with
      | none => exact bare fun depth => by simp only [Stmt.exprLine, annotated]
      | some ty =>
          obtain ⟨remark, lexesRemark, comments⟩ := remark_lexes ty (noted rfl ty annotated)
          refine ⟨before ++ expr.render ++ after ++ remarkText ty,
            fun depth => by simp only [Stmt.exprLine, annotated, remarkText], ?_,
            ⟨remark, ?_, comments⟩, filled, inside⟩
          · rw [String.toList_append]
            exact starts_token_append _ _ starts
          · rw [String.toList_append]
            apply lexes_append _ _ _ remark EndsWord _ body lexesRemark
            intro rest _
            rw [remarkText, String.toList_append]
            exact ends_word_cons ' ' _ (by decide)

theorem word_line_of (kind : TokenKind) (word : String)
    (lexes : Lexes word.toList [(kind, word)] EndsWord) (starts : StartsToken word.toList)
    (plain : kind ∉ [.newline, .comment, .leftParen, .rightParen]) : LineOf word [(kind, word)] :=
  line_of_lexes _ _ starts (lexes_weaken _ _ EndsWord _ lexes ends_word_of_line_end) (by simp)
    (inline_single kind word plain)

theorem pass_line_of : LineOf "pass" [TokenKind.passWord.shape] :=
  word_line_of .passWord "pass"
    (lexes_reserved .passWord "pass" (by decide) ⟨'p', _, rfl, by decide, by decide⟩)
    ⟨'p', _, rfl, by decide, by decide⟩ (by decide)

theorem else_line_of : LineOf "else:" ([TokenKind.elseWord.shape] ++ [TokenKind.colon.shape]) := by
  apply line_of_lexes _ _ ⟨'e', _, rfl, by decide, by decide⟩
  · apply lexes_append ['e', 'l', 's', 'e'] [':'] [TokenKind.elseWord.shape] _ EndsWord
      (StartsWith '\n')
      (lexes_reserved .elseWord "else" (by decide) ⟨'e', _, rfl, by decide, by decide⟩)
      (lexes_weaken _ _ Anything _ lexes_colon fun _ _ => trivial)
    exact fun rest _ => ends_word_cons ':' rest (by decide)
  · simp
  · exact inline_cons .elseWord _ _ (by decide) (inline_single .colon _ (by decide))

theorem lexes_declared (name : String) (ty : Ty) (isName : IsName name) (plain : ty.Plain) :
    Lexes (name ++ ": " ++ ty.render).toList [(.name, name), TokenKind.colon.shape, ty.shape]
      EndsWord := by
  simp only [String.toList_append, List.append_assoc]
  apply lexes_append name.toList _ [(.name, name)] _ EndsWord EndsWord (lexes_name name isName)
  · exact lexes_append [':'] _ [TokenKind.colon.shape] [ty.shape] Anything EndsWord lexes_colon
      (lexes_append [' '] _ [] _ Anything EndsWord lexes_space (ty.lexes plain)
        fun _ _ => trivial) fun _ _ => trivial
  · exact fun rest _ => ends_word_cons ':' _ (by decide)

theorem declared_inline (name : String) (ty : Ty) :
    Inline [(.name, name), TokenKind.colon.shape, ty.shape] :=
  inline_cons .name name _ (by decide) (inline_cons .colon _ _ (by decide) ty.shape_inline)

def VarDef.lineShapes (var : VarDef) : List Shape :=
  (.name, var.name) :: TokenKind.colon.shape :: var.ty.shape :: TokenKind.assign.shape ::
    var.init.asExpr.shapes

theorem var_line_of (var : VarDef) (readable : var.Readable) :
    LineOf (var.name ++ ": " ++ var.ty.render ++ " = " ++ var.init.render) var.lineShapes := by
  have whole := (Parser.Literal.as_expr_whole var.init readable.init).2
  apply line_of_lexes
  · simp only [String.toList_append, List.append_assoc]
    exact starts_token_append _ _ (starts_token_of_name var.name readable.name)
  · rw [← Literal.as_expr_render var.init readable.init, String.toList_append,
      String.toList_append, List.append_assoc]
    apply lexes_append _ _ [(.name, var.name), TokenKind.colon.shape, var.ty.shape] _ EndsWord
      (StartsWith '\n') (lexes_declared var.name var.ty readable.name readable.ty)
    · exact lexes_append [' ', '=', ' '] _ [TokenKind.assign.shape] _ Anything _ lexes_assign
        (lexes_weaken _ _ EndsWord _ (var.init.asExpr.lexes whole) ends_word_of_line_end)
        fun _ _ => trivial
    · exact fun rest _ => ends_word_cons ' ' _ (by decide)
  · rw [VarDef.lineShapes]
    simp
  · exact inline_append [(.name, var.name), TokenKind.colon.shape, var.ty.shape] _
      (declared_inline var.name var.ty)
      (inline_cons .assign _ _ (by decide) var.init.asExpr.shapes_inline)

theorem lexes_arrow : Lexes [' ', '-', '>', ' '] [TokenKind.arrow.shape] Anything :=
  lexes_between ['-', '>'] TokenKind.arrow.shape
    (lexes_token '-' ['>'] .arrow (StartsWith ' ') (by decide) fun _ _ => rfl)

theorem params_lex (params : List Param) (readable : ∀ param ∈ params, param.Readable) :
    Lexes (String.intercalate ", "
        (params.map fun param => param.name ++ ": " ++ param.ty.render)).toList
      (separated (params.map Param.shapes)) EndsWord := by
  induction params with
  | nil => exact lexes_nil EndsWord
  | cons first rest induction =>
      have head := readable first (by simp)
      exact lexes_separated_cons _ first.shapes _ _ (by simp)
        (lexes_declared first.name first.ty head.name head.ty)
        (induction fun param member => readable param (by simp [member]))

def FuncDef.headShapes (func : FuncDef) : List Shape :=
  TokenKind.defWord.shape :: (.name, func.name) ::
    (TokenKind.leftParen.shape :: separated (func.params.map Param.shapes) ++
      [TokenKind.rightParen.shape]) ++ [TokenKind.arrow.shape, func.result.shape]

theorem function_line_of (func : FuncDef) (readable : func.Readable) :
    LineOf ("def " ++ func.name ++ "(" ++ String.intercalate ", "
        (func.params.map fun param => param.name ++ ": " ++ param.ty.render) ++ ") -> " ++
        func.result.render ++ ":") (func.headShapes ++ [TokenKind.colon.shape]) := by
  apply line_of_lexes
  · simp only [String.toList_append, List.append_assoc]
    exact ⟨'d', _, rfl, by decide, by decide⟩
  · have shapes : func.headShapes ++ [TokenKind.colon.shape] =
        [TokenKind.defWord.shape] ++ ([(.name, func.name)] ++ ([TokenKind.leftParen.shape] ++
          (separated (func.params.map Param.shapes) ++ ([TokenKind.rightParen.shape] ++
            ([TokenKind.arrow.shape] ++ ([func.result.shape] ++ [TokenKind.colon.shape])))))) := by
      simp [FuncDef.headShapes]
    have text : ("def " ++ func.name ++ "(" ++ String.intercalate ", "
        (func.params.map fun param => param.name ++ ": " ++ param.ty.render) ++ ") -> " ++
        func.result.render ++ ":").toList =
        "def ".toList ++ (func.name.toList ++ (['('] ++ ((String.intercalate ", "
          (func.params.map fun param => param.name ++ ": " ++ param.ty.render)).toList ++
          ([')'] ++ ([' ', '-', '>', ' '] ++ (func.result.render.toList ++ [':'])))))) := by
      simp only [String.toList_append, List.append_assoc]
      rfl
    have word := (heads_word .defWord "def"
      (lexes_reserved .defWord "def" (by decide) ⟨'d', _, rfl, by decide, by decide⟩)
      ⟨'d', _, rfl, by decide, by decide⟩ (by decide)).lexes
    have colon : Lexes [':'] [TokenKind.colon.shape] (StartsWith '\n') :=
      lexes_weaken _ _ Anything _ lexes_colon fun _ _ => trivial
    rw [shapes, text]
    apply lexes_append _ _ _ _ Anything _ word _ fun _ _ => trivial
    apply lexes_append _ _ _ _ EndsWord _ (lexes_name func.name readable.name) _
      fun rest _ => ends_word_cons '(' _ (by decide)
    apply lexes_append _ _ _ _ Anything _ lexes_open _ fun _ _ => trivial
    apply lexes_append _ _ _ _ EndsWord _ (params_lex func.params readable.params) _
      fun rest _ => ends_word_cons ')' _ (by decide)
    apply lexes_append _ _ _ _ Anything _ lexes_close _ fun _ _ => trivial
    apply lexes_append _ _ _ _ Anything _ lexes_arrow _ fun _ _ => trivial
    exact lexes_append _ _ _ _ EndsWord _ (func.result.lexes readable.result) colon
      fun rest _ => ends_word_cons ':' _ (by decide)
  · simp [FuncDef.headShapes]
  · apply inline_append _ _ _ (inline_single .colon _ (by decide))
    apply inline_append _ _ _ (inline_cons .arrow _ _ (by decide) func.result.shape_inline)
    apply inline_cons .defWord _ _ (by decide)
    apply inline_cons .name func.name _ (by decide)
    apply inline_parens
    apply inline_separated
    intro item member
    obtain ⟨param, _, rfl⟩ := List.mem_map.mp member
    exact declared_inline param.name param.ty

theorem class_line_of (definition : ClassDef) (readable : definition.Readable) :
    LineOf ("class " ++ definition.name ++ ":")
      ([TokenKind.classWord.shape, (.name, definition.name)] ++ [TokenKind.colon.shape]) := by
  have word := heads_word .classWord "class"
    (lexes_reserved .classWord "class" (by decide) ⟨'c', _, rfl, by decide, by decide⟩)
    ⟨'c', _, rfl, by decide, by decide⟩ (by decide)
  apply line_of_lexes
  · simp only [String.toList_append, List.append_assoc]
    exact ⟨'c', _, rfl, by decide, by decide⟩
  · rw [String.toList_append, String.toList_append, List.append_assoc]
    apply lexes_append _ _ [TokenKind.classWord.shape] [(.name, definition.name), _] Anything _
      word.lexes _ fun _ _ => trivial
    exact lexes_append _ [':'] [(.name, definition.name)] _ EndsWord _
      (lexes_name definition.name readable.name)
      (lexes_weaken _ _ Anything _ lexes_colon fun _ _ => trivial)
      fun rest _ => ends_word_cons ':' _ (by decide)
  · simp
  · exact inline_cons .classWord _ _ (by decide)
      (inline_cons .name definition.name _ (by decide) (inline_single .colon _ (by decide)))

end ScriptWasm
