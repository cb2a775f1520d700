import ScriptWasm.Program.Printer
import ScriptWasm.Proofs.Program.Shapes
import ScriptWasm.Proofs.Token.Pieces

/-!
Texts that consist of indented lines. Every line is cut into the tokens of what it says and the
token that ends it, and its first token stands at the column of its indentation.
-/

namespace ScriptWasm

set_option autoImplicit false

structure Row where
  depth : Nat
  text : String
  shapes : List Shape

def Row.line (row : Row) : String :=
  indented row.depth row.text

structure Row.Fits (row : Row) : Prop where
  starts : StartsToken row.text.toList
  lexes : ∃ remark, Lexes row.text.toList (row.shapes ++ remark) (StartsWith '\n') ∧
    ∀ shape ∈ remark, shape.1 = .comment
  filled : row.shapes ≠ []
  inside : Inline row.shapes

def textOf (rows : List Row) : List Char :=
  rows.flatMap fun row => row.line.toList ++ ['\n']

theorem line_from_same_line (line first rest : List Char) (count : Nat) (oneLine : '\n' ∉ first) :
    Layout.lineFrom line (byteLength first + count) (first ++ rest) =
      Layout.lineFrom line count rest := by
  induction first with
  | nil => rw [byteLength, Nat.zero_add, List.nil_append]
  | cons char others induction =>
      have positive := char.utf8Size_pos
      obtain ⟨offset, sum⟩ : ∃ offset, byteLength (char :: others) + count = offset + 1 :=
        ⟨char.utf8Size + byteLength others + count - 1, by rw [byteLength]; omega⟩
      have left : offset + 1 - char.utf8Size = byteLength others + count := by
        rw [← sum, byteLength]
        omega
      rw [List.mem_cons, not_or] at oneLine
      rw [sum, List.cons_append, Layout.lineFrom, if_neg (Ne.symm oneLine.1), left,
        induction oneLine.2]

theorem line_from_next_line (line first rest : List Char) (count : Nat) :
    Layout.lineFrom line (byteLength (first ++ ['\n']) + count) (first ++ '\n' :: rest) =
      Layout.lineFrom rest count rest := by
  induction first generalizing line with
  | nil =>
      rw [List.nil_append, List.nil_append, byteLength, byteLength, Nat.add_zero,
        Nat.add_comm, show '\n'.utf8Size = 1 from rfl, Layout.lineFrom, if_pos rfl,
        show '\n'.utf8Size = 1 from rfl, Nat.add_sub_cancel]
  | cons char others induction =>
      have positive := char.utf8Size_pos
      obtain ⟨offset, sum⟩ : ∃ offset,
          byteLength (char :: (others ++ ['\n'])) + count = offset + 1 :=
        ⟨char.utf8Size + byteLength (others ++ ['\n']) + count - 1, by rw [byteLength]; omega⟩
      have left : offset + 1 - char.utf8Size = byteLength (others ++ ['\n']) + count := by
        rw [← sum, byteLength]
        omega
      rw [List.cons_append, sum, List.cons_append, Layout.lineFrom, left, induction]

theorem column_after_spaces (column count : Nat) (first : Char) (rest : List Char)
    (solid : Lexer.isSkipped first = false) :
    Layout.columnFrom column (List.replicate count ' ' ++ first :: rest) = column + count := by
  induction count generalizing column with
  | zero =>
      rw [List.replicate_zero, List.nil_append, Nat.add_zero]
      unfold Layout.columnFrom
      split
      · cases ‹first :: rest = _›
        exact absurd solid (by decide)
      · cases ‹first :: rest = _›
        exact absurd solid (by decide)
      · rfl
  | succ count induction =>
      rw [List.replicate_succ, List.cons_append, Layout.columnFrom, induction]
      omega

def LineStart (before : List Char) : Prop :=
  before = [] ∨ ∃ earlier, before = earlier ++ ['\n']

theorem column_of_indented (before : List Char) (count : Nat) (first : Char) (rest : List Char)
    (lineStart : LineStart before) (solid : Lexer.isSkipped first = false) :
    Layout.columnOf (before ++ (List.replicate count ' ' ++ first :: rest))
      (byteLength (before ++ List.replicate count ' ')) = count := by
  have oneLine : '\n' ∉ List.replicate count ' ' := by
    rw [List.mem_replicate]
    exact fun impossible => absurd impossible.2 (by decide)
  have inside := line_from_same_line (List.replicate count ' ' ++ first :: rest)
    (List.replicate count ' ') (first :: rest) 0 oneLine
  rw [Layout.columnOf, byte_length_append]
  rcases lineStart with rfl | ⟨earlier, rfl⟩
  · rw [byteLength, Nat.zero_add, List.nil_append]
    rw [Nat.add_zero] at inside
    rw [inside, Layout.lineFrom, column_after_spaces 0 count first rest solid, Nat.zero_add]
  · rw [Nat.add_zero] at inside
    rw [List.append_assoc, List.singleton_append, line_from_next_line, inside, Layout.lineFrom,
      column_after_spaces 0 count first rest solid, Nat.zero_add]

def Lined (source : List Char) : List Row → List Token → Prop
  | [], tokens => tokens = []
  | row :: rows, tokens =>
      ∃ first inside ending later, tokens = first :: inside ++ ending :: later ∧
        (first :: inside).map (fun token => (token.lexeme source).shape) = row.shapes ∧
        (ending.lexeme source).shape = lineEnd ∧
        Layout.columnOf source first.span.start = 4 * row.depth ∧ Lined source rows later

theorem first_token_starts (offset : Nat) (first : Char) (rest : List Char)
    (solid : Lexer.isSkipped first = false) :
    ∃ token later, Lexer.tokensFrom offset (first :: rest) = token :: later ∧
      token.span.start = offset := by
  rw [Lexer.tokensFrom, if_neg (by rw [solid]; decide)]
  exact ⟨_, _, rfl, rfl⟩

/-- Comments at the end of a line leave no trace. -/
theorem comments_are_dropped (source : List Char) (tokens : List Token) (shapes remark : List Shape)
    (looks : tokens.map (fun token => (token.lexeme source).shape) = shapes ++ remark)
    (content : ∀ shape ∈ shapes, shape.1 ≠ .comment) (comments : ∀ shape ∈ remark, shape.1 = .comment) :
    (tokens.filter (·.kind ≠ .comment)).map (fun token => (token.lexeme source).shape) = shapes := by
  have kept : shapes.filter (fun shape => decide (shape.1 ≠ .comment)) = shapes := by
    rw [List.filter_eq_self]
    exact fun shape member => decide_eq_true (content shape member)
  have dropped : remark.filter (fun shape => decide (shape.1 ≠ .comment)) = [] := by
    rw [List.filter_eq_nil_iff]
    intro shape member
    rw [decide_eq_true_eq]
    exact fun impossible => impossible (comments shape member)
  calc
    _ = (tokens.map (fun token => (token.lexeme source).shape)).filter
          (fun shape => decide (shape.1 ≠ .comment)) := List.filter_map.symm
    _ = shapes := by rw [looks, List.filter_append, kept, dropped, List.append_nil]

theorem row_is_cut (row : Row) (fits : row.Fits) (source before rest : List Char)
    (whole : source = before ++ (row.line.toList ++ '\n' :: rest)) (lineStart : LineStart before) :
    ∃ first inside ending,
      (Lexer.tokensFrom (byteLength before) (row.line.toList ++ '\n' :: rest)).filter
          (·.kind ≠ .comment) =
        first :: inside ++ ending ::
          (Lexer.tokensFrom (byteLength (before ++ (row.line.toList ++ ['\n']))) rest).filter
            (·.kind ≠ .comment) ∧
      (first :: inside).map (fun token => (token.lexeme source).shape) = row.shapes ∧
      (ending.lexeme source).shape = lineEnd ∧
      Layout.columnOf source first.span.start = 4 * row.depth := by
  have line : row.line.toList = List.replicate (4 * row.depth) ' ' ++ row.text.toList := by
    rw [Row.line, indented, String.toList_append, String.toList_ofList]
  obtain ⟨char, more, chars, solid, _⟩ := fits.starts
  obtain ⟨remark, lexes, comments⟩ := fits.lexes
  -- The indentation is skipped, the text is cut into its tokens, and the newline ends the line.
  obtain ⟨none, skipped, noShapes⟩ := lexes_spaces (4 * row.depth) before
    (row.text.toList ++ '\n' :: rest) trivial
  obtain ⟨tokens, cut, looks⟩ := lexes (before ++ List.replicate (4 * row.depth) ' ')
    ('\n' :: rest) rfl
  have newline : Lexes ['\n'] [lineEnd] Anything :=
    lexes_mark '\n' .newline Anything (by decide) fun _ _ => rfl
  obtain ⟨endings, ended, looksEnding⟩ := newline
    (before ++ List.replicate (4 * row.depth) ' ' ++ row.text.toList) rest trivial
  rw [List.map_eq_nil_iff] at noShapes
  rw [noShapes, List.nil_append] at skipped
  have same : before ++ List.replicate (4 * row.depth) ' ' ++ row.text.toList ++ '\n' :: rest =
      source := by
    rw [whole, line]
    simp only [List.append_assoc]
  rw [same] at looks
  rw [List.append_assoc _ ['\n'], List.singleton_append, same] at looksEnding
  rw [List.singleton_append] at ended
  obtain ⟨ending, rfl⟩ : ∃ ending, endings = [ending] := by
    rw [← List.length_eq_one_iff, ← List.length_map, looksEnding]
    rfl
  cases tokens with
  | nil =>
      rw [List.map_nil, eq_comm, List.append_eq_nil_iff] at looks
      exact absurd looks.1 fits.filled
  | cons first others =>
      -- The remark of a row is a token of the lexer but none of the layout.
      have kept := comments_are_dropped source (first :: others) row.shapes remark looks
        (fun shape member => (fits.inside.content shape member).2) comments
      have notComment : first.kind ≠ .comment := by
        cases shapes : row.shapes with
        | nil => exact absurd shapes fits.filled
        | cons head tail =>
            rw [shapes, List.map_cons, List.cons_append, List.cons.injEq] at looks
            have content := fits.inside.content head (by rw [shapes]; exact List.mem_cons_self)
            rw [← looks.1] at content
            exact content.2
      have starts : first.span.start = byteLength (before ++ List.replicate (4 * row.depth) ' ') := by
        obtain ⟨token, later, head, start⟩ := first_token_starts
          (byteLength (before ++ List.replicate (4 * row.depth) ' ')) char
          (more ++ '\n' :: rest) solid
        rw [← List.cons_append, ← chars, cut, List.cons_append, List.cons.injEq] at head
        rw [head.1, start]
      have place : before ++ (row.line.toList ++ ['\n']) =
          before ++ List.replicate (4 * row.depth) ' ' ++ row.text.toList ++ ['\n'] := by
        rw [line]
        simp only [List.append_assoc]
      refine ⟨first, others.filter (·.kind ≠ .comment), ending, ?_, ?_, ?_, ?_⟩
      · rw [place, line, List.append_assoc, skipped, cut, ended, List.filter_append,
          List.filter_cons_of_pos (by simpa using notComment), List.singleton_append]
        congr 1
        rw [List.filter_cons_of_pos]
        · have kind := congrArg Prod.fst (List.cons.inj looksEnding).1
          have newline : ending.kind = .newline := kind
          simp [newline]
      · rw [List.filter_cons_of_pos (by simpa using notComment)] at kept
        exact kept
      · exact (List.cons.inj looksEnding).1
      · rw [starts, whole, line, List.append_assoc, chars]
        exact column_of_indented before (4 * row.depth) char _ lineStart solid

theorem lined_of_rows (rows : List Row) (fit : ∀ row ∈ rows, row.Fits) (source before : List Char)
    (whole : source = before ++ textOf rows) (lineStart : LineStart before) :
    Lined source rows
      ((Lexer.tokensFrom (byteLength before) (textOf rows)).filter (·.kind ≠ .comment)) := by
  induction rows generalizing before with
  | nil =>
      rw [textOf, List.flatMap_nil, Lexer.tokensFrom]
      rfl
  | cons row rows induction =>
      have text : textOf (row :: rows) = row.line.toList ++ '\n' :: textOf rows := by
        rw [textOf, List.flatMap_cons, List.append_assoc]
        rfl
      rw [text] at whole ⊢
      obtain ⟨first, inside, ending, cut, looks, ends, column⟩ :=
        row_is_cut row (fit row (by simp)) source before (textOf rows) whole lineStart
      refine ⟨first, inside, ending, _, cut, looks, ends, column, ?_⟩
      apply induction (fun other member => fit other (by simp [member]))
      · rw [whole, List.append_assoc, List.append_assoc]
        rfl
      · exact Or.inr ⟨before ++ row.line.toList, by rw [List.append_assoc]⟩

end ScriptWasm
