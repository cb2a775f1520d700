import ScriptWasm.Pipeline
import ScriptWasm.Proofs.Code.Acceptance
import ScriptWasm.Proofs.Program.Headers
import ScriptWasm.Proofs.Token.Depths
import ScriptWasm.Proofs.Tree.Blocks
import ScriptWasm.Proofs.Tree.Scripts

/-!
Programs that are written read back. The lines of a statement, a definition or a class are rows
whose layout is that of its tokens, by induction on the statements with the depth of indentation.
A program that was read is such a program, and its analysis differs from it in annotations alone.
-/

namespace ScriptWasm

set_option autoImplicit false

structure Arranged (depth : Nat) (lines : List String) (shapes : List Shape) (rows : List Row) :
    Prop where
  lines : rows.map Row.line = lines
  fit : ∀ row ∈ rows, row.Fits
  lays : Lays depth rows shapes
  level : ∀ row ∈ rows.head?, row.depth = depth

def SetOut (depth : Nat) (lines : List String) (shapes : List Shape) : Prop :=
  ∃ rows, Arranged depth lines shapes rows

section Setting

variable (depth : Nat)

theorem set_out_nil : SetOut depth [] [] :=
  ⟨[], rfl, nofun, lays_nil depth, nofun⟩

theorem set_out_append (first second : List String) (shapes others : List Shape)
    (setFirst : SetOut depth first shapes) (setSecond : SetOut depth second others) :
    SetOut depth (first ++ second) (shapes ++ others) := by
  obtain ⟨rows, rfl, fit, lays, level⟩ := setFirst
  obtain ⟨more, rfl, fitMore, laysMore, levelMore⟩ := setSecond
  refine ⟨rows ++ more, List.map_append, ?_, lays_append depth _ _ _ _ lays laysMore, ?_⟩
  · intro row member
    rcases List.mem_append.mp member with here | later
    · exact fit row here
    · exact fitMore row later
  · intro row head
    cases rows with
    | nil => exact levelMore row head
    | cons top rest => exact level row head

theorem set_out_flat_map {Item : Type} (items : List Item) (lines : Item → List String)
    (shapes : Item → List Shape) (set : ∀ item ∈ items, SetOut depth (lines item) (shapes item)) :
    SetOut depth (items.flatMap lines) (items.flatMap shapes) := by
  induction items with
  | nil => exact set_out_nil depth
  | cons first rest induction =>
      rw [List.flatMap_cons, List.flatMap_cons]
      exact set_out_append depth _ _ _ _ (set first (by simp))
        (induction fun item member => set item (by simp [member]))

theorem set_out_line (text : String) (shapes : List Shape) (line : LineOf text shapes) :
    SetOut depth [indented depth text] (shapes ++ [lineEnd]) := by
  refine ⟨[⟨depth, text, shapes⟩], rfl, ?_, lays_row depth text shapes, ?_⟩
  · intro row member
    rw [List.mem_singleton.mp member]
    exact line.fits depth
  · intro row head
    cases head
    rfl

theorem set_out_block (text : String) (header : List Shape) (inner : List String)
    (inside : List Shape) (line : LineOf text (header ++ [TokenKind.colon.shape]))
    (set : SetOut (depth + 1) inner inside) (filled : inner ≠ []) :
    SetOut depth (indented depth text :: inner) (header ++ blockShapes inside) := by
  obtain ⟨rows, rfl, fit, lays, level⟩ := set
  have deeper : headDepth rows = depth + 1 := by
    cases rows with
    | nil => exact absurd rfl filled
    | cons row rest => exact level row rfl
  refine ⟨⟨depth, text, header ++ [TokenKind.colon.shape]⟩ :: rows, rfl, ?_,
    lays_block depth text header rows inside lays deeper, ?_⟩
  · intro row member
    rcases List.mem_cons.mp member with rfl | later
    · exact line.fits depth
    · exact fit row later
  · intro row head
    cases head
    rfl

end Setting

theorem Expr.all_notes_note (allowed : Note → Prop) (expr : Expr) (notes : expr.AllNotes allowed) :
    allowed expr.note := by
  cases expr with
  | lit note value => exact notes
  | name note word => exact notes
  | construct note className => exact notes
  | call note func args => exact notes.1
  | binary note op left right => exact notes.1
  | unary note op operand => exact notes.1
  | paren note inner => exact notes.1
  | attr note value member => exact notes.1

theorem Stmt.nested_lines_of_filled (showTypes : Bool) (depth : Nat) (stmts : List Stmt)
    (filled : stmts ≠ []) : nestedLines showTypes depth stmts = allLines showTypes depth stmts := by
  cases stmts with
  | nil => exact absurd rfl filled
  | cons first rest => rfl

theorem Stmt.lines_filled (showTypes : Bool) (depth : Nat) (stmt : Stmt) :
    stmt.lines showTypes depth ≠ [] := by
  cases stmt <;> simp [lines]

theorem Stmt.all_lines_filled (showTypes : Bool) (depth : Nat) (stmts : List Stmt)
    (filled : stmts ≠ []) : allLines showTypes depth stmts ≠ [] := by
  cases stmts with
  | nil => exact absurd rfl filled
  | cons first rest => simp [allLines, first.lines_filled showTypes depth]

section Statements

variable (showTypes : Bool)

theorem expr_line_set_out (depth : Nat) (before : String) (head : List Shape) (expr : Expr)
    (heads : Heads before head) (readable : expr.Readable)
    (noted : showTypes = true → expr.AllNotes Note.Plain) :
    SetOut depth [Stmt.exprLine showTypes depth before expr ""]
      (head ++ expr.shapes ++ [lineEnd]) := by
  obtain ⟨text, same, line⟩ := expr_line_of showTypes before head expr "" [] heads readable
    .nothing fun shown => expr.all_notes_note _ (noted shown)
  rw [List.append_nil] at line
  rw [same]
  exact set_out_line depth text _ line

theorem guard_set_out (depth : Nat) (kind : TokenKind) (word : String) (test : Expr)
    (body : List String) (inside : List Shape) (heads : Heads (word ++ " ") [(kind, word)])
    (readable : test.Readable) (noted : showTypes = true → test.AllNotes Note.Plain)
    (set : SetOut (depth + 1) body inside) (filled : body ≠ []) :
    SetOut depth (Stmt.exprLine showTypes depth (word ++ " ") test ":" :: body)
      ((kind, word) :: test.shapes ++ blockShapes inside) := by
  obtain ⟨text, same, line⟩ := expr_line_of showTypes (word ++ " ") [(kind, word)] test ":"
    [TokenKind.colon.shape] heads readable .colon fun shown => test.all_notes_note _ (noted shown)
  rw [same]
  exact set_out_block depth text _ body inside line set filled

theorem keyword_heads (kind : TokenKind) (word : String) (reserved : TokenKind.ofWord word = kind)
    (plain : kind ∉ [.newline, .comment, .leftParen, .rightParen])
    (letters : ∃ first more, word.toList = first :: more ∧ Lexer.isNameStart first = true ∧
      more.all Lexer.isNameChar = true ∧ Lexer.isSkipped first = false ∧
      first ≠ '>') : Heads (word ++ " ") [(kind, word)] := by
  obtain ⟨first, more, chars, starts, others, solid, notArrow⟩ := letters
  exact heads_word kind word (lexes_reserved kind word reserved ⟨first, more, chars, starts, others⟩)
    ⟨first, more, chars, solid, notArrow⟩ plain

mutual

/-- The lines of a statement are laid out as its tokens, at every depth. -/
theorem Stmt.set_out (depth : Nat) (stmt : Stmt) (readable : stmt.Readable)
    (noted : showTypes = true → stmt.AllNotes Note.Plain) :
    SetOut depth (stmt.lines showTypes depth) stmt.shapes := by
  cases stmt with
  | assign span target value =>
      exact expr_line_set_out showTypes depth _ _ value (heads_assign target readable.1)
        readable.2.2.2 noted
  | expr span value =>
      exact expr_line_set_out showTypes depth "" [] value heads_nothing readable.2 noted
  | pass span => exact set_out_line depth "pass" [_] pass_line_of
  | fieldAssign span object field value => exact readable.elim
  | ret span value =>
      exact expr_line_set_out showTypes depth "return " [_] value
        (keyword_heads .returnWord "return" (by decide) (by decide)
          ⟨'r', _, rfl, by decide, by decide, by decide, by decide⟩) readable.2 noted
  | cond span test body orelse =>
      obtain ⟨whole, filled, blocks, others⟩ := readable
      have first := guard_set_out showTypes depth .ifWord "if" test _ _
        (keyword_heads .ifWord "if" (by decide) (by decide)
          ⟨'i', _, rfl, by decide, by decide, by decide, by decide⟩) whole.2
        (fun shown => (noted shown).1)
        (Stmt.all_set_out (depth + 1) body blocks fun shown => (noted shown).2.1)
        (all_lines_filled showTypes (depth + 1) body filled)
      rw [lines, shapes, nested_lines_of_filled showTypes (depth + 1) body filled]
      apply set_out_append depth _ _ _ _ first
      split
      · exact set_out_nil depth
      · rename_i present
        exact set_out_block depth "else:" [TokenKind.elseWord.shape] _ _ else_line_of
          (Stmt.all_set_out (depth + 1) orelse others fun shown => (noted shown).2.2)
          (all_lines_filled showTypes (depth + 1) orelse (by simpa using present))
  | loop span test body =>
      obtain ⟨whole, filled, blocks⟩ := readable
      rw [lines, nested_lines_of_filled showTypes (depth + 1) body filled]
      exact guard_set_out showTypes depth .whileWord "while" test _ _
        (keyword_heads .whileWord "while" (by decide) (by decide)
          ⟨'w', _, rfl, by decide, by decide, by decide, by decide⟩) whole.2
        (fun shown => (noted shown).1)
        (Stmt.all_set_out (depth + 1) body blocks fun shown => (noted shown).2)
        (all_lines_filled showTypes (depth + 1) body filled)
termination_by structural stmt

theorem Stmt.all_set_out (depth : Nat) (stmts : List Stmt) (readable : Stmt.AllReadable stmts)
    (noted : showTypes = true → Stmt.NotesOfAll Note.Plain stmts) :
    SetOut depth (Stmt.allLines showTypes depth stmts) (Stmt.allShapes stmts) := by
  cases stmts with
  | nil => exact set_out_nil depth
  | cons first rest =>
      rw [allLines, allShapes]
      exact set_out_append depth _ _ _ _
        (Stmt.set_out depth first readable.1 fun shown => (noted shown).1)
        (Stmt.all_set_out depth rest readable.2 fun shown => (noted shown).2)
termination_by structural stmts

end

theorem var_set_out (depth : Nat) (var : VarDef) (readable : var.Readable) :
    SetOut depth [var.line depth] var.shapes :=
  set_out_line depth _ var.lineShapes (var_line_of var readable)

theorem vars_set_out (depth : Nat) (vars : List VarDef) (readable : ∀ var ∈ vars, var.Readable) :
    SetOut depth (vars.map (VarDef.line depth)) (vars.flatMap VarDef.shapes) := by
  have set := set_out_flat_map depth vars (fun var => [var.line depth]) VarDef.shapes
    fun var member => var_set_out depth var (readable var member)
  rwa [← List.map_eq_flatMap] at set

theorem func_set_out (func : FuncDef) (readable : func.Readable)
    (noted : showTypes = true → Stmt.NotesOfAll Note.Plain func.body) :
    SetOut 0 (func.lines showTypes) func.shapes := by
  have inner := set_out_append 1 _ _ _ _ (vars_set_out 1 func.locals readable.locals)
    (Stmt.all_set_out showTypes 1 func.body readable.body noted)
  have filled : func.locals.map (VarDef.line 1) ++ Stmt.allLines showTypes 1 func.body ≠ [] := by
    rcases readable.notEmpty with locals | body
    · simp [locals]
    · simp [Stmt.all_lines_filled showTypes 1 func.body body]
  have noFiller : (func.locals.isEmpty && func.body.isEmpty) = false := by
    rcases readable.notEmpty with locals | body
    · simp [locals]
    · simp [body]
  have set := set_out_block 0 _ func.headShapes _ _ (function_line_of func readable) inner filled
  have shapes : func.shapes = func.headShapes ++
      blockShapes (func.locals.flatMap VarDef.shapes ++ Stmt.allShapes func.body) := by
    simp [FuncDef.shapes, FuncDef.headShapes]
  have header : ∀ text, indented 0 text = text := fun text => String.empty_append
  rw [header] at set
  rw [shapes, FuncDef.lines, noFiller]
  simpa only [Bool.false_eq_true, if_false, List.append_nil, List.cons_append] using set

theorem class_set_out (definition : ClassDef) (readable : definition.Readable) :
    SetOut 0 definition.lines definition.shapes := by
  have header : ∀ text, indented 0 text = text := fun text => String.empty_append
  have block := fun inner inside => set_out_block 0 _
    [TokenKind.classWord.shape, (.name, definition.name)] inner inside
    (class_line_of definition readable)
  rw [ClassDef.lines, ClassDef.shapes]
  cases empty : definition.fields.isEmpty with
  | true =>
      have set := block _ _ (set_out_line 1 "pass" [_] pass_line_of) (by simp)
      rw [header] at set
      rw [List.isEmpty_iff.mp empty]
      exact set
  | false =>
      have set := block _ _ (vars_set_out 1 definition.fields readable.fields) (by
        intro isNil
        rw [List.map_eq_nil_iff] at isNil
        rw [isNil] at empty
        cases empty)
      rw [header] at set
      simpa only [Bool.false_eq_true, if_false, List.nil_append, List.cons_append] using set

theorem program_set_out (program : Program) (readable : program.Readable)
    (noted : showTypes = true → program.AllNotes Note.Plain) :
    SetOut 0 (program.lines showTypes) (program.members.flatMap Member.shapes) := by
  have classes := set_out_flat_map 0 program.classes ClassDef.lines ClassDef.shapes
    fun definition member => class_set_out definition (readable.classes definition member)
  have defs := set_out_flat_map 0 program.defs (Def.lines showTypes)
    (fun definition => (Member.ofDef definition).shapes) (by
      intro definition member
      cases definition with
      | var var =>
          exact var_set_out 0 var (readable.vars var (List.mem_filterMap.mpr ⟨_, member, rfl⟩))
      | func func =>
          have among : func ∈ program.funcs := List.mem_filterMap.mpr ⟨_, member, rfl⟩
          exact func_set_out showTypes func (readable.funcs func among)
            fun shown => (noted shown).funcs func among)
  have stmts := Stmt.all_set_out showTypes 0 program.stmts readable.stmts
    fun shown => (noted shown).stmts
  have whole := set_out_append 0 _ _ _ _ (set_out_append 0 _ _ _ _ classes defs) stmts
  rw [Stmt.all_shapes_eq] at whole
  rw [Program.members, List.flatMap_append, List.flatMap_append, List.flatMap_map,
    List.flatMap_map Member.ofDef]
  exact whole

end Statements

theorem text_of_lines (rows : List Row) :
    textOf rows = (String.join ((rows.map Row.line).map (· ++ "\n"))).toList := by
  rw [String.toList_join, List.flatMap_map, List.flatMap_map, textOf]
  congr 1
  funext row
  rw [String.toList_append]
  rfl

/-- A program that can be written is read back from its text. -/
theorem rendered_reads_back (showTypes : Bool) (program : Program) (readable : program.Readable)
    (noted : showTypes = true → program.AllNotes Note.Plain) :
    ∃ found, Program.ofSource (program.render showTypes).toList = .ok found ∧
      found.erase = program.erase := by
  obtain ⟨rows, lines, fit, lays, _⟩ := program_set_out showTypes program readable noted
  have text : (program.render showTypes).toList = textOf rows := by
    rw [text_of_lines, lines, Program.render]
  have climbs := lays.climbs [] (Nat.le_refl 0) trivial
  have shallow := lays.shallow [] (Nat.le_refl 0)
  have layout := lays.layout [] (Nat.le_refl 0)
  rw [List.append_nil] at climbs shallow layout
  have looks := layout_of_rows rows fit climbs (Nat.le_zero.mp shallow)
  rw [layout] at looks
  rw [text]
  apply Program.of_source_of_shapes (textOf rows) program readable
  exact ⟨looks, sound_of_laid _ _ (layout_tokens_laid (textOf rows))⟩

/-- A program that was read is written as a text that reads as the same program. So is its analysis,
with all types shown, up to the annotations. -/
theorem written_programs_read_back (source : List Char) (program : Program)
    (read : Program.ofSource source = .ok program) :
    (∃ found, Program.ofSource (program.render false).toList = .ok found ∧
      found.withoutSpans = program.withoutSpans) ∧
    ∀ analysis, program.analyze = .ok analysis →
      ∃ found, Program.ofSource (analysis.program.render true).toList = .ok found ∧
        found.erase = program.erase := by
  obtain ⟨readable, unannotated⟩ := Program.of_source_written source program read
  constructor
  · obtain ⟨found, again, same⟩ := rendered_reads_back false program readable nofun
    refine ⟨found, again, ?_⟩
    have foundUnannotated := (Program.of_source_written _ found again).unannotated
    rw [found.erase_of_unannotated foundUnannotated, same, program.erase_of_unannotated unannotated]
  · intro analysis analysed
    have same := analyze_erase program analysis analysed
    have plain := analyze_plain program analysis analysed (program_of_source_plain source program read)
    obtain ⟨typed, _, _⟩ := analyze_typed program analysis analysed
    obtain ⟨found, again, sameFound⟩ := rendered_reads_back true analysis.program
      (Program.readable_of_erase_eq analysis.program program same readable)
      fun _ => typed.notes_plain plain
    exact ⟨found, again, sameFound.trans same⟩

def countdownSource : List Char :=
  ("x: int = -7\ndef f(n: int) -> int:\n    if n < 1:\n        return -(n + x)\n" ++
    "    elif not n is None:\n        pass\n    return f(n - 1) * 2\nprint(f(3))").toList

theorem countdown_reads_back :
    ∃ program analysis, Program.ofSource countdownSource = .ok program ∧
      program.analyze = .ok analysis ∧
      (∃ found, Program.ofSource (program.render false).toList = .ok found ∧
        found.withoutSpans = program.withoutSpans) ∧
      ∃ found, Program.ofSource (analysis.program.render true).toList = .ok found ∧
        found.erase = program.erase := by
  obtain ⟨analysis, checked⟩ := (is_ok_iff (checkSource countdownSource)).mp (by decide +kernel)
  obtain ⟨program, read, analysed⟩ := (check_source_succeeds_iff _ analysis).mp checked
  obtain ⟨plainText, typedText⟩ := written_programs_read_back _ program read
  exact ⟨program, analysis, read, analysed, plainText, typedText analysis analysed⟩

end ScriptWasm
