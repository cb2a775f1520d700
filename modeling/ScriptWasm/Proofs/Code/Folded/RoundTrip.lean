import ScriptWasm.Proofs.Code.Folded.Forms
import ScriptWasm.Token.Lexer

/-!
Module text is read back. A module is one phrase; its lines are cut into the marks of that phrase, at
whatever depth they are folded, and the reader takes the phrase apart again. So two modules with the
same text are the same, as long as no name holds a character that ends a word of the text. Names of
letters, digits and underscores hold none.
-/

namespace ScriptWasm

set_option autoImplicit false

open Folded

section Plain

theorem plain_word (text : String) (found : text ≠ "" ∧ text.toList.all isPlain = true) :
    (Phrase.word text).Plain :=
  ⟨found.1, List.all_eq_true.mp found.2⟩

theorem plain_reference (name : String) (plain : IsPlainName name) :
    (Phrase.reference name).Plain := by
  refine ⟨by simp, fun char member => ?_⟩
  rw [String.toList_append, List.mem_append] at member
  cases member with
  | inl dollar => simp at dollar; subst dollar; decide
  | inr inside => exact plain char inside

theorem plain_name_char (char : Char) (known : Lexer.isNameChar char = true) :
    isPlain char = true := by
  simp only [isPlain, List.mem_cons, List.not_mem_nil, or_false, not_or, decide_eq_true_eq]
  refine ⟨?_, ?_, ?_, ?_, ?_⟩ <;>
    (rintro rfl; exact absurd known (by decide))

/-- Names of letters, digits and underscores stand in module text as they are. -/
theorem identifiers_are_plain (name : String)
    (identifier : ∀ char ∈ name.toList, Lexer.isNameChar char = true) : IsPlainName name :=
  fun char member => plain_name_char char (identifier char member)

theorem plain_decimal (number : Nat) : (Phrase.word (decimal number)).Plain := by
  obtain ⟨first, rest, digits, _, _⟩ := decimal_chars_start number
  refine ⟨fun none => ?_, fun char member => ?_⟩
  · rw [decimal, digits] at none
    simp at none
  · rw [decimal, String.toList_ofList] at member
    have digit := decimal_chars_are_digits number char member
    exact plain_name_char char (by rw [Lexer.isNameChar, digit, Bool.or_true])

theorem plain_render (value : Word) : (Phrase.word value.render).Plain := by
  rw [Word.render]
  cases value.toInt with
  | ofNat magnitude => exact plain_decimal magnitude
  | negSucc predecessor =>
      refine ⟨by simp [signedDecimal], fun char member => ?_⟩
      rw [signedDecimal, String.toList_append, List.mem_append] at member
      cases member with
      | inl minus => simp at minus; subst minus; decide
      | inr inside => exact (plain_decimal (predecessor + 1)).2 char inside

theorem plain_declaration (keyword name : String)
    (word : keyword ≠ "" ∧ keyword.toList.all isPlain = true) (plain : IsPlainName name) :
    (Phrase.declaration keyword name).Plain :=
  ⟨plain_word keyword word, plain_reference name plain, plain_word "i32" (by decide), trivial⟩

theorem plain_heading (func : Func) (plain : ∀ name ∈ func.names, IsPlainName name) :
    Phrase.AllPlain func.heading := by
  refine Phrase.all_plain_of_forall _ fun phrase member => ?_
  simp only [Func.heading, List.mem_append, List.mem_map, List.mem_singleton] at member
  simp only [Func.names, List.mem_append] at plain
  obtain ((⟨id, own, rfl⟩ | ⟨exportName, own, rfl⟩) | ⟨param, own, rfl⟩) | rfl := member
  · exact plain_reference id (plain id (by simp [own]))
  · exact ⟨plain_word "export" (by decide), plain exportName (by simp [own]), trivial⟩
  · exact plain_declaration "param" param (by decide) (plain param (by simp [own]))
  · exact ⟨plain_word "result" (by decide), plain_word "i32" (by decide), trivial⟩

end Plain

section Lines

def Folded.linesText (lines : List String) : List Char :=
  lines.flatMap (·.toList ++ ['\n'])

/-- Lines that are cut into the given marks, whatever text comes after them. -/
def Folded.Cuts (lines : List String) (found : List FoldedMark) : Prop :=
  ∀ rest, marks (linesText lines ++ rest) = found ++ marks rest

theorem cuts_nothing : Cuts [] [] :=
  fun _ => rfl

theorem cuts_append {before after : List String} {found more : List FoldedMark}
    (first : Cuts before found) (second : Cuts after more) :
    Cuts (before ++ after) (found ++ more) := by
  intro rest
  rw [linesText, List.flatMap_append, List.append_assoc, ← linesText, ← linesText, first, second,
    List.append_assoc]

/-- The depth at which a line is folded does not matter. -/
theorem cuts_folded (depth : Nat) (text : String) (found : List FoldedMark)
    (cut : ∀ rest, marks (text.toList ++ '\n' :: rest) = found ++ marks ('\n' :: rest)) :
    Cuts [folded depth text] found := by
  intro rest
  rw [linesText, List.flatMap_singleton, folded, String.toList_append, String.toList_ofList,
    List.append_assoc, List.append_assoc, marks_places, List.singleton_append, cut,
    marks_place _ _ (by decide)]

theorem cuts_phrase (depth : Nat) (text : String) (phrase : Phrase)
    (whole : text.toList = phrase.chars) (plain : phrase.Plain) :
    Cuts [folded depth text] phrase.marks :=
  cuts_folded depth text _ fun rest => by
    rw [whole, marks_of_chars phrase plain _ (by simp [StopsWord, isPlain])]

theorem cuts_opening (depth : Nat) (text keyword : String) (parts : List Phrase)
    (start : text.toList = '(' :: keyword.toList ++ Phrase.charsOfAll parts)
    (word : keyword ≠ "" ∧ keyword.toList.all isPlain = true) (plain : Phrase.AllPlain parts) :
    Cuts [folded depth text] (.opening :: .word keyword :: Phrase.marksOfAll parts) :=
  cuts_folded depth text _ fun rest => by
    have ends : StopsWord (Phrase.charsOfAll parts ++ '\n' :: rest) := by
      cases parts <;> simp [StopsWord, isPlain, Phrase.charsOfAll]
    rw [start, List.cons_append, List.cons_append, marks_opening, List.append_assoc,
      marks_word _ keyword word.1 (List.all_eq_true.mp word.2) ends,
      marks_of_all_chars parts plain _ (by simp [StopsWord, isPlain])]
    rfl

theorem cuts_keyword (depth : Nat) (text keyword : String)
    (start : text.toList = '(' :: keyword.toList)
    (word : keyword ≠ "" ∧ keyword.toList.all isPlain = true) :
    Cuts [folded depth text] [.opening, .word keyword] :=
  cuts_opening depth text keyword [] (by rw [start, Phrase.charsOfAll, List.append_nil]) word trivial

theorem cuts_closing (depth : Nat) : Cuts [folded depth ")"] [.closing] :=
  cuts_folded depth ")" _ fun rest => by simp

theorem cuts_closing_twice (depth : Nat) : Cuts [folded depth "))"] [.closing, .closing] :=
  cuts_folded depth "))" _ fun rest => by simp

mutual

theorem cuts_instr (depth : Nat) (instr : Instr)
    (plain : ∀ name ∈ instr.names, IsPlainName name) :
    Cuts (instr.lines depth) instr.phrase.marks := by
  -- A leaf is one phrase on one line. A body opens and closes its phrase on lines of its own,
  -- deeper by its nesting.
  cases instr with
  | const value =>
      exact cuts_phrase depth _ _
        (by simp [Instr.phrase, Phrase.chars, Phrase.charsOfAll])
        ⟨plain_word "i32.const" (by decide), plain_render value, trivial⟩
  | localGet name | localSet name | globalGet name | globalSet name | call name =>
      have known := plain_reference name (plain name (by simp [Instr.names]))
      exact cuts_phrase depth _ _
        (by simp [Instr.phrase, Phrase.chars, Phrase.charsOfAll, Phrase.reference])
        ⟨plain_word _ (by decide), known, trivial⟩
  | binary op =>
      exact cuts_phrase depth _ _
        (by simp [Instr.phrase, Phrase.chars, Phrase.charsOfAll])
        ⟨plain_word op.mnemonic (by cases op <;> decide), trivial⟩
  | drop | ret | unreachable =>
      exact cuts_phrase depth _ _ rfl ⟨plain_word _ (by decide), trivial⟩
  | branch target | branchIf target =>
      exact cuts_phrase depth _ _
        (by simp [Instr.phrase, Phrase.chars, Phrase.charsOfAll])
        ⟨plain_word _ (by decide), plain_decimal target, trivial⟩
  | cond body orelse =>
      have inner := cuts_instrs (depth + 2) body fun name own =>
        plain name (List.mem_append_left _ own)
      have other := cuts_instrs (depth + 2) orelse fun name own =>
        plain name (List.mem_append_right _ own)
      have opens := cuts_append (cuts_keyword depth "(if" "if" rfl (by decide))
        (cuts_keyword (depth + 1) "(then" "then" rfl (by decide))
      have turns := cuts_append (cuts_closing (depth + 1))
        (cuts_keyword (depth + 1) "(else" "else" rfl (by decide))
      have whole := cuts_append (cuts_append (cuts_append (cuts_append opens inner) turns) other)
        (cuts_closing_twice (depth + 1))
      simpa [Instr.lines, Instr.phrase, Phrase.marks, Phrase.marksOfAll] using whole
  | block body =>
      have opens := cuts_keyword depth "(block" "block" rfl (by decide)
      have inner := cuts_instrs (depth + 1) body plain
      have whole := cuts_append (cuts_append opens inner) (cuts_closing depth)
      simpa [Instr.lines, Instr.phrase, Phrase.marks, Phrase.marksOfAll] using whole
  | loop body =>
      have opens := cuts_keyword depth "(loop" "loop" rfl (by decide)
      have inner := cuts_instrs (depth + 1) body plain
      have whole := cuts_append (cuts_append opens inner) (cuts_closing depth)
      simpa [Instr.lines, Instr.phrase, Phrase.marks, Phrase.marksOfAll] using whole
termination_by structural instr

theorem cuts_instrs (depth : Nat) (instrs : List Instr)
    (plain : ∀ name ∈ Instr.namesOfAll instrs, IsPlainName name) :
    Cuts (Instr.allLines depth instrs) (Phrase.marksOfAll (Instr.phrases instrs)) := by
  cases instrs with
  | nil => exact cuts_nothing
  | cons first rest =>
      exact cuts_append
        (cuts_instr depth first fun name own => plain name (List.mem_append_left _ own))
        (cuts_instrs depth rest fun name own => plain name (List.mem_append_right _ own))
termination_by structural instrs

end

theorem cuts_map {Source : Type} (sources : List Source) (line : Source → String)
    (write : Source → Phrase) (cut : ∀ source ∈ sources, Cuts [line source] (write source).marks) :
    Cuts (sources.map line) (Phrase.marksOfAll (sources.map write)) := by
  induction sources with
  | nil => exact cuts_nothing
  | cons first rest induction =>
      exact cuts_append (cut first (by simp)) (induction fun source own => cut source (by simp [own]))

theorem header_is_heading (func : Func) :
    func.header.toList = '(' :: "func".toList ++ Phrase.charsOfAll func.heading := by
  obtain ⟨id, exportName, params, locals, body⟩ := func
  cases id <;> cases exportName <;>
    simp [Func.header, Func.heading, Phrase.chars_of_append, Phrase.chars_of_map,
      Phrase.charsOfAll, Phrase.chars, Phrase.reference, Phrase.exported, Phrase.declaration,
      List.flatMap_map]

theorem cuts_func (depth : Nat) (func : Func) (plain : ∀ name ∈ func.names, IsPlainName name) :
    Cuts (func.lines depth) func.phrase.marks := by
  have heading := cuts_opening depth func.header "func" func.heading
    (header_is_heading func) (by decide) (plain_heading func plain)
  simp only [Func.names, List.mem_append] at plain
  have locals := cuts_map func.locals
    (fun slot => folded (depth + 1) ("(local $" ++ slot ++ " i32)")) (Phrase.declaration "local")
    fun slot own => cuts_phrase (depth + 1) _ _
      (by simp [Phrase.declaration, Phrase.reference, Phrase.chars, Phrase.charsOfAll])
      (plain_declaration "local" slot (by decide) (plain slot (.inl (.inr own))))
  have body := cuts_instrs (depth + 1) func.body fun name own => plain name (.inr own)
  have whole := cuts_append (cuts_append (cuts_append heading locals) body) (cuts_closing depth)
  simpa [Func.lines, Func.phrase, Func.parts, Phrase.marks, Phrase.marksOfAll,
    Phrase.marks_of_append] using whole

theorem cuts_functions (depth : Nat) (funcs : List Func)
    (plain : ∀ func ∈ funcs, ∀ name ∈ func.names, IsPlainName name) :
    Cuts (funcs.flatMap (Func.lines depth)) (Phrase.marksOfAll (funcs.map Func.phrase)) := by
  induction funcs with
  | nil => exact cuts_nothing
  | cons first rest induction =>
      exact cuts_append (cuts_func depth first (plain first (by simp)))
        (induction fun func own => plain func (by simp [own]))

theorem cuts_import (primitive : HostImport) :
    Cuts [folded 1 primitive.line] primitive.phrase.marks := by
  have params : Phrase.charsOfAll (List.replicate primitive.arity (.word "i32")) =
      (List.replicate primitive.arity " i32").flatMap String.toList := by
    cases primitive <;> rfl
  have whole : primitive.line.toList = primitive.phrase.chars := by
    simp [HostImport.line, HostImport.phrase, Phrase.reference, Phrase.chars, Phrase.charsOfAll,
      params]
  refine cuts_phrase 1 _ _ whole ?_
  have quoted : ∀ text : String, text.toList.all isPlain = true → (Phrase.quoted text).Plain :=
    fun text => List.all_eq_true.mp
  refine ⟨plain_word "func" (by decide), ?_, ?_, ?_, ?_, trivial⟩
  · exact plain_reference _ (List.all_eq_true.mp (by cases primitive <;> decide))
  · exact ⟨plain_word "import" (by decide), quoted _ (by decide),
      quoted _ (by cases primitive <;> decide), trivial⟩
  · refine ⟨plain_word "param" (by decide), Phrase.all_plain_of_forall _ fun phrase member => ?_⟩
    rw [List.eq_of_mem_replicate member]
    exact plain_word "i32" (by decide)
  · exact ⟨plain_word "result" (by decide), plain_word "i32" (by decide), trivial⟩

theorem cuts_global (cell : Global) (plain : IsPlainName cell.name) :
    Cuts [folded 1 cell.line] cell.phrase.marks := by
  refine cuts_phrase 1 _ _ ?_ ?_
  · simp [Global.line, Global.phrase, Phrase.chars, Phrase.charsOfAll, Phrase.reference]
  · exact ⟨plain_word "global" (by decide), plain_reference _ plain,
      ⟨plain_word "mut" (by decide), plain_word "i32" (by decide), trivial⟩,
      ⟨plain_word "i32.const" (by decide), plain_render cell.init, trivial⟩, trivial⟩

theorem cuts_module (module : Module) (plain : ∀ name ∈ module.names, IsPlainName name) :
    Cuts module.lines module.phrase.marks := by
  simp only [Module.names, List.mem_append] at plain
  have opens := cuts_keyword 0 "(module" "module" rfl (by decide)
  have imports := cuts_map HostImport.all (fun primitive => folded 1 primitive.line)
    HostImport.phrase fun primitive _ => cuts_import primitive
  have globals := cuts_map module.globals (fun cell => folded 1 cell.line) Global.phrase
    fun cell own => cuts_global cell (plain _ (.inl (List.mem_map_of_mem own)))
  have functions := cuts_functions 1 module.allFunctions fun func own name named =>
    plain name (.inr (List.mem_flatMap_of_mem own named))
  have whole := cuts_append
    (cuts_append (cuts_append (cuts_append opens imports) globals) functions) (cuts_closing 0)
  simpa [Module.lines, Module.phrase, Module.parts, Phrase.marks, Phrase.marksOfAll,
    Phrase.marks_of_append, folded] using whole

end Lines

theorem module_of_render (module : Module) (plain : ∀ name ∈ module.names, IsPlainName name) :
    Module.ofText? module.render = some module := by
  have text : module.render.toList = linesText module.lines := by
    rw [Module.render, String.toList_join, List.flatMap_map, linesText]
    congr 1
    funext line
    rw [String.toList_append]
    rfl
  have cut := cuts_module module plain []
  rw [List.append_nil, ← text] at cut
  have none : marks [] = [] := by rw [marks]
  rw [none, List.append_nil] at cut
  rw [Module.ofText?, phrases_of_marks _ _ cut]
  exact module_of_phrase module

/-- Module text determines the module. -/
theorem module_text_determines_module (first second : Module)
    (plain : ∀ name ∈ first.names, IsPlainName name)
    (plainToo : ∀ name ∈ second.names, IsPlainName name) :
    Module.ofText? first.render = some first ∧
      (first.render = second.render → first = second) := by
  refine ⟨module_of_render first plain, fun same => ?_⟩
  have readFirst := module_of_render first plain
  rw [same, module_of_render second plainToo] at readFirst
  exact (Option.some.inj readFirst).symm

def Module.around (body : List Instr) : Module :=
  ⟨[⟨"x", -1⟩], [⟨some "f_1", none, ["n"], ["m"], [.localGet "n", .ret]⟩],
    ⟨none, some "exported_func", [], ["ret"], body⟩⟩

/-- A block in the first arm of a condition is not the same block in the second arm. -/
theorem arms_are_told_apart :
    Module.ofText? (Module.around [.const 1, .cond [.block [.call "f_1"]] []]).render =
        some (Module.around [.const 1, .cond [.block [.call "f_1"]] []]) ∧
      (Module.around [.const 1, .cond [.block [.call "f_1"]] []]).render ≠
        (Module.around [.const 1, .cond [] [.block [.call "f_1"]]]).render := by
  obtain ⟨read, determined⟩ := module_text_determines_module
    (Module.around [.const 1, .cond [.block [.call "f_1"]] []])
    (Module.around [.const 1, .cond [] [.block [.call "f_1"]]]) (by decide) (by decide)
  refine ⟨read, fun same => ?_⟩
  have entries := congrArg (fun module => module.entry.body) (determined same)
  simp [Module.around] at entries

end ScriptWasm
