import ScriptWasm.Proofs.Program.RoundTrip

/-!
Declarations that are written as a line. The line reads as the same declaration, whatever its name,
its type and its value, unless the value is the least integer: a minus sign is read apart from the
number after it, and the magnitude of the least integer is out of range.
-/

namespace ScriptWasm

set_option autoImplicit false

/-- A name that can be declared: it is not reserved, and it is no word that acts as an operator. -/
structure IsDeclarable (word : String) : Prop where
  name : IsName word
  noOperator : word ∉ ["and", "or", "not", "is", "in"]

/-- A text that denotes a program with nothing but a declaration in it. -/
def Declares (text : String) (var : VarDef) : Prop :=
  Program.ofSource text.toList = .ok ⟨[.var var], [], []⟩

/-- The line of a declaration declares the same, but for its spans. -/
def VarDef.ReadsBack (var : VarDef) : Prop :=
  ∃ found, Declares (var.line 0 ++ "\n") found ∧ found.withoutSpans = var.withoutSpans

def VarDef.program (var : VarDef) : Program :=
  ⟨[.var var], [], []⟩

theorem readable_declaration (var : VarDef) (readable : var.Readable) : var.program.Readable where
  classes := List.forall_mem_nil _
  vars := List.forall_mem_singleton.mpr readable
  funcs := List.forall_mem_nil _
  stmts := trivial

theorem declaration_text (var : VarDef) : var.program.render false = var.line 0 ++ "\n" := by
  have lines : var.program.lines false = [var.line 0] := rfl
  rw [Program.render, lines, List.map_singleton, String.join_cons, String.join_nil,
    String.append_empty]

theorem declaration_of_erased (found : Program) (var : VarDef)
    (same : found.erase = var.program.erase) :
    ∃ read : VarDef, found = read.program ∧ read.withoutSpans = var.withoutSpans := by
  obtain ⟨defs, stmts, classes⟩ := found
  injection same with sameDefs sameStmts sameClasses
  obtain ⟨first, rfl, written⟩ := List.map_eq_singleton_iff.mp sameDefs
  obtain rfl : stmts = [] := (Stmt.map_all_notes_eq_nil Note.blank stmts).mp sameStmts
  obtain rfl : classes = [] := List.map_eq_nil_iff.mp sameClasses
  cases first with
  | func definition => cases written
  | var read =>
      injection written with written
      exact ⟨read, rfl, written⟩

theorem readable_line_reads_back (var : VarDef) (readable : var.Readable) : var.ReadsBack := by
  obtain ⟨found, read, erased⟩ :=
    rendered_reads_back false var.program (readable_declaration var readable) nofun
  obtain ⟨same, rfl, written⟩ := declaration_of_erased found var erased
  rw [declaration_text] at read
  exact ⟨same, read, written⟩

theorem declared_is_readable (text : String) (var : VarDef) (declares : Declares text var) :
    var.Readable :=
  (Program.of_source_written text.toList var.program declares).readable.vars var (by
    exact List.mem_singleton.mpr rfl)

theorem signed_decimal_eq (value : Int) : signedDecimal value = toString value := by
  cases value <;> rfl

def integerNamedX (value : Int32) : VarDef :=
  ⟨"x", .int, nowhere, .int value, nowhere, nowhere⟩

theorem x_is_declarable : IsDeclarable "x" :=
  ⟨⟨⟨'x', [], rfl, by decide, List.forall_mem_nil _⟩, by decide⟩, by decide⟩

theorem integer_is_plain : Ty.int.Plain :=
  plain_of_literal (.int 0)

theorem integer_line (value : Int32) :
    (integerNamedX value).line 0 = "x: int = " ++ toString value.toInt := by
  rw [← signed_decimal_eq]
  exact String.empty_append

/-- A declaration that can be named and typed is readable unless its value is the least integer. -/
theorem declarable_is_readable (var : VarDef) (declarable : IsDeclarable var.name)
    (plain : var.ty.Plain) (notLeast : var.init ≠ .int Int32.minValue) : var.Readable where
  name := declarable.name
  notNot isNot := declarable.noOperator (by rw [isNot]; decide)
  ty := plain
  init value same least := notLeast (by rw [same, least])

/-- The line of a declaration reads as that declaration, but for spans, unless its value is the least
integer. In particular every other integer is denoted by its decimals. -/
theorem declarations_read_back (var : VarDef) (declarable : IsDeclarable var.name)
    (plain : var.ty.Plain) :
    (var.ReadsBack ↔ var.init ≠ .int Int32.minValue) ∧
    ∀ value : Int32,
      (∃ found, Declares ("x: int = " ++ toString value.toInt ++ "\n") found ∧
        found.ty = .int ∧ found.init = .int value) ↔ value ≠ Int32.minValue := by
  constructor
  · constructor
    · rintro ⟨found, declares, same⟩ least
      have init : found.withoutSpans.init = var.withoutSpans.init := congrArg VarDef.init same
      exact (declared_is_readable _ found declares).init _ (init.trans least) rfl
    · intro notLeast
      exact readable_line_reads_back var (declarable_is_readable var declarable plain notLeast)
  · intro value
    constructor
    · rintro ⟨found, declares, _, init⟩ least
      exact (declared_is_readable _ found declares).init _ init least
    · intro notLeast
      have readable : (integerNamedX value).Readable :=
        declarable_is_readable _ x_is_declarable integer_is_plain
          fun least => notLeast (by injection least)
      obtain ⟨found, declares, same⟩ := readable_line_reads_back _ readable
      have ty : found.withoutSpans.ty = .int := congrArg VarDef.ty same
      have init : found.withoutSpans.init = .int value := congrArg VarDef.init same
      rw [integer_line] at declares
      exact ⟨found, declares, ty, init⟩

theorem greatest_negative_reads_back :
    (integerNamedX (Int32.minValue + 1)).ReadsBack ∧
      ∃ found, Declares "x: int = -2147483647\n" found ∧ found.ty = .int ∧
        found.init = .int (Int32.minValue + 1) := by
  have notLeast : Int32.minValue + 1 ≠ Int32.minValue := by decide
  obtain ⟨reads, denotes⟩ := declarations_read_back (integerNamedX (Int32.minValue + 1))
    x_is_declarable integer_is_plain
  refine ⟨reads.mpr ?_, (denotes (Int32.minValue + 1)).mpr notLeast⟩
  intro same
  injection same with same
  exact notLeast same

/-- The line of the least integer is refused, so what it was written from does not read back. -/
theorem least_integer_is_refused :
    IsDeclarable (integerNamedX Int32.minValue).name ∧ (integerNamedX Int32.minValue).ty.Plain ∧
      (integerNamedX Int32.minValue).line 0 = "x: int = -2147483648" ∧
      ¬(integerNamedX Int32.minValue).ReadsBack ∧
      ∀ program, Program.ofSource "x: int = -2147483648\n".toList ≠ .ok program := by
  have refused : (Program.ofSource "x: int = -2147483648\n".toList).isOk = false := by
    decide +kernel
  have nothing : ∀ program, Program.ofSource "x: int = -2147483648\n".toList ≠ .ok program := by
    intro program denoted
    rw [denoted] at refused
    cases refused
  refine ⟨x_is_declarable, integer_is_plain, rfl, ?_, nothing⟩
  rintro ⟨found, declares, _⟩
  exact nothing _ declares

end ScriptWasm
