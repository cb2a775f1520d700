import ScriptWasm.Proofs.Tree.Operands
import ScriptWasm.Proofs.Tree.Statements

/-!
What the trees of statements and definitions denote, put together from what their parts denote. Two
programs that differ in spans and annotations alone are not told apart.
-/

namespace ScriptWasm

set_option autoImplicit false

section Denoting

variable (source : List Char)

/-- A tree that is read as a statement. The word `pass` is known by its kind alone, because a class
may hold it as well. -/
structure Stmt.DenotedBy (stmt : Stmt) (tree : Tree) : Prop where
  form : tree.form = .statement
  built : ∃ found, Stmt.ofTree source tree = .ok found ∧
    found.mapNotes Note.blank = stmt.mapNotes Note.blank
  passes : ∀ span, stmt = .pass span → tree.kind = .passStatement

structure VarDef.DenotedBy (var : VarDef) (tree : Tree) : Prop where
  form : tree.form = .variable
  built : ∃ found, VarDef.ofTree source tree = .ok found ∧ found.withoutSpans = var.withoutSpans

structure FuncDef.DenotedBy (func : FuncDef) (tree : Tree) : Prop where
  form : tree.form = .function
  built : ∃ found, FuncDef.ofTree source tree = .ok found ∧
    found.mapNotes Note.blank = func.mapNotes Note.blank

structure ClassDef.DenotedBy (definition : ClassDef) (tree : Tree) : Prop where
  form : tree.form = .class
  built : ∃ found, ClassDef.ofTree source tree = .ok found ∧
    found.withoutSpans = definition.withoutSpans

def Member.DenotedBy : Member → Tree → Prop
  | «class» definition => definition.DenotedBy source
  | var definition => definition.DenotedBy source
  | func definition => definition.DenotedBy source
  | stmt statement => statement.DenotedBy source

structure Tree.Encloses (tree : Tree) (members : List Member) : Prop where
  isBody : tree.kind = .body
  parts : ∃ colon trees, tree.children = colon :: trees ∧ colon.Mark source ":" ∧
    List.Forall₂ (Member.DenotedBy source) members trees

theorem all_of_members (started : Bool) (stmts : List Stmt) (trees : List Tree)
    (denoted : List.Forall₂ (Member.DenotedBy source) (stmts.map .stmt) trees) :
    ∃ found, Stmt.allOfParts source started trees = .ok found ∧
      Stmt.mapAllNotes Note.blank found = Stmt.mapAllNotes Note.blank stmts := by
  induction stmts generalizing started trees with
  | nil =>
      cases denoted
      exact ⟨[], by rw [Stmt.allOfParts]; rfl, rfl⟩
  | cons first rest induction =>
      cases denoted with
      | cons here later =>
          obtain ⟨form, ⟨head, builtHead, sameHead⟩, _⟩ := here
          obtain ⟨tail, builtTail, sameTail⟩ := induction true _ later
          refine ⟨head :: tail, ?_, by rw [Stmt.mapAllNotes, sameHead, sameTail]; rfl⟩
          rw [Stmt.allOfParts, form]
          simp only [builtHead, builtTail, ok_bind]
          rfl

theorem block_of_members (tree : Tree) (stmts : List Stmt)
    (encloses : tree.Encloses source (stmts.map .stmt)) :
    ∃ found, Stmt.blockOfTree source tree = .ok found ∧
      Stmt.mapAllNotes Note.blank found = Stmt.mapAllNotes Note.blank stmts := by
  obtain ⟨isBody, colon, trees, parts, mark, denoted⟩ := encloses
  obtain ⟨found, built, same⟩ := all_of_members source false stmts trees denoted
  refine ⟨found, ?_, same⟩
  rcases tree with ⟨kind, span, children⟩
  change kind = .body at isBody
  change children = colon :: trees at parts
  subst isBody parts
  rw [Stmt.blockOfTree, (expect_kind_succeeds_iff source .body _ ()).mpr rfl, ok_bind,
    (expect_text_succeeds_iff source ":" colon ()).mpr ⟨mark.text, mark.alone⟩, ok_bind, built]

theorem body_of_members (vars : List VarDef) (stmts : List Stmt) (trees : List Tree)
    (denoted : List.Forall₂ (Member.DenotedBy source) (vars.map .var ++ stmts.map .stmt) trees) :
    ∃ locals body, FuncDef.bodyOfParts source trees = .ok (locals, body) ∧
      locals.map VarDef.withoutSpans = vars.map VarDef.withoutSpans ∧
      Stmt.mapAllNotes Note.blank body = Stmt.mapAllNotes Note.blank stmts := by
  induction vars generalizing trees with
  | nil =>
      rw [List.map_nil, List.nil_append] at denoted
      obtain ⟨body, built, same⟩ := all_of_members source false stmts trees denoted
      refine ⟨[], body, ?_, rfl, same⟩
      cases stmts with
      | nil =>
          cases denoted
          rw [Stmt.allOfParts] at built
          cases built
          rfl
      | cons first rest =>
          cases denoted with
          | cons here later =>
              rw [FuncDef.bodyOfParts, Stmt.DenotedBy.form here]
              simp only [built, ok_bind]
              rfl
  | cons var rest induction =>
      rw [List.map_cons, List.cons_append] at denoted
      cases denoted with
      | cons here later =>
          obtain ⟨form, found, builtVar, sameVar⟩ := here
          obtain ⟨locals, body, built, sameLocals, sameBody⟩ := induction _ later
          refine ⟨found :: locals, body, ?_, ?_, sameBody⟩
          · rw [FuncDef.bodyOfParts, form]
            simp only [builtVar, built, ok_bind]
            rfl
          · rw [List.map_cons, List.map_cons, sameVar, sameLocals]

theorem fields_of_members (definition : ClassDef) (trees : List Tree)
    (denoted : List.Forall₂ (Member.DenotedBy source) definition.members trees) :
    ∃ fields, ClassDef.fieldsOfParts source trees = .ok fields ∧
      fields.map VarDef.withoutSpans = definition.fields.map VarDef.withoutSpans := by
  have declared : ∀ (fields : List VarDef) (trees : List Tree),
      List.Forall₂ (Member.DenotedBy source) (fields.map .var) trees →
      ∃ found, ClassDef.fieldsOfParts source trees = .ok found ∧
        found.map VarDef.withoutSpans = fields.map VarDef.withoutSpans := by
    intro fields
    induction fields with
    | nil =>
        intro trees denoted
        cases denoted
        exact ⟨[], rfl, rfl⟩
    | cons var rest induction =>
        intro trees denoted
        cases denoted with
        | cons here later =>
            obtain ⟨form, found, builtVar, sameVar⟩ := here
            obtain ⟨others, built, same⟩ := induction _ later
            refine ⟨found :: others, ?_, by rw [List.map_cons, List.map_cons, sameVar, same]⟩
            rw [ClassDef.fieldsOfParts, assigns_of_variable _ form]
            simp only [builtVar, built, ok_bind]
            rfl
  unfold ClassDef.members at denoted
  cases fields : definition.fields with
  | nil =>
      rw [fields] at denoted
      cases denoted with
      | cons here later =>
          cases later
          refine ⟨[], ?_, rfl⟩
          rw [ClassDef.fieldsOfParts, Stmt.DenotedBy.passes here nowhere rfl]
          rfl
  | cons var rest =>
      rw [fields] at denoted
      exact declared (var :: rest) trees denoted

/-- A program is what its members are: classes first, then the definitions, then the statements. -/
theorem program_of_members (classes : List ClassDef) (defs : List Def) (stmts : List Stmt)
    (trees : List Tree) (denoted : List.Forall₂ (Member.DenotedBy source)
      (classes.map .class ++ defs.map .ofDef ++ stmts.map .stmt) trees) :
    ∃ found, Program.ofParts source trees = .ok found ∧
      found.erase = Program.erase ⟨defs, stmts, classes⟩ := by
  -- The parts are those of the classes, then of the definitions, then of the statements: the outer
  -- induction takes a class off, the inner one a definition.
  induction classes generalizing trees with
  | nil =>
      rw [List.map_nil, List.nil_append] at denoted
      induction defs generalizing trees with
      | nil =>
          rw [List.map_nil, List.nil_append] at denoted
          obtain ⟨found, built, same⟩ := all_of_members source false stmts trees denoted
          refine ⟨⟨[], found, []⟩, ?_, by rw [Program.erase, Program.mapNotes, same]; rfl⟩
          cases stmts with
          | nil =>
              cases denoted
              rw [Stmt.allOfParts] at built
              cases built
              rfl
          | cons first rest =>
              cases denoted with
              | cons here later =>
                  rw [Program.ofParts, Stmt.DenotedBy.form here]
                  simp only [built, ok_bind]
                  rfl
      | cons first rest induction =>
          rw [List.map_cons, List.cons_append] at denoted
          cases denoted with
          | cons here later =>
              obtain ⟨program, built, same⟩ := induction _ later
              have parts := same
              rw [Program.erase, Program.erase, Program.mapNotes, Program.mapNotes,
                Program.mk.injEq] at parts
              cases first with
              | var definition =>
                  obtain ⟨form, found, builtVar, sameVar⟩ := here
                  refine ⟨{ program with defs := .var found :: program.defs }, ?_, ?_⟩
                  · rw [Program.ofParts, form]
                    simp only [builtVar, built, ok_bind]
                    rfl
                  · rw [Program.erase, Program.mapNotes, List.map_cons, Def.mapNotes, sameVar, parts.1,
                      parts.2.1, parts.2.2]
                    rfl
              | func definition =>
                  obtain ⟨form, found, builtFunc, sameFunc⟩ := here
                  refine ⟨{ program with defs := .func found :: program.defs }, ?_, ?_⟩
                  · rw [Program.ofParts, form]
                    simp only [builtFunc, built, ok_bind]
                    rfl
                  · rw [Program.erase, Program.mapNotes, List.map_cons, Def.mapNotes, sameFunc, parts.1,
                      parts.2.1, parts.2.2]
                    rfl
  | cons first rest induction =>
      rw [List.map_cons, List.cons_append, List.cons_append] at denoted
      cases denoted with
      | cons here later =>
          obtain ⟨form, found, builtClass, sameClass⟩ := here
          obtain ⟨program, built, same⟩ := induction _ later
          have parts := same
          rw [Program.erase, Program.erase, Program.mapNotes, Program.mapNotes, Program.mk.injEq]
            at parts
          refine ⟨{ program with classes := found :: program.classes }, ?_, ?_⟩
          · rw [Program.ofParts, form]
            simp only [builtClass, built, ok_bind]
            rfl
          · rw [Program.erase, Program.mapNotes, List.map_cons, sameClass, parts.1, parts.2.1,
              parts.2.2]
            rfl

end Denoting

end ScriptWasm
