import ScriptWasm.Proofs.Tree.Levels

/-!
The statements and definitions that were read can be written. A block is never empty, because an
indent is followed by a line, and the parts of a definition are checked where it is read.
-/

namespace ScriptWasm

set_option autoImplicit false

/-- A statement that was read. -/
structure Stmt.Written (stmt : Stmt) : Prop where
  readable : stmt.Readable
  unannotated : stmt.AllNotes Note.Unannotated

structure Stmt.AllWritten (stmts : List Stmt) : Prop where
  readable : Stmt.AllReadable stmts
  unannotated : Stmt.NotesOfAll Note.Unannotated stmts

structure FuncDef.Written (func : FuncDef) : Prop where
  readable : func.Readable
  unannotated : Stmt.NotesOfAll Note.Unannotated func.body

/-- The tree of a statement or a definition. What it denotes can be written, if it denotes
anything. -/
structure Tree.States (source : List Char) (tree : Tree) : Prop where
  stmt : ∀ stmt, Stmt.ofTree source tree = .ok stmt → stmt.Written
  var : tree.kind = .assignStatement → ∀ var, VarDef.ofTree source tree = .ok var → var.Readable
  func : tree.kind = .functionDefinition → ∀ func, FuncDef.ofTree source tree = .ok func →
    func.Written
  «class» : tree.kind = .classDefinition → ∀ definition,
    ClassDef.ofTree source tree = .ok definition → definition.Readable

structure Tree.Blocks (source : List Char) (tree : Tree) : Prop where
  isBody : tree.kind = .body
  parts : ∃ colon members, tree.children = colon :: members ∧ members ≠ [] ∧
    ∀ member ∈ members, member.States source

structure Tree.Guards (source : List Char) (tree : Tree) : Prop where
  test : tree.Stands source
  block : tree.kind = .body → tree.Blocks source

theorem assigns_of_variable (tree : Tree) (isVariable : tree.form = .variable) :
    tree.kind = .assignStatement := by
  unfold Tree.form at isVariable
  split at isVariable
  · cases isVariable
  · cases isVariable
  · rename_i assigns
    exact assigns
  · cases isVariable

theorem defines_of_function (tree : Tree) (isFunction : tree.form = .function) :
    tree.kind = .functionDefinition := by
  unfold Tree.form at isFunction
  split at isFunction
  · cases isFunction
  · rename_i defines
    exact defines
  · split at isFunction
    · split at isFunction <;> cases isFunction
    · cases isFunction
  · cases isFunction

theorem defines_of_class (tree : Tree) (isClass : tree.form = .class) :
    tree.kind = .classDefinition := by
  unfold Tree.form at isClass
  split at isClass
  · rename_i defines
    exact defines
  · cases isClass
  · split at isClass
    · split at isClass <;> cases isClass
    · cases isClass
  · cases isClass

section Building

variable (source : List Char)

theorem all_of_parts_written (started : Bool) (parts : List Tree)
    (good : ∀ part ∈ parts, part.States source) (stmts : List Stmt)
    (built : Stmt.allOfParts source started parts = .ok stmts) :
    Stmt.AllWritten stmts ∧ (parts ≠ [] → stmts ≠ []) := by
  induction parts generalizing started stmts with
  | nil =>
      rw [Stmt.allOfParts] at built
      cases built
      exact ⟨⟨trivial, trivial⟩, fun filled => absurd rfl filled⟩
  | cons first rest induction =>
      rw [Stmt.allOfParts] at built
      split at built
      · simp only [bind_succeeds_iff, pure_succeeds_iff] at built
        obtain ⟨head, builtHead, tail, builtTail, rfl⟩ := built
        have written := (good first (by simp)).stmt head builtHead
        have later := (induction true (fun part member => good part (by simp [member])) tail
          builtTail).1
        exact ⟨⟨⟨written.readable, later.readable⟩, written.unannotated, later.unannotated⟩,
          fun _ => List.cons_ne_nil _ _⟩
      all_goals cases built

theorem block_of_tree_written (tree : Tree) (blocks : tree.kind = .body → tree.Blocks source)
    (stmts : List Stmt) (built : Stmt.blockOfTree source tree = .ok stmts) :
    Stmt.AllWritten stmts ∧ stmts ≠ [] := by
  rcases tree with ⟨kind, span, children⟩
  cases children with
  | nil =>
      rw [Stmt.blockOfTree] at built
      simp only [bind_succeeds_iff] at built
      obtain ⟨_, _, impossible⟩ := built
      cases impossible
  | cons first rest =>
      rw [Stmt.blockOfTree] at built
      simp only [bind_succeeds_iff, expect_kind_succeeds_iff] at built
      obtain ⟨_, isBody, _, _, built⟩ := built
      obtain ⟨colon, members, parts, filled, good⟩ := (blocks isBody).parts
      cases parts
      have written := all_of_parts_written source false rest good stmts built
      exact ⟨written.1, written.2 filled⟩

theorem cond_of_parts_written (before : Tree) (span : Span) (parts : List Tree)
    (good : ∀ part ∈ parts, part.Guards source) (stmt : Stmt)
    (built : Stmt.condOfParts source before span parts = .ok stmt) : stmt.Written := by
  match parts with
  | [] =>
      rw [Stmt.condOfParts] at built
      cases built
  | [test] =>
      rw [Stmt.condOfParts] at built
      simp only [bind_succeeds_iff] at built
      obtain ⟨_, _, built⟩ := built
      cases built
  | test :: body :: tail =>
      rw [Stmt.condOfParts] at built
      simp only [bind_succeeds_iff] at built
      obtain ⟨testExpr, builtTest, stmts, builtBody, built⟩ := built
      obtain ⟨whole, noted⟩ := (good test (by simp)).test testExpr builtTest
      obtain ⟨written, filled⟩ := block_of_tree_written source body (good body (by simp)).block
        stmts builtBody
      cases tail with
      | nil =>
          simp only [pure_succeeds_iff] at built
          subst built
          exact ⟨⟨whole, filled, written.readable, trivial⟩, noted, written.unannotated, trivial⟩
      | cons keyword tail =>
          simp only at built
          split at built
          · simp only [bind_succeeds_iff, pure_succeeds_iff] at built
            obtain ⟨other, builtOther, rfl⟩ := built
            have later := cond_of_parts_written keyword _ tail
              (fun part member => good part (by simp [member])) other builtOther
            exact ⟨⟨whole, filled, written.readable, later.readable, trivial⟩, noted,
              written.unannotated, later.unannotated, trivial⟩
          · split at built
            · cases tail with
              | nil => cases built
              | cons orelse rest =>
                  simp only [bind_succeeds_iff, pure_succeeds_iff] at built
                  obtain ⟨others, builtOthers, _, _, rfl⟩ := built
                  have later := (block_of_tree_written source orelse (good orelse (by simp)).block
                    others builtOthers).1
                  exact ⟨⟨whole, filled, written.readable, later.readable⟩, noted,
                    written.unannotated, later.unannotated⟩
            · cases built

theorem assign_of_tree_written (tree : Tree) (good : ∀ part ∈ tree.children, part.Stands source)
    (stmt : Stmt) (built : Stmt.assignOfTree source tree = .ok stmt) : stmt.Written := by
  obtain ⟨target, sign, value, expr, parts, named, _, builtValue, rfl⟩ :=
    Stmt.assign_of_tree_succeeds source tree stmt built
  obtain ⟨⟨notNot, isName⟩, _⟩ := good target (by simp [parts]) _ (of_named_tree source target named)
  obtain ⟨whole, noted⟩ := good value (by simp [parts]) expr builtValue
  exact ⟨⟨isName, of_decide_eq_false notNot, whole⟩, noted⟩

theorem expr_of_tree_written (tree : Tree) (good : ∀ part ∈ tree.children, part.Stands source)
    (stmt : Stmt) (built : Stmt.exprOfTree source tree = .ok stmt) : stmt.Written := by
  obtain ⟨value, expr, parts, builtValue, rfl⟩ := Stmt.expr_of_tree_succeeds source tree stmt built
  obtain ⟨whole, noted⟩ := good value (by simp [parts]) expr builtValue
  exact ⟨whole, noted⟩

theorem return_of_tree_written (tree : Tree) (good : ∀ part ∈ tree.children, part.Stands source)
    (stmt : Stmt) (built : Stmt.returnOfTree source tree = .ok stmt) : stmt.Written := by
  obtain ⟨keyword, ⟨_, rfl⟩ | ⟨value, expr, parts, builtValue, rfl⟩⟩ :=
    Stmt.return_of_tree_succeeds source tree stmt built
  · exact ⟨⟨rfl, trivial⟩, rfl⟩
  · obtain ⟨whole, noted⟩ := good value (by simp [parts]) expr builtValue
    exact ⟨whole, noted⟩

theorem variable_of_tree_readable (tree : Tree)
    (good : ∀ part ∈ tree.children, part.Stands source) (var : VarDef)
    (built : VarDef.ofTree source tree = .ok var) : var.Readable := by
  obtain ⟨name, declared, sign, value, init, parts, named, _, isName, builtTy, builtInit,
    literal, -⟩ := VarDef.of_tree_succeeds source tree var built
  obtain ⟨⟨notNot, readable⟩, _⟩ := good name (by simp [parts]) _ (of_named_tree source name named)
  obtain ⟨⟨leading, readableInit⟩, noted⟩ := good value (by simp [parts]) init builtInit
  refine ⟨?_, ?_, type_of_tree_plain source declared var.ty var.tySpan builtTy, ?_⟩
  · rw [isName]
    exact readable
  · rw [isName]
    exact of_decide_eq_false notNot
  · intro value isInt same
    rw [isInt, same] at literal
    unfold Expr.literal? at literal
    split at literal
    · cases literal
      have notNegative : 0 ≤ Int32.minValue.toInt := readableInit
      exact absurd notNegative (by decide)
    · rename_i inner
      have negated : -inner = Int32.minValue := by
        simpa using literal
      have least : inner = Int32.minValue := by
        calc
          inner = - -inner := Int32.neg_neg.symm
          _ = -Int32.minValue := by rw [negated]
          _ = Int32.minValue := by decide
      have notNegative : 0 ≤ inner.toInt := readableInit.2
      rw [least] at notNegative
      exact absurd notNegative (by decide)
    · cases literal

theorem fields_of_parts_readable (parts : List Tree) (good : ∀ part ∈ parts, part.States source)
    (fields : List VarDef) (built : ClassDef.fieldsOfParts source parts = .ok fields) :
    ∀ var ∈ fields, var.Readable := by
  induction parts generalizing fields with
  | nil =>
      cases built
      exact fun _ impossible => by cases impossible
  | cons first rest induction =>
      have later := induction fun part member => good part (by simp [member])
      rw [ClassDef.fieldsOfParts] at built
      split at built
      · exact later fields built
      · rename_i assigns
        simp only [bind_succeeds_iff, pure_succeeds_iff] at built
        obtain ⟨var, builtVar, others, builtOthers, rfl⟩ := built
        intro other member
        rcases List.mem_cons.mp member with rfl | member
        · exact (good first (by simp)).var assigns other builtVar
        · exact later others builtOthers other member
      · cases built

theorem class_of_tree_readable (tree : Tree)
    (named : ∀ part ∈ tree.children, part.kind = .variableName → IsName (part.text source))
    (blocks : ∀ part ∈ tree.children, part.kind = .body → part.Blocks source)
    (definition : ClassDef) (built : ClassDef.ofTree source tree = .ok definition) :
    definition.Readable := by
  obtain ⟨keyword, name, bases, body, colon, members, parts, isName, _, isBody, inside, sameName,
    _, builtFields⟩ := ClassDef.of_tree_succeeds source tree definition built
  obtain ⟨_, others, sameParts, _, good⟩ := (blocks body (by simp [parts]) isBody).parts
  rw [inside] at sameParts
  cases sameParts
  refine ⟨?_, fields_of_parts_readable source members good definition.fields builtFields⟩
  rw [sameName]
  exact named name (by simp [parts]) isName

theorem body_of_parts_written (parts : List Tree) (good : ∀ part ∈ parts, part.States source)
    (locals : List VarDef) (stmts : List Stmt)
    (built : FuncDef.bodyOfParts source parts = .ok (locals, stmts)) :
    (∀ var ∈ locals, var.Readable) ∧ Stmt.AllWritten stmts ∧
      (parts ≠ [] → locals ≠ [] ∨ stmts ≠ []) := by
  induction parts generalizing locals with
  | nil =>
      cases built
      exact ⟨fun _ impossible => (by cases impossible), ⟨trivial, trivial⟩,
        fun filled => absurd rfl filled⟩
  | cons first rest induction =>
      rw [FuncDef.bodyOfParts] at built
      split at built
      · rename_i isVariable
        simp only [bind_succeeds_iff, pure_succeeds_iff, Prod.exists] at built
        obtain ⟨var, builtVar, vars, others, builtRest, same⟩ := built
        cases same
        have later := induction (fun part member => good part (by simp [member])) vars builtRest
        refine ⟨?_, later.2.1, fun _ => Or.inl (List.cons_ne_nil _ _)⟩
        intro other member
        rcases List.mem_cons.mp member with rfl | member
        · exact (good first (by simp)).var (assigns_of_variable first isVariable) other builtVar
        · exact later.1 other member
      · simp only [bind_succeeds_iff, pure_succeeds_iff] at built
        obtain ⟨others, builtOthers, same⟩ := built
        cases same
        have written := all_of_parts_written source false (first :: rest) good stmts builtOthers
        exact ⟨fun _ impossible => (by cases impossible), written.1,
          fun filled => Or.inr (written.2 filled)⟩

theorem function_of_tree_written (tree : Tree)
    (named : ∀ part ∈ tree.children, part.kind = .variableName → IsName (part.text source))
    (params : ∀ part ∈ tree.children, part.kind = .paramList → ∀ item ∈ part.children,
      item.kind = .variableName → IsName (item.text source))
    (blocks : ∀ part ∈ tree.children, part.kind = .body → part.Blocks source)
    (func : FuncDef) (built : FuncDef.ofTree source tree = .ok func) : func.Written := by
  obtain ⟨keyword, name, list, result, body, parts, isName, isList, isBody, sameName, _, builtParams,
    builtBody, declared⟩ := FuncDef.of_tree_succeeds source tree func built
  obtain ⟨colon, members, inside, filled, good⟩ := (blocks body (by simp [parts]) isBody).parts
  unfold FuncDef.bodyOfTree at builtBody
  rw [inside] at builtBody
  simp only [bind_succeeds_iff] at builtBody
  obtain ⟨_, _, builtBody⟩ := builtBody
  obtain ⟨locals, written, notEmpty⟩ := body_of_parts_written source members good func.locals
    func.body builtBody
  refine ⟨⟨?_, ?_, ?_, locals, written.readable, notEmpty filled⟩, written.unannotated⟩
  · rw [sameName]
    exact named name (by simp [parts]) isName
  · intro param member
    obtain ⟨item, ty, span, memberName, _, isItem, sameItem, builtTy⟩ :=
      Param.of_tree_succeeds source list func.params builtParams param member
    refine ⟨?_, type_of_tree_plain source ty param.ty span builtTy⟩
    rw [sameItem]
    exact params list (by simp [parts]) isList item memberName isItem
  · rcases declared with ⟨_, same⟩ | ⟨ty, span, _, _, builtTy⟩
    · rw [same]
      exact plain_of_literal .none
    · exact type_of_tree_plain source ty func.result span builtTy

end Building

end ScriptWasm
