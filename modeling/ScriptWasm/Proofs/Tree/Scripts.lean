import ScriptWasm.Proofs.Tree.Nesting

/-!
The written form of a whole program is accepted, and denotes the program it is the written form of.
-/

namespace ScriptWasm

set_option autoImplicit false

theorem name_is_no_mark (word : String) (isName : IsName word) : word ≠ ")" := by
  rintro rfl
  obtain ⟨first, rest, chars, starts, _⟩ := isName.letters
  cases chars
  exact absurd starts (by decide)

theorem param_starts (param : Param) : Parser.ItemStarts param.shapes :=
  ⟨.name, param.name, _, rfl, by decide⟩

namespace Parser

variable (source : List Char)

theorem parameters_accepts (params : List Param) (readable : ∀ param ∈ params, param.Readable) :
    Accepts source parameters
      (TokenKind.leftParen.shape :: separated (params.map Param.shapes) ++
        [TokenKind.rightParen.shape]) (fun _ => True) (ParamsDenotedBy source params) := by
  have items : ∀ param ∈ params, Accepts source (do
      let name ← expectName
      return name :: (← typeIf .colon) : Parser (List Tree)) param.shapes ItemFollows
      fun parts => ∃ name declared, parts = [name, declared] ∧ name.kind = .variableName ∧
        name.text source = param.name ∧ param.ty.DenotedBy source declared := by
    intro param member lexemes rest last spell _
    obtain ⟨name, others, rfl, isName, nameText, sound, spellType⟩ :=
      spell_cons source lexemes .name param.name _ spell
    obtain ⟨types, after, run, declared, rfl, denoted⟩ := type_if_accepts source .colon param.ty
      (readable param member).ty others rest name.span spellType trivial
    refine ⟨[.leaf .variableName name.span, declared], after, ?_, _, declared, rfl, rfl, ?_, denoted⟩
    · rw [List.cons_append, StateT.run_bind, expect_name_run _ _ _ isName, ok_bind]
      simp only [StateT.run_bind, run, ok_bind]
      rfl
    · rw [text_of_leaf source .variableName name sound, nameText]
  intro lexemes rest last spell follows
  obtain ⟨tree, after, run, opening, parts, closing, rfl, opens, closes, listed⟩ :=
    parenthesized_accepts .paramList params items (fun param _ => param_starts param) lexemes rest
      last spell follows
  obtain ⟨found, built, same⟩ := params_of_listed source params opening closing parts closes
    (fun param member => name_is_no_mark param.name (readable param member).name) listed
  refine ⟨_, after, run, rfl, found, ?_, same⟩
  change (do
    opening.expectText source "("
    Param.allOfParts source opening (parts ++ [closing])) = _
  rw [(expect_text_succeeds_iff source "(" opening ()).mpr ⟨opens.text, opens.alone⟩, ok_bind, built]

section Definitions

variable (parse : Parser Tree)

theorem func_accepts (func : FuncDef) (readable : func.Readable)
    (blocks : Accepts source (block parse) (blockShapes (func.members.flatMap Member.shapes))
      (fun _ => True) fun tree => tree.Encloses source func.members) :
    Accepts source (statementOf parse) func.shapes StatementFollows (func.DenotedBy source) := by
  intro lexemes rest last spell _
  rw [FuncDef.shapes, FuncDef.shapes_of_members, List.cons_append, List.cons_append] at spell
  obtain ⟨keyword, named, rfl, isDef, defText, soundDef, spellNamed⟩ :=
    spell_cons source lexemes .defWord "def" _ spell
  obtain ⟨name, listed, rfl, isName, nameText, soundName, spellListed⟩ :=
    spell_cons source named .name func.name _ spellNamed
  obtain ⟨list, typed, rfl, spellList, spellTyped⟩ := spell_append source listed _ _ spellListed
  obtain ⟨types, inside, rfl, spellTypes, spellInside⟩ :=
    spell_append source typed [TokenKind.arrow.shape, func.result.shape] _ spellTyped
  obtain ⟨params, afterParams, runParams, denotedParams⟩ := parameters_accepts source func.params
    readable.params list (types ++ (inside ++ rest)) name.span spellList trivial
  obtain ⟨trees, afterType, runType, declared, rfl, denotedTy⟩ := type_if_accepts source .arrow
    func.result readable.result types (inside ++ rest) afterParams spellTypes trivial
  obtain ⟨body, final, runBody, encloses⟩ := blocks inside rest afterType spellInside trivial
  have word : (Tree.leaf .keyword keyword.span).text source = "def" ∧
      (Tree.leaf .keyword keyword.span).children = [] :=
    ⟨by rw [text_of_leaf source .keyword keyword soundDef, defText], rfl⟩
  refine ⟨_, final, ?_, func_denoted source func _ (.leaf .variableName name.span) params declared
    body word rfl (by rw [text_of_leaf source .variableName name soundName, nameText]) denotedParams
    denotedTy encloses⟩
  simp only [List.cons_append, List.append_assoc]
  rw [statementOf, StateT.run_bind, peek_run, ok_bind, TokenStream.next_cons, isDef]
  change (functionDefinition parse).run _ = _
  rw [functionDefinition, StateT.run_bind, take_run, ok_bind, TokenStream.past_cons,
    TokenStream.next_cons, StateT.run_bind, expect_name_run _ _ _ isName, ok_bind]
  simp only [StateT.run_bind, runParams, ok_bind, runType, runBody]
  rfl

theorem class_accepts (definition : ClassDef)
    (blocks : Accepts source (block parse) (blockShapes (definition.members.flatMap Member.shapes))
      (fun _ => True) fun tree => tree.Encloses source definition.members) :
    Accepts source (statementOf parse) definition.shapes StatementFollows
      (definition.DenotedBy source) := by
  intro lexemes rest last spell _
  rw [ClassDef.shapes, ClassDef.shapes_of_members] at spell
  obtain ⟨keyword, named, rfl, isClass, _, _, spellNamed⟩ :=
    spell_cons source lexemes .classWord "class" _ spell
  obtain ⟨name, inside, rfl, isName, nameText, soundName, spellInside⟩ :=
    spell_cons source named .name definition.name _ spellNamed
  obtain ⟨body, final, runBody, encloses⟩ := blocks inside rest name.span spellInside trivial
  refine ⟨_, final, ?_, class_denoted source definition (.leaf .keyword keyword.span)
    (.leaf .variableName name.span) body rfl
    (by rw [text_of_leaf source .variableName name soundName, nameText]) encloses⟩
  have noBases : headKind (inside ++ rest) ≠ .leftParen := by
    obtain ⟨colon, _, rfl, isColon, _⟩ := spell_cons source inside .colon ":" _ spellInside
    rw [List.cons_append, headKind, isColon]
    decide
  simp only [List.cons_append]
  rw [statementOf, StateT.run_bind, peek_run, ok_bind, TokenStream.next_cons, isClass]
  change (classDefinition parse).run _ = _
  rw [classDefinition, StateT.run_bind, take_run, ok_bind, TokenStream.past_cons,
    TokenStream.next_cons, StateT.run_bind, expect_name_run _ _ _ isName, ok_bind, StateT.run_bind,
    peek_run, ok_bind, if_neg (by rw [next_kind]; exact noBases)]
  simp only [StateT.run_bind, StateT.run_pure, pure_bind, runBody, ok_bind]
  rfl

end Definitions

/-- Blocks of a depth are accepted where members of that depth are. -/
theorem nested_accepts (depth : Nat) (members : List Member)
    (readable : ∀ member ∈ members, member.Readable)
    (fits : (members.flatMap Member.shapes).length ≤ depth)
    (accepts : ∀ member ∈ members, ∀ shorter, member.shapes.length ≤ shorter + 1 →
      Accepts source (statementOf (statementUpTo shorter)) member.shapes StatementFollows
        (member.DenotedBy source)) :
    Accepts source (block (statementUpTo depth)) (blockShapes (members.flatMap Member.shapes))
      (fun _ => True) fun tree => tree.Encloses source members := by
  have starts : ∀ member ∈ members, StartsLine member.shapes :=
    fun member among => member.starts_line (readable member among)
  apply block_accepts source (statementUpTo depth) members _ starts
  intro member among
  have short := length_le_flat_map members member among
  cases depth with
  | zero =>
      obtain ⟨_, _, _, shape, _⟩ := starts member among
      rw [shape, List.length_cons] at short
      omega
  | succ depth => exact accepts member among depth (by omega)

mutual

theorem statement_accepts (stmt : Stmt) (readable : stmt.Readable) (depth : Nat)
    (fits : stmt.shapes.length ≤ depth + 1) :
    Accepts source (statementOf (statementUpTo depth)) stmt.shapes StatementFollows
      (stmt.DenotedBy source) := by
  cases stmt with
  | assign span target value =>
      exact expression_line_accepts source _ _ _ .name target _ rfl rfl
        (assign_accepts source span target value readable)
  | expr span value =>
      obtain ⟨kind, text, more, shape, starts, _⟩ := value.first_shape readable.2
      exact expression_line_accepts source _ _ _ kind text _
        (by rw [Stmt.shapes, shape, List.cons_append]) starts (expr_accepts source span value readable)
  | pass span => exact pass_accepts source _ span
  | fieldAssign span object field value => exact readable.elim
  | ret span value => exact return_accepts source _ span value readable
  | cond span test body orelse =>
      obtain ⟨whole, _, readableBody, readableOrelse⟩ := readable
      rw [Stmt.shapes] at fits
      simp only [List.length_cons, List.length_append, blockShapes, List.cons_append] at fits
      apply cond_accepts source _ test whole body
      · exact statements_accept_nested body readableBody depth (by omega)
      · intro filled
        apply statements_accept_nested orelse readableOrelse depth
        have notEmpty : orelse.isEmpty = false := by simp [filled]
        rw [notEmpty, if_neg (by decide)] at fits
        simp only [List.length_cons, List.length_append] at fits
        omega
  | loop span test body =>
      obtain ⟨whole, _, readableBody⟩ := readable
      rw [Stmt.shapes] at fits
      simp only [List.length_cons, List.length_append, blockShapes, List.cons_append] at fits
      apply loop_accepts source _ test whole body
      exact statements_accept_nested body readableBody depth (by omega)
termination_by (sizeOf stmt, 0)

theorem statements_accept_nested (stmts : List Stmt) (readable : Stmt.AllReadable stmts)
    (depth : Nat) (fits : (Stmt.allShapes stmts).length ≤ depth) :
    Accepts source (block (statementUpTo depth)) (blockShapes (Stmt.allShapes stmts))
      (fun _ => True) fun tree => tree.Encloses source (stmts.map .stmt) := by
  have known := (Stmt.all_readable_iff stmts).mp readable
  rw [Stmt.all_shapes_eq] at fits ⊢
  apply nested_accepts source depth _ _ fits
  · intro member among shorter short
    obtain ⟨stmt, here, rfl⟩ := List.mem_map.mp among
    have smaller := List.sizeOf_lt_of_mem here
    exact statement_accepts stmt (known stmt here) shorter short
  · intro member among
    obtain ⟨stmt, here, rfl⟩ := List.mem_map.mp among
    exact known stmt here
termination_by (sizeOf stmts, 1)

end

theorem var_line_accepts (var : VarDef) (readable : var.Readable) (parse : Parser Tree) :
    Accepts source (statementOf parse) var.shapes StatementFollows (var.DenotedBy source) :=
  expression_line_accepts source parse _ _ .name var.name _ rfl rfl
    (var_accepts source var readable)

theorem member_accepts (member : Member) (readable : member.Readable) (depth : Nat)
    (fits : member.shapes.length ≤ depth + 1) :
    Accepts source (statementOf (statementUpTo depth)) member.shapes StatementFollows
      (member.DenotedBy source) := by
  cases member with
  | «class» definition =>
      have fields : ∀ member ∈ definition.members, member = .stmt (.pass nowhere) ∨
          ∃ var ∈ definition.fields, member = .var var := by
        intro member among
        unfold ClassDef.members at among
        split at among
        · exact Or.inl (List.mem_singleton.mp among)
        · obtain ⟨var, here, rfl⟩ := List.mem_map.mp among
          exact Or.inr ⟨var, here, rfl⟩
      apply class_accepts
      apply nested_accepts
      · intro member among
        rcases fields member among with rfl | ⟨var, here, rfl⟩
        · trivial
        · exact readable.fields var here
      · change definition.shapes.length ≤ depth + 1 at fits
        rw [ClassDef.shapes, ClassDef.shapes_of_members] at fits
        simp only [List.length_cons, List.length_append, blockShapes, List.cons_append] at fits
        omega
      · intro member among shorter _
        rcases fields member among with rfl | ⟨var, here, rfl⟩
        · exact pass_accepts source _ nowhere
        · exact var_line_accepts source var (readable.fields var here) _
  | var definition => exact var_line_accepts source definition readable _
  | func definition =>
      have parts : ∀ member ∈ definition.members,
          (∃ var ∈ definition.locals, member = .var var) ∨
            ∃ stmt ∈ definition.body, member = .stmt stmt := by
        intro member among
        rcases List.mem_append.mp among with among | among
        · obtain ⟨var, here, rfl⟩ := List.mem_map.mp among
          exact Or.inl ⟨var, here, rfl⟩
        · obtain ⟨stmt, here, rfl⟩ := List.mem_map.mp among
          exact Or.inr ⟨stmt, here, rfl⟩
      have body := (Stmt.all_readable_iff definition.body).mp readable.body
      apply func_accepts source _ definition readable
      apply nested_accepts
      · intro member among
        rcases parts member among with ⟨var, here, rfl⟩ | ⟨stmt, here, rfl⟩
        · exact readable.locals var here
        · exact body stmt here
      · change definition.shapes.length ≤ depth + 1 at fits
        rw [FuncDef.shapes, FuncDef.shapes_of_members] at fits
        simp only [List.length_cons, List.length_append, blockShapes, List.cons_append] at fits
        omega
      · intro member among shorter short
        rcases parts member among with ⟨var, here, rfl⟩ | ⟨stmt, here, rfl⟩
        · exact var_line_accepts source var (readable.locals var here) _
        · exact statement_accepts source stmt (body stmt here) shorter short
  | stmt statement => exact statement_accepts source statement readable depth fits

theorem top_level_accepts (member : Member) (readable : member.Readable) :
    Accepts source statement member.shapes StatementFollows (member.DenotedBy source) := by
  intro lexemes rest last spell follows
  obtain ⟨kind, text, more, shape, _⟩ := member.starts_line readable
  have long := spell_length source lexemes _ spell
  obtain ⟨depth, enough⟩ : ∃ depth, (lexemes ++ rest).length = depth + 1 := by
    rw [shape, List.length_cons] at long
    exact ⟨(lexemes ++ rest).length - 1, by rw [List.length_append]; omega⟩
  rw [statement, StateT.run_bind, remaining_run, ok_bind, enough]
  apply member_accepts source member readable depth _ lexemes rest last spell follows
  rw [← long, ← enough, List.length_append]
  omega

end Parser

theorem Program.members_readable (program : Program) (readable : program.Readable) :
    ∀ member ∈ program.members, member.Readable := by
  intro member among
  rcases List.mem_append.mp among with among | among
  · rcases List.mem_append.mp among with among | among
    · obtain ⟨definition, here, rfl⟩ := List.mem_map.mp among
      exact readable.classes definition here
    · obtain ⟨definition, here, rfl⟩ := List.mem_map.mp among
      cases definition with
      | var var => exact readable.vars var (List.mem_filterMap.mpr ⟨_, here, rfl⟩)
      | func func => exact readable.funcs func (List.mem_filterMap.mpr ⟨_, here, rfl⟩)
  · obtain ⟨stmt, here, rfl⟩ := List.mem_map.mp among
    exact (Stmt.all_readable_iff program.stmts).mp readable.stmts stmt here

/-- A source whose tokens are those of a program is read as that program. -/
theorem Program.of_source_of_shapes (source : List Char) (program : Program)
    (readable : program.Readable)
    (spell : Spell source ((layoutTokens source).map (·.lexeme source)) program.shapes) :
    ∃ found, Program.ofSource source = .ok found ∧ found.erase = program.erase := by
  have members := program.members_readable readable
  obtain ⟨before, ends, whole, spellMembers, spellEnd⟩ := spell_append source _ _ _ spell
  obtain ⟨final, none_, rfl, isEnd, _, _, spellNone⟩ :=
    spell_cons source ends .endOfFile "" [] spellEnd
  rw [spell_nil source none_ spellNone] at whole
  obtain ⟨trees, after, run, denoted⟩ := Parser.statements_accepts source Parser.statement
    [.endOfFile] (by simp) program.members
    (fun member among => Parser.top_level_accepts source member (members member among))
    (fun member among => member.starts_line (members member among)) before [final] ⟨0, 0⟩
    spellMembers (by change final.kind ∈ _; rw [isEnd]; decide)
  have parsed : Tree.ofSource source =
      .ok (.node .script ⟨0, byteLength source⟩ trees) := by
    unfold Tree.ofSource Tree.ofTokens
    rw [whole]
    change Except.map Prod.fst ((Parser.script (byteLength source)).run _) = _
    rw [Parser.script, StateT.run_bind, run]
    rfl
  obtain ⟨found, built, same⟩ := program_of_members source program.classes program.defs
    program.stmts trees denoted
  refine ⟨found, ?_, same⟩
  rw [Program.ofSource, parsed]
  exact built

end ScriptWasm
