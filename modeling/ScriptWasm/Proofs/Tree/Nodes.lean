import ScriptWasm.Proofs.Tree.Members

/-!
What single nodes denote: each kind of statement and definition from the trees of its parts, in the
order in which they are written.
-/

namespace ScriptWasm

set_option autoImplicit false

theorem Expr.literal_map_notes (change : Note → Note) (expr : Expr) :
    (expr.mapNotes change).literal? = expr.literal? := by
  cases expr with
  | unary note op operand =>
      cases op with
      | neg =>
          cases operand with
          | lit inner value => cases value <;> rfl
          | _ => rfl
      | not => rfl
  | _ => rfl

theorem Literal.as_expr_literal (value : Literal) : value.asExpr.literal? = some value := by
  cases value with
  | int word =>
      rw [asExpr]
      split
      · rw [Expr.literal?, Int32.neg_neg]
      · rfl
  | bool truth => rfl
  | none => rfl

section Nodes

variable (source : List Char)

theorem name_of_denoted (note : Note) (word : String) (tree : Tree)
    (denoted : (Expr.name note word).DenotedBy source tree) :
    tree.kind = .variableName ∧ tree.text source = word := by
  have named := denoted.named note word rfl
  obtain ⟨found, built, same⟩ := denoted.built
  rw [of_named_tree source tree named] at built
  cases built
  cases same
  exact ⟨named, rfl⟩

structure Ty.DenotedBy (ty : Ty) (tree : Tree) : Prop where
  isType : tree.kind = .typeDef
  built : ∃ span, Ty.ofTree source tree = .ok (ty, span)

theorem pass_denoted (span : Span) (keyword : Tree) :
    (Stmt.pass span).DenotedBy source (.branch .passStatement [keyword]) :=
  ⟨rfl, ⟨_, rfl, rfl⟩, fun _ _ => rfl⟩

theorem assign_denoted (span : Span) (target : String) (value : Expr) (name sign part : Tree)
    (named : name.kind = .variableName) (text : name.text source = target)
    (assigns : sign.kind = .assignOp) (denoted : value.DenotedBy source part) :
    (Stmt.assign span target value).DenotedBy source
      (.branch .assignStatement [name, sign, part]) where
  form := by
    change (if sign.kind = .typeDef then Form.variable else Form.statement) = .statement
    rw [assigns]
    rfl
  built := by
    obtain ⟨found, built, same⟩ := denoted.built
    let tree := Tree.branch .assignStatement [name, sign, part]
    have read : Stmt.assignOfTree source tree = .ok (.assign tree.span target found) := by
      unfold Stmt.assignOfTree
      simp only [Reading.parts_succeeds_iff, run_bind_succeeds_iff, Reading.next_succeeds_iff,
        Reading.next_of_succeeds_iff, run_lift_succeeds_iff, run_pure_succeeds_iff]
      exact ⟨⟨tree, 3⟩, ⟨name, ⟨tree, 1⟩, ⟨rfl, rfl, named⟩, sign, ⟨tree, 2⟩, ⟨rfl, rfl, assigns⟩,
        part, ⟨tree, 3⟩, ⟨rfl, rfl⟩, found, ⟨tree, 3⟩, ⟨built, rfl⟩, by rw [text], rfl⟩, rfl⟩
    refine ⟨_, read, ?_⟩
    rw [Stmt.mapNotes, Stmt.mapNotes, same]
  passes := nofun

theorem expr_denoted (span : Span) (value : Expr) (part : Tree)
    (denoted : value.DenotedBy source part) :
    (Stmt.expr span value).DenotedBy source (.branch .expressionStatement [part]) where
  form := rfl
  built := by
    obtain ⟨found, built, same⟩ := denoted.built
    let tree := Tree.branch .expressionStatement [part]
    have read : Stmt.exprOfTree source tree = .ok (.expr tree.span found) := by
      unfold Stmt.exprOfTree
      simp only [Reading.parts_succeeds_iff, run_bind_succeeds_iff, Reading.next_succeeds_iff,
        run_lift_succeeds_iff, run_pure_succeeds_iff]
      exact ⟨⟨tree, 1⟩, ⟨part, ⟨tree, 1⟩, ⟨rfl, rfl⟩, found, ⟨tree, 1⟩, ⟨built, rfl⟩, rfl, rfl⟩, rfl⟩
    refine ⟨_, read, ?_⟩
    rw [Stmt.mapNotes, Stmt.mapNotes, same]
  passes := nofun

theorem return_denoted (span : Span) (value : Expr) (keyword part : Tree)
    (denoted : value.DenotedBy source part) :
    (Stmt.ret span value).DenotedBy source (.branch .returnStatement [keyword, part]) where
  form := rfl
  built := by
    obtain ⟨found, built, same⟩ := denoted.built
    let tree := Tree.branch .returnStatement [keyword, part]
    have read : Stmt.returnOfTree source tree = .ok (.ret tree.span found) := by
      unfold Stmt.returnOfTree
      simp only [Reading.parts_succeeds_iff, run_bind_succeeds_iff, Reading.next_succeeds_iff,
        StateT.run_get]
      refine ⟨⟨tree, 2⟩, ⟨keyword, ⟨tree, 1⟩, ⟨rfl, rfl⟩, ⟨tree, 1⟩, ⟨tree, 1⟩, rfl, ?_⟩, rfl⟩
      change (do return Stmt.ret tree.span (← Expr.ofTree source (← Reading.next source)) :
        Reading Stmt).run ⟨tree, 1⟩ = _
      simp only [run_bind_succeeds_iff, Reading.next_succeeds_iff, run_lift_succeeds_iff,
        run_pure_succeeds_iff]
      exact ⟨part, ⟨tree, 2⟩, ⟨rfl, rfl⟩, found, ⟨tree, 2⟩, ⟨built, rfl⟩, rfl, rfl⟩
    refine ⟨_, read, ?_⟩
    rw [Stmt.mapNotes, Stmt.mapNotes, same]
  passes := nofun

theorem loop_denoted (span : Span) (test : Expr) (body : List Stmt) (keyword part block : Tree)
    (denoted : test.DenotedBy source part) (encloses : block.Encloses source (body.map .stmt)) :
    (Stmt.loop span test body).DenotedBy source
      (.branch .whileStatement [keyword, part, block]) where
  form := rfl
  built := by
    obtain ⟨found, built, same⟩ := denoted.built
    obtain ⟨stmts, builtBody, sameBody⟩ := block_of_members source block body encloses
    refine ⟨.loop (Tree.branch .whileStatement [keyword, part, block]).span found stmts, ?_, ?_⟩
    · unfold Tree.branch
      rw [Stmt.ofTree, built, ok_bind]
      simp only [builtBody, ok_bind]
      rfl
    · rw [Stmt.mapNotes, Stmt.mapNotes, same, sameBody]
  passes := nofun

/-- The parts of a condition after its block: nothing, or the word `else` and another block. -/
inductive Otherwise (orelse : List Stmt) : List Tree → Prop where
  | nothing (empty : orelse = []) : Otherwise orelse []
  | block (keyword block : Tree) (word : keyword.text source = "else")
      (encloses : block.Encloses source (orelse.map .stmt)) : Otherwise orelse [keyword, block]

theorem cond_denoted (span : Span) (test : Expr) (body orelse : List Stmt)
    (keyword part block : Tree) (last : List Tree)
    (word : keyword.text source = "if" ∧ keyword.children = [])
    (denoted : test.DenotedBy source part) (encloses : block.Encloses source (body.map .stmt))
    (otherwise : Otherwise source orelse last) :
    (Stmt.cond span test body orelse).DenotedBy source
      (.branch .ifStatement (keyword :: part :: block :: last)) where
  form := rfl
  built := by
    obtain ⟨found, built, same⟩ := denoted.built
    obtain ⟨stmts, builtBody, sameBody⟩ := block_of_members source block body encloses
    have read : ∀ place, ∃ others, Stmt.condOfParts source keyword place (part :: block :: last) =
        .ok (.cond place found stmts others) ∧
        Stmt.mapAllNotes Note.blank others = Stmt.mapAllNotes Note.blank orelse := by
      intro place
      cases otherwise with
      | nothing empty =>
          refine ⟨[], ?_, by rw [empty]⟩
          rw [Stmt.condOfParts, built, ok_bind]
          simp only [builtBody, ok_bind]
          rfl
      | block otherwise other word enclosesOther =>
          obtain ⟨others, builtOther, sameOther⟩ := block_of_members source other orelse enclosesOther
          refine ⟨others, ?_, sameOther⟩
          rw [Stmt.condOfParts, built, ok_bind]
          simp only [builtBody, ok_bind, word]
          rw [if_neg (by decide), if_pos trivial, builtOther]
          rfl
    obtain ⟨others, builtCond, sameOthers⟩ := read
      (Tree.branch .ifStatement (keyword :: part :: block :: last)).span
    refine ⟨.cond (Tree.branch .ifStatement (keyword :: part :: block :: last)).span found stmts
      others, ?_, ?_⟩
    · unfold Tree.branch
      rw [Stmt.ofTree, (expect_text_succeeds_iff source "if" keyword ()).mpr word, ok_bind]
      exact builtCond
    · rw [Stmt.mapNotes, Stmt.mapNotes, same, sameBody, sameOthers]
  passes := nofun

theorem var_denoted (var : VarDef) (name declared sign part : Tree)
    (named : name.kind = .variableName) (text : name.text source = var.name)
    (typed : var.ty.DenotedBy source declared) (assigns : sign.kind = .assignOp)
    (denoted : var.init.asExpr.DenotedBy source part) :
    var.DenotedBy source (.branch .assignStatement [name, declared, sign, part]) where
  form := by
    change (if declared.kind = .typeDef then Form.variable else Form.statement) = .variable
    rw [typed.isType]
    rfl
  built := by
    obtain ⟨found, built, same⟩ := denoted.built
    obtain ⟨span, builtTy⟩ := typed.built
    have literal : found.literal? = some var.init := by
      rw [← Expr.literal_map_notes Note.blank, same, Expr.literal_map_notes,
        Literal.as_expr_literal]
    let tree := Tree.branch .assignStatement [name, declared, sign, part]
    refine ⟨⟨var.name, var.ty, span, var.init, found.span, tree.span⟩, ?_, rfl⟩
    unfold VarDef.ofTree
    simp only [bind_succeeds_iff, Reading.parts_succeeds_iff, run_bind_succeeds_iff,
      Reading.next_succeeds_iff, Reading.next_of_succeeds_iff]
    refine ⟨(name, (var.ty, span), part, found), ⟨⟨tree, 4⟩, ⟨name, ⟨tree, 1⟩, ⟨rfl, rfl, named⟩,
      declared, ⟨tree, 2⟩, ⟨rfl, rfl⟩, ?_⟩, rfl⟩, ?_⟩
    · rw [if_neg (by simp [typed.isType])]
      simp only [run_bind_succeeds_iff, run_lift_succeeds_iff, run_pure_succeeds_iff,
        Reading.next_succeeds_iff, Reading.next_of_succeeds_iff]
      exact ⟨(var.ty, span), ⟨tree, 2⟩, ⟨builtTy, rfl⟩, sign, ⟨tree, 3⟩, ⟨rfl, rfl, assigns⟩, part,
        ⟨tree, 4⟩, ⟨rfl, rfl⟩, found, ⟨tree, 4⟩, ⟨built, rfl⟩, rfl, rfl⟩
    · simp only [literal, text]
      rfl

theorem params_of_listed (params : List Param) (before closing : Tree) (parts : List Tree)
    (close : closing.Mark source ")")
    (notClosing : ∀ param ∈ params, param.name ≠ ")")
    (listed : Listed source (fun param items => ∃ name declared, items = [name, declared] ∧
      name.kind = .variableName ∧ name.text source = param.name ∧
      param.ty.DenotedBy source declared) params parts) :
    ∃ found, Param.allOfParts source before (parts ++ [closing]) = .ok found ∧
      found.map Param.withoutSpan = params.map Param.withoutSpan := by
  induction listed generalizing before with
  | nil =>
      refine ⟨[], ?_, rfl⟩
      rw [List.nil_append, Param.allOfParts, if_pos close.text]
      rfl
  | one param items item =>
      obtain ⟨name, declared, rfl, named, text, isType, span, builtTy⟩ := item
      refine ⟨[⟨param.name, param.ty, name.span.through span⟩], ?_, rfl⟩
      simp only [List.cons_append, List.nil_append]
      rw [Param.allOfParts, text, if_neg (notClosing param (by simp)),
        (expect_kind_succeeds_iff source .variableName name ()).mpr named, ok_bind]
      simp only [builtTy, ok_bind, close.text,
        (expect_kind_succeeds_iff source .typeDef declared ()).mpr isType]
      rw [if_neg (by decide), if_pos trivial]
      rfl
  | more param next params items others comma item mark rest induction =>
      obtain ⟨name, declared, rfl, named, text, isType, span, builtTy⟩ := item
      obtain ⟨later, builtLater, sameLater⟩ := induction comma
        fun other member => notClosing other (by simp [member])
      refine ⟨⟨param.name, param.ty, name.span.through span⟩ :: later, ?_, ?_⟩
      · simp only [List.cons_append, List.nil_append]
        rw [Param.allOfParts, text, if_neg (notClosing param (by simp)),
          (expect_kind_succeeds_iff source .variableName name ()).mpr named, ok_bind]
        simp only [builtTy, ok_bind, mark.text,
          (expect_kind_succeeds_iff source .typeDef declared ()).mpr isType]
        rw [if_pos trivial, builtLater]
        rfl
      · rw [List.map_cons, sameLater]
        rfl

structure ParamsDenotedBy (params : List Param) (tree : Tree) : Prop where
  isList : tree.kind = .paramList
  built : ∃ found, Param.allOfTree source tree = .ok found ∧
    found.map Param.withoutSpan = params.map Param.withoutSpan

theorem func_denoted (func : FuncDef) (keyword name params declared block : Tree)
    (word : keyword.text source = "def" ∧ keyword.children = [])
    (named : name.kind = .variableName) (text : name.text source = func.name)
    (listed : ParamsDenotedBy source func.params params)
    (typed : func.result.DenotedBy source declared)
    (encloses : block.Encloses source func.members) :
    func.DenotedBy source
      (.branch .functionDefinition [keyword, name, params, declared, block]) where
  form := rfl
  built := by
    obtain ⟨isList, found, builtParams, sameParams⟩ := listed
    obtain ⟨isType, span, builtTy⟩ := typed
    obtain ⟨isBody, colon, trees, parts, mark, denoted⟩ := encloses
    obtain ⟨locals, body, built, sameLocals, sameBody⟩ := body_of_members source func.locals
      func.body trees denoted
    let tree := Tree.branch .functionDefinition [keyword, name, params, declared, block]
    refine ⟨⟨func.name, found, func.result, locals, body, tree.span⟩, ?_, ?_⟩
    · unfold FuncDef.ofTree
      simp only [Reading.parts_succeeds_iff, run_bind_succeeds_iff, Reading.next_succeeds_iff,
        Reading.next_of_succeeds_iff, Reading.next_text_succeeds_iff, run_lift_succeeds_iff]
      refine ⟨⟨tree, 5⟩, ⟨keyword, ⟨tree, 1⟩, ⟨rfl, rfl, word⟩, name, ⟨tree, 2⟩, ⟨rfl, rfl, named⟩,
        params, ⟨tree, 3⟩, ⟨rfl, rfl, isList⟩, found, ⟨tree, 3⟩, ⟨builtParams, rfl⟩, declared,
        ⟨tree, 4⟩, ⟨rfl, rfl⟩, ?_⟩, rfl⟩
      rw [if_pos isType]
      simp only [run_bind_succeeds_iff, run_lift_succeeds_iff, Reading.next_succeeds_iff,
        expect_kind_succeeds_iff, run_pure_succeeds_iff]
      refine ⟨(func.result, span), ⟨tree, 4⟩, ⟨builtTy, rfl⟩, block, ⟨tree, 5⟩, ⟨rfl, rfl⟩,
        (func.result, block), ⟨tree, 5⟩, ⟨rfl, rfl⟩, (), ⟨tree, 5⟩, ⟨isBody, rfl⟩, (locals, body),
        ⟨tree, 5⟩, ⟨?_, rfl⟩, by rw [text], rfl⟩
      unfold FuncDef.bodyOfTree
      rw [parts]
      simp only [(expect_text_succeeds_iff source ":" colon ()).mpr ⟨mark.text, mark.alone⟩, ok_bind,
        built]
    · rw [FuncDef.mapNotes, FuncDef.mapNotes, sameParams, sameLocals, sameBody]

theorem class_denoted (definition : ClassDef) (keyword name block : Tree)
    (named : name.kind = .variableName) (text : name.text source = definition.name)
    (encloses : block.Encloses source definition.members) :
    definition.DenotedBy source (.branch .classDefinition [keyword, name, block]) where
  form := rfl
  built := by
    obtain ⟨isBody, colon, trees, parts, mark, denoted⟩ := encloses
    obtain ⟨fields, built, same⟩ := fields_of_members source definition trees denoted
    let tree := Tree.branch .classDefinition [keyword, name, block]
    refine ⟨⟨definition.name, fields, tree.span⟩, ?_, ?_⟩
    · unfold ClassDef.ofTree
      simp only [bind_succeeds_iff, Reading.parts_succeeds_iff, run_bind_succeeds_iff,
        Reading.next_succeeds_iff, Reading.next_of_succeeds_iff]
      refine ⟨(name, block), ⟨⟨tree, 3⟩, ⟨keyword, ⟨tree, 1⟩, ⟨rfl, rfl⟩, name, ⟨tree, 2⟩,
        ⟨rfl, rfl, named⟩, block, ⟨tree, 3⟩, ⟨rfl, rfl⟩, ?_⟩, rfl⟩, ?_⟩
      · rw [if_neg (by rw [isBody]; decide)]
        simp only [run_bind_succeeds_iff, run_lift_succeeds_iff, expect_kind_succeeds_iff,
          run_pure_succeeds_iff]
        exact ⟨block, ⟨tree, 3⟩, ⟨rfl, rfl⟩, (), ⟨tree, 3⟩, ⟨isBody, rfl⟩, rfl, rfl⟩
      · simp only [parts, built, ok_bind, text]
        rfl
    · rw [ClassDef.withoutSpans, ClassDef.withoutSpans, same]

end Nodes

end ScriptWasm
