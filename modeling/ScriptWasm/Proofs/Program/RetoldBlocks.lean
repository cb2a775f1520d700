import ScriptWasm.Proofs.Program.RetoldParts

/-!
Blocks and whole programs that are told again, from the statements and definitions in them.
-/

namespace ScriptWasm

set_option autoImplicit false

structure Tree.RetellsStatement (source edited : List Char) (tree copy : Tree) : Prop where
  kind : copy.kind = tree.kind
  form : copy.form = tree.form
  stmt : Echoes (SameBy (Stmt.mapNotes Note.withoutSpan)) (Stmt.ofTree source tree)
    (Stmt.ofTree edited copy)
  var : tree.kind = .assignStatement →
    Echoes (SameBy VarDef.withoutSpans) (VarDef.ofTree source tree) (VarDef.ofTree edited copy)
  func : tree.kind = .functionDefinition →
    Echoes (SameBy (FuncDef.mapNotes Note.withoutSpan)) (FuncDef.ofTree source tree)
      (FuncDef.ofTree edited copy)
  «class» : tree.kind = .classDefinition →
    Echoes (SameBy ClassDef.withoutSpans) (ClassDef.ofTree source tree)
      (ClassDef.ofTree edited copy)

def RetoldStatements (source edited : List Char) (trees copies : List Tree) : Prop :=
  List.Forall₂ (Tree.RetellsStatement source edited) trees copies

structure Tree.RetellsBlock (source edited : List Char) (tree copy : Tree) : Prop where
  isBody : tree.kind = .body
  copied : copy.kind = .body
  parts : ∃ colon mark members copies, tree.children = colon :: members ∧
    copy.children = mark :: copies ∧ colon.SameWord source edited mark ∧
    RetoldStatements source edited members copies

inductive RetoldBranches (source edited : List Char) : List Tree → List Tree → Prop where
  | none : RetoldBranches source edited [] []
  | elif (word copied test again block body : Tree) (rest others : List Tree)
      (same : word.SameWord source edited copied) (tests : test.Retells source edited again)
      (blocks : block.RetellsBlock source edited body)
      (later : RetoldBranches source edited rest others) :
      RetoldBranches source edited (word :: test :: block :: rest)
        (copied :: again :: body :: others)
  | otherwise (word copied block body : Tree) (same : word.SameWord source edited copied)
      (blocks : block.RetellsBlock source edited body) :
      RetoldBranches source edited [word, block] [copied, body]

section Blocks

variable {source edited : List Char}

theorem all_retold (started : Bool) (trees copies : List Tree)
    (retold : RetoldStatements source edited trees copies) :
    Echoes (SameBy (Stmt.mapAllNotes Note.withoutSpan)) (Stmt.allOfParts source started trees)
      (Stmt.allOfParts edited started copies) := by
  induction retold generalizing started with
  | nil =>
      rw [Stmt.allOfParts, Stmt.allOfParts]
      exact echoes_pure [] [] rfl
  | cons first _ induction =>
      rw [Stmt.allOfParts, Stmt.allOfParts, first.form]
      split
      · refine echoes_bind _ _ first.stmt fun stmt found same => ?_
        refine echoes_bind _ _ (induction true) fun stmts others later => ?_
        refine echoes_pure _ _ ?_
        simp only [SameBy, Stmt.mapAllNotes] at same later ⊢
        rw [same, later]
      all_goals exact echoes_failure _

theorem block_retold (tree copy : Tree) (block : tree.RetellsBlock source edited copy) :
    Echoes (SameBy (Stmt.mapAllNotes Note.withoutSpan)) (Stmt.blockOfTree source tree)
      (Stmt.blockOfTree edited copy) := by
  obtain ⟨isBody, copied, colon, mark, members, copies, parts, others, same, retold⟩ := block
  rcases tree with ⟨kind, span, children⟩
  rcases copy with ⟨other, place, list⟩
  change kind = .body at isBody
  change other = .body at copied
  change children = colon :: members at parts
  change list = mark :: copies at others
  subst isBody copied parts others
  rw [Stmt.blockOfTree, Stmt.blockOfTree]
  refine echoes_checked _ _ _ _ (fun _ => rfl) fun _ => ?_
  exact echoes_checked _ _ _ _ (same.expects ":") fun _ => all_retold false members copies retold

theorem Tree.RetellsBlock.expects {tree copy : Tree}
    (block : tree.RetellsBlock source edited copy) :
    Echoes (fun _ _ => True) (tree.expectKind source .body) (copy.expectKind edited .body) :=
  fun _ _ => ⟨(), (expect_kind_succeeds_iff edited .body copy ()).mpr block.copied, trivial⟩

theorem body_retold (trees copies : List Tree)
    (retold : RetoldStatements source edited trees copies) :
    Echoes (fun value answer => answer.1.map VarDef.withoutSpans = value.1.map VarDef.withoutSpans ∧
        SameBy (Stmt.mapAllNotes Note.withoutSpan) value.2 answer.2)
      (FuncDef.bodyOfParts source trees) (FuncDef.bodyOfParts edited copies) := by
  induction retold with
  | nil => exact echoes_pure _ _ ⟨rfl, rfl⟩
  | @cons tree copy trees copies first later induction =>
      rw [FuncDef.bodyOfParts, FuncDef.bodyOfParts, first.form]
      split
      · rename_i isVariable
        refine echoes_bind _ _ (first.var (assigns_of_variable tree isVariable))
          fun var found same => ?_
        refine echoes_bind _ _ induction fun body other rest => ?_
        refine echoes_pure _ _ ⟨?_, rest.2⟩
        simp only [List.map_cons]
        rw [same, rest.1]
      · refine echoes_bind _ _ (all_retold false _ _ (.cons first later))
          fun stmts others same => ?_
        exact echoes_pure _ _ ⟨rfl, same⟩

theorem enclosed_retold (tree copy : Tree) (block : tree.RetellsBlock source edited copy) :
    Echoes (fun value answer => answer.1.map VarDef.withoutSpans = value.1.map VarDef.withoutSpans ∧
        SameBy (Stmt.mapAllNotes Note.withoutSpan) value.2 answer.2)
      (FuncDef.bodyOfTree source tree) (FuncDef.bodyOfTree edited copy) := by
  obtain ⟨_, _, colon, mark, members, copies, parts, others, same, retold⟩ := block
  rw [FuncDef.bodyOfTree, FuncDef.bodyOfTree, parts, others]
  exact echoes_checked _ _ _ _ (same.expects ":") fun _ => body_retold members copies retold

theorem fields_retold (trees copies : List Tree)
    (retold : RetoldStatements source edited trees copies) :
    Echoes (SameBy (List.map VarDef.withoutSpans)) (ClassDef.fieldsOfParts source trees)
      (ClassDef.fieldsOfParts edited copies) := by
  induction retold with
  | nil => exact echoes_pure [] [] rfl
  | @cons tree copy trees copies first later induction =>
      rw [ClassDef.fieldsOfParts, ClassDef.fieldsOfParts, first.kind]
      split
      · exact induction
      · rename_i assigns
        refine echoes_bind _ _ (first.var assigns) fun var found same => ?_
        refine echoes_bind _ _ induction fun vars others rest => ?_
        refine echoes_pure _ _ ?_
        simp only [SameBy, List.map_cons] at same rest ⊢
        rw [same, rest]
      · exact echoes_failure _

theorem same_program_iff (program other : Program) :
    SameBy Program.withoutSpans program other ↔
      other.defs.map (Def.mapNotes Note.withoutSpan) =
        program.defs.map (Def.mapNotes Note.withoutSpan) ∧
      SameBy (Stmt.mapAllNotes Note.withoutSpan) program.stmts other.stmts ∧
      other.classes.map ClassDef.withoutSpans = program.classes.map ClassDef.withoutSpans := by
  rw [SameBy, Program.withoutSpans, Program.withoutSpans, Program.mapNotes, Program.mapNotes,
    Program.mk.injEq, SameBy]

theorem program_retold (trees copies : List Tree)
    (retold : RetoldStatements source edited trees copies) :
    Echoes (SameBy Program.withoutSpans) (Program.ofParts source trees)
      (Program.ofParts edited copies) := by
  induction retold with
  | nil => exact echoes_pure _ _ rfl
  | @cons tree copy trees copies first later induction =>
      rw [Program.ofParts, Program.ofParts, first.form]
      split
      · rename_i isClass
        refine echoes_bind _ _ (first.class (defines_of_class tree isClass))
          fun value found same => ?_
        refine echoes_bind _ _ induction fun program other rest => ?_
        rw [same_program_iff] at rest
        refine echoes_pure _ _ ((same_program_iff _ _).mpr ⟨rest.1, rest.2.1, ?_⟩)
        rw [List.map_cons, List.map_cons, same, rest.2.2]
      · rename_i isVariable
        refine echoes_bind _ _ (first.var (assigns_of_variable tree isVariable))
          fun value found same => ?_
        refine echoes_bind _ _ induction fun program other rest => ?_
        rw [same_program_iff] at rest
        refine echoes_pure _ _ ((same_program_iff _ _).mpr ⟨?_, rest.2.1, rest.2.2⟩)
        rw [List.map_cons, List.map_cons, Def.mapNotes, Def.mapNotes, same, rest.1]
      · rename_i isFunction
        refine echoes_bind _ _ (first.func (defines_of_function tree isFunction))
          fun value found same => ?_
        refine echoes_bind _ _ induction fun program other rest => ?_
        rw [same_program_iff] at rest
        refine echoes_pure _ _ ((same_program_iff _ _).mpr ⟨?_, rest.2.1, rest.2.2⟩)
        rw [List.map_cons, List.map_cons, Def.mapNotes, Def.mapNotes, same, rest.1]
      · refine echoes_bind _ _ (all_retold false _ _ (.cons first later))
          fun stmts others same => ?_
        exact echoes_pure _ _ ((same_program_iff _ _).mpr ⟨rfl, same, rfl⟩)

end Blocks

section Statements

variable {source edited : List Char}

theorem cond_retold (test again block body : Tree) (rest others : List Tree)
    (tests : test.Retells source edited again) (blocks : block.RetellsBlock source edited body)
    (branches : RetoldBranches source edited rest others) (before start : Tree)
    (span place : Span) :
    Echoes (SameBy (Stmt.mapNotes Note.withoutSpan))
      (Stmt.condOfParts source before span (test :: block :: rest))
      (Stmt.condOfParts edited start place (again :: body :: others)) := by
  -- The induction is on the arms that the copy shares with the tree. A word has the same text in
  -- both, so both go into the same branch.
  induction branches generalizing test again block body before start span place with
  | none =>
      rw [Stmt.condOfParts, Stmt.condOfParts]
      refine echoes_bind _ _ tests.expr fun expr found sameTest => ?_
      refine echoes_bind _ _ (block_retold block body blocks) fun stmts copied sameBody => ?_
      refine echoes_pure _ _ ?_
      simp only [SameBy, Stmt.mapNotes] at sameTest sameBody ⊢
      rw [sameTest, sameBody]
  | elif word copied next later inner other rest others same laterTests laterBlocks _ induction =>
      rw [Stmt.condOfParts, Stmt.condOfParts]
      refine echoes_bind _ _ tests.expr fun expr found sameTest => ?_
      refine echoes_bind _ _ (block_retold block body blocks) fun stmts copies sameBody => ?_
      simp only [same.text]
      split
      · refine echoes_bind _ _
          (induction next later inner other laterTests laterBlocks word copied _ _)
          fun stmt again sameLater => ?_
        refine echoes_pure _ _ ?_
        simp only [SameBy, Stmt.mapNotes, Stmt.mapAllNotes] at sameTest sameBody sameLater ⊢
        rw [sameTest, sameBody, sameLater]
      · split
        · intro stmt built
          simp only [bind_succeeds_iff] at built
          obtain ⟨_, _, _, impossible, _⟩ := built
          cases impossible
        · exact echoes_failure _
  | otherwise word copied inner other same laterBlocks =>
      rw [Stmt.condOfParts, Stmt.condOfParts]
      refine echoes_bind _ _ tests.expr fun expr found sameTest => ?_
      refine echoes_bind _ _ (block_retold block body blocks) fun stmts copies sameBody => ?_
      simp only [same.text]
      split
      · intro stmt built
        simp only [bind_succeeds_iff, Stmt.condOfParts] at built
        obtain ⟨_, ⟨_, _, impossible⟩, _⟩ := built
        cases impossible
      · split
        · refine echoes_bind _ _ (block_retold inner other laterBlocks)
            fun more again sameLater => ?_
          refine echoes_checked _ _ _ _ (fun _ => rfl) fun _ => ?_
          refine echoes_pure _ _ ?_
          simp only [SameBy, Stmt.mapNotes] at sameTest sameBody sameLater ⊢
          rw [sameTest, sameBody, sameLater]
        · exact echoes_failure _

theorem if_retells (word copied test again block body : Tree) (rest others : List Tree)
    (same : word.SameWord source edited copied) (tests : test.Retells source edited again)
    (blocks : block.RetellsBlock source edited body)
    (branches : RetoldBranches source edited rest others) :
    (Tree.branch .ifStatement (word :: test :: block :: rest)).RetellsStatement source edited
      (.branch .ifStatement (copied :: again :: body :: others)) where
  kind := rfl
  form := rfl
  stmt := by
    unfold Tree.branch
    rw [Stmt.ofTree, Stmt.ofTree]
    exact echoes_checked _ _ _ _ (same.expects "if") fun _ =>
      cond_retold test again block body rest others tests blocks branches _ _ _ _
  var := nofun
  func := nofun
  «class» := nofun

theorem while_retells (word copied test again block body : Tree)
    (tests : test.Retells source edited again) (blocks : block.RetellsBlock source edited body) :
    (Tree.branch .whileStatement [word, test, block]).RetellsStatement source edited
      (.branch .whileStatement [copied, again, body]) where
  kind := rfl
  form := rfl
  stmt := by
    unfold Tree.branch
    rw [Stmt.ofTree, Stmt.ofTree]
    refine echoes_bind _ _ tests.expr fun expr found sameTest => ?_
    refine echoes_bind _ _ (block_retold block body blocks) fun stmts copies sameBody => ?_
    refine echoes_checked _ _ _ _ (fun _ => rfl) fun _ => ?_
    refine echoes_pure _ _ ?_
    simp only [SameBy, Stmt.mapNotes] at sameTest sameBody ⊢
    rw [sameTest, sameBody]
  var := nofun
  func := nofun
  «class» := nofun

/-- A statement of one word says `pass`, or nothing that a program can say. -/
theorem word_retells (kind : NodeKind)
    (isSimple : kind ∈ [NodeKind.passStatement, .breakStatement, .continueStatement])
    (word copied : Tree) :
    (Tree.branch kind [word]).RetellsStatement source edited (.branch kind [copied]) := by
  simp only [List.mem_cons, List.not_mem_nil, or_false] at isSimple
  rcases isSimple with rfl | rfl | rfl
  · exact ⟨rfl, rfl, echoes_pure _ _ rfl, nofun, nofun, nofun⟩
  · exact ⟨rfl, rfl, echoes_failure _, nofun, nofun, nofun⟩
  · exact ⟨rfl, rfl, echoes_failure _, nofun, nofun, nofun⟩

theorem return_retells (parts copies : List Tree)
    (retold : RetoldParts source edited parts copies) :
    (Tree.branch .returnStatement parts).RetellsStatement source edited
      (.branch .returnStatement copies) where
  kind := rfl
  form := rfl
  stmt := return_retold _ _ retold
  var := nofun
  func := nofun
  «class» := nofun

theorem form_retold (parts copies : List Tree) (retold : RetoldParts source edited parts copies) :
    (Tree.branch .assignStatement copies).form = (Tree.branch .assignStatement parts).form := by
  cases retold with
  | nil => rfl
  | cons first rest =>
      cases rest with
      | nil => rfl
      | @cons second copy _ _ same _ =>
          change (if copy.kind = .typeDef then Form.variable else .statement) =
            if second.kind = .typeDef then Form.variable else .statement
          rw [same.kind]

theorem assignment_retells (parts copies : List Tree)
    (retold : RetoldParts source edited parts copies) :
    (Tree.branch (if parts.length = 1 then .expressionStatement else .assignStatement)
      parts).RetellsStatement source edited
        (.branch (if copies.length = 1 then .expressionStatement else .assignStatement)
          copies) := by
  rw [← retold.length_eq]
  split
  · exact ⟨rfl, rfl, expr_retold _ _ retold, nofun, nofun, nofun⟩
  · exact ⟨rfl, form_retold parts copies retold, assign_retold _ _ retold,
      fun _ => variable_retold _ _ retold, nofun, nofun⟩

theorem func_retold (word copied name named params listed block body : Tree)
    (result results : List Tree) (same : word.SameWord source edited copied)
    (sameName : name.SameWord source edited named)
    (parameters : params.RetellsParameters source edited listed)
    (few : result.length ≤ 1) (typed : ∀ tree ∈ result, tree.kind = .typeDef)
    (types : RetoldParts source edited result results)
    (blocks : block.RetellsBlock source edited body) :
    Echoes (SameBy (FuncDef.mapNotes Note.withoutSpan))
      (FuncDef.ofTree source
        (.branch .functionDefinition (word :: name :: params :: result ++ [block])))
      (FuncDef.ofTree edited
        (.branch .functionDefinition (copied :: named :: listed :: results ++ [body]))) := by
  unfold FuncDef.ofTree
  refine Reading.parts_retold _ _ _ _ ?_
  refine Reading.retold_next_text _ _ _ same ?_
  refine Reading.retold_next_of _ _ _ sameName.kind fun _ => ?_
  refine Reading.retold_next_of _ _ _ parameters.kind fun _ => ?_
  refine Reading.retold_lift _ _ _ _ parameters.params fun found again sameParams => ?_
  cases types with
  | nil =>
      refine Reading.retold_next _ _ ?_
      rw [if_neg (by rw [blocks.isBody]; decide), if_neg (by rw [blocks.copied]; decide)]
      simp only [pure_bind]
      refine Reading.retold_lift _ _ _ _ blocks.expects fun _ _ _ => ?_
      refine Reading.retold_lift _ _ _ _ (enclosed_retold block body blocks)
        fun members others sameBody => ?_
      refine Reading.retold_pure _ _ (fun _ => rfl) ?_
      simp only [SameBy, FuncDef.mapNotes] at sameParams sameBody ⊢
      rw [sameParams, sameBody.1, sameBody.2, sameName.text]
  | @cons declared copy _ _ retells none =>
      cases none with
      | cons _ _ => simp at few
      | nil =>
          have isType : declared.kind = .typeDef := typed declared (by simp)
          refine Reading.retold_next _ _ ?_
          rw [if_pos isType, if_pos (retells.kind.trans isType)]
          refine Reading.retold_lift _ _ _ _ (retells.ty isType) fun ty other sameTy => ?_
          refine Reading.retold_next _ _ ?_
          simp only [pure_bind]
          refine Reading.retold_lift _ _ _ _ blocks.expects fun _ _ _ => ?_
          refine Reading.retold_lift _ _ _ _ (enclosed_retold block body blocks)
            fun members others sameBody => ?_
          refine Reading.retold_pure _ _ (fun _ => rfl) ?_
          simp only [SameBy, FuncDef.mapNotes] at sameParams sameBody sameTy ⊢
          rw [sameParams, sameBody.1, sameBody.2, sameName.text, sameTy]

theorem function_retells (word copied name named params listed block body : Tree)
    (result results : List Tree) (same : word.SameWord source edited copied)
    (sameName : name.SameWord source edited named)
    (parameters : params.RetellsParameters source edited listed)
    (few : result.length ≤ 1) (typed : ∀ tree ∈ result, tree.kind = .typeDef)
    (types : RetoldParts source edited result results)
    (blocks : block.RetellsBlock source edited body) :
    (Tree.branch .functionDefinition
      (word :: name :: params :: result ++ [block])).RetellsStatement source edited
        (.branch .functionDefinition (copied :: named :: listed :: results ++ [body])) where
  kind := rfl
  form := rfl
  stmt := echoes_failure _
  var := nofun
  func _ := func_retold word copied name named params listed block body result results same sameName
    parameters few typed types blocks
  «class» := nofun

theorem class_retold (word copied name named block body : Tree) (bases others : List Tree)
    (sameName : name.SameWord source edited named) (few : bases.length ≤ 1)
    (listed : ∀ tree ∈ bases, tree.kind = .argList)
    (lists : List.Forall₂ (fun base other => other.kind = base.kind) bases others)
    (blocks : block.RetellsBlock source edited body) :
    Echoes (SameBy ClassDef.withoutSpans)
      (ClassDef.ofTree source (.branch .classDefinition (word :: name :: bases ++ [block])))
      (ClassDef.ofTree edited
        (.branch .classDefinition (copied :: named :: others ++ [body]))) := by
  unfold ClassDef.ofTree
  refine echoes_bind _ _ (?_ : Echoes (fun value answer =>
    value.1.text source = answer.1.text edited ∧ value.2.RetellsBlock source edited answer.2)
    _ _) ?_
  · refine Reading.parts_retold _ _ _ _ ?_
    refine Reading.retold_next _ _ ?_
    refine Reading.retold_next_of _ _ _ sameName.kind fun _ => ?_
    cases lists with
    | nil =>
        refine Reading.retold_next _ _ ?_
        rw [if_neg (by rw [blocks.isBody]; decide), if_neg (by rw [blocks.copied]; decide)]
        simp only [pure_bind]
        refine Reading.retold_lift _ _ _ _ blocks.expects fun _ _ _ => ?_
        exact Reading.retold_pure _ _ (fun _ => rfl) ⟨sameName.text.symm, blocks⟩
    | @cons base copy _ _ sameKind none =>
        cases none with
        | cons _ _ => simp at few
        | nil =>
            have isList : base.kind = .argList := listed base (by simp)
            refine Reading.retold_next _ _ ?_
            rw [if_pos isList, if_pos (sameKind.trans isList)]
            refine Reading.retold_next _ _ ?_
            refine Reading.retold_lift _ _ _ _ blocks.expects fun _ _ _ => ?_
            exact Reading.retold_pure _ _ (fun _ => rfl) ⟨sameName.text.symm, blocks⟩
  · rintro ⟨name, block⟩ ⟨named, body⟩ ⟨text, inside⟩
    obtain ⟨_, _, colon, mark, members, copies, parts, others, _, retold⟩ := inside
    simp only [parts, others]
    refine echoes_bind _ _ (fields_retold members copies retold) fun fields found sameFields => ?_
    refine echoes_pure _ _ ?_
    simp only [SameBy, ClassDef.withoutSpans] at sameFields text ⊢
    rw [sameFields, text]

theorem class_retells (word copied name named block body : Tree) (bases others : List Tree)
    (sameName : name.SameWord source edited named) (few : bases.length ≤ 1)
    (listed : ∀ tree ∈ bases, tree.kind = .argList)
    (lists : List.Forall₂ (fun base other => other.kind = base.kind) bases others)
    (blocks : block.RetellsBlock source edited body) :
    (Tree.branch .classDefinition (word :: name :: bases ++ [block])).RetellsStatement source edited
        (.branch .classDefinition (copied :: named :: others ++ [body])) where
  kind := rfl
  form := rfl
  stmt := echoes_failure _
  var := nofun
  func := nofun
  «class» _ := class_retold word copied name named block body bases others sameName few listed lists
    blocks

end Statements

end ScriptWasm
