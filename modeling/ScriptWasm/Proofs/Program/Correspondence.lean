import ScriptWasm.Proofs.Program.Parts
import ScriptWasm.Proofs.Program.Shapes
import ScriptWasm.Proofs.Tree.Placement

/-!
What the nodes of a tree become. A relation between trees and the parts of programs says for each
kind of node which part it becomes, with the members of its blocks one by one in their order, and
that its other parts are bare of statements. Whatever is read from a tree of a source is in this
relation with it.
-/

namespace ScriptWasm

set_option autoImplicit false

structure Tree.Lists (block : Tree) (members : List Tree) : Prop where
  isBlock : ∃ span colon, block = .node .body span (colon :: members) ∧ colon.Bare

/-- An arm of a condition: its word, its test and its block, with the expression that the test
becomes, and the members of the block with the statements that they become. -/
structure Arm where
  word : Tree
  test : Tree
  block : Tree
  expr : Expr
  members : List (Tree × Stmt)

namespace Arm

def parts (arm : Arm) : List Tree :=
  [arm.word, arm.test, arm.block]

def body (arm : Arm) : List Stmt :=
  arm.members.map Prod.snd

structure Fits (source : List Char) (arm : Arm) : Prop where
  word : arm.word.Bare
  test : arm.test.Bare
  reads : Expr.ofTree source arm.test = .ok arm.expr
  block : arm.block.Lists (arm.members.map Prod.fst)

/-- The condition that starts with an arm. The next arm is the only statement behind it, from its
own word to the end of the whole, and what stands behind the last arm is given. -/
def ladder (stop : Nat) (orelse : List Stmt) (start : Nat) (arm : Arm) : List Arm → Stmt
  | [] => .cond ⟨start, stop⟩ arm.expr arm.body orelse
  | next :: rest =>
      .cond ⟨start, stop⟩ arm.expr arm.body [ladder stop orelse next.word.span.start next rest]

end Arm

inductive Tree.Otherwise (source : List Char) : List Tree → List (Tree × Stmt) → Prop where
  | nothing : Otherwise source [] []
  | block (word block : Tree) (members : List (Tree × Stmt)) (isElse : word.text source = "else")
      (bare : word.Bare) (lists : block.Lists (members.map Prod.fst)) :
      Otherwise source [word, block] members

structure Tree.Branches (source : List Char) (parts : List Tree) (first : Arm) (others : List Arm)
    (orelse : List (Tree × Stmt)) : Prop where
  parts : ∃ last, parts = (first :: others).flatMap Arm.parts ++ last ∧
    Tree.Otherwise source last orelse
  fits : ∀ arm ∈ first :: others, arm.Fits source
  elif : ∀ arm ∈ others, arm.word.text source = "elif"

inductive Tree.Becomes (source : List Char) : Tree → Stmt → Prop where
  | assign (span : Span) (target sign value : Tree) (expr : Expr)
      (named : target.kind = .variableName) (assigns : sign.kind = .assignOp)
      (reads : Expr.ofTree source value = .ok expr)
      (bare : ∀ part ∈ [target, sign, value], part.Bare) :
      Becomes source (.node .assignStatement span [target, sign, value])
        (.assign span (target.text source) expr)
  | expr (span : Span) (value : Tree) (expr : Expr) (reads : Expr.ofTree source value = .ok expr)
      (bare : value.Bare) :
      Becomes source (.node .expressionStatement span [value]) (.expr span expr)
  | pass (span : Span) (parts : List Tree) (bare : ∀ part ∈ parts, part.Bare) :
      Becomes source (.node .passStatement span parts) (.pass span)
  | done (span : Span) (word : Tree) (bare : word.Bare) :
      Becomes source (.node .returnStatement span [word]) (.ret span (.lit ⟨word.span, none⟩ .none))
  | ret (span : Span) (word value : Tree) (expr : Expr)
      (reads : Expr.ofTree source value = .ok expr) (bare : word.Bare ∧ value.Bare) :
      Becomes source (.node .returnStatement span [word, value]) (.ret span expr)
  | loop (span : Span) (arm : Arm) (fits : arm.Fits source)
      (below : ∀ member ∈ arm.members, Becomes source member.1 member.2) :
      Becomes source (.node .whileStatement span arm.parts) (.loop span arm.expr arm.body)
  | cond (span : Span) (parts : List Tree) (first : Arm) (others : List Arm)
      (orelse : List (Tree × Stmt)) (isIf : first.word.text source = "if")
      (branches : Branches source parts first others orelse)
      (below : ∀ arm ∈ first :: others, ∀ member ∈ arm.members, Becomes source member.1 member.2)
      (belowElse : ∀ member ∈ orelse, Becomes source member.1 member.2) :
      Becomes source (.node .ifStatement span parts)
        (first.ladder span.stop (orelse.map Prod.snd) span.start others)

structure Tree.Declares (source : List Char) (tree : Tree) (var : VarDef) : Prop where
  isAssign : tree.kind = .assignStatement
  bare : ∀ part ∈ tree.children, part.Bare
  parts : ∃ name declared sign value init, tree.children = [name, declared, sign, value] ∧
    name.kind = .variableName ∧ declared.kind = .typeDef ∧ var.name = name.text source ∧
    Ty.ofTree source declared = .ok (var.ty, var.tySpan) ∧
    Expr.ofTree source value = .ok init ∧ init.literal? = some var.init ∧
    var.initSpan = init.span ∧ var.span = tree.span

structure Tree.Heads (tree : Tree) (members : List Tree) : Prop where
  parts : ∃ header block, tree.children = header ++ [block] ∧ (∀ part ∈ header, part.Bare) ∧
    block.Lists members

/-- A node becomes a function. The variables of the function come before its statements. -/
structure Tree.Defines (source : List Char) (tree : Tree) (func : FuncDef)
    (locals : List (Tree × VarDef)) (stmts : List (Tree × Stmt)) : Prop where
  isFunction : tree.kind = .functionDefinition
  header : ∃ word name params result block,
    tree.children = word :: name :: params :: (result ++ [block]) ∧
    func.name = name.text source ∧ Param.allOfTree source params = .ok func.params ∧
    (result = [] ∧ func.result = .none ∨
      ∃ declared span, result = [declared] ∧ Ty.ofTree source declared = .ok (func.result, span))
  span : func.span = tree.span
  block : tree.Heads (locals.map Prod.fst ++ stmts.map Prod.fst)
  locals : func.locals = locals.map Prod.snd ∧ ∀ var ∈ locals, var.1.Declares source var.2
  body : func.body = stmts.map Prod.snd ∧ ∀ stmt ∈ stmts, stmt.1.Becomes source stmt.2

/-- A node becomes a class. The members of its block but `pass` are its fields. -/
structure Tree.Classifies (source : List Char) (tree : Tree) (definition : ClassDef)
    (members : List Tree) (fields : List (Tree × VarDef)) : Prop where
  isClass : tree.kind = .classDefinition
  header : ∃ word name rest, tree.children = word :: name :: rest ∧
    definition.name = name.text source
  span : definition.span = tree.span
  block : tree.Heads members
  passes : ∀ member ∈ members, member.kind = .passStatement → ∀ part ∈ member.children, part.Bare
  kept : members.filter (·.kind ≠ .passStatement) = fields.map Prod.fst
  fields : definition.fields = fields.map Prod.snd ∧
    ∀ field ∈ fields, field.1.Declares source field.2

inductive Tree.Tells (source : List Char) : Tree → Member → Prop where
  | «class» (tree : Tree) (definition : ClassDef) (members : List Tree)
      (fields : List (Tree × VarDef))
      (classifies : tree.Classifies source definition members fields) :
      Tells source tree (.class definition)
  | var (tree : Tree) (definition : VarDef) (declares : tree.Declares source definition) :
      Tells source tree (.var definition)
  | func (tree : Tree) (definition : FuncDef) (locals : List (Tree × VarDef))
      (stmts : List (Tree × Stmt)) (defines : tree.Defines source definition locals stmts) :
      Tells source tree (.func definition)
  | stmt (tree : Tree) (statement : Stmt) (becomes : tree.Becomes source statement) :
      Tells source tree (.stmt statement)

section Statements

variable (source : List Char)

def Tree.Faithful (tree : Tree) : Prop :=
  ∀ stmt, Stmt.ofTree source tree = .ok stmt → tree.Becomes source stmt

def Tree.FaithfulBlock (block : Tree) : Prop :=
  ∀ stmts, Stmt.blockOfTree source block = .ok stmts →
    ∃ members : List (Tree × Stmt), block.Lists (members.map Prod.fst) ∧
      stmts = members.map Prod.snd ∧ ∀ member ∈ members, member.1.Becomes source member.2

theorem expr_is_no_block (tree : Tree) (expr : Expr) (reads : Expr.ofTree source tree = .ok expr) :
    tree.kind ≠ .body := by
  rcases tree with ⟨kind, span, parts⟩
  rintro ⟨⟩
  cases reads

theorem block_is_body (tree : Tree) (stmts : List Stmt)
    (built : Stmt.blockOfTree source tree = .ok stmts) : tree.kind = .body := by
  rcases tree with ⟨kind, span, parts⟩
  cases parts <;>
    · rw [Stmt.blockOfTree] at built
      simp only [bind_succeeds_iff, expect_kind_succeeds_iff] at built
      obtain ⟨_, isBody, _⟩ := built
      exact isBody

theorem all_become (trees : List Tree) (faithful : ∀ tree ∈ trees, tree.Faithful source)
    (started : Bool) (stmts : List Stmt)
    (built : Stmt.allOfParts source started trees = .ok stmts) :
    ∃ members : List (Tree × Stmt), trees = members.map Prod.fst ∧
      stmts = members.map Prod.snd ∧ ∀ member ∈ members, member.1.Becomes source member.2 := by
  induction trees generalizing started stmts with
  | nil =>
      rw [Stmt.allOfParts] at built
      cases built
      exact ⟨[], rfl, rfl, List.forall_mem_nil _⟩
  | cons first rest induction =>
      rw [Stmt.allOfParts] at built
      split at built
      · simp only [bind_succeeds_iff, pure_succeeds_iff] at built
        obtain ⟨stmt, builtFirst, others, builtRest, rfl⟩ := built
        obtain ⟨members, rfl, rfl, become⟩ := induction
          (fun tree member => faithful tree (by simp [member])) true others builtRest
        exact ⟨(first, stmt) :: members, rfl, rfl,
          List.forall_mem_cons.mpr ⟨faithful first (by simp) stmt builtFirst, become⟩⟩
      all_goals cases built

theorem body_faithful (span : Span) (colon : Tree) (members : List Tree) (mark : colon.Bare)
    (faithful : ∀ member ∈ members, member.Faithful source) :
    (Tree.node .body span (colon :: members)).FaithfulBlock source := by
  intro stmts built
  rw [Stmt.blockOfTree] at built
  simp only [bind_succeeds_iff] at built
  obtain ⟨_, _, _, _, built⟩ := built
  obtain ⟨told, rfl, same, become⟩ := all_become source members faithful false stmts built
  exact ⟨told, ⟨span, colon, rfl, mark⟩, same, become⟩

/-- The parts behind the word of an arm, up to the end of the condition. Further arms are read from
the parts behind its block. -/
theorem cond_becomes (word : Tree) (start stop : Nat) (parts : List Tree) (bareWord : word.Bare)
    (bare : ∀ part ∈ parts, part.kind ≠ .body → part.Bare)
    (apart : parts.IsChain fun part next => part.kind = .body → next.Bare)
    (blocks : ∀ part ∈ parts, part.kind = .body → part.FaithfulBlock source) (stmt : Stmt)
    (built : Stmt.condOfParts source word ⟨start, stop⟩ parts = .ok stmt) :
    ∃ first others orelse, first.word = word ∧
      Tree.Branches source (word :: parts) first others orelse ∧
      (∀ arm ∈ first :: others, ∀ member ∈ arm.members, member.1.Becomes source member.2) ∧
      (∀ member ∈ orelse, member.1.Becomes source member.2) ∧
      stmt = first.ladder stop (orelse.map Prod.snd) start others := by
  match parts with
  | [] =>
      rw [Stmt.condOfParts] at built
      cases built
  | [test] =>
      rw [Stmt.condOfParts] at built
      simp only [bind_succeeds_iff] at built
      obtain ⟨_, _, built⟩ := built
      cases built
  | test :: block :: tail =>
      rw [Stmt.condOfParts] at built
      simp only [bind_succeeds_iff] at built
      obtain ⟨expr, reads, stmts, builtBlock, built⟩ := built
      have isBody := block_is_body source block stmts builtBlock
      obtain ⟨members, lists, rfl, become⟩ := blocks block (by simp) isBody stmts builtBlock
      let first : Arm := ⟨word, test, block, expr, members⟩
      have fits : first.Fits source :=
        ⟨bareWord, bare test (by simp) (expr_is_no_block source test expr reads), reads, lists⟩
      cases tail with
      | nil =>
          simp only [pure_succeeds_iff] at built
          subst built
          exact ⟨first, [], [], rfl, ⟨⟨[], rfl, .nothing⟩, by simpa using fits, by simp⟩,
            by simpa using become, by simp, rfl⟩
      | cons next tail =>
          -- No block stands behind a block, so the next part is bare, whatever its text is.
          have chain := (List.isChain_cons_cons.mp apart).2
          have bareNext : next.Bare := (List.isChain_cons_cons.mp chain).1 isBody
          simp only at built
          split at built
          · rename_i isElif
            simp only [bind_succeeds_iff, pure_succeeds_iff] at built
            obtain ⟨other, builtOther, rfl⟩ := built
            obtain ⟨second, others, orelse, rfl, branches, becomeArms, becomeElse, rfl⟩ :=
              cond_becomes next _ stop tail bareNext
                (fun part member => bare part (by simp [member]))
                (List.isChain_cons_cons.mp chain).2.tail
                (fun part member => blocks part (by simp [member])) other builtOther
            obtain ⟨last, parts, otherwise⟩ := branches.parts
            refine ⟨first, second :: others, orelse, rfl, ⟨⟨last, ?_, otherwise⟩, ?_, ?_⟩, ?_,
              becomeElse, rfl⟩
            · rw [List.flatMap_cons, List.append_assoc, ← parts]
              rfl
            · exact List.forall_mem_cons.mpr ⟨fits, branches.fits⟩
            · exact List.forall_mem_cons.mpr ⟨isElif, branches.elif⟩
            · exact List.forall_mem_cons.mpr ⟨become, becomeArms⟩
          · split at built
            · rename_i isElse
              cases tail with
              | nil => cases built
              | cons last rest =>
                  simp only [bind_succeeds_iff, pure_succeeds_iff, expect_end_succeeds_iff] at built
                  obtain ⟨stmts, builtLast, _, rfl, rfl⟩ := built
                  obtain ⟨orelse, listsLast, rfl, becomeElse⟩ := blocks last (by simp)
                    (block_is_body source last stmts builtLast) stmts builtLast
                  refine ⟨first, [], orelse, rfl, ⟨⟨[next, last], rfl, ?_⟩, ?_, by simp⟩, ?_,
                    becomeElse, rfl⟩
                  · exact .block next last orelse isElse bareNext listsLast
                  · simpa using fits
                  · simpa using become
            · cases built

theorem simple_faithful (kind : NodeKind) (span : Span) (parts : List Tree)
    (isSimple : kind ∈ NodeKind.simple) (bare : ∀ part ∈ parts, part.Bare) :
    (Tree.node kind span parts).Faithful source := by
  intro stmt built
  simp only [NodeKind.simple, List.mem_cons, List.not_mem_nil, or_false] at isSimple
  rcases isSimple with rfl | rfl | rfl | rfl | rfl | rfl
  · obtain ⟨target, sign, value, expr, rfl, named, assigns, reads, rfl⟩ :=
      Stmt.assign_of_tree_succeeds source _ stmt built
    exact .assign span target sign value expr named assigns reads bare
  · obtain ⟨word, ⟨rfl, rfl⟩ | ⟨value, expr, rfl, reads, rfl⟩⟩ :=
      Stmt.return_of_tree_succeeds source _ stmt built
    · exact .done span word (bare word (by simp))
    · exact .ret span word value expr reads ⟨bare word (by simp), bare value (by simp)⟩
  · cases built
    exact .pass span parts bare
  · cases built
  · cases built
  · obtain ⟨value, expr, rfl, reads, rfl⟩ := Stmt.expr_of_tree_succeeds source _ stmt built
    exact .expr span value expr reads (bare value (by simp))

theorem loop_becomes (span : Span) (parts : List Tree)
    (front : ∀ part ∈ parts.head?, part.Bare)
    (bare : ∀ part ∈ parts, part.kind ≠ .body → part.Bare)
    (blocks : ∀ part ∈ parts, part.kind = .body → part.FaithfulBlock source) :
    (Tree.node .whileStatement span parts).Faithful source := by
  intro stmt built
  match parts with
  | [] => cases built
  | [word] => cases built
  | [word, test] =>
      rw [Stmt.ofTree] at built
      simp only [bind_succeeds_iff] at built
      obtain ⟨_, _, built⟩ := built
      cases built
  | word :: test :: block :: rest =>
      rw [Stmt.ofTree] at built
      simp only [bind_succeeds_iff, pure_succeeds_iff, expect_end_succeeds_iff] at built
      obtain ⟨expr, reads, stmts, builtBlock, _, rfl, rfl⟩ := built
      obtain ⟨members, lists, rfl, become⟩ := blocks block (by simp)
        (block_is_body source block stmts builtBlock) stmts builtBlock
      have bareTest := bare test (by simp) (expr_is_no_block source test expr reads)
      exact .loop span ⟨word, test, block, expr, members⟩
        ⟨front word rfl, bareTest, reads, lists⟩ become

theorem condition_becomes (span : Span) (parts : List Tree)
    (front : ∀ part ∈ parts.head?, part.Bare)
    (bare : ∀ part ∈ parts, part.kind ≠ .body → part.Bare)
    (apart : parts.IsChain fun part next => part.kind = .body → next.Bare)
    (blocks : ∀ part ∈ parts, part.kind = .body → part.FaithfulBlock source) :
    (Tree.node .ifStatement span parts).Faithful source := by
  intro stmt built
  cases parts with
  | nil => cases built
  | cons word parts =>
      rw [Stmt.ofTree] at built
      simp only [bind_succeeds_iff, expect_text_succeeds_iff] at built
      obtain ⟨_, ⟨isIf, _⟩, built⟩ := built
      obtain ⟨first, others, orelse, rfl, branches, become, becomeElse, rfl⟩ :=
        cond_becomes source word span.start span.stop parts (front word rfl)
          (fun part member => bare part (by simp [member])) apart.tail
          (fun part member => blocks part (by simp [member])) stmt built
      exact .cond span _ first others orelse isIf branches become becomeElse

theorem placed_faithful (tree : Tree) (placed : tree.Placed) :
    tree.Faithful source ∧ tree.FaithfulBlock source := by
  -- A block is no statement and a statement is no block, so that one half is always void.
  induction placed with
  | simple kind span parts isSimple bare =>
      refine ⟨simple_faithful source kind span parts isSimple bare, fun stmts built => ?_⟩
      have isBody : kind = .body := block_is_body source _ stmts built
      rw [isBody] at isSimple
      exact absurd isSimple (by decide)
  | compound kind span parts isCompound front bare apart _ induction =>
      have blocks := fun part member isBody => (induction part member isBody).2
      refine ⟨?_, fun stmts built => ?_⟩
      · simp only [NodeKind.compound, List.mem_cons, List.not_mem_nil, or_false] at isCompound
        rcases isCompound with rfl | rfl | rfl | rfl
        · intro stmt built
          cases built
        · intro stmt built
          cases built
        · exact condition_becomes source span parts front bare apart blocks
        · exact loop_becomes source span parts front bare blocks
      · have isBody : kind = .body := block_is_body source _ stmts built
        rw [isBody] at isCompound
        exact absurd isCompound (by decide)
  | body span colon members mark _ _ induction =>
      have noStmt : (Tree.node .body span (colon :: members)).Faithful source := by
        intro stmt built
        cases built
      exact ⟨noStmt, body_faithful source span colon members mark fun member there =>
        (induction member there).1⟩

theorem all_placed_become (trees : List Tree) (placed : ∀ tree ∈ trees, tree.Placed)
    (started : Bool) (stmts : List Stmt)
    (built : Stmt.allOfParts source started trees = .ok stmts) :
    ∃ members : List (Tree × Stmt), trees = members.map Prod.fst ∧
      stmts = members.map Prod.snd ∧ ∀ member ∈ members, member.1.Becomes source member.2 :=
  all_become source trees (fun tree member => (placed_faithful source tree (placed tree member)).1)
    started stmts built

end Statements

theorem simple_not_compound : ∀ kind ∈ NodeKind.simple, kind ∉ NodeKind.compound := by
  decide

namespace Tree.Placed

variable {tree : Tree} (placed : tree.Placed)

include placed

theorem simple_parts (isSimple : tree.kind ∈ NodeKind.simple) :
    ∀ part ∈ tree.children, part.Bare := by
  cases placed with
  | simple _ _ _ _ bare => exact bare
  | compound kind _ _ isCompound => exact absurd isCompound (simple_not_compound kind isSimple)
  | body =>
      have impossible : NodeKind.body ∈ NodeKind.simple := isSimple
      exact absurd impossible (by decide)

theorem members (isBody : tree.kind = .body) :
    ∃ nodes, tree.Lists nodes ∧ ∀ node ∈ nodes, node.kind ∈ NodeKind.members ∧ node.Placed := by
  cases placed with
  | simple kind _ _ isSimple =>
      rw [show kind = .body from isBody] at isSimple
      exact absurd isSimple (by decide)
  | compound kind _ _ isCompound =>
      rw [show kind = .body from isBody] at isCompound
      exact absurd isCompound (by decide)
  | body span colon nodes mark known below =>
      exact ⟨nodes, ⟨span, colon, rfl, mark⟩,
        fun node there => ⟨known node there, below node there⟩⟩

theorem heads (isCompound : tree.kind ∈ NodeKind.compound) (word block : Tree) (header : List Tree)
    (parts : tree.children = word :: (header ++ [block]))
    (notBody : ∀ part ∈ header, part.kind ≠ .body) (isBody : block.kind = .body) :
    ∃ nodes, tree.Heads nodes ∧ block.Lists nodes ∧
      ∀ node ∈ nodes, node.kind ∈ NodeKind.members ∧ node.Placed := by
  cases placed with
  | simple kind _ _ isSimple => exact absurd isCompound (simple_not_compound kind isSimple)
  | body =>
      have impossible : NodeKind.body ∈ NodeKind.compound := isCompound
      exact absurd impossible (by decide)
  | compound _ _ _ _ front bare _ blocks =>
      obtain rfl := parts
      obtain ⟨nodes, lists, known⟩ := (blocks block (by simp) isBody).members isBody
      refine ⟨nodes, ⟨word :: header, block, rfl, ?_, lists⟩, lists, known⟩
      refine List.forall_mem_cons.mpr ⟨front word rfl, fun part member => ?_⟩
      exact bare part (by simp [member]) (notBody part member)

end Tree.Placed

section Definitions

variable (source : List Char)

theorem variable_declared (tree : Tree) (placed : tree.Placed)
    (isAssign : tree.kind = .assignStatement) (var : VarDef)
    (built : VarDef.ofTree source tree = .ok var) : tree.Declares source var := by
  obtain ⟨name, declared, sign, value, init, parts⟩ := VarDef.of_tree_succeeds source tree var built
  exact ⟨isAssign, placed.simple_parts (by rw [isAssign]; decide),
    name, declared, sign, value, init, parts⟩

theorem body_becomes (trees : List Tree) (placed : ∀ tree ∈ trees, tree.Placed)
    (locals : List VarDef) (stmts : List Stmt)
    (built : FuncDef.bodyOfParts source trees = .ok (locals, stmts)) :
    ∃ (vars : List (Tree × VarDef)) (told : List (Tree × Stmt)),
      trees = vars.map Prod.fst ++ told.map Prod.fst ∧
      (locals = vars.map Prod.snd ∧ ∀ var ∈ vars, var.1.Declares source var.2) ∧
      (stmts = told.map Prod.snd ∧ ∀ stmt ∈ told, stmt.1.Becomes source stmt.2) := by
  induction trees generalizing locals with
  | nil =>
      cases built
      exact ⟨[], [], rfl, ⟨rfl, List.forall_mem_nil _⟩, rfl, List.forall_mem_nil _⟩
  | cons first rest induction =>
      rw [FuncDef.bodyOfParts] at built
      split at built
      · rename_i isVariable
        simp only [bind_succeeds_iff, pure_succeeds_iff, Prod.exists, Prod.mk.injEq] at built
        obtain ⟨var, builtVar, others, _, builtRest, rfl, rfl⟩ := built
        obtain ⟨vars, told, rfl, ⟨rfl, declare⟩, become⟩ := induction
          (fun tree member => placed tree (by simp [member])) others builtRest
        have declares := variable_declared source first (placed first (by simp))
          (assigns_of_variable first isVariable) var builtVar
        exact ⟨(first, var) :: vars, told, rfl, ⟨rfl, List.forall_mem_cons.mpr
          ⟨declares, declare⟩⟩, become⟩
      · simp only [bind_succeeds_iff, pure_succeeds_iff, Prod.mk.injEq] at built
        obtain ⟨_, builtStmts, rfl, rfl⟩ := built
        obtain ⟨told, same, become⟩ :=
          all_placed_become source (first :: rest) placed false _ builtStmts
        exact ⟨[], told, same, ⟨rfl, List.forall_mem_nil _⟩, become⟩

theorem function_defined (tree : Tree) (placed : tree.Placed)
    (isFunction : tree.kind = .functionDefinition) (func : FuncDef)
    (built : FuncDef.ofTree source tree = .ok func) :
    ∃ locals stmts, tree.Defines source func locals stmts := by
  obtain ⟨word, name, params, result, block, parts, isName, isList, isBody, isNamed, span,
    builtParams, builtBody, declared⟩ := FuncDef.of_tree_succeeds source tree func built
  have notBody : ∀ part ∈ name :: params :: result, part.kind ≠ .body := by
    have notResult : ∀ part ∈ result, part.kind ≠ .body := by
      rcases declared with ⟨rfl, _⟩ | ⟨ty, _, rfl, isType, _⟩
      · exact List.forall_mem_nil _
      · simp [isType]
    simpa [isName, isList] using notResult
  obtain ⟨nodes, heads, ⟨span', colon, rfl, _⟩, known⟩ := placed.heads
    (by rw [isFunction]; decide) word block (name :: params :: result) parts notBody isBody
  unfold FuncDef.bodyOfTree at builtBody
  simp only [Tree.children, bind_succeeds_iff] at builtBody
  obtain ⟨_, _, builtBody⟩ := builtBody
  obtain ⟨vars, told, rfl, locals, stmts⟩ := body_becomes source nodes
    (fun node member => (known node member).2) func.locals func.body builtBody
  have header : result = [] ∧ func.result = .none ∨ ∃ declared span, result = [declared] ∧
      Ty.ofTree source declared = .ok (func.result, span) := by
    rcases declared with nothing | ⟨ty, place, same, _, builtTy⟩
    · exact Or.inl nothing
    · exact Or.inr ⟨ty, place, same, builtTy⟩
  exact ⟨vars, told, isFunction,
    ⟨word, name, params, result, _, parts, isNamed, builtParams, header⟩, span, heads, locals,
    stmts⟩

theorem fields_declared (members : List Tree) (placed : ∀ member ∈ members, member.Placed)
    (vars : List VarDef) (built : ClassDef.fieldsOfParts source members = .ok vars) :
    ∃ fields : List (Tree × VarDef),
      members.filter (·.kind ≠ .passStatement) = fields.map Prod.fst ∧
      vars = fields.map Prod.snd ∧ ∀ field ∈ fields, field.1.Declares source field.2 := by
  induction members generalizing vars with
  | nil =>
      cases built
      exact ⟨[], rfl, rfl, List.forall_mem_nil _⟩
  | cons first rest induction =>
      have later := induction fun member there => placed member (by simp [there])
      rw [ClassDef.fieldsOfParts] at built
      split at built
      · rename_i isPass
        rw [List.filter_cons_of_neg (by simp [isPass])]
        exact later vars built
      · rename_i isAssign
        simp only [bind_succeeds_iff, pure_succeeds_iff] at built
        obtain ⟨var, builtVar, others, builtRest, rfl⟩ := built
        obtain ⟨fields, kept, rfl, declare⟩ := later others builtRest
        have declares :=
          variable_declared source first (placed first (by simp)) isAssign var builtVar
        refine ⟨(first, var) :: fields, ?_, rfl, List.forall_mem_cons.mpr ⟨declares, declare⟩⟩
        rw [List.filter_cons_of_pos (by simp [isAssign]), kept]
        rfl
      · cases built

theorem class_classified (tree : Tree) (placed : tree.Placed)
    (isClass : tree.kind = .classDefinition) (definition : ClassDef)
    (built : ClassDef.ofTree source tree = .ok definition) :
    ∃ members fields, tree.Classifies source definition members fields := by
  obtain ⟨word, name, bases, block, _, members, parts, isName, areLists, isBody, inside, isNamed,
    span, builtFields⟩ := ClassDef.of_tree_succeeds source tree definition built
  have notBody : ∀ part ∈ name :: bases, part.kind ≠ .body := by
    have notBase : ∀ part ∈ bases, part.kind ≠ .body := fun part member => by
      rw [areLists part member]
      decide
    simpa [isName] using notBase
  obtain ⟨nodes, heads, ⟨span', colon, rfl, _⟩, known⟩ := placed.heads
    (by rw [isClass]; decide) word block (name :: bases) parts notBody isBody
  cases inside
  obtain ⟨fields, kept, same, declare⟩ := fields_declared source members
    (fun node member => (known node member).2) definition.fields builtFields
  have passes : ∀ member ∈ members, member.kind = .passStatement →
      ∀ part ∈ member.children, part.Bare := fun member there isPass =>
    (known member there).2.simple_parts (by rw [isPass]; decide)
  exact ⟨members, fields, isClass, ⟨word, name, _, parts, isNamed⟩, span, heads, passes, kept, same,
    declare⟩

end Definitions

namespace Member

def class? : Member → Option ClassDef
  | «class» definition => some definition
  | _ => none

def def? : Member → Option Def
  | var definition => some (.var definition)
  | func definition => some (.func definition)
  | _ => none

end Member

/-- A script becomes a program. Its nodes are first those of the declarations and then those of the
statements, and the classes and the other definitions keep their order. -/
structure Program.Follows (source : List Char) (tree : Tree) (program : Program)
    (declarations : List (Tree × Member)) (stmts : List (Tree × Stmt)) : Prop where
  isScript : tree.kind = .script
  nodes : tree.children = declarations.map Prod.fst ++ stmts.map Prod.fst
  declares : ∀ pair ∈ declarations, pair.1.Tells source pair.2 ∧ pair.1.form ≠ .statement
  becomes : ∀ pair ∈ stmts, pair.1.Becomes source pair.2
  classes : program.classes = (declarations.map Prod.snd).filterMap Member.class?
  defs : program.defs = (declarations.map Prod.snd).filterMap Member.def?
  stmts : program.stmts = stmts.map Prod.snd

section Programs

variable {source : List Char} {span : Span}

theorem Program.Follows.cons {trees : List Tree} {program whole : Program}
    {declarations : List (Tree × Member)} {stmts : List (Tree × Stmt)}
    (follows : program.Follows source (.node .script span trees) declarations stmts) (first : Tree)
    (member : Member) (tells : first.Tells source member) (declares : first.form ≠ .statement)
    (classes : whole.classes = member.class?.toList ++ program.classes)
    (defs : whole.defs = member.def?.toList ++ program.defs)
    (same : whole.stmts = program.stmts) :
    whole.Follows source (.node .script span (first :: trees)) ((first, member) :: declarations)
      stmts where
  isScript := rfl
  nodes := congrArg (first :: ·) follows.nodes
  declares := List.forall_mem_cons.mpr ⟨⟨tells, declares⟩, follows.declares⟩
  becomes := follows.becomes
  classes := by
    rw [classes, follows.classes]
    cases member <;> rfl
  defs := by
    rw [defs, follows.defs]
    cases member <;> rfl
  stmts := same.trans follows.stmts

theorem program_of_parts_follows (trees : List Tree) (placed : ∀ tree ∈ trees, tree.Placed)
    (program : Program) (built : Program.ofParts source trees = .ok program) :
    ∃ declarations stmts,
      program.Follows source (.node .script span trees) declarations stmts := by
  induction trees generalizing program with
  | nil =>
      cases built
      exact ⟨[], [], rfl, rfl, List.forall_mem_nil _, List.forall_mem_nil _, rfl, rfl, rfl⟩
  | cons first rest induction =>
      have placedFirst := placed first (by simp)
      have later := induction fun tree member => placed tree (by simp [member])
      rw [Program.ofParts] at built
      split at built <;> rename_i form
      · simp only [bind_succeeds_iff, pure_succeeds_iff] at built
        obtain ⟨definition, builtFirst, others, builtRest, rfl⟩ := built
        obtain ⟨declarations, stmts, follows⟩ := later others builtRest
        obtain ⟨members, fields, classifies⟩ := class_classified source first placedFirst
          (defines_of_class first form) definition builtFirst
        exact ⟨_, stmts, follows.cons first (.class definition)
          (.class first definition members fields classifies) (by rw [form]; decide) rfl rfl rfl⟩
      · simp only [bind_succeeds_iff, pure_succeeds_iff] at built
        obtain ⟨var, builtFirst, others, builtRest, rfl⟩ := built
        obtain ⟨declarations, stmts, follows⟩ := later others builtRest
        have declares := variable_declared source first placedFirst
          (assigns_of_variable first form) var builtFirst
        exact ⟨_, stmts, follows.cons first (.var var) (.var first var declares)
          (by rw [form]; decide) rfl rfl rfl⟩
      · simp only [bind_succeeds_iff, pure_succeeds_iff] at built
        obtain ⟨func, builtFirst, others, builtRest, rfl⟩ := built
        obtain ⟨declarations, stmts, follows⟩ := later others builtRest
        obtain ⟨locals, told, defines⟩ := function_defined source first placedFirst
          (defines_of_function first form) func builtFirst
        exact ⟨_, stmts, follows.cons first (.func func) (.func first func locals told defines)
          (by rw [form]; decide) rfl rfl rfl⟩
      · simp only [bind_succeeds_iff, pure_succeeds_iff] at built
        obtain ⟨_, builtStmts, rfl⟩ := built
        obtain ⟨told, same, rfl, become⟩ :=
          all_placed_become source (first :: rest) placed false _ builtStmts
        exact ⟨[], told, rfl, same, List.forall_mem_nil _, become, rfl, rfl, rfl⟩

/-- The tree of a source becomes the program that the source denotes. -/
theorem program_of_source_follows (source : List Char) (program : Program)
    (built : Program.ofSource source = .ok program) :
    ∃ tree declarations stmts, Tree.ofSource source = .ok tree ∧
      program.Follows source tree declarations stmts := by
  unfold Program.ofSource at built
  split at built
  · rename_i tree parsed
    obtain ⟨isScript, placed⟩ := members_of_source_placed source tree parsed
    rcases tree with ⟨kind, span, trees⟩
    obtain rfl : kind = .script := isScript
    unfold Program.ofTree at built
    simp only [bind_succeeds_iff] at built
    obtain ⟨_, _, built⟩ := built
    obtain ⟨declarations, stmts, follows⟩ := program_of_parts_follows trees
      (fun tree member => (placed tree member).2) program built
    exact ⟨_, declarations, stmts, parsed, follows⟩
  · cases built

end Programs

end ScriptWasm
