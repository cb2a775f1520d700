import ScriptWasm.Program.OfTree.Statement
import ScriptWasm.Proofs.Tree.InPlace

/-!
Spans of programs. Where all nodes of a tree are in place, every span of what is read from it is one
of whole characters, and so is the span of an error, whose text is what stands there.
-/

namespace ScriptWasm

set_option autoImplicit false

namespace Expr

mutual

def spans : Expr → List Span
  | lit note _ => [note.span]
  | name note _ => [note.span]
  | call note _ args => note.span :: spansOfAll args
  | binary note _ left right => note.span :: (left.spans ++ right.spans)
  | unary note _ operand => note.span :: operand.spans
  | paren note inner => note.span :: inner.spans
  | attr note value _ => note.span :: value.spans
  | construct note _ => [note.span]

def spansOfAll : List Expr → List Span
  | [] => []
  | first :: rest => first.spans ++ spansOfAll rest

end

theorem span_mem_spans (expr : Expr) : expr.span ∈ expr.spans := by
  cases expr <;> exact List.mem_cons_self

end Expr

namespace Stmt

mutual

def spans : Stmt → List Span
  | assign span _ value => span :: value.spans
  | expr span value => span :: value.spans
  | pass span => [span]
  | fieldAssign span object _ value => span :: (object.spans ++ value.spans)
  | ret span value => span :: value.spans
  | cond span test body orelse => span :: (test.spans ++ spansOfAll body ++ spansOfAll orelse)
  | loop span test body => span :: (test.spans ++ spansOfAll body)

def spansOfAll : List Stmt → List Span
  | [] => []
  | first :: rest => first.spans ++ spansOfAll rest

end

end Stmt

def VarDef.spans (var : VarDef) : List Span :=
  [var.tySpan, var.initSpan, var.span]

def FuncDef.spans (func : FuncDef) : List Span :=
  func.span :: (func.params.map Param.span ++ func.locals.flatMap VarDef.spans ++
    Stmt.spansOfAll func.body)

def Def.spans : Def → List Span
  | .var definition => definition.spans
  | .func definition => definition.spans

def ClassDef.spans (definition : ClassDef) : List Span :=
  definition.span :: definition.fields.flatMap VarDef.spans

def Program.spans (program : Program) : List Span :=
  program.defs.flatMap Def.spans ++ Stmt.spansOfAll program.stmts ++
    program.classes.flatMap ClassDef.spans

def AllWithin (source : List Char) (spans : List Span) : Prop :=
  ∀ span ∈ spans, span.Within source

/-- An error at whole characters that shows what stands there. -/
structure SyntaxError.Shows (source : List Char) (error : SyntaxError) : Prop where
  within : error.span.Within source
  text : error.text = error.span.textIn source

section Refusals

variable {source : List Char} {Result : Type} {good : Result → Prop}

theorem reject_settles {tree : Tree} (within : tree.span.Within source) (fault : SyntaxFault) :
    Settles good (SyntaxError.Shows source) (tree.reject source fault) :=
  ⟨within, rfl⟩

theorem expect_kind_settles {tree : Tree} (within : tree.span.Within source) (kind : NodeKind) :
    Settles (fun _ => True) (SyntaxError.Shows source) (tree.expectKind source kind) := by
  unfold Tree.expectKind
  split
  · exact trivial
  · exact reject_settles within _

theorem expect_text_settles {tree : Tree} (within : tree.span.Within source) (text : String) :
    Settles (fun _ => True) (SyntaxError.Shows source) (tree.expectText source text) := by
  unfold Tree.expectText
  split
  · exact trivial
  · exact reject_settles within _

theorem expect_end_settles {trees : List Tree} (all : ∀ tree ∈ trees, tree.AllInPlace source) :
    Settles (fun _ => True) (SyntaxError.Shows source) (Tree.expectEnd source trees) := by
  cases trees with
  | nil => exact trivial
  | cons extra rest => exact reject_settles (all extra List.mem_cons_self).here.within _

end Refusals

/-! ### Expressions -/

namespace Expr

variable {source : List Char}

theorem word_settles {tree : Tree} (within : tree.span.Within source) :
    Settles (fun _ => True) (SyntaxError.Shows source) (wordOfTree source tree) := by
  unfold wordOfTree
  dsimp only
  split
  · split
    · exact reject_settles within _
    · exact trivial
  · exact reject_settles within _

theorem binary_op_settles {tree : Tree} (within : tree.span.Within source) :
    Settles (fun _ => True) (SyntaxError.Shows source) (binaryOpOfTree source tree) := by
  apply settles_bind (expect_kind_settles within _)
  intro _ _
  dsimp only
  split
  · exact trivial
  · exact reject_settles within _

theorem unary_op_settles {tree : Tree} (within : tree.span.Within source) :
    Settles (fun _ => True) (SyntaxError.Shows source) (unaryOpOfTree source tree) := by
  apply settles_bind (expect_kind_settles within _)
  intro _ _
  split
  · exact trivial
  · exact reject_settles within _

theorem callee_settles {tree : Tree} (within : tree.span.Within source) :
    Settles (fun _ => True) (SyntaxError.Shows source) (expectCallee source tree) := by
  unfold expectCallee
  split
  · exact trivial
  · exact reject_settles within _

section Nodes

variable {span : Span} {children : List Tree}

theorem call_of_tree_settles (here : span.Within source)
    (parts : ∀ part ∈ children, part.AllInPlace source)
    (inArgs : ∀ part ∈ children, Settles (fun args => AllWithin source (spansOfAll args))
      (SyntaxError.Shows source) (argsOfTree source part)) :
    Settles (fun expr => AllWithin source expr.spans) (SyntaxError.Shows source)
      (ofTree source (.node .callExpression span children)) := by
  unfold ofTree
  cases children with
  | nil => exact reject_settles here _
  | cons callee tail =>
      obtain ⟨allCallee, parts⟩ := List.forall_mem_cons.mp parts
      apply settles_bind (callee_settles allCallee.here.within)
      intro _ _
      cases tail with
      | nil => exact reject_settles allCallee.here.within _
      | cons list rest =>
          obtain ⟨allList, parts⟩ := List.forall_mem_cons.mp parts
          apply settles_bind (expect_kind_settles allList.here.within _)
          intro _ _
          apply settles_bind (inArgs list (by simp))
          intro args whole
          apply settles_bind (expect_end_settles parts)
          intro _ _
          exact List.forall_mem_cons.mpr ⟨here, whole⟩

variable (here : span.Within source) (parts : ∀ part ∈ children, part.AllInPlace source)
  (inParts : ∀ part ∈ children, Settles (fun expr => AllWithin source expr.spans)
    (SyntaxError.Shows source) (ofTree source part))

include here parts inParts

theorem binary_of_tree_settles :
    Settles (fun expr => AllWithin source expr.spans) (SyntaxError.Shows source)
      (ofTree source (.node .binaryExpression span children)) := by
  unfold ofTree
  cases children with
  | nil => exact reject_settles here _
  | cons left tail =>
      obtain ⟨allLeft, parts⟩ := List.forall_mem_cons.mp parts
      apply settles_bind (inParts left (by simp))
      intro leftExpr leftWhole
      cases tail with
      | nil => exact reject_settles allLeft.here.within _
      | cons sign tail =>
          obtain ⟨allSign, parts⟩ := List.forall_mem_cons.mp parts
          apply settles_bind (binary_op_settles allSign.here.within)
          intro op _
          cases tail with
          | nil => exact reject_settles allSign.here.within _
          | cons right rest =>
              obtain ⟨allRight, parts⟩ := List.forall_mem_cons.mp parts
              apply settles_bind (inParts right (by simp))
              intro rightExpr rightWhole
              apply settles_bind (expect_end_settles parts)
              intro _ _
              exact List.forall_mem_cons.mpr
                ⟨here, List.forall_mem_append.mpr ⟨leftWhole, rightWhole⟩⟩

theorem unary_of_tree_settles :
    Settles (fun expr => AllWithin source expr.spans) (SyntaxError.Shows source)
      (ofTree source (.node .unaryExpression span children)) := by
  unfold ofTree
  cases children with
  | nil => exact reject_settles here _
  | cons sign tail =>
      obtain ⟨allSign, parts⟩ := List.forall_mem_cons.mp parts
      apply settles_bind (unary_op_settles allSign.here.within)
      intro op _
      cases tail with
      | nil => exact reject_settles allSign.here.within _
      | cons operand rest =>
          obtain ⟨allOperand, parts⟩ := List.forall_mem_cons.mp parts
          apply settles_bind (inParts operand (by simp))
          intro expr whole
          apply settles_bind (expect_end_settles parts)
          intro _ _
          exact List.forall_mem_cons.mpr ⟨here, whole⟩

theorem paren_of_tree_settles :
    Settles (fun expr => AllWithin source expr.spans) (SyntaxError.Shows source)
      (ofTree source (.node .parenthesizedExpression span children)) := by
  unfold ofTree
  cases children with
  | nil => exact reject_settles here _
  | cons opening tail =>
      obtain ⟨allOpening, parts⟩ := List.forall_mem_cons.mp parts
      apply settles_bind (expect_text_settles allOpening.here.within _)
      intro _ _
      cases tail with
      | nil => exact reject_settles allOpening.here.within _
      | cons inner tail =>
          obtain ⟨allInner, parts⟩ := List.forall_mem_cons.mp parts
          apply settles_bind (inParts inner (by simp))
          intro expr whole
          cases tail with
          | nil => exact reject_settles allInner.here.within _
          | cons closing rest =>
              obtain ⟨allClosing, parts⟩ := List.forall_mem_cons.mp parts
              apply settles_bind (expect_text_settles allClosing.here.within _)
              intro _ _
              apply settles_bind (expect_end_settles parts)
              intro _ _
              exact List.forall_mem_cons.mpr ⟨here, whole⟩

end Nodes

mutual

theorem of_tree_settles (tree : Tree) (all : tree.AllInPlace source) :
    Settles (fun expr => AllWithin source expr.spans) (SyntaxError.Shows source)
      (ofTree source tree) := by
  cases tree with
  | node kind span children =>
  have here : (Tree.node kind span children).span.Within source := all.here.within
  have alone : AllWithin source [span] := List.forall_mem_singleton.mpr here
  have parts : ∀ part ∈ children, part.AllInPlace source := all.part
  have inParts := fun part (member : part ∈ children) => of_tree_settles part (parts part member)
  have inArgs := fun part (member : part ∈ children) =>
    args_of_tree_settles part (parts part member)
  cases kind with
  | boolean | noneWord | variableName => exact alone
  | number =>
      apply settles_bind (word_settles here)
      intro word _
      exact alone
  | callExpression => exact call_of_tree_settles here parts inArgs
  | binaryExpression => exact binary_of_tree_settles here parts inParts
  | unaryExpression => exact unary_of_tree_settles here parts inParts
  | parenthesizedExpression => exact paren_of_tree_settles here parts inParts
  | _ => exact reject_settles here _

theorem args_of_tree_settles (tree : Tree) (all : tree.AllInPlace source) :
    Settles (fun args => AllWithin source (spansOfAll args)) (SyntaxError.Shows source)
      (argsOfTree source tree) := by
  cases tree with
  | node kind span children =>
  cases children with
  | nil => exact reject_settles all.here.within _
  | cons opening parts =>
      obtain ⟨allOpening, allParts⟩ := List.forall_mem_cons.mp all.part
      apply settles_bind (expect_text_settles allOpening.here.within _)
      intro _ _
      exact args_of_parts_settles opening parts allOpening allParts

theorem args_of_parts_settles (before : Tree) (parts : List Tree)
    (allBefore : before.AllInPlace source) (all : ∀ part ∈ parts, part.AllInPlace source) :
    Settles (fun args => AllWithin source (spansOfAll args)) (SyntaxError.Shows source)
      (argsOfParts source before parts) := by
  match parts with
  | [] => exact reject_settles allBefore.here.within _
  | item :: tail =>
      obtain ⟨allItem, all⟩ := List.forall_mem_cons.mp all
      rw [argsOfParts]
      split
      · apply settles_bind (expect_end_settles all)
        intro _ _
        exact List.forall_mem_nil _
      apply settles_bind (of_tree_settles item allItem)
      intro arg whole
      match tail with
      | [] => exact reject_settles allItem.here.within _
      | separator :: rest =>
          obtain ⟨allSeparator, all⟩ := List.forall_mem_cons.mp all
          dsimp only
          split
          · apply settles_bind (args_of_parts_settles separator rest allSeparator all)
            intro args wholeArgs
            exact List.forall_mem_append.mpr ⟨whole, wholeArgs⟩
          split
          · apply settles_bind (expect_end_settles all)
            intro _ _
            exact List.forall_mem_append.mpr ⟨whole, List.forall_mem_nil _⟩
          · exact reject_settles allSeparator.here.within _

end

end Expr

/-! ### Walks -/

/-- A reading of the parts of a node. The walk stays at the node. -/
def Reading.Sees {Result : Type} (source : List Char) (parent : Tree) (good : Result → Prop)
    (reading : Reading Result) : Prop :=
  ∀ walk : Walk, walk.parent = parent →
    Settles (fun answer => answer.2.parent = parent ∧ good answer.1) (SyntaxError.Shows source)
      (reading.run walk)

namespace Reading

variable {source : List Char} {parent : Tree} {First Second : Type}
  {good : First → Prop} {fine : Second → Prop}

theorem sees_bind {first : Reading First} {next : First → Reading Second}
    (firsts : Sees source parent good first)
    (nexts : ∀ result, good result → Sees source parent fine (next result)) :
    Sees source parent fine (first >>= next) := by
  intro walk same
  rw [StateT.run_bind]
  apply settles_bind (firsts walk same)
  intro answer holds
  exact nexts answer.1 holds.2 answer.2 holds.1

theorem sees_pure {result : First} (holds : good result) :
    Sees source parent good (pure result) :=
  fun _ same => ⟨same, holds⟩

theorem sees_lift {computation : Except SyntaxError First}
    (settles : Settles good (SyntaxError.Shows source) computation) :
    Sees source parent good (liftM computation) := by
  intro walk same
  cases computation with
  | error error => exact settles
  | ok value => exact ⟨same, settles⟩

theorem sees_rejected {part : Tree} (within : part.span.Within source) (fault : SyntaxFault)
    (next : First → Reading Second) :
    Sees source parent fine
      (liftM (part.reject source fault : Except SyntaxError First) >>= next) :=
  fun _ _ => ⟨within, rfl⟩

theorem sees_get {next : Walk → Reading Second}
    (nexts : ∀ walk, Sees source parent fine (next walk)) :
    Sees source parent fine (get >>= next) :=
  fun walk same => nexts walk walk same

variable (all : parent.AllInPlace source)

include all

theorem sees_next : Sees source parent (· ∈ parent.children) (next source) := by
  intro walk same
  unfold next
  rw [StateT.run_bind, StateT.run_get, pure_bind]
  unfold Walk.next Walk.peek?
  subst same
  cases found : walk.parent.children[walk.taken]? with
  | some part => exact ⟨rfl, List.mem_of_getElem? found⟩
  | none =>
      apply reject_settles
      unfold Walk.current
      split
      · exact all.here.within
      · rename_i before _
        cases last : walk.parent.children[before]? with
        | none => exact all.here.within
        | some part => exact (all.part part (List.mem_of_getElem? last)).here.within

theorem sees_next_of (kind : NodeKind) :
    Sees source parent (· ∈ parent.children) (nextOf source kind) := by
  apply sees_bind (sees_next all)
  intro part member
  apply sees_bind (sees_lift (expect_kind_settles (all.part part member).here.within kind))
  intro _ _
  exact sees_pure member

theorem sees_next_text (text : String) :
    Sees source parent (· ∈ parent.children) (nextText source text) := by
  apply sees_bind (sees_next all)
  intro part member
  apply sees_bind (sees_lift (expect_text_settles (all.part part member).here.within text))
  intro _ _
  exact sees_pure member

theorem parts_settles {reading : Reading First} (sees : Sees source parent good reading) :
    Settles good (SyntaxError.Shows source) (parts source parent reading) := by
  apply settles_bind (sees (.start parent) rfl)
  intro answer holds
  obtain ⟨result, walk⟩ := answer
  obtain ⟨same, fit⟩ := holds
  have rest : ∀ part ∈ walk.peek?.toList, part.AllInPlace source := by
    intro part member
    have found : walk.parent.children[walk.taken]? = some part := Option.mem_toList.mp member
    rw [same] at found
    exact all.part part (List.mem_of_getElem? found)
  apply settles_bind (expect_end_settles rest)
  intro _ _
  exact fit

end Reading

/-! ### Definitions -/

section Definitions

variable {source : List Char} {tree : Tree} (all : tree.AllInPlace source)

include all

theorem ty_settles :
    Settles (fun answer => answer.2.Within source ∧ tree.span.start ≤ answer.2.start)
      (SyntaxError.Shows source) (Ty.ofTree source tree) := by
  apply Reading.parts_settles all
  apply Reading.sees_bind (Reading.sees_next all)
  intro _ _
  apply Reading.sees_bind (Reading.sees_next all)
  intro name member
  have within := (all.part name member).here.within
  dsimp only
  split
  · exact Reading.sees_pure ⟨within, all.here.starts name member⟩
  · exact Reading.sees_lift (reject_settles within _)

theorem variable_settles :
    Settles (fun var => AllWithin source var.spans) (SyntaxError.Shows source)
      (VarDef.ofTree source tree) := by
  refine settles_bind (?_ : Settles (fun answer : Tree × (Ty × Span) × Tree × Expr =>
    answer.2.1.2.Within source ∧ answer.2.2.1.span.Within source ∧
      AllWithin source answer.2.2.2.spans) (SyntaxError.Shows source) _) ?_
  · apply Reading.parts_settles all
    apply Reading.sees_bind (Reading.sees_next_of all _)
    intro name _
    apply Reading.sees_bind (Reading.sees_next all)
    intro declared member
    dsimp only
    split
    · exact Reading.sees_rejected (all.part declared member).here.within _ _
    apply Reading.sees_bind (Reading.sees_lift (ty_settles (all.part declared member)))
    intro ty tyHolds
    apply Reading.sees_bind (Reading.sees_next_of all _)
    intro _ _
    apply Reading.sees_bind (Reading.sees_next all)
    intro value there
    have allValue := all.part value there
    apply Reading.sees_bind (Reading.sees_lift (Expr.of_tree_settles value allValue))
    intro init within
    exact Reading.sees_pure ⟨tyHolds.1, allValue.here.within, within⟩
  · intro answer holds
    obtain ⟨tyWithin, valueWithin, initWithin⟩ := holds
    dsimp only
    split
    · apply List.forall_mem_cons.mpr ⟨tyWithin, List.forall_mem_cons.mpr ⟨?_, ?_⟩⟩
      · exact initWithin _ (Expr.span_mem_spans _)
      · exact List.forall_mem_singleton.mpr all.here.within
    · exact reject_settles valueWithin _

omit all in
/-- The parameters behind an opening parenthesis or a comma, each from its name to its type. -/
theorem params_of_parts_settle (before : Tree) (parts : List Tree)
    (allBefore : before.AllInPlace source) (allParts : ∀ part ∈ parts, part.AllInPlace source)
    (ordered : InOrder (parts.map Tree.span)) :
    Settles (fun params => AllWithin source (params.map Param.span)) (SyntaxError.Shows source)
      (Param.allOfParts source before parts) := by
  cases parts with
  | nil => exact reject_settles allBefore.here.within _
  | cons item tail =>
      obtain ⟨allItem, allParts⟩ := List.forall_mem_cons.mp allParts
      unfold Param.allOfParts
      split
      · apply settles_bind (expect_end_settles allParts)
        intro _ _
        exact List.forall_mem_nil _
      apply settles_bind (expect_kind_settles allItem.here.within _)
      intro _ _
      cases tail with
      | nil => exact reject_settles allItem.here.within _
      | cons declared tail =>
          obtain ⟨allDeclared, allParts⟩ := List.forall_mem_cons.mp allParts
          obtain ⟨across, ordered⟩ := List.pairwise_cons.mp ordered
          apply settles_bind (expect_kind_settles allDeclared.here.within _)
          intro _ _
          apply settles_bind (ty_settles allDeclared)
          intro answer holds
          obtain ⟨ty, tySpan⟩ := answer
          obtain ⟨tyWithin, later⟩ := holds
          have reaches : (item.span.through tySpan).Within source := by
            apply span_through source _ _ allItem.here.within tyWithin
            calc item.span.start
              _ ≤ item.span.stop := span_ordered source _ allItem.here.within
              _ ≤ declared.span.start := across _ List.mem_cons_self
              _ ≤ tySpan.start := later
              _ ≤ tySpan.stop := span_ordered source _ tyWithin
          cases tail with
          | nil => exact reject_settles allDeclared.here.within _
          | cons separator rest =>
              obtain ⟨allSeparator, allParts⟩ := List.forall_mem_cons.mp allParts
              have behind : InOrder (rest.map Tree.span) := ordered.tail.tail
              dsimp only
              split
              · apply settles_bind
                  (params_of_parts_settle separator rest allSeparator allParts behind)
                intro params within
                exact List.forall_mem_cons.mpr ⟨reaches, within⟩
              split
              · apply settles_bind (expect_end_settles allParts)
                intro _ _
                exact List.forall_mem_singleton.mpr reaches
              · exact reject_settles allSeparator.here.within _

theorem params_settle :
    Settles (fun params => AllWithin source (params.map Param.span)) (SyntaxError.Shows source)
      (Param.allOfTree source tree) := by
  have parts := all.part
  have ordered := all.here.ordered
  unfold Param.allOfTree
  generalize tree.children = children at parts ordered
  cases children with
  | nil => exact reject_settles all.here.within _
  | cons opening rest =>
      obtain ⟨allOpening, parts⟩ := List.forall_mem_cons.mp parts
      apply settles_bind (expect_text_settles allOpening.here.within _)
      intro _ _
      exact params_of_parts_settle opening rest allOpening parts ordered.tail

omit all in
theorem fields_settle (members : List Tree) (parts : ∀ part ∈ members, part.AllInPlace source) :
    Settles (fun vars => AllWithin source (vars.flatMap VarDef.spans))
      (SyntaxError.Shows source) (ClassDef.fieldsOfParts source members) := by
  induction members with
  | nil => exact List.forall_mem_nil _
  | cons member rest induction =>
      obtain ⟨allMember, parts⟩ := List.forall_mem_cons.mp parts
      rw [ClassDef.fieldsOfParts]
      split
      · exact induction parts
      · apply settles_bind (variable_settles allMember)
        intro var varWithin
        apply settles_bind (induction parts)
        intro others within
        change AllWithin source ((var :: others).flatMap VarDef.spans)
        rw [List.flatMap_cons]
        exact List.forall_mem_append.mpr ⟨varWithin, within⟩
      · exact reject_settles allMember.here.within _

theorem class_settles :
    Settles (fun definition => AllWithin source definition.spans) (SyntaxError.Shows source)
      (ClassDef.ofTree source tree) := by
  refine settles_bind (?_ : Settles (fun answer : Tree × Tree => answer.2.AllInPlace source)
    (SyntaxError.Shows source) _) ?_
  · apply Reading.parts_settles all
    apply Reading.sees_bind (Reading.sees_next all)
    intro _ _
    apply Reading.sees_bind (Reading.sees_next_of all _)
    intro name _
    apply Reading.sees_bind (Reading.sees_next all)
    intro part member
    have ends (body : Tree) (there : body ∈ tree.children) :
        Reading.Sees source tree (fun answer : Tree × Tree => answer.2.AllInPlace source) (do
          liftM (Tree.expectKind source .body body)
          return (name, body)) := by
      have allBody := all.part body there
      apply Reading.sees_bind (Reading.sees_lift (expect_kind_settles allBody.here.within _))
      intro _ _
      exact Reading.sees_pure allBody
    dsimp only
    split
    · apply Reading.sees_bind (Reading.sees_next all)
      exact ends
    · exact ends part member
  · intro answer allBody
    obtain ⟨name, body⟩ := answer
    have parts := allBody.part
    dsimp only
    generalize body.children = children at parts
    cases children with
    | nil => exact reject_settles allBody.here.within _
    | cons colon members =>
        apply settles_bind (fields_settle members (List.forall_mem_cons.mp parts).2)
        intro fields within
        exact List.forall_mem_cons.mpr ⟨all.here.within, within⟩

end Definitions

/-! ### Statements -/

namespace Stmt

section Simple

variable {source : List Char} {tree : Tree} (all : tree.AllInPlace source)

include all

theorem assign_settles :
    Settles (fun stmt => AllWithin source stmt.spans) (SyntaxError.Shows source)
      (assignOfTree source tree) := by
  apply Reading.parts_settles all
  apply Reading.sees_bind (Reading.sees_next_of all _)
  intro target _
  apply Reading.sees_bind (Reading.sees_next_of all _)
  intro _ _
  apply Reading.sees_bind (Reading.sees_next all)
  intro value member
  apply Reading.sees_bind
    (Reading.sees_lift (Expr.of_tree_settles value (all.part value member)))
  intro expr within
  exact Reading.sees_pure (List.forall_mem_cons.mpr ⟨all.here.within, within⟩)

theorem expr_settles :
    Settles (fun stmt => AllWithin source stmt.spans) (SyntaxError.Shows source)
      (exprOfTree source tree) := by
  apply Reading.parts_settles all
  apply Reading.sees_bind (Reading.sees_next all)
  intro value member
  apply Reading.sees_bind
    (Reading.sees_lift (Expr.of_tree_settles value (all.part value member)))
  intro expr within
  exact Reading.sees_pure (List.forall_mem_cons.mpr ⟨all.here.within, within⟩)

theorem return_settles :
    Settles (fun stmt => AllWithin source stmt.spans) (SyntaxError.Shows source)
      (returnOfTree source tree) := by
  apply Reading.parts_settles all
  apply Reading.sees_bind (Reading.sees_next all)
  intro keyword member
  apply Reading.sees_get
  intro walk
  split
  · apply Reading.sees_pure
    exact List.forall_mem_cons.mpr ⟨all.here.within,
      List.forall_mem_singleton.mpr (all.part keyword member).here.within⟩
  · apply Reading.sees_bind (Reading.sees_next all)
    intro value there
    apply Reading.sees_bind
      (Reading.sees_lift (Expr.of_tree_settles value (all.part value there)))
    intro expr within
    exact Reading.sees_pure (List.forall_mem_cons.mpr ⟨all.here.within, within⟩)

end Simple

variable {source : List Char}

mutual

theorem of_tree_settles (tree : Tree) (all : tree.AllInPlace source) :
    Settles (fun stmt => AllWithin source stmt.spans) (SyntaxError.Shows source)
      (ofTree source tree) := by
  cases tree with
  | node kind span children =>
  have here : (Tree.node kind span children).span.Within source := all.here.within
  have parts : ∀ part ∈ children, part.AllInPlace source := all.part
  have stops : ∀ part ∈ children, part.span.stop ≤ span.stop := all.here.stops
  unfold ofTree
  split
  · exact assign_settles all
  · exact List.forall_mem_singleton.mpr here
  · exact return_settles all
  · exact expr_settles all
  · cases children with
    | nil => exact reject_settles here _
    | cons keyword tail =>
        obtain ⟨allKeyword, parts⟩ := List.forall_mem_cons.mp parts
        apply settles_bind (expect_text_settles allKeyword.here.within _)
        intro _ _
        exact cond_settles keyword span tail allKeyword here parts
          (List.forall_mem_cons.mp stops).2
  · cases children with
    | nil => exact reject_settles here _
    | cons keyword tail =>
        obtain ⟨allKeyword, parts⟩ := List.forall_mem_cons.mp parts
        cases tail with
        | nil => exact reject_settles allKeyword.here.within _
        | cons test tail =>
            obtain ⟨allTest, parts⟩ := List.forall_mem_cons.mp parts
            apply settles_bind (Expr.of_tree_settles test allTest)
            intro expr testWithin
            cases tail with
            | nil => exact reject_settles allTest.here.within _
            | cons body rest =>
                obtain ⟨allBody, parts⟩ := List.forall_mem_cons.mp parts
                apply settles_bind (block_settles body allBody)
                intro stmts bodyWithin
                apply settles_bind (expect_end_settles parts)
                intro _ _
                exact List.forall_mem_cons.mpr
                  ⟨here, List.forall_mem_append.mpr ⟨testWithin, bodyWithin⟩⟩
  · exact reject_settles here _

/-- The condition behind `elif` reaches from there to the end of the whole. -/
theorem cond_settles (before : Tree) (span : Span) (parts : List Tree)
    (allBefore : before.AllInPlace source) (here : span.Within source)
    (all : ∀ part ∈ parts, part.AllInPlace source)
    (stops : ∀ part ∈ parts, part.span.stop ≤ span.stop) :
    Settles (fun stmt => AllWithin source stmt.spans) (SyntaxError.Shows source)
      (condOfParts source before span parts) := by
  unfold condOfParts
  match parts with
  | [] => exact reject_settles allBefore.here.within _
  | test :: tail =>
      obtain ⟨allTest, all⟩ := List.forall_mem_cons.mp all
      apply settles_bind (Expr.of_tree_settles test allTest)
      intro expr testWithin
      match tail with
      | [] => exact reject_settles allTest.here.within _
      | body :: tail =>
          obtain ⟨allBody, all⟩ := List.forall_mem_cons.mp all
          apply settles_bind (block_settles body allBody)
          intro stmts bodyWithin
          have guarded : AllWithin source (expr.spans ++ spansOfAll stmts) :=
            List.forall_mem_append.mpr ⟨testWithin, bodyWithin⟩
          match tail with
          | [] =>
              exact List.forall_mem_cons.mpr
                ⟨here, List.forall_mem_append.mpr ⟨guarded, List.forall_mem_nil _⟩⟩
          | keyword :: tail =>
              obtain ⟨allKeyword, all⟩ := List.forall_mem_cons.mp all
              have keywordStops : keyword.span.stop ≤ span.stop := stops keyword (by simp)
              have rest : (keyword.span.through span).Within source := by
                apply span_through source _ _ allKeyword.here.within here
                exact (span_ordered source _ allKeyword.here.within).trans keywordStops
              dsimp only
              split
              · apply settles_bind
                  (cond_settles keyword (keyword.span.through span) tail allKeyword rest all
                    fun part member => stops part (by simp [member]))
                intro other otherWithin
                exact List.forall_mem_cons.mpr ⟨here, List.forall_mem_append.mpr
                  ⟨guarded, List.forall_mem_append.mpr ⟨otherWithin, List.forall_mem_nil _⟩⟩⟩
              split
              · match tail with
                | [] => exact reject_settles allKeyword.here.within _
                | orelse :: rest =>
                    obtain ⟨allElse, all⟩ := List.forall_mem_cons.mp all
                    apply settles_bind (block_settles orelse allElse)
                    intro others otherWithin
                    apply settles_bind (expect_end_settles all)
                    intro _ _
                    exact List.forall_mem_cons.mpr
                      ⟨here, List.forall_mem_append.mpr ⟨guarded, otherWithin⟩⟩
              · exact reject_settles allKeyword.here.within _

theorem block_settles (tree : Tree) (all : tree.AllInPlace source) :
    Settles (fun stmts => AllWithin source (spansOfAll stmts)) (SyntaxError.Shows source)
      (blockOfTree source tree) := by
  cases tree with
  | node kind span children =>
  have parts : ∀ part ∈ children, part.AllInPlace source := all.part
  unfold blockOfTree
  apply settles_bind (expect_kind_settles all.here.within _)
  intro _ _
  cases children with
  | nil => exact reject_settles all.here.within _
  | cons colon members =>
      obtain ⟨allColon, parts⟩ := List.forall_mem_cons.mp parts
      apply settles_bind (expect_text_settles allColon.here.within _)
      intro _ _
      exact members_settle false members parts

theorem members_settle (started : Bool) (members : List Tree)
    (all : ∀ member ∈ members, member.AllInPlace source) :
    Settles (fun stmts => AllWithin source (spansOfAll stmts)) (SyntaxError.Shows source)
      (allOfParts source started members) := by
  match members with
  | [] =>
      unfold allOfParts
      exact List.forall_mem_nil _
  | first :: rest =>
      obtain ⟨allFirst, all⟩ := List.forall_mem_cons.mp all
      unfold allOfParts
      split
      · apply settles_bind (of_tree_settles first allFirst)
        intro stmt within
        apply settles_bind (members_settle true rest all)
        intro stmts others
        exact List.forall_mem_append.mpr ⟨within, others⟩
      all_goals exact reject_settles allFirst.here.within _

end

end Stmt

section Programs

variable {source : List Char}

theorem body_of_parts_settles (members : List Tree)
    (all : ∀ member ∈ members, member.AllInPlace source) :
    Settles (fun answer => AllWithin source (answer.1.flatMap VarDef.spans) ∧
      AllWithin source (Stmt.spansOfAll answer.2)) (SyntaxError.Shows source)
      (FuncDef.bodyOfParts source members) := by
  induction members with
  | nil => exact ⟨List.forall_mem_nil _, List.forall_mem_nil _⟩
  | cons first rest induction =>
      obtain ⟨allFirst, parts⟩ := List.forall_mem_cons.mp all
      rw [FuncDef.bodyOfParts]
      split
      · apply settles_bind (variable_settles allFirst)
        intro var within
        apply settles_bind (induction parts)
        intro answer holds
        exact ⟨List.forall_mem_append.mpr ⟨within, holds.1⟩, holds.2⟩
      · apply settles_bind (Stmt.members_settle false _ all)
        intro stmts within
        exact ⟨List.forall_mem_nil _, within⟩

variable {tree : Tree} (all : tree.AllInPlace source)

include all

theorem body_settles :
    Settles (fun answer => AllWithin source (answer.1.flatMap VarDef.spans) ∧
      AllWithin source (Stmt.spansOfAll answer.2)) (SyntaxError.Shows source)
      (FuncDef.bodyOfTree source tree) := by
  have parts := all.part
  unfold FuncDef.bodyOfTree
  generalize tree.children = children at parts
  cases children with
  | nil => exact reject_settles all.here.within _
  | cons colon members =>
      obtain ⟨allColon, parts⟩ := List.forall_mem_cons.mp parts
      apply settles_bind (expect_text_settles allColon.here.within _)
      intro _ _
      exact body_of_parts_settles members parts

theorem function_settles :
    Settles (fun func => AllWithin source func.spans) (SyntaxError.Shows source)
      (FuncDef.ofTree source tree) := by
  apply Reading.parts_settles all
  apply Reading.sees_bind (Reading.sees_next_text all _)
  intro _ _
  apply Reading.sees_bind (Reading.sees_next_of all _)
  intro name _
  apply Reading.sees_bind (Reading.sees_next_of all _)
  intro list member
  apply Reading.sees_bind (Reading.sees_lift (params_settle (all.part list member)))
  intro params paramsWithin
  apply Reading.sees_bind (Reading.sees_next all)
  intro part there
  have ends (result : Ty) (body : Tree) (inside : body ∈ tree.children) :
      Reading.Sees source tree (fun func : FuncDef => AllWithin source func.spans) (do
        liftM (Tree.expectKind source .body body)
        let found ← liftM (FuncDef.bodyOfTree source body)
        return ⟨name.text source, params, result, found.1, found.2, tree.span⟩) := by
    have allBody := all.part body inside
    apply Reading.sees_bind (Reading.sees_lift (expect_kind_settles allBody.here.within _))
    intro _ _
    apply Reading.sees_bind (Reading.sees_lift (body_settles allBody))
    intro answer holds
    apply Reading.sees_pure
    exact List.forall_mem_cons.mpr ⟨all.here.within, List.forall_mem_append.mpr
      ⟨List.forall_mem_append.mpr ⟨paramsWithin, holds.1⟩, holds.2⟩⟩
  dsimp only
  split
  · apply Reading.sees_bind (Reading.sees_lift (ty_settles (all.part part there)))
    intro answer _
    apply Reading.sees_bind (Reading.sees_next all)
    exact ends answer.1
  · exact ends .none part there

omit all in
theorem all_within_program (source : List Char) (program : Program) :
    AllWithin source program.spans ↔
      AllWithin source (program.defs.flatMap Def.spans) ∧
      AllWithin source (Stmt.spansOfAll program.stmts) ∧
      AllWithin source (program.classes.flatMap ClassDef.spans) := by
  unfold AllWithin Program.spans
  rw [List.forall_mem_append, List.forall_mem_append, and_assoc]

omit all in
theorem program_of_parts_settles (members : List Tree)
    (parts : ∀ member ∈ members, member.AllInPlace source) :
    Settles (fun program => AllWithin source program.spans) (SyntaxError.Shows source)
      (Program.ofParts source members) := by
  induction members with
  | nil => exact List.forall_mem_nil _
  | cons first rest induction =>
      obtain ⟨allFirst, others⟩ := List.forall_mem_cons.mp parts
      rw [Program.ofParts]
      split
      · apply settles_bind (class_settles allFirst)
        intro definition within
        apply settles_bind (induction others)
        intro program holds
        obtain ⟨defs, stmts, classes⟩ := (all_within_program _ _).mp holds
        exact (all_within_program _ _).mpr
          ⟨defs, stmts, List.forall_mem_append.mpr ⟨within, classes⟩⟩
      · apply settles_bind (variable_settles allFirst)
        intro var within
        apply settles_bind (induction others)
        intro program holds
        obtain ⟨defs, rest⟩ := (all_within_program _ _).mp holds
        exact (all_within_program _ _).mpr ⟨List.forall_mem_append.mpr ⟨within, defs⟩, rest⟩
      · apply settles_bind (function_settles allFirst)
        intro func within
        apply settles_bind (induction others)
        intro program holds
        obtain ⟨defs, rest⟩ := (all_within_program _ _).mp holds
        exact (all_within_program _ _).mpr ⟨List.forall_mem_append.mpr ⟨within, defs⟩, rest⟩
      · apply settles_bind (Stmt.members_settle false _ parts)
        intro stmts within
        exact List.forall_mem_append.mpr ⟨within, List.forall_mem_nil _⟩

theorem program_settles :
    Settles (fun program => AllWithin source program.spans) (SyntaxError.Shows source)
      (Program.ofTree source tree) := by
  apply settles_bind (expect_kind_settles all.here.within _)
  intro _ _
  exact program_of_parts_settles tree.children all.part

end Programs

end ScriptWasm
