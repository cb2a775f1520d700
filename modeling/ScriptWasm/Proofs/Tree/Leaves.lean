import ScriptWasm.Proofs.Token.Order
import ScriptWasm.Proofs.Tree.Grammar

/-!
The leaves of trees and the lexemes that they stand on. A leaf stands on one lexeme, and an operator
of two words on both of its words. Trees that are written on some lexemes have a leaf for each of
them, from the left to the right.
-/

namespace ScriptWasm

set_option autoImplicit false

namespace Tree

mutual

/-- The leaves of a tree from the left to the right. -/
def leaves : Tree → List Tree
  | node kind span [] => [node kind span []]
  | node _ _ (first :: rest) => leavesOfAll (first :: rest)

def leavesOfAll : List Tree → List Tree
  | [] => []
  | first :: rest => first.leaves ++ leavesOfAll rest

end

@[simp] theorem leaves_leaf (kind : NodeKind) (span : Span) :
    (leaf kind span).leaves = [leaf kind span] := by
  rw [leaf, leaves]

theorem leaves_branch (kind : NodeKind) (first : Tree) (rest : List Tree) :
    (branch kind (first :: rest)).leaves = leavesOfAll (first :: rest) := by
  rw [branch, leaves]

@[simp] theorem leaves_of_none : leavesOfAll [] = [] := by
  rw [leavesOfAll]

@[simp] theorem leaves_of_more (first : Tree) (rest : List Tree) :
    leavesOfAll (first :: rest) = first.leaves ++ leavesOfAll rest := by
  rw [leavesOfAll]

theorem leaves_of_append (first second : List Tree) :
    leavesOfAll (first ++ second) = leavesOfAll first ++ leavesOfAll second := by
  induction first with
  | nil => rw [List.nil_append, leaves_of_none, List.nil_append]
  | cons tree rest induction =>
      rw [List.cons_append, leaves_of_more, leaves_of_more, induction, List.append_assoc]

theorem leaves_start (tree : Tree) : ∃ first more, tree.leaves = first :: more := by
  rcases tree with ⟨kind, span, children⟩
  cases children with
  | nil => exact ⟨_, [], by rw [leaves]⟩
  | cons child rest =>
      obtain ⟨first, more, start⟩ := leaves_start child
      exact ⟨first, more ++ leavesOfAll rest, by rw [leaves, leaves_of_more, start]; rfl⟩

/-- A tree whose inner nodes all reach from their first part to their last. -/
inductive Branched : Tree → Prop where
  | leaf (kind : NodeKind) (span : Span) : Branched (leaf kind span)
  | branch (kind : NodeKind) (first : Tree) (rest : List Tree)
      (parts : ∀ part ∈ first :: rest, Branched part) : Branched (branch kind (first :: rest))

end Tree

def TokenKind.leafKind? : TokenKind → Option NodeKind
  | .defWord | .classWord | .ifWord | .elifWord | .elseWord | .whileWord | .returnWord
  | .passWord | .breakWord | .continueWord => some .keyword
  | .colon | .dot | .comma | .leftParen | .rightParen => some .punctuation
  | .assign => some .assignOp
  | kind => kind.operandKind?

def operatorKinds : List TokenKind :=
  [.power, .floorDivide, .equal, .notEqual, .lessEqual, .greaterEqual, .arrow, .plus, .minus,
   .star, .slash, .percent, .less, .greater]

def Lexeme.IsOperator (lexeme : Lexeme) : Prop :=
  lexeme.kind ∈ operatorKinds ∨ (lexeme.kind = .name ∧ lexeme.text ∈ operatorWords)

/-- Leaves on lexemes, each on the next one. An operator of two words is one leaf from the start of
its first word to the end of its second; its words never are two leaves. No operator comes last. -/
inductive Cover : List Tree → List Lexeme → Prop where
  | nil : Cover [] []
  | operand (kind : NodeKind) (lexeme : Lexeme) (leaves : List Tree) (lexemes : List Lexeme)
      (isLeaf : lexeme.kind.leafKind? = some kind) (rest : Cover leaves lexemes) :
      Cover (.leaf kind lexeme.span :: leaves) (lexeme :: lexemes)
  | operator (lexeme next : Lexeme) (leaf : Tree) (leaves : List Tree) (lexemes : List Lexeme)
      (isOperator : lexeme.IsOperator) (apart : leaf.kind = .operator → ¬lexeme.TwoWords next)
      (rest : Cover (leaf :: leaves) (next :: lexemes)) :
      Cover (.leaf .operator lexeme.span :: leaf :: leaves) (lexeme :: next :: lexemes)
  | twoWords (first second : Lexeme) (leaves : List Tree) (lexemes : List Lexeme)
      (two : first.TwoWords second) (rest : Cover leaves lexemes) :
      Cover (.leaf .operator (first.span.through second.span) :: leaves)
        (first :: second :: lexemes)

namespace Cover

theorem append {leaves others : List Tree} {lexemes more : List Lexeme}
    (first : Cover leaves lexemes) (second : Cover others more) :
    Cover (leaves ++ others) (lexemes ++ more) := by
  induction first with
  | nil => exact second
  | operand kind lexeme leaves lexemes isLeaf _ induction =>
      exact .operand kind lexeme _ _ isLeaf induction
  | operator lexeme next leaf leaves lexemes isOperator apart _ induction =>
      exact .operator lexeme next leaf _ _ isOperator apart induction
  | twoWords first second leaves lexemes two _ induction =>
      exact .twoWords first second _ _ two induction

theorem single (kind : NodeKind) (lexeme : Lexeme) (isLeaf : lexeme.kind.leafKind? = some kind) :
    Cover [.leaf kind lexeme.span] [lexeme] :=
  .operand kind lexeme [] [] isLeaf .nil

/-- Leaves stand on no error and on nothing that the layout adds. -/
theorem kinds {leaves : List Tree} {lexemes : List Lexeme} (cover : Cover leaves lexemes) :
    ∀ lexeme ∈ lexemes, lexeme.kind ∉ leaflessKinds := by
  have operand : ∀ (lexeme : Lexeme) (kind : NodeKind), lexeme.kind.leafKind? = some kind →
      lexeme.kind ∉ leaflessKinds := by
    intro lexeme kind isLeaf member
    simp only [leaflessKinds, List.mem_cons, List.not_mem_nil, or_false] at member
    rcases member with same | same | same | same | same | same <;> rw [same] at isLeaf <;>
      cases isLeaf
  have name : ∀ lexeme : Lexeme, lexeme.kind = .name → lexeme.kind ∉ leaflessKinds :=
    fun lexeme isName => operand lexeme .variableName (by rw [isName]; rfl)
  induction cover with
  | nil => exact List.forall_mem_nil _
  | operand kind lexeme leaves lexemes isLeaf _ induction =>
      intro other member
      rcases List.mem_cons.mp member with rfl | later
      · exact operand other kind isLeaf
      · exact induction other later
  | operator lexeme next leaf leaves lexemes isOperator _ _ induction =>
      intro other member
      rcases List.mem_cons.mp member with rfl | later
      · rcases isOperator with isMark | ⟨isName, _⟩
        · revert isMark
          generalize other.kind = kind
          revert kind
          decide
        · exact name other isName
      · exact induction other later
  | twoWords first second leaves lexemes two _ induction =>
      have names : first.kind = .name ∧ second.kind = .name := by
        rcases two with two | two <;> exact ⟨two.1.1, two.2.1⟩
      intro other member
      rcases List.mem_cons.mp member with rfl | member
      · exact name other names.1
      · rcases List.mem_cons.mp member with rfl | later
        · exact name other names.2
        · exact induction other later

end Cover

structure Written (trees : List Tree) (lexemes : List Lexeme) : Prop where
  covered : Cover (Tree.leavesOfAll trees) lexemes
  branched : ∀ tree ∈ trees, tree.Branched

namespace Written

theorem nil : Written [] [] :=
  ⟨by rw [Tree.leaves_of_none]; exact .nil, List.forall_mem_nil _⟩

theorem append {trees others : List Tree} {lexemes more : List Lexeme}
    (first : Written trees lexemes) (second : Written others more) :
    Written (trees ++ others) (lexemes ++ more) := by
  refine ⟨by rw [Tree.leaves_of_append]; exact first.covered.append second.covered, ?_⟩
  intro tree member
  rcases List.mem_append.mp member with here | there
  · exact first.branched tree here
  · exact second.branched tree there

theorem leaf (kind : NodeKind) (lexeme : Lexeme) (isLeaf : lexeme.kind.leafKind? = some kind) :
    Written [.leaf kind lexeme.span] [lexeme] := by
  refine ⟨by simpa using Cover.single kind lexeme isLeaf, ?_⟩
  intro tree member
  rw [List.mem_singleton.mp member]
  exact .leaf kind lexeme.span

theorem branch {first : Tree} {rest : List Tree} {lexemes : List Lexeme} (kind : NodeKind)
    (parts : Written (first :: rest) lexemes) : Written [.branch kind (first :: rest)] lexemes := by
  refine ⟨?_, ?_⟩
  · have covered := parts.covered
    rwa [← Tree.leaves_branch kind, ← List.append_nil (Tree.leaves _), ← Tree.leaves_of_none,
      ← Tree.leaves_of_more] at covered
  · intro tree member
    rw [List.mem_singleton.mp member]
    exact .branch kind first rest parts.branched

/-- An operator in front of a tree that does not start with the second word of it. -/
theorem operator {tree : Tree} {lexemes : List Lexeme} (lexeme : Lexeme)
    (isOperator : lexeme.IsOperator) (written : Written [tree] lexemes)
    (apart : ∀ leaf leaves next more, tree.leaves = leaf :: leaves → lexemes = next :: more →
      leaf.kind = .operator → ¬lexeme.TwoWords next) :
    Written [.leaf .operator lexeme.span, tree] (lexeme :: lexemes) := by
  obtain ⟨leaf, leaves, start⟩ := tree.leaves_start
  have covered := written.covered
  have separate := apart leaf leaves
  rw [Tree.leaves_of_more, Tree.leaves_of_none, List.append_nil, start] at covered
  refine ⟨?_, ?_⟩
  · rw [Tree.leaves_of_more, Tree.leaves_leaf, Tree.leaves_of_more, Tree.leaves_of_none,
      List.append_nil, start]
    cases lexemes with
    | nil => cases covered
    | cons next more =>
        exact .operator lexeme next leaf leaves more isOperator (separate next more start rfl)
          covered
  · intro part member
    rcases List.mem_cons.mp member with rfl | here
    · exact .leaf .operator lexeme.span
    · exact written.branched part here

theorem two_words {tree : Tree} {lexemes : List Lexeme} (first second : Lexeme)
    (two : first.TwoWords second) (written : Written [tree] lexemes) :
    Written [.leaf .operator (first.span.through second.span), tree]
      (first :: second :: lexemes) := by
  refine ⟨?_, ?_⟩
  · rw [Tree.leaves_of_more, Tree.leaves_leaf]
    exact .twoWords first second _ lexemes two written.covered
  · intro part member
    rcases List.mem_cons.mp member with rfl | here
    · exact .leaf .operator _
    · exact written.branched part here

theorem comma_list {entries : List (List Tree × List Lexeme)} {parts : List Tree}
    {inside : List Lexeme} (listed : CommaList entries parts inside)
    (items : ∀ entry ∈ entries, Written entry.1 entry.2) : Written parts inside := by
  induction listed with
  | none => exact nil
  | last item lexemes => exact items (item, lexemes) (by simp)
  | more item lexemes comma others parts inside isComma _ induction =>
      have first := items (item, lexemes) (by simp)
      have later := induction fun entry member => items entry (by simp [member])
      exact first.append
        ((leaf .punctuation comma (by rw [isComma]; rfl)).append later)

theorem parenthesized {parts : List Tree} {inside : List Lexeme} (opening closing : Lexeme)
    (opens : opening.kind = .leftParen) (closes : closing.kind = .rightParen)
    (written : Written parts inside) :
    Written (.leaf .punctuation opening.span :: parts ++ [.leaf .punctuation closing.span])
      (opening :: inside ++ [closing]) :=
  ((leaf .punctuation opening (by rw [opens]; rfl)).append written).append
    (leaf .punctuation closing (by rw [closes]; rfl))

theorem arguments {items : List (Tree × List Lexeme)} {parts : List Tree} {inside : List Lexeme}
    (opening closing : Lexeme) (opens : opening.kind = .leftParen)
    (closes : closing.kind = .rightParen)
    (listed : CommaList (items.map fun item => ([item.1], item.2)) parts inside)
    (written : ∀ item ∈ items, Written [item.1] item.2) :
    Written [.branch .argList (.leaf .punctuation opening.span :: parts ++
      [.leaf .punctuation closing.span])] (opening :: inside ++ [closing]) := by
  have inner : Written parts inside := by
    refine comma_list listed fun entry member => ?_
    obtain ⟨item, there, rfl⟩ := List.mem_map.mp member
    exact written item there
  exact (inner.parenthesized opening closing opens closes).branch .argList

end Written

section Grammar

variable {names : Lexeme → Prop} {layer : Layer} {tree : Tree} {lexemes : List Lexeme}

/-- A tree of the grammar whose first leaf is an operator starts with a sign or a negation. -/
theorem grammar_first_leaf (whole : Grammar names layer tree lexemes) :
    ∃ leaf leaves next more, tree.leaves = leaf :: leaves ∧ lexemes = next :: more ∧
      (leaf.kind = .operator →
        (next.IsWord "not" ∧ layer.number ≤ 3) ∨ next.kind ∈ [.plus, .minus]) := by
  have operand : ∀ (lexeme : Lexeme) (kind : NodeKind), kind ≠ .operator →
      ∃ leaf leaves next more, (Tree.leaf kind lexeme.span).leaves = leaf :: leaves ∧
        [lexeme] = next :: more ∧ (leaf.kind = .operator →
          (next.IsWord "not" ∧ Layer.primary.number ≤ 3) ∨ next.kind ∈ [.plus, .minus]) :=
    fun lexeme kind other => ⟨_, [], lexeme, [], Tree.leaves_leaf kind _, rfl,
      fun isOperator => absurd isOperator other⟩
  induction whole with
  | tighter layer tree lexemes _ induction =>
      obtain ⟨leaf, leaves, next, more, start, parts, known⟩ := induction
      refine ⟨leaf, leaves, next, more, start, parts, fun isOperator => ?_⟩
      have looser := layer.number_le_tighter
      rcases known isOperator with ⟨isNot, low⟩ | isSign
      · exact Or.inl ⟨isNot, by omega⟩
      · exact Or.inr isSign
  | joined layer left sign right before signs after _ _ _ induction _ =>
      obtain ⟨leaf, leaves, next, more, start, rfl, known⟩ := induction
      exact ⟨leaf, _, next, _, by rw [Parser.binary, Tree.leaves_branch, Tree.leaves_of_more, start,
        List.cons_append], by rw [List.cons_append, List.cons_append], known⟩
  | negated word operand lexemes isNot _ _ =>
      exact ⟨_, _, word, lexemes, by rw [Tree.leaves_branch, Tree.leaves_of_more, Tree.leaves_leaf,
        List.cons_append], rfl, fun _ => Or.inl ⟨isNot, Nat.le_refl 3⟩⟩
  | signed sign operand lexemes isSign _ _ =>
      exact ⟨_, _, sign, lexemes, by rw [Tree.leaves_branch, Tree.leaves_of_more, Tree.leaves_leaf,
        List.cons_append], rfl, fun _ => Or.inr isSign⟩
  | raised base exponent before sign after _ _ _ induction _ =>
      obtain ⟨leaf, leaves, next, more, start, rfl, known⟩ := induction
      refine ⟨leaf, _, next, _, by
        rw [Parser.binary, Tree.leaves_branch, Tree.leaves_of_more, start, List.cons_append],
        by rw [List.cons_append], fun isOperator => ?_⟩
      rcases known isOperator with ⟨_, low⟩ | isSign
      · exact absurd low (by decide)
      · exact Or.inr isSign
  | called callee before opening items parts inside closing _ _ _ _ _ induction _ =>
      obtain ⟨leaf, leaves, next, more, start, rfl, known⟩ := induction
      exact ⟨leaf, _, next, _, by rw [Tree.leaves_branch, Tree.leaves_of_more, start,
        List.cons_append], by rw [List.cons_append, List.cons_append], known⟩
  | member value before dot name _ _ _ induction =>
      obtain ⟨leaf, leaves, next, more, start, rfl, known⟩ := induction
      exact ⟨leaf, _, next, _, by rw [Tree.leaves_branch, Tree.leaves_of_more, start,
        List.cons_append], by rw [List.cons_append], known⟩
  | name word _ _ => exact operand word .variableName (by decide)
  | number digits _ => exact operand digits .number (by decide)
  | string quoted _ => exact operand quoted .string (by decide)
  | boolean word _ => exact operand word .boolean (by decide)
  | noneWord word _ => exact operand word .noneWord (by decide)
  | parenthesized opening inner inside closing _ _ _ _ =>
      exact ⟨_, _, opening, _, by rw [Tree.leaves_branch, Tree.leaves_of_more, Tree.leaves_leaf,
        List.cons_append], by rw [List.cons_append], fun impossible => by cases impossible⟩

/-- An operator in front of its right operand. Only a word that starts no comparison stands in front
of a negation. -/
theorem operator_written (lexeme : Lexeme) (isOperator : lexeme.IsOperator)
    (whole : Grammar names layer tree lexemes) (written : Written [tree] lexemes)
    (loose : layer.number ≤ 3 → ¬lexeme.IsWord "is") :
    Written [.leaf .operator lexeme.span, tree] (lexeme :: lexemes) := by
  obtain ⟨leaf, leaves, next, more, start, rfl, known⟩ := grammar_first_leaf whole
  refine written.operator lexeme isOperator ?_
  intro other others second rest startToo parts isOperatorToo two
  rw [start] at startToo
  cases startToo
  cases parts
  rcases known isOperatorToo with ⟨isNot, low⟩ | isSign
  · rcases two with ⟨isIs, _⟩ | ⟨_, isIn⟩
    · exact loose low isIs
    · exact absurd (isNot.2.symm.trans isIn.2) (by decide)
  · have isName : next.kind = .name := by rcases two with two | two <;> exact two.2.1
    rw [isName] at isSign
    exact absurd isSign (by decide)

theorem joins_written (layer : Layer) (sign right : Tree) (signs after : List Lexeme)
    (joins : layer.Joins sign signs) (whole : Grammar names layer.tighter right after)
    (written : Written [right] after) : Written [sign, right] (signs ++ after) := by
  cases joins with
  | or word isOr =>
      refine operator_written word (Or.inr ⟨isOr.1, by rw [isOr.2]; decide⟩) whole written ?_
      exact fun _ isIs => absurd (isOr.2.symm.trans isIs.2) (by decide)
  | and word isAnd =>
      refine operator_written word (Or.inr ⟨isAnd.1, by rw [isAnd.2]; decide⟩) whole written ?_
      exact fun _ isIs => absurd (isAnd.2.symm.trans isIs.2) (by decide)
  | compare sign compares =>
      refine operator_written sign (Or.inl ?_) whole written (fun low => absurd low (by decide))
      revert compares
      generalize sign.kind = kind
      revert kind
      decide
  | word word known =>
      refine operator_written word (Or.inr ?_) whole written (fun low => absurd low (by decide))
      rcases known with isIs | isIn
      · exact ⟨isIs.1, by rw [isIs.2]; decide⟩
      · exact ⟨isIn.1, by rw [isIn.2]; decide⟩
  | words first second two => exact written.two_words first second two
  | add sign adds =>
      refine operator_written sign (Or.inl ?_) whole written (fun low => absurd low (by decide))
      revert adds
      generalize sign.kind = kind
      revert kind
      decide
  | multiply sign multiplies =>
      refine operator_written sign (Or.inl ?_) whole written (fun low => absurd low (by decide))
      revert multiplies
      generalize sign.kind = kind
      revert kind
      decide

/-- A tree of the grammar has the leaves that its lexemes are. -/
theorem grammar_written (whole : Grammar names layer tree lexemes) : Written [tree] lexemes := by
  -- The induction is on the derivation: each rule adds the leaves of its own lexemes to those of
  -- its parts.
  induction whole with
  | tighter layer tree lexemes _ induction => exact induction
  | joined layer left sign right before signs after _ joins second induction inductionSecond =>
      rw [List.append_assoc]
      exact (induction.append
        (joins_written layer sign right signs after joins second inductionSecond)).branch _
  | negated word operand lexemes isNot inner induction =>
      refine (operator_written word (Or.inr ⟨isNot.1, by rw [isNot.2]; decide⟩) inner induction
        ?_).branch _
      exact fun _ isIs => absurd (isNot.2.symm.trans isIs.2) (by decide)
  | signed sign operand lexemes isSign inner induction =>
      refine (operator_written sign (Or.inl ?_) inner induction
        (fun low => absurd low (by decide))).branch _
      revert isSign
      generalize sign.kind = kind
      revert kind
      decide
  | raised base exponent before sign after _ isPower second induction inductionSecond =>
      exact (induction.append (operator_written sign (Or.inl (by rw [isPower]; decide)) second
        inductionSecond (fun low => absurd low (by decide)))).branch _
  | called callee before opening items parts inside closing _ opens closes listed _ induction
      inductionItems =>
      have call := (induction.append
        (.arguments opening closing opens closes listed inductionItems)).branch .callExpression
      rwa [← List.append_assoc] at call
  | member value before dot name _ isDot isName induction =>
      exact (induction.append ((Written.leaf .punctuation dot (by rw [isDot]; rfl)).append
        (Written.leaf .variableName name (by rw [isName]; rfl)))).branch _
  | name word isName _ => exact .leaf .variableName word (by rw [isName]; rfl)
  | number digits isNumber => exact .leaf .number digits (by rw [isNumber]; rfl)
  | string quoted isString => exact .leaf .string quoted (by rw [isString]; rfl)
  | boolean word isBoolean =>
      refine .leaf .boolean word ?_
      simp only [List.mem_cons, List.not_mem_nil, or_false] at isBoolean
      rcases isBoolean with isTrue | isFalse
      · rw [isTrue]
        rfl
      · rw [isFalse]
        rfl
  | noneWord word isNone => exact .leaf .noneWord word (by rw [isNone]; rfl)
  | parenthesized opening inner inside closing opens closes _ induction =>
      exact (induction.parenthesized opening closing opens closes).branch _

end Grammar

end ScriptWasm
