import ScriptWasm.Proofs.Echo
import ScriptWasm.Proofs.Program.Erasure
import ScriptWasm.Proofs.Tree.Expressions

/-!
Trees of two sources that denote the same. A tree is told again by another one when all that can be
read from the first can be read from the second, and differs in spans alone. What is told again
follows from the parts of a tree, as what it denotes does.
-/

namespace ScriptWasm

set_option autoImplicit false

/-- Values between which nothing is left to tell after something was forgotten. -/
def SameBy {Value Erased : Type} (forget : Value → Erased) (value answer : Value) : Prop :=
  forget answer = forget value

structure Tree.SameWord (source edited : List Char) (tree copy : Tree) : Prop where
  kind : copy.kind = tree.kind
  text : copy.text edited = tree.text source
  alone : tree.children = []
  copied : copy.children = []

structure Tree.Retells (source edited : List Char) (tree copy : Tree) : Prop where
  kind : copy.kind = tree.kind
  expr : Echoes (SameBy (Expr.mapNotes Note.withoutSpan)) (Expr.ofTree source tree)
    (Expr.ofTree edited copy)
  ty : tree.kind = .typeDef →
    Echoes (SameBy Prod.fst) (Ty.ofTree source tree) (Ty.ofTree edited copy)

structure Tree.RetellsArguments (source edited : List Char) (tree copy : Tree) : Prop where
  isList : tree.kind = .argList
  copied : copy.kind = .argList
  args : Echoes (SameBy (Expr.mapAllNotes Note.withoutSpan)) (Expr.argsOfTree source tree)
    (Expr.argsOfTree edited copy)

/-- The parts of two lists with commas between them, where items are told again by items. -/
inductive RetoldList (source edited : List Char) (good : List Tree → List Tree → Prop) :
    List Tree → List Tree → Prop where
  | none : RetoldList source edited good [] []
  | last (item copy : List Tree) (same : good item copy) : RetoldList source edited good item copy
  | more (item copy : List Tree) (comma mark : Tree) (parts others : List Tree)
      (same : good item copy) (isComma : comma.SameWord source edited mark)
      (rest : RetoldList source edited good parts others) :
      RetoldList source edited good (item ++ comma :: parts) (copy ++ mark :: others)

section Words

variable {source edited : List Char} {tree copy : Tree}

theorem Tree.SameWord.expects (same : tree.SameWord source edited copy) (text : String)
    (expected : tree.expectText source text = .ok ()) : copy.expectText edited text = .ok () := by
  rw [expect_text_succeeds_iff] at expected ⊢
  rw [same.text]
  exact ⟨expected.1, same.copied⟩

theorem Tree.SameWord.token (same : tree.SameWord source edited copy) (kind : NodeKind)
    (text : String) : copy.isToken edited kind text = tree.isToken source kind text := by
  rw [Tree.isToken, Tree.isToken, same.kind, same.text]

theorem word_of_same_text (same : copy.text edited = tree.text source) (value : Word)
    (read : Expr.wordOfTree source tree = .ok value) :
    Expr.wordOfTree edited copy = .ok value := by
  unfold Expr.wordOfTree at read ⊢
  rw [same]
  simp only at read ⊢
  split at read
  · rename_i digits
    rw [if_pos digits]
    split at read
    · cases read
    · rename_i fits
      rw [if_neg fits]
      exact read
  · cases read

theorem Tree.SameWord.retells (same : tree.SameWord source edited copy) :
    tree.Retells source edited copy := by
  obtain ⟨kind, text, alone, copied⟩ := same
  refine ⟨kind, ?_, ?_⟩
  · rcases tree with ⟨node, span, children⟩
    rcases copy with ⟨other, place, parts⟩
    change other = node at kind
    change children = [] at alone
    change parts = [] at copied
    subst kind alone copied
    intro expr built
    cases other with
    | variableName =>
        cases built
        exact ⟨_, rfl, by rw [SameBy, Expr.mapNotes, Expr.mapNotes, text]; rfl⟩
    | boolean =>
        cases built
        exact ⟨_, rfl, by rw [SameBy, Expr.mapNotes, Expr.mapNotes, text]; rfl⟩
    | noneWord =>
        cases built
        exact ⟨_, rfl, rfl⟩
    | number =>
        change (Expr.wordOfTree source (.node .number span []) >>= fun value =>
          pure (Expr.lit ⟨span, none⟩ (.int value))) = .ok expr at built
        simp only [bind_succeeds_iff, pure_succeeds_iff] at built
        obtain ⟨value, read, rfl⟩ := built
        refine ⟨.lit ⟨place, none⟩ (.int value), ?_, rfl⟩
        change (Expr.wordOfTree edited (.node .number place []) >>= fun value =>
          pure (Expr.lit ⟨place, none⟩ (.int value))) = _
        rw [word_of_same_text text value read]
        rfl
    | _ => cases built
  · intro isType value built
    obtain ⟨mark, name, parts, _⟩ := (Ty.of_tree_succeeds_iff source tree value.1 value.2).mp built
    rw [alone] at parts
    cases parts

/-- The name under a tree is told again with it. -/
theorem Tree.Retells.name (retells : tree.Retells source edited copy)
    (named : tree.kind = .variableName) : copy.text edited = tree.text source := by
  obtain ⟨found, built, same⟩ := retells.expr _ (of_named_tree source tree named)
  rw [of_named_tree edited copy (retells.kind.trans named)] at built
  cases built
  simp only [SameBy, Expr.mapNotes, Expr.name.injEq] at same
  exact same.2

end Words

section Expressions

variable {source edited : List Char}

theorem binary_retells (left sign right leftCopy mark rightCopy : Tree)
    (first : left.Retells source edited leftCopy)
    (signs : ∀ op, Expr.binaryOpOfTree source sign = .ok op →
      Expr.binaryOpOfTree edited mark = .ok op)
    (second : right.Retells source edited rightCopy) :
    (Parser.binary left sign right).Retells source edited
      (Parser.binary leftCopy mark rightCopy) where
  kind := rfl
  expr := by
    intro expr built
    obtain ⟨one, op, two, builtOne, builtOp, builtTwo, rfl⟩ :=
      (of_binary_succeeds_iff source left sign right expr).mp built
    obtain ⟨again, found, same⟩ := first.expr one builtOne
    obtain ⟨later, foundLater, sameLater⟩ := second.expr two builtTwo
    refine ⟨_, (of_binary_succeeds_iff edited leftCopy mark rightCopy _).mpr
      ⟨again, op, later, found, signs op builtOp, foundLater, rfl⟩, ?_⟩
    simp only [SameBy, Expr.mapNotes] at same sameLater ⊢
    rw [same, sameLater]
    rfl
  ty := nofun

theorem unary_retells (sign operand mark copy : Tree) (signs : sign.SameWord source edited mark)
    (inner : operand.Retells source edited copy) :
    (Tree.branch .unaryExpression [sign, operand]).Retells source edited
      (.branch .unaryExpression [mark, copy]) where
  kind := rfl
  expr := by
    intro expr built
    obtain ⟨op, one, builtOp, builtOne, rfl⟩ :=
      (of_unary_succeeds_iff source sign operand expr).mp built
    obtain ⟨again, found, same⟩ := inner.expr one builtOne
    have foundOp : Expr.unaryOpOfTree edited mark = .ok op := by
      rw [unary_op_of_tree_succeeds_iff] at builtOp ⊢
      rw [signs.kind, signs.text]
      exact builtOp
    refine ⟨_, (of_unary_succeeds_iff edited mark copy _).mpr ⟨op, again, foundOp, found, rfl⟩, ?_⟩
    simp only [SameBy, Expr.mapNotes] at same ⊢
    rw [same]
    rfl
  ty := nofun

theorem paren_retells (opening inner closing opened copy closed : Tree)
    (opens : opening.SameWord source edited opened) (inside : inner.Retells source edited copy)
    (closes : closing.SameWord source edited closed) :
    (Tree.branch .parenthesizedExpression [opening, inner, closing]).Retells source edited
      (.branch .parenthesizedExpression [opened, copy, closed]) where
  kind := rfl
  expr := by
    intro expr built
    obtain ⟨one, isOpening, builtOne, isClosing, rfl⟩ :=
      (of_paren_succeeds_iff source opening inner closing expr).mp built
    obtain ⟨again, found, same⟩ := inside.expr one builtOne
    refine ⟨_, (of_paren_succeeds_iff edited opened copy closed _).mpr
      ⟨again, opens.expects "(" isOpening, found, closes.expects ")" isClosing, rfl⟩, ?_⟩
    simp only [SameBy, Expr.mapNotes] at same ⊢
    rw [same]
    rfl
  ty := nofun

theorem call_retells (callee list copy other : Tree) (first : callee.Retells source edited copy)
    (second : list.RetellsArguments source edited other) :
    (Tree.branch .callExpression [callee, list]).Retells source edited
      (.branch .callExpression [copy, other]) where
  kind := rfl
  expr := by
    intro expr built
    obtain ⟨args, named, _, builtArgs, rfl⟩ :=
      (of_call_succeeds_iff source callee list expr).mp built
    obtain ⟨again, found, same⟩ := second.args args builtArgs
    refine ⟨_, (of_call_succeeds_iff edited copy other _).mpr
      ⟨again, first.kind.trans named, second.copied, found, rfl⟩, ?_⟩
    simp only [SameBy, Expr.mapNotes] at same ⊢
    rw [same, first.name named]
    rfl
  ty := nofun

/-- A member denotes nothing, and so there is nothing to tell again. -/
theorem member_retells (parts copies : List Tree) :
    (Tree.branch .memberExpression parts).Retells source edited
      (.branch .memberExpression copies) where
  kind := rfl
  expr expr built := absurd built (member_denotes_nothing source parts expr)
  ty := nofun

theorem mark_denotes_nothing (source : List Char) (tree : Tree) (isMark : tree.kind = .punctuation)
    (expr : Expr) : Expr.ofTree source tree ≠ .ok expr := by
  rcases tree with ⟨kind, span, children⟩
  have isMark : kind = .punctuation := isMark
  subst isMark
  exact nofun

theorem expects_end (rest others : List Tree) (ended : rest = [] → others = [])
    (isEnd : Tree.expectEnd source rest = .ok ()) : Tree.expectEnd edited others = .ok () := by
  rw [expect_end_succeeds_iff] at isEnd ⊢
  exact ended isEnd

theorem expects_kind (tree copy : Tree) (same : copy.kind = tree.kind) (kind : NodeKind)
    (isKind : tree.expectKind source kind = .ok ()) : copy.expectKind edited kind = .ok () := by
  rw [expect_kind_succeeds_iff] at isKind ⊢
  exact same.trans isKind

theorem argument_retold (item copy separator mark : Tree) (rest others : List Tree)
    (same : item.Retells source edited copy) (separates : separator.SameWord source edited mark)
    (ended : rest = [] → others = [])
    (later : Echoes (SameBy (Expr.mapAllNotes Note.withoutSpan))
      (Expr.argsOfParts source separator rest) (Expr.argsOfParts edited mark others))
    (before start : Tree) :
    Echoes (SameBy (Expr.mapAllNotes Note.withoutSpan))
      (Expr.argsOfParts source before (item :: separator :: rest))
      (Expr.argsOfParts edited start (copy :: mark :: others)) := by
  -- A closing parenthesis is told by its kind and text, and its copy must not be taken for an item.
  by_cases isMark : item.kind = .punctuation
  · intro args read
    rw [Expr.argsOfParts] at read
    split at read
    · cases read
    · obtain ⟨arg, built, _⟩ := (bind_succeeds_iff _ _ _).mp read
      exact absurd built (mark_denotes_nothing source item isMark arg)
  · have noToken : ∀ text tree, tree.kind = item.kind →
        ¬Tree.isToken text .punctuation ")" tree = true := by
      intro text tree sameKind isToken
      rw [Tree.isToken, Bool.and_eq_true, decide_eq_true_eq, sameKind] at isToken
      exact isMark isToken.1
    rw [Expr.argsOfParts, Expr.argsOfParts, if_neg (noToken source item rfl),
      if_neg (noToken edited copy same.kind)]
    refine echoes_bind _ _ same.expr fun arg found sameArg => ?_
    simp only [separates.text]
    split
    · refine echoes_bind _ _ later fun tail again sameTail => ?_
      refine echoes_pure _ _ ?_
      simp only [SameBy, Expr.mapAllNotes] at sameArg sameTail ⊢
      rw [sameArg, sameTail]
    · split
      · refine echoes_checked _ _ _ _ (expects_end rest others ended) fun _ => echoes_pure _ _ ?_
        simp only [SameBy, Expr.mapAllNotes] at sameArg ⊢
        rw [sameArg]
      · exact echoes_failure _

theorem args_retold (parts copies : List Tree) (closing closed : Tree)
    (closes : closing.SameWord source edited closed)
    (listed : RetoldList source edited (fun item copy => ∃ tree other, item = [tree] ∧
      copy = [other] ∧ tree.Retells source edited other) parts copies) (before start : Tree) :
    Echoes (SameBy (Expr.mapAllNotes Note.withoutSpan))
      (Expr.argsOfParts source before (parts ++ [closing]))
      (Expr.argsOfParts edited start (copies ++ [closed])) := by
  induction listed generalizing before start with
  | none =>
      rw [List.nil_append, List.nil_append, Expr.argsOfParts, Expr.argsOfParts, closes.token]
      split
      · exact echoes_pure [] [] rfl
      · intro args read
        obtain ⟨_, _, impossible⟩ := (bind_succeeds_iff _ _ _).mp read
        cases impossible
  | last item copy same =>
      obtain ⟨tree, other, rfl, rfl, retells⟩ := same
      exact argument_retold tree other closing closed [] [] retells closes (fun _ => rfl)
        (by rw [Expr.argsOfParts]; exact echoes_failure _) before start
  | more item copy comma mark parts others same isComma rest induction =>
      obtain ⟨tree, other, rfl, rfl, retells⟩ := same
      rw [List.append_assoc, List.append_assoc]
      exact argument_retold tree other comma mark _ _ retells isComma (by simp)
        (induction comma mark) before start

theorem arguments_retell (opening closing opened closed : Tree) (parts copies : List Tree)
    (opens : opening.SameWord source edited opened)
    (closes : closing.SameWord source edited closed)
    (listed : RetoldList source edited (fun item copy => ∃ tree other, item = [tree] ∧
      copy = [other] ∧ tree.Retells source edited other) parts copies) :
    (Tree.branch .argList (opening :: parts ++ [closing])).RetellsArguments source edited
      (.branch .argList (opened :: copies ++ [closed])) where
  isList := rfl
  copied := rfl
  args := by
    rw [List.cons_append, List.cons_append, Tree.branch, Tree.branch, Expr.argsOfTree,
      Expr.argsOfTree]
    exact echoes_checked _ _ _ _ (opens.expects "(") fun _ =>
      args_retold parts copies closing closed closes listed opening opened

end Expressions

end ScriptWasm
