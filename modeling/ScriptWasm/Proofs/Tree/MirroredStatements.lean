import ScriptWasm.Proofs.Program.RetoldBlocks
import ScriptWasm.Proofs.Tree.MirroredExpressions

/-!
Statements and blocks that are read side by side. Only the ends of lines and of blocks look for
newlines, dedents and the end of the file, and they pass what the second stream has there in
addition.
-/

namespace ScriptWasm

set_option autoImplicit false

namespace Parser

open TokenStream

section Pieces

variable {source edited : List Char}

structure RetoldTypes (source edited : List Char) (types others : List Tree) : Prop where
  few : types.length ≤ 1
  typed : ∀ tree ∈ types, tree.kind = .typeDef
  retold : RetoldParts source edited types others

theorem type_after_mirrors (mark : TokenKind) (isLeaf : mark ∉ leaflessKinds) :
    Mirrors (SameLeft source edited) (SameLeft source edited)
      (fun tree copy => tree.kind = .typeDef ∧ tree.Retells source edited copy) (typeAfter mark)
      (typeAfter mark) := by
  refine mirrors_bind _ _ _ _ (expect_mirrors mark _ isLeaf) fun sign copied _ => ?_
  refine mirrors_peek _ _ (fun lexeme copy kinds => ?_) fun lexeme copy closes isNewline => ?_
  · rw [kinds]
    split <;> rename_i isKind <;> try rw [isKind]
    · exact mirrors_last _ _ _ _ (take_mirrors .name .variableName (by decide))
        fun name named same => ⟨rfl, type_retells _ _ _ _ same⟩
    · exact mirrors_last _ _ _ _ (take_mirrors .noneWord .noneWord (by decide))
        fun name named same => ⟨rfl, type_retells _ _ _ _ same⟩
    · exact mirrors_never _ _ (unexpected_fails _)
  · rcases closes with isKind | isKind <;> rw [isKind] <;>
      exact mirrors_never _ _ (unexpected_fails _)

theorem type_if_mirrors (mark : TokenKind) (isLeaf : mark ∉ leaflessKinds) :
    Mirrors (SameLeft source edited) (SameLeft source edited) (RetoldTypes source edited)
      (typeIf mark) (typeIf mark) := by
  intro before start left
  have same := left.leaf_iff mark isLeaf
  rw [typeIf, StateT.run_bind, peek_run, ok_bind, StateT.run_bind, peek_run, ok_bind]
  simp only [same]
  split
  · refine mirrors_last _ _ _ _ (type_after_mirrors mark isLeaf) (fun tree copy holds => ?_) before
      start left
    exact ⟨Nat.le_refl 1, by simpa using holds.1, .cons holds.2 .nil⟩
  · exact echoes_pure _ _ ⟨⟨Nat.zero_le 1, by simp, .nil⟩, left⟩

theorem keyword_statement_mirrors (token : TokenKind) (kind : NodeKind)
    (isSimple : kind ∈ [NodeKind.passStatement, .breakStatement, .continueStatement])
    (isLeaf : token ∉ leaflessKinds) :
    Mirrors (Facing source edited token token) (SameLeft source edited)
      (Tree.RetellsStatement source edited) (keywordStatement kind) (keywordStatement kind) := by
  refine mirrors_bind _ _ _ _ (take_mirrors token .keyword isLeaf) fun keyword copied _ => ?_
  exact mirrors_last _ _ _ _ end_of_statement_mirrors
    fun _ _ _ => word_retells kind isSimple keyword copied

theorem return_statement_mirrors :
    Mirrors (Facing source edited .returnWord .returnWord) (SameLeft source edited)
      (Tree.RetellsStatement source edited) returnStatement returnStatement := by
  refine mirrors_bind _ _ _ _ (take_mirrors .returnWord .keyword (by decide))
    fun keyword copied same => ?_
  have ends : ∀ value values, RetoldParts source edited value values →
      Mirrors (SameLeft source edited) (SameLeft source edited)
        (Tree.RetellsStatement source edited)
        (do endOfStatement; return Tree.branch .returnStatement (keyword :: value))
        (do endOfStatement; return Tree.branch .returnStatement (copied :: values)) :=
    fun value values retold => mirrors_last _ _ _ _ end_of_statement_mirrors
      fun _ _ _ => return_retells _ _ (.cons same.retells retold)
  have nothing : ∀ kind other, Mirrors (Facing source edited kind other) (SameLeft source edited)
      (Tree.RetellsStatement source edited)
      (do endOfStatement; return Tree.branch .returnStatement [keyword])
      (do endOfStatement; return Tree.branch .returnStatement [copied]) :=
    fun kind other => mirrors_early _ _ (ends [] [] .nil) fun _ _ facing => facing.left
  refine mirrors_peek _ _ (fun lexeme copy kinds => ?_) fun lexeme copy closes isNewline => ?_
  · rw [kinds]
    split
    · exact nothing _ _
    · exact nothing _ _
    · exact nothing _ _
    · refine mirrors_early _ _ ?_ fun _ _ facing => facing.left
      exact mirrors_bind _ _ _ _ expression_mirrors fun value other retells =>
        ends [value] [other] (.cons retells .nil)
  · rcases closes with isKind | isKind <;> rw [isKind, isNewline] <;> exact nothing _ _

theorem expression_or_assignment_mirrors :
    Mirrors (SameLeft source edited) (SameLeft source edited) (Tree.RetellsStatement source edited)
      expressionOrAssignment expressionOrAssignment := by
  refine mirrors_bind _ _ _ _ expression_mirrors fun target copy same => ?_
  refine mirrors_bind _ _ _ _ (type_if_mirrors .colon (by decide)) fun declared types typed => ?_
  refine mirrors_bind _ _ _ _ (repeated_mirrors _ (RetoldParts source edited)
    (RetoldParts source edited) _ _ ?_ (fun _ _ left => left) ?_ .nil
    fun _ _ _ _ first rest => List.rel_append first rest) fun values others valued => ?_
  · refine mirrors_bind _ _ _ _ (take_if_mirrors .assign .assignOp (by decide))
      fun sign mark signs => ?_
    cases signs with
    | none => exact mirrors_pure _ _ .none fun _ _ left => left
    | some signs =>
        exact mirrors_last _ _ _ _ expression_mirrors fun value other retells =>
          .some (.cons signs.retells (.cons retells .nil))
  · intro before after items run
    obtain ⟨sign, middle, ran, run⟩ := (run_bind_succeeds_iff _ _ _ _ _).mp run
    cases sign with
    | none => cases run
    | some sign =>
        obtain ⟨value, _, ranValue, run⟩ := (run_bind_succeeds_iff _ _ _ _ _).mp run
        cases run
        have shorter := take_if_length .assign .assignOp (by decide) before middle sign ran
        have fewer := takes_length_le _ _ expression_takes middle _ value ranValue
        omega
  · exact mirrors_last _ _ _ _ end_of_statement_mirrors fun _ _ _ =>
      assignment_retells _ _ (.cons same (List.rel_append typed.retold valued))

theorem parameters_mirror :
    Mirrors (SameLeft source edited) (SameLeft source edited)
      (Tree.RetellsParameters source edited) parameters parameters := by
  have items : Mirrors (SameLeft source edited) (SameLeft source edited)
      (RetoldParam source edited) (do let name ← expectName; return name :: (← typeIf .colon))
      (do let name ← expectName; return name :: (← typeIf .colon)) := by
    refine mirrors_bind _ _ _ _ expect_name_mirrors fun name named same => ?_
    exact mirrors_last _ _ _ _ (type_if_mirrors .colon (by decide)) fun types others typed =>
      ⟨name, named, types, others, rfl, rfl, same, typed.few, typed.retold⟩
  have takes : Takes (do let name ← expectName; return name :: (← typeIf .colon)) Written :=
    takes_bind _ _ expect_name_takes fun name taken written =>
      takes_last _ _ (type_if_takes .colon (Or.inl rfl)) fun declared more typed =>
        written.append typed
  refine mirrors_answers _ _ (parenthesized_mirrors .paramList _ _ _ _ items takes) ?_
  rintro _ _ ⟨opening, parts, closing, opened, copies, closed, rfl, rfl, opens, closes, listed⟩
  exact parameters_retell opening closing opened closed parts copies opens closes listed

end Pieces

section Statements

variable {source edited : List Char} (parse again : Parser Tree)
variable (statements : Mirrors (SameLeft source edited) (SameLeft source edited)
  (Tree.RetellsStatement source edited) parse again)
variable (parses : Takes parse fun tree taken => LaidOut [tree] taken)

include statements parses

theorem statements_until_mirror (ends : List TokenKind) :
    Mirrors (SameLines source edited) (Settled source edited) (RetoldStatements source edited)
      (statementsUntil parse ends) (statementsUntil again ends) := by
  refine mirrors_bind _ _ _ _ skip_newlines_mirrors fun _ _ _ => ?_
  refine repeated_mirrors _ (RetoldStatements source edited) _ _ _ ?_
    (fun _ _ settled => settled.left) (statement_step_shrinks parse parses ends) .nil
    fun _ _ _ _ first rest => List.rel_append first rest
  refine mirrors_peek_settled _ _ fun lexeme copy kinds => ?_
  rw [kinds]
  split
  · exact mirrors_pure _ _ .none fun _ _ facing =>
      ⟨facing.left, facing.copied.trans facing.kind.symm⟩
  · refine mirrors_early _ _ ?_ fun _ _ facing => facing.left
    refine mirrors_bind _ _ _ _ statements fun tree other retells => ?_
    refine mirrors_early _ _ ?_ fun _ _ left => left.lines
    exact mirrors_last _ _ _ _ skip_newlines_mirrors fun _ _ _ => .some (.cons retells .nil)

theorem block_mirrors :
    Mirrors (SameLeft source edited) (SameLeft source edited) (Tree.RetellsBlock source edited)
      (block parse) (block again) := by
  refine mirrors_bind _ _ _ _ (expect_mirrors .colon .punctuation (by decide))
    fun colon mark same => ?_
  refine mirrors_peek _ _ (fun lexeme copy kinds => ?_) fun lexeme copy closes _ => ?_
  · rw [kinds]
    split
    · exact mirrors_fails _ _ _ (unexpected_fails _)
    rename_i isNewline
    rw [not_not.mp isNewline]
    refine mirrors_bind _ _ _ _ (advance_mirrors .newline) fun _ _ _ => ?_
    refine mirrors_peek _ _ (fun lexeme copy kinds => ?_) fun lexeme copy closes _ => ?_
    · rw [kinds]
      split
      · refine mirrors_never _ _ fun before after result run => ?_
        rw [StateT.run_bind, peek_run, ok_bind] at run
        cases run
      rename_i isIndent
      rw [not_not.mp isIndent]
      refine mirrors_bind _ _ _ _ (advance_mirrors .indent) fun _ _ _ => ?_
      refine mirrors_early _ _ ?_ fun _ _ left => left.lines
      refine mirrors_bind _ _ _ _ (statements_until_mirror parse again statements parses _)
        fun members copies retold => ?_
      have body : (Tree.branch .body (colon :: members)).RetellsBlock source edited
          (.branch .body (mark :: copies)) :=
        ⟨rfl, rfl, colon, mark, members, copies, rfl, rfl, same, retold⟩
      -- Both streams are past their newlines, so that the same of them ends the block.
      refine mirrors_peek_settled _ _ fun lexeme copy kinds => ?_
      rw [kinds]
      split
      · rename_i isDedent
        rw [isDedent]
        exact mirrors_last _ _ _ _ (advance_mirrors .dedent) fun _ _ _ => body
      · exact mirrors_pure _ _ body fun _ _ facing => facing.left
    · rw [if_pos (by rcases closes with isKind | isKind <;> rw [isKind] <;> decide)]
      refine mirrors_never _ _ fun before after result run => ?_
      rw [StateT.run_bind, peek_run, ok_bind] at run
      cases run
  · rw [if_pos (by rcases closes with isKind | isKind <;> rw [isKind] <;> decide)]
    exact mirrors_fails _ _ _ (unexpected_fails _)

def RetoldGuarded (source edited : List Char) (parts copies : List Tree) : Prop :=
  ∃ test again block body, parts = [test, block] ∧ copies = [again, body] ∧
    test.Retells source edited again ∧ block.RetellsBlock source edited body

theorem guarded_mirrors :
    Mirrors (SameLeft source edited) (SameLeft source edited) (RetoldGuarded source edited)
      (guarded parse) (guarded again) := by
  refine mirrors_bind _ _ _ _ expression_mirrors fun test copy tests => ?_
  exact mirrors_last _ _ _ _ (block_mirrors parse again statements parses)
    fun block body blocks => ⟨test, copy, block, body, rfl, rfl, tests, blocks⟩

theorem if_statement_mirrors :
    Mirrors (Facing source edited .ifWord .ifWord) (SameLeft source edited)
      (Tree.RetellsStatement source edited) (ifStatement parse) (ifStatement again) := by
  refine mirrors_bind _ _ _ _ (take_mirrors .ifWord .keyword (by decide))
    fun keyword copied same => ?_
  refine mirrors_bind _ _ _ _ (guarded_mirrors parse again statements parses) ?_
  rintro _ _ ⟨test, copy, block, body, rfl, rfl, tests, blocks⟩
  refine mirrors_bind _ _ _ _ (repeated_mirrors _
    (fun items copies => ∃ word mark parts others, items = word :: parts ∧ copies = mark :: others ∧
      word.SameWord source edited mark ∧ RetoldGuarded source edited parts others)
    (fun rest others => ∀ last lasts, RetoldBranches source edited last lasts →
      RetoldBranches source edited (rest ++ last) (others ++ lasts)) _ _ ?_
    (fun _ _ left => left) ?_ (fun _ _ branches => branches) ?_) fun rest others branches => ?_
  · refine mirrors_bind _ _ _ _ (take_if_mirrors .elifWord .keyword (by decide))
      fun word mark words => ?_
    cases words with
    | none => exact mirrors_pure _ _ .none fun _ _ left => left
    | some words =>
        exact mirrors_last _ _ _ _ (guarded_mirrors parse again statements parses)
          fun parts others guards => .some ⟨_, _, parts, others, rfl, rfl, words, guards⟩
  · intro before after items run
    obtain ⟨word, middle, ran, run⟩ := (run_bind_succeeds_iff _ _ _ _ _).mp run
    cases word with
    | none => cases run
    | some word =>
        obtain ⟨parts, _, ranParts, run⟩ := (run_bind_succeeds_iff _ _ _ _ _).mp run
        cases run
        have shorter := take_if_length .elifWord .keyword (by decide) before middle word ran
        have fewer := takes_length_le _ _ (guarded_takes parse parses) middle _ parts ranParts
        omega
  · rintro _ _ rest others ⟨word, mark, _, _, rfl, rfl, words, later, next, inner, last, rfl, rfl,
      laterTests, laterBlocks⟩ branches final finals tail
    exact .elif _ _ _ _ _ _ _ _ words laterTests laterBlocks (branches final finals tail)
  have whole : ∀ last lasts, RetoldBranches source edited last lasts →
      (Tree.branch .ifStatement (keyword :: [test, block] ++ rest ++ last)).RetellsStatement source
        edited (.branch .ifStatement (copied :: [copy, body] ++ others ++ lasts)) :=
    fun last lasts tail => if_retells keyword copied test copy block body _ _ same tests blocks
      (branches last lasts tail)
  refine mirrors_bind _ _ _ _ (take_if_mirrors .elseWord .keyword (by decide))
    fun word mark words => ?_
  cases words with
  | none => exact mirrors_pure _ _ (whole [] [] .none) fun _ _ left => left
  | some words =>
      exact mirrors_last _ _ _ _ (block_mirrors parse again statements parses)
        fun last inner laterBlocks => whole _ _ (.otherwise _ _ last inner words laterBlocks)

theorem while_statement_mirrors :
    Mirrors (Facing source edited .whileWord .whileWord) (SameLeft source edited)
      (Tree.RetellsStatement source edited) (whileStatement parse) (whileStatement again) := by
  refine mirrors_bind _ _ _ _ (take_mirrors .whileWord .keyword (by decide))
    fun keyword copied same => ?_
  refine mirrors_last _ _ _ _ (guarded_mirrors parse again statements parses) ?_
  rintro _ _ ⟨test, copy, block, body, rfl, rfl, tests, blocks⟩
  exact while_retells keyword copied test copy block body tests blocks

theorem function_definition_mirrors :
    Mirrors (Facing source edited .defWord .defWord) (SameLeft source edited)
      (Tree.RetellsStatement source edited) (functionDefinition parse)
      (functionDefinition again) := by
  refine mirrors_bind _ _ _ _ (take_mirrors .defWord .keyword (by decide))
    fun keyword copied same => ?_
  refine mirrors_bind _ _ _ _ expect_name_mirrors fun name named sameName => ?_
  refine mirrors_bind _ _ _ _ parameters_mirror fun params listed sameParams => ?_
  refine mirrors_bind _ _ _ _ (type_if_mirrors .arrow (by decide)) fun result results types => ?_
  exact mirrors_last _ _ _ _ (block_mirrors parse again statements parses)
    fun block body blocks => function_retells _ _ _ _ _ _ _ _ _ _ same sameName sameParams types.few
      types.typed types.retold blocks

theorem class_definition_mirrors :
    Mirrors (Facing source edited .classWord .classWord) (SameLeft source edited)
      (Tree.RetellsStatement source edited) (classDefinition parse) (classDefinition again) := by
  refine mirrors_bind _ _ _ _ (take_mirrors .classWord .keyword (by decide))
    fun keyword copied same => ?_
  refine mirrors_bind _ _ _ _ expect_name_mirrors fun name named sameName => ?_
  have ends : ∀ bases lists, bases.length ≤ 1 → (∀ tree ∈ bases, tree.kind = .argList) →
      List.Forall₂ (fun base other => other.kind = base.kind) bases lists →
      Mirrors (SameLeft source edited) (SameLeft source edited)
        (Tree.RetellsStatement source edited)
        (do return Tree.branch .classDefinition (keyword :: name :: bases ++ [← block parse]))
        (do return Tree.branch .classDefinition (copied :: named :: lists ++ [← block again])) :=
    fun bases lists few listed same => mirrors_last _ _ _ _
      (block_mirrors parse again statements parses) fun block body blocks =>
        class_retells _ _ _ _ _ _ _ _ sameName few listed same blocks
  refine mirrors_peek _ _ (fun lexeme copy kinds => ?_) fun lexeme copy closes isNewline => ?_
  · rw [kinds]
    split
    · refine mirrors_early _ _ ?_ fun _ _ facing => facing.left
      refine mirrors_remaining _ _ fun count more deeper => ?_
      refine mirrors_early _ _ ?_ fun _ _ bounded => bounded.left
      exact mirrors_bind _ _ _ _ (bases_mirror count more deeper) fun list other retells =>
        ends [list] [other] (Nat.le_refl 1) (by simpa using retells.isList)
          (.cons (retells.copied.trans retells.isList.symm) .nil)
    · exact mirrors_early _ _ (ends [] [] (Nat.zero_le 1) (by simp) .nil)
        fun _ _ facing => facing.left
  · rcases closes with isKind | isKind <;> rw [isKind, isNewline] <;>
      exact mirrors_early _ _ (ends [] [] (Nat.zero_le 1) (by simp) .nil)
        fun _ _ facing => facing.left

theorem statement_of_mirrors :
    Mirrors (SameLeft source edited) (SameLeft source edited) (Tree.RetellsStatement source edited)
      (statementOf parse) (statementOf again) := by
  have other : ∀ kind copied, Mirrors (Facing source edited kind copied) (SameLeft source edited)
      (Tree.RetellsStatement source edited) expressionOrAssignment expressionOrAssignment :=
    fun kind copied => mirrors_early _ _ expression_or_assignment_mirrors
      fun _ _ facing => facing.left
  refine mirrors_peek _ _ (fun lexeme copy kinds => ?_) fun lexeme copy closes isNewline => ?_
  · rw [kinds]
    split <;> rename_i isKind <;> try rw [isKind]
    · exact function_definition_mirrors parse again statements parses
    · exact class_definition_mirrors parse again statements parses
    · exact if_statement_mirrors parse again statements parses
    · exact while_statement_mirrors parse again statements parses
    · exact return_statement_mirrors
    · exact keyword_statement_mirrors .passWord .passStatement (by decide) (by decide)
    · exact keyword_statement_mirrors .breakWord .breakStatement (by decide) (by decide)
    · exact keyword_statement_mirrors .continueWord .continueStatement (by decide) (by decide)
    · exact other _ _
  · rcases closes with isKind | isKind <;> rw [isKind, isNewline] <;> exact other _ _

end Statements

section Scripts

variable {source edited : List Char}

theorem statement_up_to_mirrors (depth more : Nat) (deeper : depth ≤ more) :
    Mirrors (SameLeft source edited) (SameLeft source edited) (Tree.RetellsStatement source edited)
      (statementUpTo depth) (statementUpTo more) := by
  induction depth generalizing more with
  | zero => exact mirrors_never _ _ (unexpected_fails _)
  | succ depth induction =>
      obtain ⟨less, rfl⟩ : ∃ less, more = less + 1 := ⟨more - 1, by omega⟩
      exact statement_of_mirrors _ _ (induction less (Nat.le_of_succ_le_succ deeper))
        (statement_up_to_takes depth)

theorem statement_mirrors :
    Mirrors (SameLeft source edited) (SameLeft source edited) (Tree.RetellsStatement source edited)
      statement statement :=
  mirrors_remaining _ _ fun count more deeper =>
    mirrors_early _ _ (statement_up_to_mirrors count more deeper) fun _ _ bounded => bounded.left

end Scripts

end Parser

end ScriptWasm
