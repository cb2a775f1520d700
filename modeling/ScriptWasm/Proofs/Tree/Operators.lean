import ScriptWasm.Proofs.Program.Parts
import ScriptWasm.Proofs.Token.Indentation
import ScriptWasm.Proofs.Tree.Steps

/-!
Which operators a program can hold. An operator that was read from one token is spelled as its kind
says. One that was read from two words ends as the second word does, which no operator of a program
does.
-/

namespace ScriptWasm

set_option autoImplicit false

/-- The last word of a text that does not end in a blank ends as the text does. -/
theorem words_from_ends (pending text : List Char) (last : Char) (solid : isBlank last = false) :
    ∃ before word, wordsFrom pending (text ++ [last]) = before ++ [word ++ [last]] := by
  induction text generalizing pending with
  | nil =>
      refine ⟨[], pending, ?_⟩
      rw [List.nil_append, wordsFrom, solid]
      simp [wordsFrom]
  | cons char rest induction =>
      rw [List.cons_append, wordsFrom]
      split
      · split
        · exact induction []
        · obtain ⟨before, word, found⟩ := induction []
          exact ⟨pending :: before, word, by rw [found, List.cons_append]⟩
      · exact induction (pending ++ [char])

theorem join_words_ends (text : List Char) (last : Char) (solid : isBlank last = false) :
    ∃ before, (joinWords (String.ofList (text ++ [last]))).toList = before ++ [last] := by
  obtain ⟨before, word, found⟩ := words_from_ends [] text last solid
  rw [joinWords, words, String.toList_ofList, found, List.map_append, List.map_singleton]
  cases before with
  | nil =>
      refine ⟨word, ?_⟩
      rw [List.map_nil, List.nil_append, String.intercalate_singleton, String.toList_ofList]
  | cons first rest =>
      rw [String.intercalate_append_of_ne_nil (by simp) (by simp), String.intercalate_singleton,
        String.toList_append, String.toList_ofList, ← List.append_assoc]
      exact ⟨_, rfl⟩

theorem binary_op_of_symbol (text : String) (op : BinaryOp)
    (found : BinaryOp.ofSymbol? text = some op) : op.symbol = text := by
  have tested := List.find?_some found
  exact of_decide_eq_true tested

theorem no_operator_ends (text : List Char) (last : Char) (letter : last = 't' ∨ last = 'n') :
    BinaryOp.ofSymbol? (joinWords (String.ofList (text ++ [last]))) = none := by
  have solid : isBlank last = false := by rcases letter with rfl | rfl <;> decide
  obtain ⟨before, ends⟩ := join_words_ends text last solid
  cases found : BinaryOp.ofSymbol? (joinWords (String.ofList (text ++ [last]))) with
  | none => rfl
  | some op =>
      rw [← binary_op_of_symbol _ op found] at ends
      have lastChar : op.symbol.toList.getLast? = some last := by
        rw [ends, List.getLast?_append, List.getLast?_singleton, Option.some_or]
      rcases letter with rfl | rfl <;> cases op <;> exact absurd lastChar (by decide)

section Readings

variable (source : List Char)

theorem binary_op_of_tree_succeeds_iff (tree : Tree) (op : BinaryOp) :
    Expr.binaryOpOfTree source tree = .ok op ↔
      tree.kind = .operator ∧ BinaryOp.ofSymbol? (joinWords (tree.text source)) = some op := by
  unfold Expr.binaryOpOfTree
  simp only [bind_succeeds_iff, expect_kind_succeeds_iff]
  constructor
  · rintro ⟨_, isOperator, found⟩
    refine ⟨isOperator, ?_⟩
    split at found
    · rename_i known
      cases found
      exact known
    · cases found
  · rintro ⟨isOperator, known⟩
    refine ⟨(), isOperator, ?_⟩
    rw [known]
    rfl

theorem unary_op_of_tree_succeeds_iff (tree : Tree) (op : UnaryOp) :
    Expr.unaryOpOfTree source tree = .ok op ↔
      tree.kind = .operator ∧ UnaryOp.ofSymbol? (tree.text source) = some op := by
  unfold Expr.unaryOpOfTree
  simp only [bind_succeeds_iff, expect_kind_succeeds_iff]
  constructor
  · rintro ⟨_, isOperator, found⟩
    refine ⟨isOperator, ?_⟩
    split at found
    · rename_i known
      cases found
      exact known
    · cases found
  · rintro ⟨isOperator, known⟩
    refine ⟨(), isOperator, ?_⟩
    rw [known]
    rfl

theorem text_of_leaf (kind : NodeKind) (lexeme : Lexeme) (sound : lexeme.Sound source) :
    (Tree.leaf kind lexeme.span).text source = lexeme.text :=
  sound.faithful.symm

theorem next_sound (stream : TokenStream) (laid : Laid source stream.rest)
    (going : stream.next.kind ≠ .endOfFile) : stream.next.Sound source := by
  rw [stream.rest_of_next going] at laid
  exact laid.1

theorem laid_past (stream : TokenStream) (laid : Laid source stream.rest) :
    Laid source stream.past.rest := by
  rw [TokenStream.past_rest]
  exact laid_of_suffix source (stream.rest.take 1) _ (by rwa [← List.drop_one, List.take_append_drop])

/-- Two words are no operator of a program. -/
theorem two_words_denote_no_operator (first second : Lexeme) (sound : second.Sound source)
    (word : second.text = "not" ∨ second.text = "in") (op : BinaryOp) :
    Expr.binaryOpOfTree source (.leaf .operator (first.span.through second.span)) ≠ .ok op := by
  intro found
  obtain ⟨_, known⟩ := (binary_op_of_tree_succeeds_iff _ _ _).mp found
  have covers : ∃ before last, second.span.slice? source = some (before ++ [last]) ∧
      (last = 't' ∨ last = 'n') := by
    have text := sound.faithful
    unfold Span.textIn at text
    cases sliced : second.span.slice? source with
    | none =>
        rw [sliced] at text
        rcases word with word | word <;> rw [word] at text <;> exact absurd text (by decide)
    | some inside =>
        rw [sliced] at text
        have same : second.text.toList = inside := by rw [text]; exact String.toList_ofList
        rcases word with word | word <;> rw [word] at same
        · exact ⟨['n', 'o'], 't', by rw [← same]; rfl, Or.inl rfl⟩
        · exact ⟨['i'], 'n', by rw [← same]; rfl, Or.inr rfl⟩
  obtain ⟨before, last, covers, letter⟩ := covers
  change BinaryOp.ofSymbol? (joinWords ((first.span.through second.span).textIn source)) =
    some op at known
  unfold Span.textIn at known
  cases sliced : (first.span.through second.span).slice? source with
  | none =>
      rw [sliced] at known
      exact absurd known (by cases op <;> decide)
  | some inside =>
      rw [sliced, Option.getD_some] at known
      rcases inside.eq_nil_or_concat with rfl | ⟨start, final, rfl⟩
      · exact absurd known (by cases op <;> decide)
      · rw [List.concat_eq_append] at sliced known
        have same : final = last := by
          rcases common_end _ _ _ _ _ sliced covers rfl with ⟨extra, whole⟩ | ⟨extra, whole⟩
          · simpa using congrArg List.getLast? whole
          · simpa using (congrArg List.getLast? whole).symm
        rw [same, no_operator_ends start last letter] at known
        cases known

end Readings

end ScriptWasm
