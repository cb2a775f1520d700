import ScriptWasm.Proofs.Tree.Expressions

/-!
What the levels of the grammar read, from the tightest to the loosest, and with them every
expression.
-/

namespace ScriptWasm

set_option autoImplicit false

namespace Parser

variable (source : List Char)

section Levels

variable (parse : Level → Parser Tree)
variable (goesBack : ∀ level : Level, Yields source (parse level)
  fun before tree => tree.Reads source level.number before)

include goesBack

theorem primary_yields : Yields source (primary parse) fun before tree =>
    tree.Reads source 9 before := by
  intro before after tree laid run
  rw [primary, StateT.run_bind, peek_run, ok_bind] at run
  split at run
  · rename_i isName
    rw [take_run] at run
    cases run
    exact ⟨name_reads source before laid isName, past_suffix before⟩
  · rw [take_run] at run
    cases run
    exact ⟨number_reads source _ _, past_suffix before⟩
  · rw [take_run] at run
    cases run
    refine ⟨⟨nofun, fun expr built => ?_⟩, past_suffix before⟩
    exact absurd built (leaf_reads_nothing source .string _ (by simp) expr)
  · rw [take_run] at run
    cases run
    exact ⟨boolean_reads source _ _, past_suffix before⟩
  · rw [take_run] at run
    cases run
    exact ⟨boolean_reads source _ _, past_suffix before⟩
  · rw [take_run] at run
    cases run
    exact ⟨none_reads source _ _, past_suffix before⟩
  · rw [StateT.run_bind, take_run, ok_bind] at run
    simp only [run_bind_succeeds_iff, expect_succeeds_iff, run_pure_succeeds_iff] at run
    obtain ⟨inner, middle, ran, _, _, ⟨_, rfl, rfl⟩, rfl, rfl⟩ := run
    obtain ⟨readsInner, suffix⟩ := goesBack .expression before.past middle inner
      (laid_past source before laid) ran
    refine ⟨⟨nofun, fun expr built => ?_⟩,
      (past_suffix middle).trans (suffix.trans (past_suffix before))⟩
    obtain ⟨found, _, builtFound, _, rfl⟩ := (of_paren_succeeds_iff source _ _ _ expr).mp built
    have stands := readsInner.stands (by decide) found builtFound
    exact ⟨stands.1, ⟨rfl, stands.2⟩, Nat.le_refl 9, fun impossible => by cases impossible⟩
  · exact absurd run (unexpected_fails _ _ _ _)

theorem arguments_yields : Yields source (arguments parse) fun _ tree =>
    tree.kind = .argList ∧ ∀ part ∈ tree.children, part.Stands source := by
  apply parenthesized_yields
  · intro before after parts laid run
    simp only [run_bind_succeeds_iff, run_pure_succeeds_iff] at run
    obtain ⟨tree, middle, ran, rfl, rfl⟩ := run
    obtain ⟨readsTree, suffix⟩ := goesBack .expression before middle tree laid ran
    refine ⟨fun part member => ?_, suffix⟩
    rw [List.mem_singleton.mp member]
    exact readsTree.stands (by decide)
  · intro span expr built
    exact absurd built (leaf_reads_nothing source .punctuation span (by simp) expr)

omit goesBack in
theorem call_reads (callee list : Tree) (before : List Lexeme)
    (readsCallee : callee.Reads source 9 before)
    (stand : ∀ part ∈ list.children, part.Stands source) :
    (Tree.branch .callExpression [callee, list]).Reads source 9 before where
  notBody := nofun
  reads expr built := by
    obtain ⟨args, named, _, builtArgs, rfl⟩ := (of_call_succeeds_iff source callee list expr).mp built
    have readName := readsCallee.reads _ (of_named_tree source callee named)
    have readArgs : Expr.AllWhole args ∧ Expr.NotesOfAll Note.Unannotated args := by
      rcases list with ⟨kind, span, children⟩
      cases children with
      | nil => cases builtArgs
      | cons opening parts =>
          rw [Expr.argsOfTree] at builtArgs
          simp only [bind_succeeds_iff] at builtArgs
          obtain ⟨_, _, builtArgs⟩ := builtArgs
          exact args_of_parts_stand source opening parts
            (fun part member => stand part (List.mem_cons_of_mem _ member)) args builtArgs
    exact ⟨⟨readName.readable, readArgs.1⟩, ⟨rfl, readArgs.2⟩, Nat.le_refl 9, readName.leading⟩

theorem postfixed_yields : Yields source (postfixed parse) fun before tree =>
    tree.Reads source 9 before := by
  intro before after tree laid run
  rw [postfixed, run_bind_succeeds_iff] at run
  obtain ⟨first, middle, ran, run⟩ := run
  obtain ⟨readsFirst, suffix⟩ := primary_yields source parse goesBack before middle first laid ran
  rw [extended, StateT.run_bind, remaining_run, ok_bind] at run
  have kept := extend_up_to_yields source _ (fun tree => tree.Reads source 9 before.rest)
    (fun value readsValue => ?_) _ first readsFirst middle after tree
      (laid_after source _ _ laid suffix) run
  · exact ⟨kept.1, kept.2.trans suffix⟩
  · intro start finish answer laidStart step
    rw [StateT.run_bind, peek_run, ok_bind] at step
    split at step
    · simp only [run_bind_succeeds_iff, run_pure_succeeds_iff] at step
      obtain ⟨list, _, ranList, rfl, rfl⟩ := step
      obtain ⟨⟨_, stand⟩, suffixList⟩ := arguments_yields source parse goesBack start _ list
        laidStart ranList
      refine ⟨fun larger same => ?_, suffixList⟩
      cases same
      exact call_reads source value list before.rest readsValue stand
    · rw [StateT.run_bind, take_run, ok_bind] at step
      simp only [run_bind_succeeds_iff, expect_name_succeeds_iff, run_pure_succeeds_iff] at step
      obtain ⟨member, _, ⟨_, rfl, rfl⟩, rfl, rfl⟩ := step
      refine ⟨fun larger same => ?_, (past_suffix start.past).trans (past_suffix start)⟩
      cases same
      exact ⟨fun impossible => (by cases impossible),
        fun expr built => absurd built (member_denotes_nothing source _ expr)⟩
    · cases step
      exact ⟨fun _ impossible => (by cases impossible), List.suffix_refl _⟩

theorem powered_yields : Yields source (powered parse) fun before tree =>
    tree.Reads source 8 before := by
  intro before after tree laid run
  rw [powered, run_bind_succeeds_iff] at run
  obtain ⟨base, middle, ran, run⟩ := run
  obtain ⟨readsBase, suffix⟩ := postfixed_yields source parse goesBack before middle base laid ran
  have laidMiddle := laid_after source _ _ laid suffix
  rw [StateT.run_bind, take_if_run] at run
  split at run
  · rename_i isPower
    rw [ok_bind] at run
    simp only [run_bind_succeeds_iff, run_pure_succeeds_iff] at run
    obtain ⟨exponent, last, ranExponent, rfl, rfl⟩ := run
    have suffixExponent := (goesBack .signed middle.past _ exponent
      (laid_past source middle laidMiddle) ranExponent).2
    refine ⟨⟨nofun, fun expr built => ?_⟩,
      suffixExponent.trans ((past_suffix middle).trans suffix)⟩
    obtain ⟨_, op, _, _, builtOp, _⟩ := (of_binary_succeeds_iff source _ _ _ expr).mp built
    have fits := spelled_sign_fits source 0 middle [] laidMiddle "**" (by rw [isPower]; rfl)
      (by decide +kernel) op builtOp
    cases op <;> exact absurd fits.1 (by decide)
  · cases run
    exact ⟨readsBase.loosen 8 (by omega) (Or.inl (by omega)), suffix⟩

theorem signed_yields : Yields source (signed parse) fun before tree =>
    tree.Reads source 7 before := by
  intro before after tree laid run
  rw [signed, StateT.run_bind, operator_among_run] at run
  split at run
  · rename_i member
    rw [ok_bind] at run
    simp only [run_bind_succeeds_iff, run_pure_succeeds_iff] at run
    obtain ⟨operand, last, ran, rfl, rfl⟩ := run
    obtain ⟨readsOperand, suffix⟩ := goesBack .signed before.past _ operand
      (laid_past source before laid) ran
    refine ⟨⟨nofun, fun expr built => ?_⟩, suffix.trans (past_suffix before)⟩
    obtain ⟨op, inner, builtOp, builtInner, rfl⟩ := (of_unary_succeeds_iff source _ _ expr).mp built
    have readInner := readsOperand.reads inner builtInner
    have known := ((unary_op_of_tree_succeeds_iff source _ op).mp builtOp).2
    have going : before.next.kind ≠ .endOfFile := by
      intro isEnd
      rw [isEnd] at member
      cases member with
      | tail _ member => cases member with
        | tail _ member => cases member
    have sound := next_sound source before laid going
    rw [text_of_leaf source .operator _ sound] at known
    simp only [List.mem_cons, List.not_mem_nil, or_false] at member
    -- A plus is read by the parser but denotes no operator of programs.
    rcases member with isPlus | isMinus
    · rw [sound.spells.spelled "+" (by rw [isPlus]; rfl)] at known
      cases op <;> exact absurd known (by decide)
    · rw [sound.spells.spelled "-" (by rw [isMinus]; rfl)] at known
      cases op with
      | not => exact absurd known (by decide)
      | neg =>
          exact ⟨⟨readInner.tight, readInner.readable⟩, ⟨rfl, readInner.unannotated⟩,
            Nat.le_refl 7, fun impossible => by cases impossible⟩
  · rw [ok_bind] at run
    obtain ⟨reads, suffix⟩ := powered_yields source parse goesBack before after tree laid run
    exact ⟨reads.loosen 7 (by omega) (Or.inl (by omega)), suffix⟩

theorem product_yields : Yields source (product parse) fun before tree =>
    tree.Reads source 6 before := by
  apply chain_yields source 6
  · intro before after sign laid run
    exact operator_among_fits source 6 _ (by decide +kernel) before after sign laid run
  · exact operator_among_leaves _
  · exact signed_yields source parse goesBack
  · exact Or.inl (by omega)

theorem sum_yields : Yields source (sum parse) fun before tree => tree.Reads source 5 before := by
  apply chain_yields source 5
  · intro before after sign laid run
    exact operator_among_fits source 5 _ (by decide +kernel) before after sign laid run
  · exact operator_among_leaves _
  · exact product_yields source parse goesBack
  · exact Or.inl (by omega)

theorem comparison_yields : Yields source (comparison parse) fun before tree =>
    tree.Reads source 4 before := by
  apply chain_yields source 4
  · exact comparison_operator_fits source
  · exact comparison_operator_leaves
  · exact sum_yields source parse goesBack
  · exact Or.inl (by omega)

theorem negation_yields : Yields source (negation parse) fun before tree =>
    tree.Reads source 3 before := by
  intro before after tree laid run
  rw [negation, StateT.run_bind, operator_word_run] at run
  split at run
  · rename_i isNot
    rw [ok_bind] at run
    simp only [run_bind_succeeds_iff, run_pure_succeeds_iff] at run
    obtain ⟨operand, last, ran, rfl, rfl⟩ := run
    obtain ⟨readsOperand, suffix⟩ := goesBack .negation before.past _ operand
      (laid_past source before laid) ran
    refine ⟨⟨nofun, fun expr built => ?_⟩, suffix.trans (past_suffix before)⟩
    obtain ⟨op, inner, builtOp, builtInner, rfl⟩ := (of_unary_succeeds_iff source _ _ expr).mp built
    have readInner := readsOperand.reads inner builtInner
    have stands := readsOperand.stands (by decide) inner builtInner
    have known := ((unary_op_of_tree_succeeds_iff source _ op).mp builtOp).2
    have sound := next_sound source before laid (by rw [isNot.1]; decide)
    rw [text_of_leaf source .operator _ sound, isNot.2] at known
    cases op with
    | neg => exact absurd known (by decide)
    | not =>
        exact ⟨⟨readInner.tight, stands.1⟩, ⟨rfl, stands.2⟩, Nat.le_refl 3,
          fun impossible => by cases impossible⟩
  · rename_i notNot
    rw [ok_bind] at run
    obtain ⟨reads, suffix⟩ := comparison_yields source parse goesBack before after tree laid run
    refine ⟨⟨reads.notBody, fun expr built => ?_⟩, suffix⟩
    have read := reads.reads expr built
    refine ⟨read.readable, read.unannotated, Nat.le_trans (by omega) read.tight, ?_⟩
    intro leading
    exact absurd ((starts_with_not_iff before).mp (read.leading leading).2) notNot

theorem conjunction_yields : Yields source (conjunction parse) fun before tree =>
    tree.Reads source 2 before := by
  apply chain_yields source 2
  · exact operator_word_fits source 2 "and" (by decide +kernel)
  · exact operator_word_leaves "and"
  · exact negation_yields source parse goesBack
  · exact Or.inr (by omega)

theorem disjunction_yields : Yields source (disjunction parse) fun before tree =>
    tree.Reads source 1 before := by
  apply chain_yields source 1
  · exact operator_word_fits source 1 "or" (by decide +kernel)
  · exact operator_word_leaves "or"
  · exact conjunction_yields source parse goesBack
  · exact Or.inr (by omega)

end Levels

theorem expression_up_to_yields (depth : Nat) (level : Level) :
    Yields source (expressionUpTo depth level) fun before tree =>
      tree.Reads source level.number before := by
  induction depth generalizing level with
  | zero =>
      intro before after tree _ run
      exact absurd run (unexpected_fails _ _ _ _)
  | succ depth induction =>
      cases level with
      | expression => exact disjunction_yields source _ induction
      | negation => exact negation_yields source _ induction
      | signed => exact signed_yields source _ induction

theorem expression_yields : Yields source expression fun before tree =>
    tree.Reads source 1 before := by
  intro before after tree laid run
  rw [expression, StateT.run_bind, remaining_run, ok_bind] at run
  exact expression_up_to_yields source _ .expression before after tree laid run

end Parser

end ScriptWasm
