import ScriptWasm.Proofs.Tree.Statements

/-!
What the parsers of statements read, and with them every program: a program that was read can be
written, and nothing in it is annotated.
-/

namespace ScriptWasm

set_option autoImplicit false

namespace Parser

variable (source : List Char)

theorem repeat_up_to_yields (step : Parser (Option (List Tree))) (good : Tree → Prop)
    (steps : Yields source step
      fun _ answer => ∀ items, answer = some items → ∀ item ∈ items, good item) (count : Nat) :
    Yields source (repeatUpTo step count) fun _ items => ∀ item ∈ items, good item := by
  induction count with
  | zero =>
      intro before after result _ run
      cases run
      exact ⟨fun _ impossible => (by cases impossible), List.suffix_refl _⟩
  | succ count induction =>
      intro before after result laid run
      rw [repeatUpTo, run_bind_succeeds_iff] at run
      obtain ⟨answer, middle, ran, run⟩ := run
      obtain ⟨kept, suffix⟩ := steps before middle answer laid ran
      cases answer with
      | none =>
          cases run
          exact ⟨fun _ impossible => (by cases impossible), suffix⟩
      | some items =>
          simp only [run_bind_succeeds_iff, run_pure_succeeds_iff] at run
          obtain ⟨later, last, ranLater, rfl, rfl⟩ := run
          obtain ⟨goodLater, suffixLater⟩ := induction middle _ later
            (laid_after source _ _ laid suffix) ranLater
          refine ⟨fun item member => ?_, suffixLater.trans suffix⟩
          rcases List.mem_append.mp member with here | there
          · exact kept items rfl item here
          · exact goodLater item there

theorem repeated_yields (step : Parser (Option (List Tree))) (good : Tree → Prop)
    (steps : Yields source step
      fun _ answer => ∀ items, answer = some items → ∀ item ∈ items, good item) :
    Yields source (repeated step) fun _ items => ∀ item ∈ items, good item := by
  intro before after result laid run
  rw [repeated, StateT.run_bind, remaining_run, ok_bind] at run
  exact repeat_up_to_yields source step good steps _ before after result laid run

theorem end_of_statement_yields : Yields source endOfStatement fun _ _ => True := by
  intro before after result _ run
  rw [endOfStatement, StateT.run_bind, peek_run, ok_bind] at run
  split at run
  · rw [advance_run] at run
    cases run
    exact ⟨trivial, past_suffix before⟩
  · cases run
    exact ⟨trivial, List.suffix_refl _⟩
  · cases run
    exact ⟨trivial, List.suffix_refl _⟩
  · exact absurd run (unexpected_fails _ _ _ _)

theorem type_after_yields (mark : TokenKind) :
    Yields source (typeAfter mark) fun _ tree => tree.kind = .typeDef := by
  intro before after tree _ run
  rw [typeAfter, run_bind_succeeds_iff] at run
  simp only [expect_succeeds_iff] at run
  obtain ⟨sign, _, ⟨_, rfl, rfl⟩, run⟩ := run
  rw [StateT.run_bind, peek_run, ok_bind] at run
  have suffixes := (past_suffix before.past).trans (past_suffix before)
  split at run
  · rw [StateT.run_bind, take_run, ok_bind] at run
    cases run
    exact ⟨rfl, suffixes⟩
  · rw [StateT.run_bind, take_run, ok_bind] at run
    cases run
    exact ⟨rfl, suffixes⟩
  · exact absurd run (unexpected_fails _ _ _ _)

theorem type_if_yields (mark : TokenKind) :
    Yields source (typeIf mark) fun _ trees => ∀ tree ∈ trees, tree.kind = .typeDef := by
  intro before after trees laid run
  rw [typeIf, StateT.run_bind, peek_run, ok_bind] at run
  split at run
  · simp only [run_bind_succeeds_iff, run_pure_succeeds_iff] at run
    obtain ⟨tree, middle, ran, rfl, rfl⟩ := run
    obtain ⟨isType, suffix⟩ := type_after_yields source mark before middle tree laid ran
    refine ⟨fun other member => ?_, suffix⟩
    rw [List.mem_singleton.mp member]
    exact isType
  · cases run
    exact ⟨fun _ impossible => (by cases impossible), List.suffix_refl _⟩

theorem stands_of_kind (tree : Tree) (other : tree.kind = .typeDef ∨ tree.kind = .assignOp ∨
    tree.kind = .keyword ∨ tree.kind = .body) : tree.Stands source := by
  rcases tree with ⟨kind, span, children⟩
  intro expr built
  rcases other with same | same | same | same <;> cases same <;> cases built

theorem expression_or_assignment_yields : Yields source expressionOrAssignment
    fun _ tree => tree.States source := by
  intro before after tree laid run
  rw [expressionOrAssignment, run_bind_succeeds_iff] at run
  obtain ⟨target, middle, ranTarget, run⟩ := run
  obtain ⟨readsTarget, suffixTarget⟩ := expression_yields source before middle target laid ranTarget
  have laidMiddle := laid_after source _ _ laid suffixTarget
  rw [run_bind_succeeds_iff] at run
  obtain ⟨declared, typed, ranDeclared, run⟩ := run
  obtain ⟨areTypes, suffixDeclared⟩ := type_if_yields source .colon middle typed declared laidMiddle
    ranDeclared
  have laidTyped := laid_after source _ _ laidMiddle suffixDeclared
  rw [run_bind_succeeds_iff] at run
  obtain ⟨values, valued, ranValues, run⟩ := run
  have kept := repeated_yields source _ (fun part => part.Stands source) ?_ typed valued values
    laidTyped ranValues
  · obtain ⟨standValues, suffixValues⟩ := kept
    simp only [run_bind_succeeds_iff, run_pure_succeeds_iff] at run
    obtain ⟨_, last, ended, rfl, rfl⟩ := run
    have suffixEnd := (end_of_statement_yields source valued _ _
      (laid_after source _ _ laidTyped suffixValues) ended).2
    refine ⟨?_, suffixEnd.trans (suffixValues.trans (suffixDeclared.trans suffixTarget))⟩
    have stand : ∀ part ∈ target :: declared ++ values, part.Stands source := by
      intro part member
      simp only [List.cons_append, List.mem_cons, List.mem_append] at member
      rcases member with rfl | member | member
      · exact readsTarget.stands (by omega)
      · exact stands_of_kind source part (Or.inl (areTypes part member))
      · exact standValues part member
    split
    · exact ⟨expr_of_tree_written source (.branch .expressionStatement _) stand, nofun, nofun,
        nofun⟩
    · exact ⟨assign_of_tree_written source (.branch .assignStatement _) stand,
        fun _ => variable_of_tree_readable source (.branch .assignStatement _) stand, nofun, nofun⟩
  · intro start finish answer laidStart step
    rw [StateT.run_bind, take_if_run] at step
    split at step
    · rw [ok_bind] at step
      simp only [run_bind_succeeds_iff, run_pure_succeeds_iff] at step
      obtain ⟨value, _, ran, rfl, rfl⟩ := step
      obtain ⟨readsValue, suffix⟩ := expression_yields source start.past _ value
        (laid_past source start laidStart) ran
      refine ⟨fun items same item member => ?_, suffix.trans (past_suffix start)⟩
      cases same
      simp only [List.mem_cons, List.not_mem_nil, or_false] at member
      rcases member with rfl | rfl
      · exact stands_of_kind source _ (Or.inr (Or.inl rfl))
      · exact readsValue.stands (by omega)
    · cases step
      exact ⟨fun _ impossible => (by cases impossible), List.suffix_refl _⟩

theorem keyword_statement_yields (kind : NodeKind)
    (isSimple : kind = .passStatement ∨ kind = .breakStatement ∨ kind = .continueStatement) :
    Yields source (keywordStatement kind) fun _ tree => tree.States source := by
  intro before after tree laid run
  rw [keywordStatement, StateT.run_bind, take_run, ok_bind] at run
  simp only [run_bind_succeeds_iff, run_pure_succeeds_iff] at run
  obtain ⟨_, _, ended, rfl, rfl⟩ := run
  have suffix := (end_of_statement_yields source before.past _ _ (laid_past source before laid)
    ended).2
  refine ⟨?_, suffix.trans (past_suffix before)⟩
  rcases isSimple with rfl | rfl | rfl
  · refine ⟨fun stmt built => ?_, nofun, nofun, nofun⟩
    cases built
    exact ⟨trivial, trivial⟩
  · exact ⟨fun stmt built => (by cases built), nofun, nofun, nofun⟩
  · exact ⟨fun stmt built => (by cases built), nofun, nofun, nofun⟩

theorem return_statement_yields : Yields source returnStatement
    fun _ tree => tree.States source := by
  intro before after tree laid run
  rw [returnStatement, StateT.run_bind, take_run, ok_bind, StateT.run_bind, peek_run, ok_bind] at run
  have laidPast := laid_past source before laid
  have states : ∀ value : List Tree, (∀ part ∈ value, part.Stands source) →
      (Tree.branch .returnStatement (.leaf .keyword before.next.span :: value)).States source := by
    intro value stand
    refine ⟨fun stmt built => return_of_tree_written source _ ?_ stmt built, nofun, nofun, nofun⟩
    intro part member
    rcases List.mem_cons.mp member with rfl | member
    · exact stands_of_kind source _ (Or.inr (Or.inr (Or.inl rfl)))
    · exact stand part member
  have bare : ∀ (value : List Tree) (start : TokenStream), (∀ part ∈ value, part.Stands source) →
      start.rest <:+ before.past.rest →
      (do
        endOfStatement
        return Tree.branch .returnStatement (.leaf .keyword before.next.span :: value) :
          Parser Tree).run start = .ok (tree, after) →
      tree.States source ∧ after.rest <:+ before.rest := by
    intro value start stand suffix ran
    simp only [run_bind_succeeds_iff, run_pure_succeeds_iff] at ran
    obtain ⟨_, _, ended, rfl, rfl⟩ := ran
    have suffixEnd := (end_of_statement_yields source start _ _
      (laid_after source _ _ laidPast suffix) ended).2
    exact ⟨states value stand, suffixEnd.trans (suffix.trans (past_suffix before))⟩
  split at run
  · exact bare [] before.past (fun _ impossible => by cases impossible) (List.suffix_refl _) run
  · exact bare [] before.past (fun _ impossible => by cases impossible) (List.suffix_refl _) run
  · exact bare [] before.past (fun _ impossible => by cases impossible) (List.suffix_refl _) run
  · rw [run_bind_succeeds_iff] at run
    obtain ⟨value, middle, ran, run⟩ := run
    obtain ⟨readsValue, suffix⟩ := expression_yields source before.past middle value laidPast ran
    refine bare [value] middle (fun part member => ?_) suffix run
    rw [List.mem_singleton.mp member]
    exact readsValue.stands (by omega)

theorem name_leaf_is_name (stream : TokenStream) (laid : Laid source stream.rest)
    (isName : stream.next.kind = .name) :
    IsName ((Tree.leaf .variableName stream.next.span).text source) :=
  ((name_reads source stream laid isName).reads _ (of_named_tree source _ rfl)).readable

theorem parameters_yields : Yields source parameters fun _ tree => tree.kind = .paramList ∧
    ∀ item ∈ tree.children, item.kind = .variableName → IsName (item.text source) := by
  apply parenthesized_yields
  · intro before after parts laid run
    rw [run_bind_succeeds_iff] at run
    simp only [expect_name_succeeds_iff, run_bind_succeeds_iff, run_pure_succeeds_iff] at run
    obtain ⟨name, _, ⟨isName, rfl, rfl⟩, types, _, ran, rfl, rfl⟩ := run
    obtain ⟨areTypes, suffix⟩ := type_if_yields source .colon before.past _ types
      (laid_past source before laid) ran
    refine ⟨fun part member named => ?_, suffix.trans (past_suffix before)⟩
    rcases List.mem_cons.mp member with rfl | member
    · exact name_leaf_is_name source before laid isName
    · rw [areTypes part member] at named
      cases named
  · intro span impossible
    cases impossible

section Statements

variable (parse : Parser Tree)
variable (parses : Yields source parse fun _ tree => tree.States source)

include parses

theorem statements_until_yields (ends : List TokenKind) :
    Yields source (statementsUntil parse ends) fun before trees =>
      (∀ tree ∈ trees, tree.States source) ∧
        ∀ next rest, before = next :: rest → next.kind ≠ .newline → next.kind ∉ ends →
          trees ≠ [] := by
  -- One step reads a statement and the newlines behind it, or nothing where the block ends.
  have steps : Yields source (do
      if ends.contains (← peek).kind then return none
      let statement ← parse
      skipNewlines
      return some [statement] : Parser (Option (List Tree))) fun _ answer =>
      ∀ items, answer = some items → ∀ item ∈ items, item.States source := by
    intro before after answer laid run
    rw [StateT.run_bind, peek_run, ok_bind] at run
    split at run
    · cases run
      exact ⟨fun _ impossible => (by cases impossible), List.suffix_refl _⟩
    · simp only [run_bind_succeeds_iff] at run
      obtain ⟨statement, middle, ran, _, last, skipped, same⟩ := run
      obtain ⟨states, suffix⟩ := parses before middle statement laid ran
      obtain ⟨span, skips⟩ := skip_newlines_rest middle
      rw [skips] at skipped
      cases skipped
      cases same
      refine ⟨fun items same item member => ?_, (List.dropWhile_suffix _).trans suffix⟩
      cases same
      rw [List.mem_singleton.mp member]
      exact states
  intro before after trees laid run
  obtain ⟨span, skips⟩ := skip_newlines_rest before
  rw [statementsUntil, StateT.run_bind, skips, ok_bind] at run
  have suffix : before.rest.dropWhile (·.kind = .newline) <:+ before.rest :=
    List.dropWhile_suffix _
  obtain ⟨states, suffixAfter⟩ := repeated_yields source _ (fun tree => tree.States source) steps
    ⟨_, span⟩ after trees (laid_after source _ _ laid suffix) run
  refine ⟨⟨states, ?_⟩, suffixAfter.trans suffix⟩
  -- Where content comes first the first step reads a statement, so there is one at least.
  intro next rest starts solid going
  have kept : before.rest.dropWhile (·.kind = .newline) = next :: rest := by
    rw [starts, List.dropWhile_cons_of_neg (by simpa using solid)]
  rw [kept, repeated, StateT.run_bind, remaining_run, ok_bind, repeatUpTo] at run
  simp only [StateT.run_bind, peek_run, ok_bind, TokenStream.next_cons] at run
  rw [if_neg (by simpa using going)] at run
  rw [bind_succeeds_iff] at run
  obtain ⟨⟨answer, middle⟩, ran, run⟩ := run
  rw [run_bind_succeeds_iff] at ran
  obtain ⟨statement, _, _, ran⟩ := ran
  rw [run_bind_succeeds_iff] at ran
  obtain ⟨_, _, _, same⟩ := ran
  cases same
  simp only [run_bind_succeeds_iff, run_pure_succeeds_iff] at run
  obtain ⟨later, _, _, rfl, _⟩ := run
  exact List.cons_ne_nil _ _

theorem block_yields : Yields source (block parse) fun _ tree => tree.Blocks source := by
  intro before after tree laid run
  rw [block, run_bind_succeeds_iff] at run
  simp only [expect_succeeds_iff] at run
  obtain ⟨colon, _, ⟨_, rfl, rfl⟩, run⟩ := run
  have laidColon := laid_past source before laid
  rw [StateT.run_bind, peek_run, ok_bind] at run
  split at run
  · rw [run_bind_succeeds_iff] at run
    obtain ⟨_, _, impossible, _⟩ := run
    exact absurd impossible (unexpected_fails _ _ _ _)
  · rw [StateT.run_bind, advance_run, ok_bind, StateT.run_bind, peek_run, ok_bind] at run
    have laidLine := laid_past source before.past laidColon
    split at run
    · rw [StateT.run_bind, peek_run, ok_bind, run_bind_succeeds_iff] at run
      obtain ⟨_, _, impossible, _⟩ := run
      cases impossible
    · rename_i isIndent
      have isIndent := not_not.mp isIndent
      rw [StateT.run_bind, advance_run, ok_bind, run_bind_succeeds_iff] at run
      obtain ⟨members, middle, ran, run⟩ := run
      have going : before.past.past.next.kind ≠ .endOfFile := by rw [isIndent]; decide
      have stream := before.past.past.rest_of_next going
      have laidIndent := laidLine
      rw [stream] at laidIndent
      obtain ⟨first, others, starts, content⟩ := laidIndent.2.1 isIndent
      obtain ⟨⟨states, filled⟩, suffix⟩ := statements_until_yields source parse parses
        [.dedent, .endOfFile] before.past.past.past middle members laidIndent.2.2 ran
      have notEmpty := filled first others starts content.notNewline
        (by simp [content.notDedent, content.notEnd])
      have suffixes := (past_suffix before.past.past).trans
        ((past_suffix before.past).trans (past_suffix before))
      rw [StateT.run_bind, peek_run, ok_bind] at run
      split at run
      · rw [StateT.run_bind, advance_run, ok_bind] at run
        cases run
        exact ⟨⟨rfl, _, members, rfl, notEmpty, states⟩,
          (past_suffix middle).trans (suffix.trans suffixes)⟩
      · cases run
        exact ⟨⟨rfl, _, members, rfl, notEmpty, states⟩, suffix.trans suffixes⟩

omit parses in
theorem word_guards (tree : Tree) (isWord : tree.kind = .keyword) : tree.Guards source where
  test := stands_of_kind source tree (Or.inr (Or.inr (Or.inl isWord)))
  block isBody := by
    rw [isWord] at isBody
    cases isBody

omit parses in
theorem block_guards (tree : Tree) (blocks : tree.Blocks source) : tree.Guards source where
  test := stands_of_kind source tree (Or.inr (Or.inr (Or.inr blocks.isBody)))
  block _ := blocks

theorem guarded_yields : Yields source (guarded parse) fun _ trees =>
    ∀ tree ∈ trees, tree.Guards source := by
  intro before after trees laid run
  rw [guarded] at run
  simp only [run_bind_succeeds_iff, run_pure_succeeds_iff] at run
  obtain ⟨test, middle, ranTest, body, _, ranBody, rfl, rfl⟩ := run
  obtain ⟨readsTest, suffixTest⟩ := expression_yields source before middle test laid ranTest
  obtain ⟨blocks, suffixBody⟩ := block_yields source parse parses middle _ body
    (laid_after source _ _ laid suffixTest) ranBody
  refine ⟨fun tree member => ?_, suffixBody.trans suffixTest⟩
  simp only [List.mem_cons, List.not_mem_nil, or_false] at member
  rcases member with rfl | rfl
  · exact ⟨readsTest.stands (by omega), fun isBody => absurd isBody readsTest.notBody⟩
  · exact block_guards source tree blocks

/-- The branches after the first one. -/
theorem others_yield : Yields source (repeated do
      match ← takeIf .elifWord .keyword with
      | none => return none
      | some elif => return some (elif :: (← guarded parse)))
    fun _ trees => ∀ tree ∈ trees, tree.Guards source := by
  apply repeated_yields
  intro before after answer laid run
  rw [StateT.run_bind, take_if_run] at run
  split at run
  · rw [ok_bind] at run
    simp only [run_bind_succeeds_iff, run_pure_succeeds_iff] at run
    obtain ⟨parts, _, ran, rfl, rfl⟩ := run
    obtain ⟨guards, suffix⟩ := guarded_yields source parse parses before.past _ parts
      (laid_past source before laid) ran
    refine ⟨fun items same item member => ?_, suffix.trans (past_suffix before)⟩
    cases same
    rcases List.mem_cons.mp member with rfl | member
    · exact word_guards source _ rfl
    · exact guards item member
  · cases run
    exact ⟨fun _ impossible => (by cases impossible), List.suffix_refl _⟩

omit parses in
theorem condition_states (span : Span) (keyword : Tree) (parts : List Tree)
    (guards : ∀ part ∈ parts, part.Guards source) :
    (Tree.node .ifStatement span (keyword :: parts)).States source where
  stmt stmt built := by
    rw [Stmt.ofTree] at built
    simp only [bind_succeeds_iff] at built
    obtain ⟨_, _, built⟩ := built
    exact cond_of_parts_written source keyword span parts guards stmt built
  var := nofun
  func := nofun
  «class» := nofun

theorem if_statement_yields : Yields source (ifStatement parse)
    fun _ tree => tree.States source := by
  intro before after tree laid run
  rw [ifStatement, StateT.run_bind, take_run, ok_bind, run_bind_succeeds_iff] at run
  have laidPast := laid_past source before laid
  obtain ⟨first, middle, ranFirst, run⟩ := run
  obtain ⟨guardsFirst, suffixFirst⟩ := guarded_yields source parse parses before.past middle first
    laidPast ranFirst
  have laidMiddle := laid_after source _ _ laidPast suffixFirst
  rw [run_bind_succeeds_iff] at run
  obtain ⟨others, branched, ranOthers, run⟩ := run
  obtain ⟨guardsOthers, suffixOthers⟩ := others_yield source parse parses middle branched others
    laidMiddle ranOthers
  have laidBranched := laid_after source _ _ laidMiddle suffixOthers
  have suffixes := suffixOthers.trans (suffixFirst.trans (past_suffix before))
  have states : ∀ last : List Tree, (∀ part ∈ last, part.Guards source) →
      (Tree.branch .ifStatement
        (.leaf .keyword before.next.span :: first ++ others ++ last)).States source := by
    intro last guardsLast
    apply condition_states
    intro part member
    rcases List.mem_append.mp member with member | member
    · rcases List.mem_append.mp member with member | member
      · exact guardsFirst part member
      · exact guardsOthers part member
    · exact guardsLast part member
  rw [StateT.run_bind, take_if_run] at run
  split at run
  · rw [ok_bind] at run
    simp only [run_bind_succeeds_iff, run_pure_succeeds_iff] at run
    obtain ⟨body, _, ranBody, _, _, ⟨rfl, rfl⟩, rfl, rfl⟩ := run
    obtain ⟨blocks, suffixBody⟩ := block_yields source parse parses branched.past _ body
      (laid_past source branched laidBranched) ranBody
    refine ⟨states _ (fun part member => ?_),
      suffixBody.trans ((past_suffix branched).trans suffixes)⟩
    simp only [List.mem_cons, List.not_mem_nil, or_false] at member
    rcases member with rfl | rfl
    · exact word_guards source _ rfl
    · exact block_guards source part blocks
  · cases run
    exact ⟨states [] (fun _ impossible => by cases impossible), suffixes⟩

theorem while_statement_yields : Yields source (whileStatement parse)
    fun _ tree => tree.States source := by
  intro before after tree laid run
  rw [whileStatement, StateT.run_bind, take_run, ok_bind] at run
  simp only [run_bind_succeeds_iff, run_pure_succeeds_iff] at run
  obtain ⟨parts, _, ran, rfl, rfl⟩ := run
  rw [guarded] at ran
  simp only [run_bind_succeeds_iff, run_pure_succeeds_iff] at ran
  have laidPast := laid_past source before laid
  obtain ⟨test, middle, ranTest, body, _, ranBody, rfl, rfl⟩ := ran
  obtain ⟨readsTest, suffixTest⟩ := expression_yields source before.past middle test laidPast ranTest
  obtain ⟨blocks, suffixBody⟩ := block_yields source parse parses middle _ body
    (laid_after source _ _ laidPast suffixTest) ranBody
  refine ⟨⟨fun stmt built => ?_, nofun, nofun, nofun⟩,
    suffixBody.trans (suffixTest.trans (past_suffix before))⟩
  unfold Tree.branch at built
  rw [Stmt.ofTree] at built
  simp only [bind_succeeds_iff, pure_succeeds_iff] at built
  obtain ⟨testExpr, builtTest, stmts, builtBody, _, _, rfl⟩ := built
  obtain ⟨whole, noted⟩ := readsTest.stands (by omega) testExpr builtTest
  obtain ⟨written, filled⟩ := block_of_tree_written source body (fun _ => blocks) stmts builtBody
  exact ⟨⟨whole, filled, written.readable⟩, noted, written.unannotated⟩

theorem function_definition_yields : Yields source (functionDefinition parse)
    fun _ tree => tree.States source := by
  intro before after tree laid run
  rw [functionDefinition, StateT.run_bind, take_run, ok_bind, run_bind_succeeds_iff] at run
  simp only [expect_name_succeeds_iff] at run
  have laidName := laid_past source before laid
  obtain ⟨name, _, ⟨isName, rfl, rfl⟩, run⟩ := run
  have laidPast := laid_past source before.past laidName
  simp only [run_bind_succeeds_iff, run_pure_succeeds_iff] at run
  obtain ⟨params, listed, ranParams, result, typed, ranResult, body, _, ranBody, rfl, rfl⟩ := run
  obtain ⟨⟨isList, areNames⟩, suffixParams⟩ := parameters_yields source before.past.past listed
    params laidPast ranParams
  have laidListed := laid_after source _ _ laidPast suffixParams
  obtain ⟨areTypes, suffixResult⟩ := type_if_yields source .arrow listed typed result laidListed
    ranResult
  obtain ⟨blocks, suffixBody⟩ := block_yields source parse parses typed _ body
    (laid_after source _ _ laidListed suffixResult) ranBody
  have suffixes := suffixBody.trans (suffixResult.trans (suffixParams.trans
    ((past_suffix before.past).trans (past_suffix before))))
  refine ⟨⟨fun stmt built => (by cases built), nofun, fun _ => ?_, nofun⟩, suffixes⟩
  have known : ∀ part ∈ Tree.leaf .keyword before.next.span ::
      Tree.leaf .variableName before.past.next.span :: params :: result ++ [body],
      part = .leaf .variableName before.past.next.span ∨ part = params ∨ part = body ∨
        (part.kind ≠ .variableName ∧ part.kind ≠ .paramList ∧ part.kind ≠ .body) := by
    intro part member
    simp only [List.cons_append, List.mem_cons, List.mem_append, List.not_mem_nil, or_false]
      at member
    rcases member with rfl | rfl | rfl | member | rfl
    · exact Or.inr (Or.inr (Or.inr ⟨nofun, nofun, nofun⟩))
    · exact Or.inl rfl
    · exact Or.inr (Or.inl rfl)
    · refine Or.inr (Or.inr (Or.inr ?_))
      rw [areTypes part member]
      decide
    · exact Or.inr (Or.inr (Or.inl rfl))
  apply function_of_tree_written source (.branch .functionDefinition _)
  · intro part member named
    rcases known part member with rfl | rfl | rfl | other
    · exact name_leaf_is_name source before.past laidName isName
    · rw [isList] at named
      cases named
    · rw [blocks.isBody] at named
      cases named
    · exact absurd named other.1
  · intro part member isParams item
    rcases known part member with rfl | rfl | rfl | other
    · cases isParams
    · exact areNames item
    · rw [blocks.isBody] at isParams
      cases isParams
    · exact absurd isParams other.2.1
  · intro part member isBody
    rcases known part member with rfl | rfl | rfl | other
    · cases isBody
    · rw [isList] at isBody
      cases isBody
    · exact blocks
    · exact absurd isBody other.2.2

theorem class_definition_yields : Yields source (classDefinition parse)
    fun _ tree => tree.States source := by
  intro before after tree laid run
  rw [classDefinition, StateT.run_bind, take_run, ok_bind, run_bind_succeeds_iff] at run
  simp only [expect_name_succeeds_iff] at run
  have laidName := laid_past source before laid
  obtain ⟨name, _, ⟨isName, rfl, rfl⟩, run⟩ := run
  have laidPast := laid_past source before.past laidName
  have suffixes := (past_suffix before.past).trans (past_suffix before)
  -- What is left to read is the same whether bases were listed or not.
  have built : ∀ (bases : List Tree) (start : TokenStream), (∀ base ∈ bases, base.kind = .argList) →
      start.rest <:+ before.past.past.rest →
      (do
        let body ← block parse
        return Tree.branch .classDefinition (.leaf .keyword before.next.span ::
          .leaf .variableName before.past.next.span :: bases ++ [body]) : Parser Tree).run start =
        .ok (tree, after) →
      tree.States source ∧ after.rest <:+ before.rest := by
    intro bases start areLists suffix ran
    simp only [run_bind_succeeds_iff, run_pure_succeeds_iff] at ran
    obtain ⟨body, _, ranBody, rfl, rfl⟩ := ran
    obtain ⟨blocks, suffixBody⟩ := block_yields source parse parses start _ body
      (laid_after source _ _ laidPast suffix) ranBody
    refine ⟨⟨fun stmt built => (by cases built), nofun, nofun, fun _ => ?_⟩,
      suffixBody.trans (suffix.trans suffixes)⟩
    apply class_of_tree_readable source (.branch .classDefinition _)
    · intro part member named
      change part ∈ Tree.leaf .keyword before.next.span ::
        Tree.leaf .variableName before.past.next.span :: bases ++ [body] at member
      simp only [List.cons_append, List.mem_cons, List.mem_append, List.not_mem_nil, or_false]
        at member
      rcases member with rfl | rfl | member | rfl
      · cases named
      · exact name_leaf_is_name source before.past laidName isName
      · rw [areLists part member] at named
        cases named
      · rw [blocks.isBody] at named
        cases named
    · intro part member isBody
      change part ∈ Tree.leaf .keyword before.next.span ::
        Tree.leaf .variableName before.past.next.span :: bases ++ [body] at member
      simp only [List.cons_append, List.mem_cons, List.mem_append, List.not_mem_nil, or_false]
        at member
      rcases member with rfl | rfl | member | rfl
      · cases isBody
      · cases isBody
      · rw [areLists part member] at isBody
        cases isBody
      · exact blocks
  rw [StateT.run_bind, peek_run, ok_bind] at run
  split at run
  · rw [StateT.run_bind, remaining_run, ok_bind] at run
    rw [run_bind_succeeds_iff] at run
    obtain ⟨list, middle, ranList, run⟩ := run
    obtain ⟨⟨isList, _⟩, suffixList⟩ := arguments_yields source _
      (expression_up_to_yields source _) before.past.past middle list laidPast ranList
    refine built [list] middle (fun base member => ?_) suffixList run
    rw [List.mem_singleton.mp member]
    exact isList
  · exact built [] _ (fun _ impossible => by cases impossible) (List.suffix_refl _) run

theorem statement_of_yields : Yields source (statementOf parse)
    fun _ tree => tree.States source := by
  intro before after tree laid run
  rw [statementOf, StateT.run_bind, peek_run, ok_bind] at run
  split at run
  · exact function_definition_yields source parse parses before after tree laid run
  · exact class_definition_yields source parse parses before after tree laid run
  · exact if_statement_yields source parse parses before after tree laid run
  · exact while_statement_yields source parse parses before after tree laid run
  · exact return_statement_yields source before after tree laid run
  · exact keyword_statement_yields source .passStatement (by simp) before after tree laid run
  · exact keyword_statement_yields source .breakStatement (by simp) before after tree laid run
  · exact keyword_statement_yields source .continueStatement (by simp) before after tree laid run
  · exact expression_or_assignment_yields source before after tree laid run

end Statements

theorem statement_up_to_yields (depth : Nat) : Yields source (statementUpTo depth)
    fun _ tree => tree.States source := by
  induction depth with
  | zero =>
      intro before after tree _ run
      exact absurd run (unexpected_fails _ _ _ _)
  | succ depth induction => exact statement_of_yields source _ induction

theorem statement_yields : Yields source statement fun _ tree => tree.States source := by
  intro before after tree laid run
  rw [statement, StateT.run_bind, remaining_run, ok_bind] at run
  exact statement_up_to_yields source _ before after tree laid run

end Parser

theorem Tree.of_source_states (source : List Char) (tree : Tree)
    (parsed : Tree.ofSource source = .ok tree) : ∀ part ∈ tree.children, part.States source := by
  have mapped : Except.map Prod.fst ((Parser.script (byteLength source)).run
      ⟨(layoutTokens source).map (·.lexeme source), ⟨0, 0⟩⟩) = .ok tree := parsed
  cases ran : (Parser.script (byteLength source)).run
      ⟨(layoutTokens source).map (·.lexeme source), ⟨0, 0⟩⟩ with
  | error error =>
      rw [ran] at mapped
      cases mapped
  | ok found =>
      rcases found with ⟨parsedTree, after⟩
      rw [ran] at mapped
      cases mapped
      rw [Parser.script, run_bind_succeeds_iff] at ran
      obtain ⟨members, last, ranMembers, finished⟩ := ran
      rw [run_pure_succeeds_iff] at finished
      rw [← finished.1]
      exact (Parser.statements_until_yields source Parser.statement
        (Parser.statement_yields source) [.endOfFile] _ last members (layout_tokens_laid source)
        ranMembers).1.1

structure Program.Written (program : Program) : Prop where
  readable : program.Readable
  unannotated : program.AllNotes Note.Unannotated

section Program

variable (source : List Char)

theorem Program.of_parts_written (parts : List Tree) (good : ∀ part ∈ parts, part.States source)
    (program : Program) (built : Program.ofParts source parts = .ok program) :
    program.Written := by
  induction parts generalizing program with
  | nil =>
      cases built
      exact ⟨⟨nofun, nofun, nofun, trivial⟩, nofun, trivial⟩
  | cons first rest induction =>
      have states := good first (by simp)
      have goodRest : ∀ part ∈ rest, part.States source :=
        fun part member => good part (by simp [member])
      unfold Program.ofParts at built
      split at built
      · rename_i isClass
        simp only [bind_succeeds_iff, pure_succeeds_iff] at built
        obtain ⟨definition, builtFirst, others, builtOthers, rfl⟩ := built
        obtain ⟨⟨classes, vars, funcs, stmts⟩, notes, noted⟩ := induction goodRest others builtOthers
        refine ⟨⟨?_, vars, funcs, stmts⟩, notes, noted⟩
        intro other member
        rcases List.mem_cons.mp member with rfl | member
        · exact states.class (defines_of_class first isClass) other builtFirst
        · exact classes other member
      · rename_i isVariable
        simp only [bind_succeeds_iff, pure_succeeds_iff] at built
        obtain ⟨var, builtFirst, others, builtOthers, rfl⟩ := built
        obtain ⟨⟨classes, vars, funcs, stmts⟩, notes, noted⟩ := induction goodRest others builtOthers
        refine ⟨⟨classes, ?_, funcs, stmts⟩, notes, noted⟩
        intro other member
        simp only [Program.vars, List.filterMap_cons, Def.var?, List.mem_cons] at member
        rcases member with rfl | member
        · exact states.var (assigns_of_variable first isVariable) other builtFirst
        · exact vars other member
      · rename_i isFunction
        simp only [bind_succeeds_iff, pure_succeeds_iff] at built
        obtain ⟨func, builtFirst, others, builtOthers, rfl⟩ := built
        obtain ⟨⟨classes, vars, funcs, stmts⟩, notes, noted⟩ := induction goodRest others builtOthers
        have written := states.func (defines_of_function first isFunction) func builtFirst
        have known : ∀ other ∈ Program.funcs ⟨.func func :: others.defs, others.stmts,
            others.classes⟩, other = func ∨ other ∈ others.funcs := by
          intro other member
          simpa [Program.funcs, List.filterMap_cons] using member
        refine ⟨⟨classes, vars, ?_, stmts⟩, ?_, noted⟩
        · intro other member
          rcases known other member with rfl | member
          · exact written.readable
          · exact funcs other member
        · intro other member
          rcases known other member with rfl | member
          · exact written.unannotated
          · exact notes other member
      · simp only [bind_succeeds_iff, pure_succeeds_iff] at built
        obtain ⟨stmts, builtStmts, rfl⟩ := built
        have written := (all_of_parts_written source false (first :: rest) good stmts builtStmts).1
        exact ⟨⟨nofun, nofun, nofun, written.readable⟩, nofun, written.unannotated⟩

end Program

/-- Every program that was read can be written, and carries no annotations. -/
theorem Program.of_source_written (source : List Char) (program : Program)
    (read : Program.ofSource source = .ok program) : program.Written := by
  unfold Program.ofSource at read
  split at read
  · rename_i tree parsed
    unfold Program.ofTree at read
    simp only [bind_succeeds_iff] at read
    obtain ⟨_, _, built⟩ := read
    exact Program.of_parts_written source tree.children (Tree.of_source_states source tree parsed)
      program built
  · cases read

end ScriptWasm
