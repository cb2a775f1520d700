import ScriptWasm.Proofs.Tree.Extents
import ScriptWasm.Proofs.Tree.Layers

/-!
Trees of sources keep every token. Each parser of statements answers trees that are written on the
lexemes it took, apart from newlines, indents and dedents, and a script is read to the end of its
file.
-/

namespace ScriptWasm

set_option autoImplicit false

def Lexeme.isContent (lexeme : Lexeme) : Bool :=
  lexeme.kind ∉ leaflessKinds

/-- Trees on lexemes among which the layout may stand. -/
structure LaidOut (trees : List Tree) (taken : List Lexeme) : Prop where
  written : Written trees (taken.filter Lexeme.isContent)
  known : ∀ lexeme ∈ taken, lexeme.kind ≠ .endOfFile ∧ lexeme.kind ≠ .error

namespace LaidOut

theorem nil : LaidOut [] [] :=
  ⟨.nil, List.forall_mem_nil _⟩

theorem of_written {trees : List Tree} {taken : List Lexeme} (written : Written trees taken) :
    LaidOut trees taken := by
  have content := written.covered.kinds
  have all : taken.filter Lexeme.isContent = taken :=
    List.filter_eq_self.mpr fun lexeme member => decide_eq_true (content lexeme member)
  refine ⟨by rwa [all], fun lexeme member => ⟨fun isEnd => ?_, fun isError => ?_⟩⟩
  · exact content lexeme member (by rw [isEnd]; decide)
  · exact content lexeme member (by rw [isError]; decide)

theorem of_layout (lexeme : Lexeme) (isLayout : lexeme.kind ∈ [.newline, .indent, .dedent]) :
    LaidOut [] [lexeme] := by
  have known : ∀ kind ∈ [TokenKind.newline, .indent, .dedent],
      kind ∈ leaflessKinds ∧ kind ≠ .endOfFile ∧ kind ≠ .error := by decide
  obtain ⟨leafless, others⟩ := known _ isLayout
  refine ⟨?_, fun other member => ?_⟩
  · rw [List.filter_cons_of_neg (by simpa [Lexeme.isContent] using leafless)]
    exact .nil
  · rw [List.mem_singleton.mp member]
    exact others

theorem append {trees others : List Tree} {taken more : List Lexeme} (first : LaidOut trees taken)
    (second : LaidOut others more) : LaidOut (trees ++ others) (taken ++ more) := by
  refine ⟨by rw [List.filter_append]; exact first.written.append second.written, ?_⟩
  intro lexeme member
  rcases List.mem_append.mp member with here | there
  · exact first.known lexeme here
  · exact second.known lexeme there

theorem branch {first : Tree} {rest : List Tree} {taken : List Lexeme} (kind : NodeKind)
    (parts : LaidOut (first :: rest) taken) : LaidOut [.branch kind (first :: rest)] taken :=
  ⟨parts.written.branch kind, parts.known⟩

theorem leaf (kind : NodeKind) (lexeme : Lexeme) (isLeaf : lexeme.kind.leafKind? = some kind) :
    LaidOut [.leaf kind lexeme.span] [lexeme] :=
  of_written (.leaf kind lexeme isLeaf)

theorem taken_filled {first : Tree} {rest : List Tree} {taken : List Lexeme}
    (laid : LaidOut (first :: rest) taken) : taken ≠ [] := by
  rintro rfl
  have covered := laid.written.covered
  obtain ⟨leaf, leaves, start⟩ := first.leaves_start
  rw [Tree.leaves_of_more, start, List.cons_append, List.filter_nil] at covered
  generalize leaves ++ Tree.leavesOfAll rest = others at covered
  cases covered

end LaidOut

namespace Parser

section Combinators

variable {First Second : Type}

def TakesAt (kind : TokenKind) (parser : Parser First) (good : First → List Lexeme → Prop) : Prop :=
  ∀ before after result, before.next.kind = kind → parser.run before = .ok (result, after) →
    ∃ taken, before.rest = taken ++ after.rest ∧ good result taken

variable (first : Parser First) (next : First → Parser Second)
variable {fits : First → List Lexeme → Prop} {good : Second → List Lexeme → Prop}

theorem takes_at_bind (kind : TokenKind) (firsts : TakesAt kind first fits)
    (nexts : ∀ result taken, fits result taken →
      Takes (next result) fun answer more => good answer (taken ++ more)) :
    TakesAt kind (first >>= next) good := by
  intro before after answer isKind run
  obtain ⟨result, middle, ran, run⟩ := (run_bind_succeeds_iff _ _ _ _ _).mp run
  obtain ⟨taken, split, fit⟩ := firsts before middle result isKind ran
  obtain ⟨more, splitMore, holds⟩ := nexts result taken fit middle after answer run
  exact ⟨taken ++ more, by rw [split, splitMore, List.append_assoc], holds⟩

theorem takes_bind (firsts : Takes first fits)
    (nexts : ∀ result taken, fits result taken →
      Takes (next result) fun answer more => good answer (taken ++ more)) :
    Takes (first >>= next) good :=
  fun before after answer run =>
    takes_at_bind first next before.next.kind
      (fun start stop result _ ran => firsts start stop result ran) nexts before after answer rfl
      run

omit first next in
theorem takes_pure (result : Second) (holds : good result []) : Takes (pure result) good := by
  intro before after answer run
  cases run
  exact ⟨[], rfl, holds⟩

theorem takes_last (result : First → Second) (firsts : Takes first fits)
    (holds : ∀ value taken, fits value taken → good (result value) taken) :
    Takes (do return result (← first)) good := by
  refine takes_bind _ _ firsts fun value taken fit => takes_pure _ ?_
  rw [List.append_nil]
  exact holds value taken fit

omit fits in
theorem takes_never (never : ∀ before after result, first.run before ≠ .ok (result, after)) :
    Takes (first >>= next) good := by
  intro before after answer run
  obtain ⟨result, middle, ran, _⟩ := (run_bind_succeeds_iff _ _ _ _ _).mp run
  exact absurd ran (never before middle result)

omit first in
theorem takes_peek (choice : Lexeme → Parser Second)
    (choices : ∀ lexeme, TakesAt lexeme.kind (choice lexeme) good) :
    Takes (peek >>= choice) good := by
  intro before after answer run
  rw [StateT.run_bind, peek_run, ok_bind] at run
  exact choices before.next before after answer rfl run

omit first in
theorem takes_remaining (choice : Nat → Parser Second)
    (choices : ∀ count, Takes (choice count) good) : Takes (remaining >>= choice) good := by
  intro before after answer run
  rw [StateT.run_bind, remaining_run, ok_bind] at run
  exact choices _ before after answer run

omit first next in
theorem takes_at_of_takes (kind : TokenKind) (parser : Parser Second) (takes : Takes parser good) :
    TakesAt kind parser good :=
  fun before after result _ run => takes before after result run

end Combinators

section Tokens

theorem take_takes (kind : TokenKind) (node : NodeKind) (isLeaf : kind.leafKind? = some node) :
    TakesAt kind (take node) fun tree taken => LaidOut [tree] taken := by
  intro before after tree isKind run
  rw [take_run] at run
  cases run
  have going : kind ≠ .endOfFile := by
    rintro rfl
    cases isLeaf
  exact ⟨[before.next], takes_next before kind isKind going, .leaf node _ (by rw [isKind, isLeaf])⟩

theorem advance_takes (kind : TokenKind) (isLayout : kind ∈ [.newline, .indent, .dedent]) :
    TakesAt kind advance fun _ taken => LaidOut [] taken := by
  intro before after answer isKind run
  rw [advance_run] at run
  cases run
  have going : kind ≠ .endOfFile := by
    rintro rfl
    exact absurd isLayout (by decide)
  exact ⟨[before.next], takes_next before kind isKind going, .of_layout _ (by rwa [isKind])⟩

theorem expect_takes (kind : TokenKind) (node : NodeKind) (isLeaf : kind.leafKind? = some node) :
    Takes (expect kind node) fun tree taken => LaidOut [tree] taken := by
  intro before after tree run
  obtain ⟨isKind, rfl, rfl⟩ := (expect_succeeds_iff _ _ _ _ _).mp run
  exact take_takes kind node isLeaf before _ _ isKind (take_run node before)

theorem expect_name_takes : Takes expectName fun tree taken => Written [tree] taken := by
  intro before after tree run
  obtain ⟨isName, rfl, rfl⟩ := (expect_name_succeeds_iff _ _ _).mp run
  exact ⟨[before.next], takes_next before .name isName (by decide),
    .leaf .variableName before.next (by rw [isName]; rfl)⟩

theorem take_if_takes (kind : TokenKind) (node : NodeKind) (isLeaf : kind.leafKind? = some node) :
    Takes (takeIf kind node) fun answer taken => LaidOut answer.toList taken := by
  intro before after answer run
  rw [take_if_run] at run
  split at run
  · rename_i isKind
    cases run
    exact take_takes kind node isLeaf before _ _ isKind (take_run node before)
  · cases run
    exact ⟨[], rfl, .nil⟩

theorem skip_newlines_takes : Takes skipNewlines fun _ taken => LaidOut [] taken := by
  intro before after answer run
  obtain ⟨last, skipped⟩ := skip_newlines_rest before
  rw [skipped] at run
  cases run
  refine ⟨before.rest.takeWhile (·.kind = .newline), List.takeWhile_append_dropWhile.symm, ?_⟩
  have newlines : ∀ lexeme ∈ before.rest.takeWhile (·.kind = .newline), lexeme.kind = .newline :=
    fun lexeme member => by simpa using List.mem_takeWhile_imp member
  generalize before.rest.takeWhile (·.kind = .newline) = taken at newlines
  induction taken with
  | nil => exact .nil
  | cons lexeme rest induction =>
      have first := LaidOut.of_layout lexeme (by rw [newlines lexeme (by simp)]; decide)
      exact first.append (induction fun other member => newlines other (by simp [member]))

end Tokens

section Pieces

theorem end_of_statement_takes : Takes endOfStatement fun _ taken => LaidOut [] taken := by
  refine takes_peek _ fun lexeme => ?_
  split
  · rename_i isNewline
    rw [isNewline]
    exact advance_takes .newline (by decide)
  · exact takes_at_of_takes _ _ (takes_pure _ .nil)
  · exact takes_at_of_takes _ _ (takes_pure _ .nil)
  · exact takes_at_of_takes _ _ fun before after result run =>
      absurd run (unexpected_fails _ before after result)

theorem expression_laid_out : Takes expression fun tree taken => LaidOut [tree] taken := by
  intro before after tree run
  obtain ⟨taken, split, whole⟩ := expression_takes before after tree run
  exact ⟨taken, split, .of_written (grammar_written whole)⟩

/-- A type after its mark. An arrow is an operator, and a colon is none. -/
theorem type_after_takes (mark : TokenKind) (known : mark = .colon ∨ mark = .arrow) :
    Takes (typeAfter mark) fun tree taken => Written [tree] taken := by
  intro before after tree run
  rw [typeAfter, run_bind_succeeds_iff] at run
  simp only [expect_succeeds_iff] at run
  obtain ⟨sign, _, ⟨isMark, rfl, rfl⟩, run⟩ := run
  rw [StateT.run_bind, peek_run, ok_bind] at run
  have going : mark ≠ .endOfFile := by rcases known with rfl | rfl <;> decide
  have typed : ∀ kind node, before.past.next.kind = kind → kind.leafKind? = some node →
      node ≠ .operator →
      (do return Tree.branch .typeDef [.leaf (if mark = .arrow then .operator else .punctuation)
          before.next.span, ← take node] : Parser Tree).run before.past = .ok (tree, after) →
      ∃ taken, before.rest = taken ++ after.rest ∧ Written [tree] taken := by
    intro kind node isKind isLeaf other ran
    rw [StateT.run_bind, take_run, ok_bind] at ran
    cases ran
    refine ⟨[before.next, before.past.next], ?_, .branch _ ?_⟩
    · have goingType : kind ≠ .endOfFile := by
        rintro rfl
        cases isLeaf
      rw [takes_next before mark isMark going, takes_next before.past kind isKind goingType]
      rfl
    · have written := Written.leaf node before.past.next (by rw [isKind, isLeaf])
      rcases known with rfl | rfl
      · exact (Written.leaf .punctuation before.next (by rw [isMark]; rfl)).append written
      · refine written.operator before.next (Or.inl (by rw [isMark]; decide)) ?_
        intro leaf leaves next more start _ isOperator
        rw [Tree.leaves_leaf] at start
        cases start
        exact absurd isOperator other
  split at run
  · rename_i isName
    exact typed .name .variableName isName rfl (by decide) run
  · rename_i isNone
    exact typed .noneWord .noneWord isNone rfl (by decide) run
  · exact absurd run (unexpected_fails _ _ _ _)

theorem type_if_takes (mark : TokenKind) (known : mark = .colon ∨ mark = .arrow) :
    Takes (typeIf mark) Written := by
  refine takes_peek _ fun lexeme => takes_at_of_takes _ _ ?_
  split
  · exact takes_last _ _ (type_after_takes mark known) fun tree taken written => written
  · exact takes_pure _ .nil

theorem repeated_collects (step : Parser (Option (List Tree)))
    (good : List Tree → List Lexeme → Prop) (none : good [] [])
    (append : ∀ {trees others taken more}, good trees taken → good others more →
      good (trees ++ others) (taken ++ more))
    (steps : Takes step fun answer taken => good (answer.getD []) taken) :
    Takes (repeated step) good := by
  have upTo : ∀ count, Takes (repeatUpTo step count) good := by
    intro count
    induction count with
    | zero => exact takes_pure _ none
    | succ count induction =>
        refine takes_bind _ _ steps fun answer taken first => ?_
        cases answer with
        | none => exact takes_pure _ (by rwa [List.append_nil])
        | some items => exact takes_last _ _ induction fun later more second => append first second
  exact takes_remaining _ fun count => upTo (count + 1)

theorem repeated_takes (step : Parser (Option (List Tree)))
    (steps : Takes step fun answer taken => LaidOut (answer.getD []) taken) :
    Takes (repeated step) LaidOut :=
  repeated_collects step LaidOut .nil LaidOut.append steps

theorem keyword_statement_takes (token : TokenKind) (kind : NodeKind)
    (isKeyword : token.leafKind? = some .keyword) :
    TakesAt token (keywordStatement kind) fun tree taken => LaidOut [tree] taken := by
  refine takes_at_bind _ _ token (take_takes token .keyword isKeyword) fun keyword taken laid => ?_
  exact takes_last _ _ end_of_statement_takes fun _ more ended => (laid.append ended).branch kind

theorem return_statement_takes :
    TakesAt .returnWord returnStatement fun tree taken => LaidOut [tree] taken := by
  refine takes_at_bind _ _ _ (take_takes .returnWord .keyword rfl) fun keyword taken laid => ?_
  have ends : ∀ (value : List Tree) (more : List Lexeme), LaidOut value more →
      Takes (do endOfStatement; return Tree.branch .returnStatement (keyword :: value))
        fun tree others => LaidOut [tree] (taken ++ (more ++ others)) := by
    intro value more laidValue
    refine takes_last _ _ end_of_statement_takes fun _ others ended => LaidOut.branch _ ?_
    simpa using laid.append (laidValue.append ended)
  refine takes_peek _ fun lexeme => takes_at_of_takes _ _ ?_
  split
  · exact ends [] [] .nil
  · exact ends [] [] .nil
  · exact ends [] [] .nil
  · exact takes_bind _ _ expression_laid_out fun value more laidValue => ends [value] more laidValue

theorem expression_or_assignment_takes :
    Takes expressionOrAssignment fun tree taken => LaidOut [tree] taken := by
  refine takes_bind _ _ expression_laid_out fun target taken laid => ?_
  refine takes_bind _ _ (type_if_takes .colon (Or.inl rfl)) fun declared more typed => ?_
  refine takes_bind _ _ (repeated_takes _ ?_) fun values others valued => ?_
  · refine takes_bind _ _ (take_if_takes .assign .assignOp rfl) fun sign first laidSign => ?_
    cases sign with
    | none => exact takes_pure _ (by rwa [List.append_nil])
    | some sign =>
        exact takes_last _ _ expression_laid_out fun value second laidValue =>
          laidSign.append laidValue
  · refine takes_last _ _ end_of_statement_takes fun _ last ended => LaidOut.branch _ ?_
    simpa using laid.append ((LaidOut.of_written typed).append (valued.append ended))

theorem parameters_takes : Takes parameters fun tree taken => LaidOut [tree] taken := by
  have item : Takes (do let name ← expectName; return name :: (← typeIf .colon)) Written := by
    refine takes_bind _ _ expect_name_takes fun name taken written => ?_
    exact takes_last _ _ (type_if_takes .colon (Or.inl rfl)) fun declared more typed =>
      written.append typed
  intro before after tree run
  obtain ⟨taken, split, opening, parts, inside, closing, entries, rfl, rfl, opens, closes, listed,
    fit⟩ := parenthesized_takes .paramList _ _ item before after tree run
  have written := (Written.comma_list listed fit).parenthesized opening closing opens closes
  exact ⟨_, split, .of_written (written.branch .paramList)⟩

theorem bases_take (depth : Nat) : Takes (arguments (expressionUpTo depth))
    fun tree taken => LaidOut [tree] taken := by
  intro before after tree run
  obtain ⟨taken, split, opening, parts, inside, closing, items, rfl, rfl, opens, closes, listed,
    whole⟩ := arguments_takes _ (expression_up_to_takes depth) before after tree run
  exact ⟨_, split, .of_written (.arguments opening closing opens closes listed fun item member =>
    grammar_written (whole item member))⟩

end Pieces

section Statements

variable (parse : Parser Tree) (parses : Takes parse fun tree taken => LaidOut [tree] taken)

include parses

theorem statements_until_take (ends : List TokenKind) :
    Takes (statementsUntil parse ends) LaidOut := by
  refine takes_bind _ _ skip_newlines_takes fun _ taken skipped => ?_
  intro before after trees run
  have steps := repeated_takes (do
    if ends.contains (← peek).kind then return none
    let statement ← parse
    skipNewlines
    return some [statement]) ?_ before after trees run
  · obtain ⟨more, split, laid⟩ := steps
    exact ⟨more, split, skipped.append laid⟩
  · refine takes_peek _ fun lexeme => takes_at_of_takes _ _ ?_
    split
    · exact takes_pure _ .nil
    · refine takes_bind _ _ parses fun statement more laid => ?_
      exact takes_last _ _ skip_newlines_takes fun _ others after => laid.append after

theorem block_takes : Takes (block parse) fun tree taken => LaidOut [tree] taken := by
  refine takes_bind _ _ (expect_takes .colon .punctuation rfl) fun colon taken laid => ?_
  refine takes_peek _ fun lexeme => ?_
  split
  · exact takes_at_of_takes _ _ (takes_never _ _ (unexpected_fails _))
  · rename_i isNewline
    rw [not_not.mp isNewline]
    refine takes_at_bind _ _ _ (advance_takes .newline (by decide)) fun _ line ended => ?_
    refine takes_peek _ fun lexeme => ?_
    split
    · refine takes_at_of_takes _ _ (takes_peek _ fun lexeme => takes_at_of_takes _ _ ?_)
      exact takes_never _ _ fun _ _ _ impossible => by cases impossible
    · rename_i isIndent
      rw [not_not.mp isIndent]
      refine takes_at_bind _ _ _ (advance_takes .indent (by decide)) fun _ indent deeper => ?_
      refine takes_bind _ _ (statements_until_take parse parses _) fun statements inside inner => ?_
      have body := laid.append (ended.append (deeper.append inner))
      refine takes_peek _ fun lexeme => ?_
      split
      · rename_i isDedent
        rw [isDedent]
        refine takes_at_bind _ _ _ (advance_takes .dedent (by decide)) fun _ dedent back => ?_
        refine takes_pure _ (LaidOut.branch _ ?_)
        simpa using body.append back
      · refine takes_at_of_takes _ _ (takes_pure _ (LaidOut.branch _ ?_))
        simpa using body

theorem guarded_takes : Takes (guarded parse) LaidOut := by
  refine takes_bind _ _ expression_laid_out fun test taken laid => ?_
  exact takes_last _ _ (block_takes parse parses) fun body more inner => laid.append inner

theorem if_statement_takes :
    TakesAt .ifWord (ifStatement parse) fun tree taken => LaidOut [tree] taken := by
  refine takes_at_bind _ _ _ (take_takes .ifWord .keyword rfl) fun keyword taken laid => ?_
  refine takes_bind _ _ (guarded_takes parse parses) fun first more laidFirst => ?_
  refine takes_bind _ _ (repeated_takes _ ?_) fun branches others laidOthers => ?_
  · refine takes_bind _ _ (take_if_takes .elifWord .keyword rfl) fun word first laidWord => ?_
    cases word with
    | none => exact takes_pure _ (by rwa [List.append_nil])
    | some word =>
        exact takes_last _ _ (guarded_takes parse parses) fun parts second laidParts =>
          laidWord.append laidParts
  · have parts := laid.append (laidFirst.append laidOthers)
    refine takes_bind _ _ (take_if_takes .elseWord .keyword rfl) fun word last laidWord => ?_
    cases word with
    | none =>
        refine takes_pure _ (LaidOut.branch _ ?_)
        simpa using parts.append laidWord
    | some word =>
        refine takes_last _ _ (block_takes parse parses) fun body inside inner =>
          LaidOut.branch _ ?_
        simpa using parts.append (laidWord.append inner)

theorem while_statement_takes :
    TakesAt .whileWord (whileStatement parse) fun tree taken => LaidOut [tree] taken := by
  refine takes_at_bind _ _ _ (take_takes .whileWord .keyword rfl) fun keyword taken laid => ?_
  exact takes_last _ _ (guarded_takes parse parses) fun parts more inner =>
    (laid.append inner).branch _

theorem function_definition_takes :
    TakesAt .defWord (functionDefinition parse) fun tree taken => LaidOut [tree] taken := by
  refine takes_at_bind _ _ _ (take_takes .defWord .keyword rfl) fun keyword taken laid => ?_
  refine takes_bind _ _ expect_name_takes fun name second named => ?_
  refine takes_bind _ _ parameters_takes fun params third listed => ?_
  refine takes_bind _ _ (type_if_takes .arrow (Or.inr rfl)) fun result fourth typed => ?_
  refine takes_last _ _ (block_takes parse parses) fun body last inner => LaidOut.branch _ ?_
  have header := listed.append ((LaidOut.of_written typed).append inner)
  simpa using laid.append ((LaidOut.of_written named).append header)

theorem class_definition_takes :
    TakesAt .classWord (classDefinition parse) fun tree taken => LaidOut [tree] taken := by
  refine takes_at_bind _ _ _ (take_takes .classWord .keyword rfl) fun keyword taken laid => ?_
  refine takes_bind _ _ expect_name_takes fun name second named => ?_
  have ends : ∀ (bases : List Tree) (third : List Lexeme), LaidOut bases third →
      Takes (do return Tree.branch .classDefinition (keyword :: name :: bases ++ [← block parse]))
        fun tree last => LaidOut [tree] (taken ++ (second ++ (third ++ last))) := by
    intro bases third listed
    refine takes_last _ _ (block_takes parse parses) fun body last inner => LaidOut.branch _ ?_
    simpa using laid.append ((LaidOut.of_written named).append (listed.append inner))
  refine takes_peek _ fun lexeme => takes_at_of_takes _ _ ?_
  split
  · refine takes_remaining _ fun depth => ?_
    exact takes_bind _ _ (bases_take depth) fun list third listed => ends [list] third listed
  · exact ends [] [] .nil

theorem statement_of_takes : Takes (statementOf parse) fun tree taken => LaidOut [tree] taken := by
  refine takes_peek _ fun lexeme => ?_
  split <;> rename_i isKind <;> try rw [isKind]
  · exact function_definition_takes parse parses
  · exact class_definition_takes parse parses
  · exact if_statement_takes parse parses
  · exact while_statement_takes parse parses
  · exact return_statement_takes
  · exact keyword_statement_takes .passWord .passStatement rfl
  · exact keyword_statement_takes .breakWord .breakStatement rfl
  · exact keyword_statement_takes .continueWord .continueStatement rfl
  · exact takes_at_of_takes _ _ expression_or_assignment_takes

end Statements

theorem statement_up_to_takes (depth : Nat) :
    Takes (statementUpTo depth) fun tree taken => LaidOut [tree] taken := by
  induction depth with
  | zero => exact fun before after tree run => absurd run (unexpected_fails _ before after tree)
  | succ depth induction => exact statement_of_takes _ induction

theorem statement_takes : Takes statement fun tree taken => LaidOut [tree] taken :=
  takes_remaining _ statement_up_to_takes

/-- A step that is repeated as long as lexemes are left goes on until it stops by itself. -/
theorem repeated_stops (step : Parser (Option (List Tree))) (stopped : TokenStream → Prop)
    (shrinks : ∀ before after items, step.run before = .ok (some items, after) →
      after.rest.length < before.rest.length)
    (stops : ∀ before after, step.run before = .ok (none, after) → stopped after)
    (before after : TokenStream) (trees : List Tree)
    (run : (repeated step).run before = .ok (trees, after)) : stopped after := by
  have upTo : ∀ count start trees, start.rest.length < count →
      (repeatUpTo step count).run start = .ok (trees, after) → stopped after := by
    intro count
    induction count with
    | zero => exact fun start trees few => absurd few (Nat.not_lt_zero _)
    | succ count induction =>
        intro start trees few ran
        rw [repeatUpTo, run_bind_succeeds_iff] at ran
        obtain ⟨answer, middle, ranStep, ran⟩ := ran
        cases answer with
        | none =>
            cases ran
            exact stops start _ ranStep
        | some items =>
            simp only [run_bind_succeeds_iff, run_pure_succeeds_iff] at ran
            obtain ⟨later, _, ranLater, _, rfl⟩ := ran
            have fewer := shrinks start middle items ranStep
            exact induction middle later (by omega) ranLater
  rw [repeated, StateT.run_bind, remaining_run, ok_bind] at run
  exact upTo _ before trees (Nat.lt_succ_self _) run

/-- A statement takes at least one lexeme. -/
theorem statement_step_shrinks (parse : Parser Tree)
    (parses : Takes parse fun tree taken => LaidOut [tree] taken) (ends : List TokenKind)
    (before after : TokenStream) (items : List Tree)
    (run : (do
      if ends.contains (← peek).kind then return none
      let statement ← parse
      skipNewlines
      return some [statement] : Parser (Option (List Tree))).run before = .ok (some items, after)) :
    after.rest.length < before.rest.length := by
  rw [StateT.run_bind, peek_run, ok_bind] at run
  split at run
  · cases run
  · obtain ⟨tree, line, ranTree, run⟩ := (run_bind_succeeds_iff _ _ _ _ _).mp run
    obtain ⟨_, _, skipped, run⟩ := (run_bind_succeeds_iff _ _ _ _ _).mp run
    cases run
    obtain ⟨taken, split, laid⟩ := parses before line tree ranTree
    obtain ⟨newlines, splitLine, _⟩ := skip_newlines_takes line after _ skipped
    have filled := List.length_pos_iff.mpr laid.taken_filled
    rw [split, splitLine, List.length_append, List.length_append]
    omega

theorem statements_until_stop (parse : Parser Tree)
    (parses : Takes parse fun tree taken => LaidOut [tree] taken) (ends : List TokenKind)
    (before after : TokenStream) (trees : List Tree)
    (run : (statementsUntil parse ends).run before = .ok (trees, after)) :
    after.next.kind ∈ ends := by
  rw [statementsUntil, run_bind_succeeds_iff] at run
  obtain ⟨_, middle, _, run⟩ := run
  refine repeated_stops _ (fun stream => stream.next.kind ∈ ends)
    (statement_step_shrinks parse parses ends) ?_ middle after trees run
  intro start stop ran
  rw [StateT.run_bind, peek_run, ok_bind] at ran
  split at ran
  · rename_i ended
    cases ran
    exact List.contains_iff_mem.mp ended
  · obtain ⟨tree, line, _, ran⟩ := (run_bind_succeeds_iff _ _ _ _ _).mp ran
    obtain ⟨_, _, _, ran⟩ := (run_bind_succeeds_iff _ _ _ _ _).mp ran
    cases ran

end Parser

section Sources

variable (source : List Char)

theorem tree_of_source_run (tree : Tree) (parsed : Tree.ofSource source = .ok tree) :
    ∃ members after, (Parser.statementsUntil Parser.statement [.endOfFile]).run
        ⟨(layoutTokens source).map (·.lexeme source), ⟨0, 0⟩⟩ = .ok (members, after) ∧
      tree = .node .script ⟨0, byteLength source⟩ members := by
  have mapped : Except.map Prod.fst ((Parser.script (byteLength source)).run
      ⟨(layoutTokens source).map (·.lexeme source), ⟨0, 0⟩⟩) = .ok tree := parsed
  cases ran : (Parser.script (byteLength source)).run
      ⟨(layoutTokens source).map (·.lexeme source), ⟨0, 0⟩⟩ with
  | error error =>
      rw [ran] at mapped
      cases mapped
  | ok found =>
      rcases found with ⟨other, after⟩
      rw [ran] at mapped
      cases mapped
      rw [Parser.script] at ran
      simp only [run_bind_succeeds_iff, run_pure_succeeds_iff] at ran
      obtain ⟨members, _, ranMembers, rfl, rfl⟩ := ran
      exact ⟨members, _, ranMembers, rfl⟩

/-- The statements of a script are written on all tokens of its source but the last. -/
theorem script_laid_out (tree : Tree) (parsed : Tree.ofSource source = .ok tree) :
    ∃ taken final, (layoutTokens source).map (·.lexeme source) = taken ++ [final] ∧
      final.kind = .endOfFile ∧ LaidOut tree.children taken := by
  obtain ⟨members, after, run, rfl⟩ := tree_of_source_run source tree parsed
  obtain ⟨taken, split, laid⟩ := Parser.statements_until_take _ Parser.statement_takes _ _ _ _ run
  have stopped := List.mem_singleton.mp
    (Parser.statements_until_stop _ Parser.statement_takes _ _ _ _ run)
  obtain ⟨before, final, whole, isEnd, going⟩ := layout_ends source .start
    ((rawTokens source).filter (·.kind ≠ .comment)) fun token member =>
      tokens_from_not_added 0 source .endOfFile (Or.inr (Or.inr rfl)) token
        (List.mem_of_mem_filter member)
  have parts : before.map (·.lexeme source) ++ [final.lexeme source] = taken ++ after.rest := by
    rw [← split, layoutTokens, whole, List.map_append, List.map_singleton]
  refine ⟨taken, final.lexeme source, ?_, isEnd, laid⟩
  change (layoutTokens source).map (·.lexeme source) = _ at split
  rcases List.append_eq_append_iff.mp parts with ⟨more, rfl, rest⟩ | ⟨more, inner, rest⟩
  · cases more with
    | nil => rw [split, ← parts]; simp
    | cons first others =>
        have same : final.lexeme source = first := (List.cons.inj rest).1
        have member : final.lexeme source ∈
            before.map (·.lexeme source) ++ first :: others := by simp [same]
        exact absurd isEnd (laid.known _ member).1
  · cases more with
    | nil => rw [split, rest, List.nil_append]
    | cons first others =>
        have next : after.next = first := by rw [TokenStream.next, rest]; rfl
        have member : first ∈ before.map (·.lexeme source) := by rw [inner]; simp
        obtain ⟨token, there, rfl⟩ := List.mem_map.mp member
        rw [next] at stopped
        exact absurd stopped (going token there)

/-- The raw tokens but newlines and comments are those that can be leaves, if none is an error. -/
theorem raw_leaves (sound : ∀ token ∈ rawTokens source, token.kind ≠ .error) :
    (rawTokens source).filter (fun token => token.kind ≠ .newline ∧ token.kind ≠ .comment) =
      ((rawTokens source).filter (·.kind ≠ .comment)).filter (·.kind ∉ leaflessKinds) := by
  rw [List.filter_filter]
  refine List.filter_congr fun token member => ?_
  have noError := sound token member
  by_cases newline : token.kind = .newline
  · simp [newline, leaflessKinds]
  · have content := raw_token_is_content source token member newline
    simp [leaflessKinds, newline, content.notIndent, content.notDedent, content.notEnd, noError]

theorem script_covers (tree : Tree) (parsed : Tree.ofSource source = .ok tree) :
    (∀ token, token ∈ rawTokens source ∨ token ∈ layoutTokens source → token.kind ≠ .error) ∧
    Written tree.children (((rawTokens source).filter fun token =>
      token.kind ≠ .newline ∧ token.kind ≠ .comment).map (·.lexeme source)) := by
  obtain ⟨taken, final, split, isEnd, laid⟩ := script_laid_out source tree parsed
  have layoutSound : ∀ token ∈ layoutTokens source, token.kind ≠ .error := by
    intro token member
    have placed : token.lexeme source ∈ taken ++ [final] := by
      rw [← split]
      exact List.mem_map_of_mem member
    rcases List.mem_append.mp placed with inside | last
    · exact (laid.known _ inside).2
    · intro isError
      rw [← List.mem_singleton.mp last] at isEnd
      exact absurd (isError.symm.trans isEnd) (by decide)
  have rawSound : ∀ token ∈ rawTokens source, token.kind ≠ .error := by
    intro token member isError
    have kept : token ∈ (rawTokens source).filter (·.kind ≠ .comment) :=
      List.mem_filter.mpr ⟨member, by rw [isError]; decide⟩
    have solid : token.kind ≠ .newline := by rw [isError]; decide
    exact layoutSound token (layout_keeps_tokens source .start _ token kept solid) isError
  have same : taken.filter Lexeme.isContent = ((layoutTokens source).filter
      (·.kind ∉ leaflessKinds)).map (·.lexeme source) := by
    have whole := congrArg (List.filter Lexeme.isContent) split
    have dropped : [final].filter Lexeme.isContent = [] := by
      rw [List.filter_eq_nil_iff]
      intro lexeme member
      rw [List.mem_singleton.mp member, Lexeme.isContent, isEnd]
      decide
    rw [List.filter_append, dropped, List.append_nil, List.filter_map] at whole
    exact whole.symm
  refine ⟨fun token member => member.elim (rawSound token) (layoutSound token), ?_⟩
  rw [raw_leaves source rawSound, ← layout_keeps_leaves source .start]
  have written := laid.written
  rwa [same] at written

theorem leaves_of_source (tree : Tree) (parsed : Tree.ofSource source = .ok tree) :
    InOrder ((Tree.leavesOfAll tree.children).map Tree.span) ∧
    ∀ leaf ∈ Tree.leavesOfAll tree.children, leaf.span.Within source := by
  obtain ⟨_, written⟩ := script_covers source tree parsed
  have covered := written.covered
  generalize kept : (rawTokens source).filter (fun token =>
    token.kind ≠ .newline ∧ token.kind ≠ .comment) = tokens at covered
  have fromRaw : tokens.Sublist (rawTokens source) := kept ▸ List.filter_sublist
  have ordered : InOrder ((tokens.map (·.lexeme source)).map Lexeme.span) := by
    rw [List.map_map]
    exact (raw_tokens_in_order source).sublist (fromRaw.map _)
  refine ⟨covered.in_order ordered, covered.within source ordered fun lexeme member => ?_⟩
  obtain ⟨token, there, rfl⟩ := List.mem_map.mp member
  exact raw_tokens_within source token (fromRaw.subset there)

/-- The tree of a source keeps every token: its leaves are the raw tokens but newlines and comments,
where the two words of an operator make one leaf. Nodes below the root reach from their first leaf
to their last, the parts of each node stand one after the other, and every node is a stretch of
whole characters. -/
theorem trees_keep_every_token (tree : Tree) (parsed : Tree.ofSource source = .ok tree) :
    Cover (Tree.leavesOfAll tree.children)
      (((rawTokens source).filter fun token =>
        token.kind ≠ .newline ∧ token.kind ≠ .comment).map (·.lexeme source)) ∧
    (∀ token, token ∈ rawTokens source ∨ token ∈ layoutTokens source → token.kind ≠ .error) ∧
    (∀ node ∈ Tree.nodesOfAll tree.children, node.ReachesLeaves) ∧
    (∀ node ∈ tree.nodes, InOrder (node.children.map Tree.span)) ∧
    ∀ node ∈ tree.nodes, node.span.Within source := by
  obtain ⟨sound, written⟩ := script_covers source tree parsed
  obtain ⟨ordered, placed⟩ := leaves_of_source source tree parsed
  obtain ⟨members, _, _, rfl⟩ := tree_of_source_run source tree parsed
  have below : ∀ node ∈ Tree.nodesOfAll members, node.Branched :=
    fun node member => Tree.branched_of_nodes members node written.branched member
  have inner : ∀ node ∈ Tree.nodesOfAll members, InOrder (node.leaves.map Tree.span) :=
    fun node member =>
      ordered.sublist ((Tree.leaves_of_nodes members node member).sublist.map Tree.span)
  refine ⟨written.covered, sound, fun node member => (below node member).reaches, ?_, ?_⟩
  · intro node member
    rw [Tree.nodes] at member
    rcases List.mem_cons.mp member with rfl | member
    · have reaches := fun part there => (written.branched part there).reaches
      exact Tree.in_order_of_leaves members reaches ordered
    · exact (below node member).parts_in_order (inner node member)
  · intro node member
    rw [Tree.nodes] at member
    rcases List.mem_cons.mp member with rfl | member
    · exact ⟨source, (slice_succeeds_iff _ _ _).mpr ⟨[], [], by simp, rfl, by simp [Tree.span]⟩⟩
    · exact Tree.within_of_leaves source node (below node member).reaches (inner node member)
        fun leaf there => placed leaf ((Tree.leaves_of_nodes members node member).subset there)

/-- A source with a comment, an empty line, a block that ends with the file, and an operator of two
words over a line break. -/
def wideSource : List Char :=
  "# π\n\nwhile x is not None: # x\n    f(a,\n      not b not\n in c,)".toList

theorem wide_source_is_kept : ∃ tree, Tree.ofSource wideSource = .ok tree ∧
    (∃ leaf ∈ Tree.leavesOfAll tree.children, leaf.span.textIn wideSource = "not\n in") ∧
    Cover (Tree.leavesOfAll tree.children)
      (((rawTokens wideSource).filter fun token =>
        token.kind ≠ .newline ∧ token.kind ≠ .comment).map (·.lexeme wideSource)) ∧
    (∀ node ∈ Tree.nodesOfAll tree.children, node.ReachesLeaves) ∧
    (∀ node ∈ tree.nodes, InOrder (node.children.map Tree.span)) ∧
    ∀ node ∈ tree.nodes, node.span.Within wideSource := by
  obtain ⟨tree, parsed⟩ := (is_ok_iff (Tree.ofSource wideSource)).mp (by decide +kernel)
  have wide : ((Tree.ofSource wideSource).toOption.any fun tree =>
      (Tree.leavesOfAll tree.children).any fun leaf =>
        leaf.span.textIn wideSource = "not\n in") = true := by
    decide +kernel
  rw [parsed] at wide
  obtain ⟨leaf, member, text⟩ := List.any_eq_true.mp wide
  obtain ⟨covered, _, reaches, ordered, within⟩ := trees_keep_every_token wideSource tree parsed
  exact ⟨tree, parsed, ⟨leaf, member, of_decide_eq_true text⟩, covered, reaches, ordered, within⟩

end Sources

end ScriptWasm
